import BrokerWire.FrameBuffer

/-!
# What encoders write

An encoder of the wire does the same wherever it starts: it writes its bytes behind those that are
there already, and at some point it may fail. An `Emission` is that behaviour as data, and
`Encoder.Emits` says that an encoder has it at every buffer.

Lengths and checksums are filled in at absolute positions of the buffer, so for them this is not
plain from the code. It holds because what is overwritten lies behind the bytes that were there
(`Encoder.Emits.delimited` and `Encoder.Emits.checksummed`); everything else is composition.
-/

namespace BrokerWire

/-- The bytes that an encoder writes, and the failure that stops it behind them, if one does. -/
structure Emission where
  /-- What is written. -/
  bytes : Bytes
  /-- Why no more is written. -/
  failure : Option WireError := none
  deriving DecidableEq, Repr

namespace Emission

/-- One emission and then another, which is not reached if the first one fails. -/
def andThen (o o' : Emission) : Emission :=
  match o.failure with
  | none => ⟨o.bytes ++ o'.bytes, o'.failure⟩
  | some _ => o

/-- The emissions for the members of a list, one after the other. -/
def each (f : α → Emission) : List α → Emission
  | [] => ⟨[], none⟩
  | a :: as => (f a).andThen (each f as)

/-- A body behind its length, which is filled in only if the body is complete. -/
def delimited (o : Emission) : Emission :=
  match o.failure with
  | none => ⟨BigEndian.ofInt32 (Int32.ofNat o.bytes.length) ++ o.bytes, none⟩
  | some e => ⟨List.replicate 4 0 ++ o.bytes, some e⟩

/-- A body behind its checksum, which is filled in only if the body is complete. -/
def checksummed (o : Emission) : Emission :=
  match o.failure with
  | none => ⟨Checksum.stored (Checksum.crc32 o.bytes) ++ o.bytes, none⟩
  | some e => ⟨List.replicate 4 0 ++ o.bytes, some e⟩

/-- A text behind its length, or nothing at all if the text is too long. -/
def string (text : Option String) : Emission :=
  let bytes := Utf8.encode (text.getD "")
  if bytes.length > Int16.maxValue.toNatClampNeg then
    ⟨[], some (.protocol (.stringTooLong bytes.length))⟩
  else if bytes.isEmpty then ⟨BigEndian.ofInt16 (-1), none⟩
  else ⟨BigEndian.ofInt16 (Int16.ofNat bytes.length) ++ bytes, none⟩

/-- A byte string behind its length, or nothing at all if it is too long. -/
def array : Option Bytes → Emission
  | none => ⟨BigEndian.ofInt32 (-1), none⟩
  | some bytes =>
    if bytes.length > Int32.maxValue.toNatClampNeg then
      ⟨[], some (.protocol (.arrayTooLong bytes.length))⟩
    else ⟨BigEndian.ofInt32 (Int32.ofNat bytes.length) ++ bytes, none⟩

/-- What becomes of a buffer. -/
def onto (o : Emission) (b : FrameBuffer) : EStateM.Result WireError FrameBuffer Unit :=
  match o.failure with
  | none => .ok () (b.append o.bytes)
  | some e => .error e (b.append o.bytes)

/-- An emission as a whole succeeds if its parts do. -/
theorem failure_andThen {o o' : Emission} :
    (o.andThen o').failure = none ↔ o.failure = none ∧ o'.failure = none := by
  unfold andThen
  split <;> simp_all

theorem bytes_andThen {o : Emission} (h : o.failure = none) (o' : Emission) :
    (o.andThen o').bytes = o.bytes ++ o'.bytes := by
  simp [andThen, h]

theorem failure_each {f : α → Emission} {as : List α} :
    (each f as).failure = none ↔ ∀ a ∈ as, (f a).failure = none := by
  induction as with
  | nil => simp [each]
  | cons a as ih => rw [each, failure_andThen, ih, List.forall_mem_cons]

/-- What is written for a list of which no member fails. -/
theorem bytes_each {f : α → Emission} {as : List α} (h : ∀ a ∈ as, (f a).failure = none) :
    (each f as).bytes = as.flatMap fun a => (f a).bytes := by
  induction as with
  | nil => rfl
  | cons a as ih =>
    obtain ⟨ha, has⟩ := List.forall_mem_cons.mp h
    rw [each, bytes_andThen ha, ih has, List.flatMap_cons]

theorem failure_delimited {o : Emission} : o.delimited.failure = none ↔ o.failure = none := by
  unfold delimited
  split <;> simp_all

theorem bytes_delimited {o : Emission} (h : o.failure = none) :
    o.delimited.bytes = BigEndian.ofInt32 (Int32.ofNat o.bytes.length) ++ o.bytes := by
  simp [delimited, h]

theorem failure_checksummed {o : Emission} : o.checksummed.failure = none ↔ o.failure = none := by
  unfold checksummed
  split <;> simp_all

theorem each_congr {f g : α → Emission} {as : List α} (h : ∀ a ∈ as, f a = g a) :
    each f as = each g as := by
  induction as with
  | nil => rfl
  | cons a as ih =>
    obtain ⟨ha, has⟩ := List.forall_mem_cons.mp h
    rw [each, each, ha, ih has]

/-- A list of which no member can fail. -/
theorem each_ok (f : α → Bytes) (as : List α) :
    each (fun a => ⟨f a, none⟩) as = ⟨as.flatMap f, none⟩ := by
  induction as with
  | nil => rfl
  | cons a as ih => rw [each, ih, List.flatMap_cons]; rfl

end Emission

namespace FrameBuffer

/-- A buffer is determined by its bytes. -/
theorem ext_toList {b b' : FrameBuffer} (h : b.toList = b'.toList) : b = b' := by
  cases b
  cases b'
  exact congrArg FrameBuffer.mk (Array.toList_inj.mp h)

theorem append_append (b : FrameBuffer) (x y : Bytes) :
    (b.append x).append y = b.append (x ++ y) :=
  ext_toList (by simp)

theorem append_nil (b : FrameBuffer) : b.append [] = b :=
  ext_toList (by simp)

/-- Overwriting bytes behind those that were there first. -/
theorem overwrite_append (b : FrameBuffer) {old new : Bytes} (h : new.length = old.length)
    (rest : Bytes) :
    (b.append (old ++ rest)).overwrite b.size new = b.append (new ++ rest) := by
  apply ext_toList
  rw [toList_overwrite _ _ _ (by simp [h])]
  have htake : (b.toList ++ (old ++ rest)).take b.size = b.toList :=
    List.take_left' (length_toList b)
  have hdrop : (b.toList ++ (old ++ rest)).drop (b.size + new.length) = rest := by
    rw [← List.append_assoc]
    exact List.drop_left' (by simp [h])
  rw [toList_append, toList_append, htake, hdrop, List.append_assoc]

end FrameBuffer

namespace Encoder

/-- At every buffer, the encoder does what the emission says. -/
def Emits (e : Encoder Unit) (o : Emission) : Prop :=
  ∀ b, e b = o.onto b

/-- What is in a buffer after an encoder has written to it, to its end or until it failed. -/
def after (e : Encoder Unit) (b : FrameBuffer) : FrameBuffer :=
  match e b with
  | .ok _ b' => b'
  | .error _ b' => b'

theorem Emits.after {e : Encoder Unit} {o : Emission} (h : e.Emits o) (b : FrameBuffer) :
    e.after b = b.append o.bytes := by
  unfold Encoder.after
  rw [h b, Emission.onto]
  cases o.failure <;> rfl

/-- What the encoder writes when it starts with nothing. -/
theorem Emits.encode {e : Encoder Unit} {o : Emission} (h : e.Emits o) :
    e.encode = match o.failure with
      | none => .ok o.bytes
      | some err => .error err := by
  unfold Encoder.encode EStateM.run
  rw [h, Emission.onto]
  cases o.failure <;> simp

/-- An encoder that succeeds with some bytes emits them. -/
theorem Emits.eq_of_encode {e : Encoder Unit} {o : Emission} (h : e.Emits o) {bytes : Bytes}
    (hbytes : e.encode = .ok bytes) : o = ⟨bytes, none⟩ := by
  rw [h.encode] at hbytes
  obtain ⟨written, failure⟩ := o
  cases failure with
  | none =>
    obtain rfl : written = bytes := Except.ok.inj hbytes
    rfl
  | some e => exact absurd hbytes (by simp)

/-! ### Composition -/

theorem emits_raw (bytes : Bytes) : (raw bytes).Emits ⟨bytes, none⟩ := fun _ => rfl

theorem emits_pure : (pure () : Encoder Unit).Emits ⟨[], none⟩ := fun b =>
  congrArg (EStateM.Result.ok ()) b.append_nil.symm

theorem emits_throw (e : WireError) : (throw e : Encoder Unit).Emits ⟨[], some e⟩ := fun b =>
  congrArg (EStateM.Result.error e) b.append_nil.symm

theorem Emits.bind {e e' : Encoder Unit} {o o' : Emission} (h : e.Emits o) (h' : e'.Emits o') :
    (e >>= fun _ => e').Emits (o.andThen o') := by
  intro b
  change EStateM.bind e (fun _ => e') b = _
  unfold EStateM.bind
  rw [h b]
  obtain ⟨bytes, failure⟩ := o
  cases failure with
  | some err => rfl
  | none =>
    change e' (b.append bytes) = _
    rw [h']
    obtain ⟨bytes', failure'⟩ := o'
    cases failure' <;> simp [Emission.onto, Emission.andThen, FrameBuffer.append_append]

theorem Emits.forM {f : α → Encoder Unit} {o : α → Emission} {as : List α}
    (h : ∀ a ∈ as, (f a).Emits (o a)) : (as.forM f).Emits (Emission.each o as) := by
  induction as with
  | nil => exact emits_pure
  | cons a as ih =>
    obtain ⟨ha, has⟩ := List.forall_mem_cons.mp h
    exact ha.bind (ih has)

/-- Reserving four bytes, writing on and filling the four bytes in. What is filled in may depend
on what has been written behind them and not on what stands in front. -/
theorem emits_patched {e : Encoder Unit} {o : Emission} (h : e.Emits o) (field : Bytes → Bytes)
    {patch : Nat → Encoder Unit}
    (hpatch : ∀ (b : FrameBuffer) (bytes : Bytes),
      patch b.size (b.append (List.replicate 4 0 ++ bytes)) =
        .ok () (b.append (field bytes ++ bytes))) :
    (placeholder >>= fun position => e >>= fun _ => patch position).Emits
      (match o.failure with
        | none => ⟨field o.bytes ++ o.bytes, none⟩
        | some err => ⟨List.replicate 4 0 ++ o.bytes, some err⟩) := by
  intro b
  -- the four bytes stand where the buffer ended, so `e` writes behind them
  change EStateM.bind e (fun _ => patch b.size) (b.append (List.replicate 4 0)) = _
  unfold EStateM.bind
  rw [h]
  obtain ⟨bytes, failure⟩ := o
  cases failure with
  | some err => simp [Emission.onto, FrameBuffer.append_append]
  | none =>
    simp only [Emission.onto, FrameBuffer.append_append]
    exact hpatch b bytes

/-- A body behind its length. -/
theorem Emits.delimited {e : Encoder Unit} {o : Emission} (h : e.Emits o) :
    (Encoder.delimited e).Emits o.delimited := by
  refine emits_patched h (fun bytes => BigEndian.ofInt32 (Int32.ofNat bytes.length))
    fun b bytes => ?_
  -- what has been written behind the four bytes is the body
  have hsize : (b.append (List.replicate 4 0 ++ bytes)).size - (b.size + 4) = bytes.length := by
    simp only [FrameBuffer.size_append, List.length_append, List.length_replicate]
    omega
  have hpatch : (b.append (List.replicate 4 0 ++ bytes)).patchLength b.size =
      b.append (BigEndian.ofInt32 (Int32.ofNat bytes.length) ++ bytes) := by
    rw [FrameBuffer.patchLength, FrameBuffer.placeholderSize, hsize]
    exact b.overwrite_append (by simp) bytes
  exact congrArg (EStateM.Result.ok ()) hpatch

/-- A body behind its checksum. -/
theorem Emits.checksummed {e : Encoder Unit} {o : Emission} (h : e.Emits o) :
    (Encoder.checksummed e).Emits o.checksummed := by
  refine emits_patched h (fun bytes => Checksum.stored (Checksum.crc32 bytes))
    fun b bytes => ?_
  have hsince : (b.append (List.replicate 4 0 ++ bytes)).since (b.size + 4) = bytes := by
    rw [FrameBuffer.toList_since, FrameBuffer.toList_append, ← List.append_assoc]
    exact List.drop_left' (by simp)
  have hpatch : (b.append (List.replicate 4 0 ++ bytes)).patchChecksum b.size =
      b.append (Checksum.stored (Checksum.crc32 bytes) ++ bytes) := by
    rw [FrameBuffer.patchChecksum, FrameBuffer.placeholderSize, hsince]
    exact b.overwrite_append (by simp) bytes
  exact congrArg (EStateM.Result.ok ()) hpatch

/-! ### Texts and byte strings -/

theorem emits_string (text : Option String) : (string text).Emits (Emission.string text) := by
  simp only [string, Emission.string]
  split
  · exact emits_throw _
  · split
    · exact emits_raw _
    · exact (emits_raw _).bind (emits_raw _)

theorem emits_bytes (bytes : Option Bytes) :
    (Encoder.bytes bytes).Emits (Emission.array bytes) := by
  cases bytes with
  | none => exact emits_raw _
  | some bytes =>
    simp only [Encoder.bytes, Emission.array]
    split
    · exact emits_throw _
    · exact (emits_raw _).bind (emits_raw _)

end Encoder

end BrokerWire
