import BrokerWire.Proofs.Reading

/-!
# Encoders and the decoders that read them back

`Encoder.ReadBack e d a` says that whenever `e` succeeds with few enough bytes for the length fields
of the wire, `d` reads those bytes as `a`. The relation is closed under what encoders are made of,
so that a whole frame is read back as soon as its parts are, in the same order.

Counts need an argument of their own: a count is written modulo `2 ^ 32`, and it is right because
every counted element takes at least one of the bytes, of which there are few enough
(`Encoder.ReadBack.counted`). That an element takes a byte is seen from its decoder, which fails
where there is nothing to read.
-/

namespace BrokerWire

namespace Encoder

/-- What an encoder does when it starts with nothing, as an emission. -/
def emission (e : Encoder Unit) : Emission :=
  match e .empty with
  | .ok _ b => ⟨b.toList, none⟩
  | .error err b => ⟨b.toList, some err⟩

theorem Emits.emission_eq {e : Encoder Unit} {o : Emission} (h : e.Emits o) : e.emission = o := by
  unfold emission
  rw [h .empty]
  obtain ⟨bytes, failure⟩ := o
  cases failure <;> simp [Emission.onto]

/-- What the encoder writes, if it succeeds and is not too long, the decoder reads as this value. -/
structure ReadBack (e : Encoder Unit) (d : Decoder α) (a : α) : Prop where
  /-- The encoder does the same at every buffer. -/
  emits : e.Emits e.emission
  /-- The decoder reads its bytes. -/
  reads : e.emission.failure = none → e.emission.bytes.length < lengthLimit →
    d.Reads e.emission.bytes a

theorem Emits.readBack {e : Encoder Unit} {o : Emission} (h : e.Emits o) {d : Decoder α} {a : α}
    (hreads : o.failure = none → o.bytes.length < lengthLimit → d.Reads o.bytes a) :
    e.ReadBack d a := by
  obtain rfl := h.emission_eq
  exact ⟨h, hreads⟩

/-- Bytes on their own. -/
theorem readBack_raw {d : Decoder α} {bytes : Bytes} {a : α} (h : d.Reads bytes a) :
    (raw bytes).ReadBack d a :=
  (emits_raw bytes).readBack fun _ _ => h

theorem ReadBack.bind {e e' : Encoder Unit} {d : Decoder α} {f : α → Decoder β} {a : α} {b : β}
    (h : e.ReadBack d a) (h' : e'.ReadBack (f a) b) :
    (e >>= fun _ => e').ReadBack (d >>= f) b := by
  refine (h.emits.bind h'.emits).readBack fun hok hlength => ?_
  obtain ⟨hok, hok'⟩ := Emission.failure_andThen.mp hok
  rw [Emission.bytes_andThen hok] at hlength ⊢
  rw [List.length_append] at hlength
  exact (h.reads hok (by omega)).bind (h'.reads hok' (by omega))

/-- Whatever the last step makes of a value without reading on. -/
theorem ReadBack.bind_pure {e : Encoder Unit} {d : Decoder α} {a : α} (h : e.ReadBack d a)
    (f : α → β) : e.ReadBack (d >>= fun a => pure (f a)) (f a) :=
  ⟨h.emits, fun hok hlength => (h.reads hok hlength).bind_pure f⟩

/-! ### Counted lists -/

/-- Elements that take up at least a byte each are no more than the bytes. -/
theorem length_le_length_flatMap {f : β → Bytes} {bs : List β} (h : ∀ b ∈ bs, 0 < (f b).length) :
    bs.length ≤ (bs.flatMap f).length := by
  induction bs with
  | nil => exact Nat.le_refl 0
  | cons b bs ih =>
    obtain ⟨hb, hbs⟩ := List.forall_mem_cons.mp h
    have := ih hbs
    rw [List.length_cons, List.flatMap_cons, List.length_append]
    omega

theorem sublist_flatMap (f : β → Bytes) {b : β} {bs : List β} (h : b ∈ bs) :
    (f b).Sublist (bs.flatMap f) := by
  rw [List.flatMap_def]
  exact List.sublist_flatten_of_mem (List.mem_map_of_mem h)

/-- Elements behind their number, if there is no element of no bytes. -/
theorem ReadBack.counted {number : Decoder Nat} {f : β → Encoder Unit} {item : Decoder α}
    {g : β → α} {bs : List β}
    (hnumber : ∀ n < lengthLimit, number.Reads (BigEndian.ofInt32 (Int32.ofNat n)) n)
    (h : ∀ b ∈ bs, (f b).ReadBack item (g b)) (hitem : ∀ a, ¬item.Reads [] a) :
    (count bs.length >>= fun _ => bs.forM f).ReadBack (number >>= Decoder.repeated item)
      (bs.map g) := by
  have hemits := Emits.forM fun b hb => (h b hb).emits
  refine ((emits_raw _).bind hemits).readBack fun hok hlength => ?_
  have hmembers : ∀ b ∈ bs, (f b).emission.failure = none :=
    Emission.failure_each.mp (Emission.failure_andThen.mp hok).2
  rw [Emission.bytes_andThen rfl, Emission.bytes_each hmembers] at hlength ⊢
  rw [List.length_append] at hlength
  have hreads : ∀ b ∈ bs, item.Reads (f b).emission.bytes (g b) := fun b hb => by
    have hle := (sublist_flatMap (fun b => (f b).emission.bytes) hb).length_le
    exact (h b hb).reads (hmembers b hb) (by omega)
  -- no element is empty, so there are no more elements than bytes
  have hcount : bs.length < lengthLimit := by
    have hpos : ∀ b ∈ bs, 0 < (f b).emission.bytes.length := fun b hb =>
      List.length_pos_iff.mpr fun hnil => hitem (g b) (hnil ▸ hreads b hb)
    have hle := length_le_length_flatMap hpos
    omega
  exact (hnumber _ hcount).bind (Decoder.reads_repeated hreads)

/-! ### Bodies behind their lengths -/

/-- A body behind its length, which the decoder of the body is told. -/
theorem ReadBack.delimited {e : Encoder Unit} {f : Int32 → Decoder α} {a : Int32 → α}
    (h : ∀ length, e.ReadBack (f length) (a length)) :
    (Encoder.delimited e).ReadBack (Decoder.int32 >>= f)
      (a (Int32.ofNat ((Encoder.delimited e).emission.bytes.length - 4))) := by
  have hemits := (h 0).emits
  rw [hemits.delimited.emission_eq]
  refine hemits.delimited.readBack fun hok hlength => ?_
  have hbody := Emission.failure_delimited.mp hok
  rw [Emission.bytes_delimited hbody] at hlength ⊢
  rw [List.length_append] at hlength ⊢
  rw [BigEndian.length_ofInt32, Nat.add_sub_cancel_left]
  exact (Decoder.reads_int32 _).bind ((h _).reads hbody (by omega))

end Encoder

end BrokerWire
