import BrokerWire.Proofs.Reading
import BrokerWire.Request.Topics

/-!
# Layouts

A layout says which byte strings stand for which values. It is a relation between bytes and values
and knows nothing of how either is computed from the other. `Decoder.Recognizes d layout` says that
`d` reads off the front of what it is given exactly what the layout has a value for, and makes that
value of it. Layouts of parts compose to the layout of the whole (`Recognizes.bind`), so that a
decoder of many parts needs no proof of its own. Main statement: `Recognizes.decode_eq_ok_iff`, a
decoding succeeds on the byte strings that start with an instance of the layout, and on no others.
-/

namespace BrokerWire

namespace Layout

/-- A text behind its length. Length -1 is for no text, and any other length below one for the
empty text. -/
inductive Text : Bytes → Option String → Prop
  | absent : Text (BigEndian.ofInt16 (-1)) none
  | empty (size : Int16) (hsize : size ≤ 0) (hne : size ≠ -1) :
    Text (BigEndian.ofInt16 size) (some "")
  | text (size : Int16) (text : String) (hsize : 0 < size)
    (hlength : (Utf8.encode text).length = size.toNatClampNeg) :
    Text (BigEndian.ofInt16 size ++ Utf8.encode text) (some text)

/-- A text for which absence and emptiness are the same. -/
inductive Name : Bytes → String → Prop
  | mk {bytes : Bytes} {text : Option String} (htext : Text bytes text) : Name bytes (text.getD "")

/-- Bytes behind their length. Length -1 is for no bytes at all, and any other length below one for
the empty byte string. -/
inductive Array : Bytes → Option Bytes → Prop
  | absent : Array (BigEndian.ofInt32 (-1)) none
  | empty (size : Int32) (hsize : size ≤ 0) (hne : size ≠ -1) :
    Array (BigEndian.ofInt32 size) (some [])
  | bytes (size : Int32) (bytes : Bytes) (hsize : 0 < size)
    (hlength : bytes.length = size.toNatClampNeg) :
    Array (BigEndian.ofInt32 size ++ bytes) (some bytes)

/-- Elements one behind the other. -/
inductive Each (item : Bytes → α → Prop) : Bytes → List α → Prop
  | nil : Each item [] []
  | cons {front back : Bytes} {a : α} {as : List α} (ha : item front a) (has : Each item back as) :
    Each item (front ++ back) (a :: as)

/-- Elements behind their number; a negative number counts as zero. -/
inductive Counted (item : Bytes → α → Prop) : Bytes → List α → Prop
  | mk (count : Int32) {bytes : Bytes} {as : List α} (hcount : as.length = count.toNatClampNeg)
    (has : Each item bytes as) : Counted item (BigEndian.ofInt32 count ++ bytes) as

/-- One part and, depending on its value, another. -/
def Seq (layout : Bytes → α → Prop) (layout' : α → Bytes → β → Prop) (bytes : Bytes) (b : β) :
    Prop :=
  ∃ front a back, layout front a ∧ layout' a back b ∧ bytes = front ++ back

end Layout

namespace Decoder

/-- The decoder reads what the layout has a value for, and nothing else. -/
structure Recognizes (d : Decoder α) (layout : Bytes → α → Prop) : Prop where
  /-- An instance of the layout is read, whatever follows it. -/
  reads : ∀ {bytes : Bytes} {a : α}, layout bytes a → d.Reads bytes a
  /-- What has been read is an instance of the layout. -/
  spelled : ∀ {c c' : Cursor} {a : α}, d c = .ok a c' →
    ∃ bytes, layout bytes a ∧ c.rest = bytes ++ c'.rest

variable {d : Decoder α} {layout layout' : Bytes → α → Prop}

/-- A decoding succeeds on what starts with an instance of the layout. -/
theorem Recognizes.decode_eq_ok_iff (h : d.Recognizes layout) {data : Bytes} {a : α} :
    d.decode data = .ok a ↔ ∃ bytes slack, layout bytes a ∧ data = bytes ++ slack := by
  constructor
  · intro hdecode
    unfold Decoder.decode EStateM.run at hdecode
    split at hdecode
    · next found c' hfound =>
      cases hdecode
      obtain ⟨bytes, hbytes, hdata⟩ := h.spelled hfound
      exact ⟨bytes, c'.rest, hbytes, hdata⟩
    · contradiction
  · rintro ⟨bytes, slack, hbytes, rfl⟩
    exact (h.reads hbytes).decode slack

theorem Recognizes.layout_of_reads (h : d.Recognizes layout) {bytes : Bytes} {a : α}
    (hreads : d.Reads bytes a) : layout bytes a := by
  obtain ⟨bytes', hlayout, hbytes⟩ := h.spelled (hreads [] 0 [])
  rw [List.append_nil, List.append_nil] at hbytes
  change bytes = bytes' at hbytes
  rwa [hbytes]

theorem Recognizes.congr (h : d.Recognizes layout)
    (hiff : ∀ bytes a, layout bytes a ↔ layout' bytes a) : d.Recognizes layout' where
  reads hbytes := h.reads ((hiff _ _).mpr hbytes)
  spelled hok := by
    obtain ⟨bytes, hbytes, hrest⟩ := h.spelled hok
    exact ⟨bytes, (hiff _ _).mp hbytes, hrest⟩

/-! ### Composition -/

theorem exists_of_bind_eq_ok {f : α → Decoder β} {c c'' : Cursor} {b : β}
    (h : (d >>= f) c = .ok b c'') : ∃ a c', d c = .ok a c' ∧ f a c' = .ok b c'' := by
  change EStateM.bind d f c = _ at h
  unfold EStateM.bind at h
  split at h
  · next a c' ha => exact ⟨a, c', ha, h⟩
  · contradiction

theorem recognizes_pure (a : α) :
    (pure a : Decoder α).Recognizes fun bytes b => bytes = [] ∧ b = a where
  reads := by
    rintro bytes b ⟨rfl, rfl⟩
    exact reads_pure b
  spelled hok := by
    cases hok
    exact ⟨[], ⟨rfl, rfl⟩, rfl⟩

theorem recognizes_throw (e : WireError) : (throw e : Decoder α).Recognizes fun _ _ => False where
  reads := False.elim
  spelled hok := by cases hok

theorem Recognizes.bind (h : d.Recognizes layout) {f : α → Decoder β}
    {next : α → Bytes → β → Prop} (hf : ∀ a, (f a).Recognizes (next a)) :
    (d >>= f).Recognizes (Layout.Seq layout next) where
  reads := by
    rintro bytes b ⟨front, a, back, hfront, hback, rfl⟩
    exact (h.reads hfront).bind ((hf a).reads hback)
  spelled hok := by
    obtain ⟨a, c', ha, hb⟩ := exists_of_bind_eq_ok hok
    obtain ⟨front, hfront, hrest⟩ := h.spelled ha
    obtain ⟨back, hback, hrest'⟩ := (hf a).spelled hb
    exact ⟨front ++ back, ⟨front, a, back, hfront, hback, rfl⟩, by
      rw [hrest, hrest', List.append_assoc]⟩

/-- Whatever the last step makes of a value without reading on. -/
theorem Recognizes.bind_pure (h : d.Recognizes layout) (f : α → β) :
    (d >>= fun a => pure (f a)).Recognizes fun bytes b => ∃ a, layout bytes a ∧ b = f a := by
  refine (h.bind fun a => recognizes_pure (f a)).congr fun bytes b => ⟨?_, ?_⟩
  · rintro ⟨front, a, back, hfront, ⟨rfl, rfl⟩, rfl⟩
    exact ⟨a, by rwa [List.append_nil], rfl⟩
  · rintro ⟨a, hbytes, rfl⟩
    exact ⟨bytes, a, [], hbytes, ⟨rfl, rfl⟩, (List.append_nil bytes).symm⟩

theorem Recognizes.map (h : d.Recognizes layout) (f : α → β) :
    (f <$> d).Recognizes fun bytes b => ∃ a, layout bytes a ∧ b = f a := by
  rw [map_eq_pure_bind]
  exact h.bind_pure f

theorem recognizes_ite {p : Prop} [Decidable p] {d' : Decoder α} (h : p → d.Recognizes layout)
    (h' : ¬p → d'.Recognizes layout') :
    (if p then d else d').Recognizes fun bytes a =>
      p ∧ layout bytes a ∨ ¬p ∧ layout' bytes a := by
  by_cases hp : p
  · rw [if_pos hp]
    exact (h hp).congr fun bytes a => by simp [hp]
  · rw [if_neg hp]
    exact (h' hp).congr fun bytes a => by simp [hp]

/-- Where the cursor stands plays no part. -/
theorem recognizes_get_bind {f : Cursor → Decoder α} (h : ∀ c, (f c).Recognizes layout) :
    (get >>= f).Recognizes layout where
  reads hbytes buffer position rest := (h _).reads hbytes buffer position rest
  spelled {c _ _} hok := (h c).spelled hok

/-! ### Integers and counts -/

theorem recognizes_take (n : Nat) :
    (take n).Recognizes fun bytes a => bytes.length = n ∧ a = bytes where
  reads := by
    rintro bytes a ⟨rfl, rfl⟩
    exact reads_take a
  spelled {c c' a} hok := by
    simp only [take] at hok
    split at hok
    · contradiction
    · next hlength =>
      cases hok
      refine ⟨c.rest.take n, ⟨?_, rfl⟩, (List.take_append_drop n c.rest).symm⟩
      exact Nat.le_antisymm (List.length_take_le n _) (Nat.le_of_not_lt hlength)

/-- Integers of a width, given how they are spelled. -/
theorem recognizes_integer {width : Nat} {toInt : Bytes → α} {ofInt : α → Bytes}
    (hlength : ∀ x, (ofInt x).length = width) (hto : ∀ x, toInt (ofInt x) = x)
    (hof : ∀ {bytes}, bytes.length = width → ofInt (toInt bytes) = bytes) :
    (take width >>= fun bytes => pure (toInt bytes)).Recognizes fun bytes x => bytes = ofInt x := by
  refine ((recognizes_take width).bind_pure toInt).congr fun bytes x => ⟨?_, ?_⟩
  · rintro ⟨_, ⟨hbytes, rfl⟩, rfl⟩
    exact (hof hbytes).symm
  · rintro rfl
    exact ⟨_, ⟨hlength x, rfl⟩, (hto x).symm⟩

theorem recognizes_int16 : int16.Recognizes fun bytes x => bytes = BigEndian.ofInt16 x :=
  recognizes_integer BigEndian.length_ofInt16 BigEndian.toInt16_ofInt16 BigEndian.ofInt16_toInt16

theorem recognizes_int32 : int32.Recognizes fun bytes x => bytes = BigEndian.ofInt32 x :=
  recognizes_integer BigEndian.length_ofInt32 BigEndian.toInt32_ofInt32 BigEndian.ofInt32_toInt32

theorem recognizes_int64 : int64.Recognizes fun bytes x => bytes = BigEndian.ofInt64 x :=
  recognizes_integer BigEndian.length_ofInt64 BigEndian.toInt64_ofInt64 BigEndian.ofInt64_toInt64

theorem recognizes_errorCode :
    errorCode.Recognizes fun bytes e => ∃ code, bytes = BigEndian.ofInt16 code ∧ e = .ofCode code :=
  recognizes_int16.bind_pure ErrorCode.ofCode

theorem recognizes_count :
    count.Recognizes fun bytes n => ∃ x, bytes = BigEndian.ofInt32 x ∧ n = x.toNatClampNeg :=
  recognizes_int32.bind_pure Int32.toNatClampNeg

/-! ### Texts and byte strings -/

/-- The text that bytes spell. -/
theorem recognizes_utf8 (bytes : Bytes) (refuse : Utf8.Fault → WireError) :
    (match Utf8.decode bytes with
      | .ok text => pure (some text)
      | .error fault => throw (refuse fault) : Decoder (Option String)).Recognizes
      fun front a => front = [] ∧ ∃ text, bytes = Utf8.encode text ∧ a = some text := by
  cases hdecode : Utf8.decode bytes with
  | error fault =>
    refine (recognizes_throw _).congr fun front a => ⟨False.elim, ?_⟩
    rintro ⟨-, text, htext, -⟩
    rw [Utf8.decode_eq_ok_iff.mpr htext] at hdecode
    contradiction
  | ok text =>
    obtain rfl := Utf8.decode_eq_ok_iff.mp hdecode
    refine (recognizes_pure (some text)).congr fun front a => ⟨?_, ?_⟩
    · rintro ⟨rfl, rfl⟩
      exact ⟨rfl, text, rfl, rfl⟩
    · rintro ⟨rfl, text', htext, rfl⟩
      rw [Utf8.decode_eq_ok_iff.mpr htext] at hdecode
      cases hdecode
      exact ⟨rfl, rfl⟩

theorem recognizes_string : string.Recognizes Layout.Text := by
  refine (recognizes_int16.bind fun size => recognizes_ite (fun _ => recognizes_pure none) fun _ =>
    recognizes_ite (fun _ => recognizes_pure (some "")) fun _ => recognizes_get_bind fun c =>
      (recognizes_take size.toNatClampNeg).bind fun bytes => recognizes_utf8 bytes _).congr
    fun bytes a => ⟨?_, ?_⟩
  · rintro ⟨_, size, _, rfl, ⟨rfl, rfl, rfl⟩ | ⟨hne, ⟨hsize, rfl, rfl⟩ | ⟨hsize, hback⟩⟩, rfl⟩
    · exact .absent
    · rw [List.append_nil]
      exact .empty size hsize hne
    · obtain ⟨body, _, _, ⟨hlength, rfl⟩, ⟨rfl, text, rfl, rfl⟩, rfl⟩ := hback
      rw [List.append_nil]
      exact .text size text (Int16.not_le.mp hsize) hlength
  · intro htext
    cases htext with
    | absent => exact ⟨_, -1, [], rfl, .inl ⟨rfl, rfl, rfl⟩, rfl⟩
    | empty size hsize hne =>
      exact ⟨_, size, [], rfl, .inr ⟨hne, .inl ⟨hsize, rfl, rfl⟩⟩, (List.append_nil _).symm⟩
    | text size text hsize hlength =>
      have hpos : ¬size ≤ 0 := Int16.not_le.mpr hsize
      have hne : size ≠ -1 := fun h => hpos (h ▸ by decide)
      exact ⟨_, size, _, rfl, .inr ⟨hne, .inr ⟨hpos, _, _, [], ⟨hlength, rfl⟩,
        ⟨rfl, text, rfl, rfl⟩, (List.append_nil _).symm⟩⟩, rfl⟩

theorem recognizes_name : name.Recognizes Layout.Name := by
  refine (recognizes_string.bind_pure _).congr fun bytes text => ⟨?_, ?_⟩
  · rintro ⟨text, htext, rfl⟩
    exact .mk htext
  · rintro ⟨htext⟩
    exact ⟨_, htext, rfl⟩

theorem recognizes_bytes : bytes.Recognizes Layout.Array := by
  refine (recognizes_int32.bind fun size => recognizes_ite (fun _ => recognizes_pure none) fun _ =>
    recognizes_ite (fun _ => recognizes_pure (some [])) fun _ =>
      (recognizes_take size.toNatClampNeg).bind_pure some).congr fun bytes a => ⟨?_, ?_⟩
  · rintro ⟨_, size, _, rfl, ⟨rfl, rfl, rfl⟩ | ⟨hne, ⟨hsize, rfl, rfl⟩ | ⟨hsize, hback⟩⟩, rfl⟩
    · exact .absent
    · rw [List.append_nil]
      exact .empty size hsize hne
    · obtain ⟨body, ⟨hlength, rfl⟩, rfl⟩ := hback
      exact .bytes size body (Int32.not_le.mp hsize) hlength
  · intro harray
    cases harray with
    | absent => exact ⟨_, -1, [], rfl, .inl ⟨rfl, rfl, rfl⟩, rfl⟩
    | empty size hsize hne =>
      exact ⟨_, size, [], rfl, .inr ⟨hne, .inl ⟨hsize, rfl, rfl⟩⟩, (List.append_nil _).symm⟩
    | bytes size body hsize hlength =>
      have hpos : ¬size ≤ 0 := Int32.not_le.mpr hsize
      have hne : size ≠ -1 := fun h => hpos (h ▸ by decide)
      exact ⟨_, size, _, rfl, .inr ⟨hne, .inr ⟨hpos, _, ⟨hlength, rfl⟩, rfl⟩⟩, rfl⟩

/-! ### Lists -/

theorem recognizes_repeated (h : d.Recognizes layout) (n : Nat) :
    (repeated d n).Recognizes fun bytes as => as.length = n ∧ Layout.Each layout bytes as := by
  induction n with
  | zero =>
    refine (recognizes_pure []).congr fun bytes as => ⟨?_, ?_⟩
    · rintro ⟨rfl, rfl⟩
      exact ⟨rfl, .nil⟩
    · rintro ⟨hlength, has⟩
      cases has with
      | nil => exact ⟨rfl, rfl⟩
      | cons => contradiction
  | succ n ih =>
    rw [repeated_succ]
    refine (h.bind fun a => ih.map (a :: ·)).congr fun bytes as => ⟨?_, ?_⟩
    · rintro ⟨front, a, back, ha, ⟨as, ⟨rfl, has⟩, rfl⟩, rfl⟩
      exact ⟨rfl, .cons ha has⟩
    · rintro ⟨hlength, has⟩
      cases has with
      | nil => contradiction
      | cons ha has => exact ⟨_, _, _, ha, ⟨_, ⟨Nat.succ.inj hlength, has⟩, rfl⟩, rfl⟩

theorem recognizes_counted (h : d.Recognizes layout) :
    (counted d).Recognizes (Layout.Counted layout) := by
  refine (recognizes_count.bind fun n => recognizes_repeated h n).congr fun bytes as => ⟨?_, ?_⟩
  · rintro ⟨_, _, back, ⟨x, rfl, rfl⟩, ⟨hlength, has⟩, rfl⟩
    exact .mk x hlength has
  · rintro ⟨x, hlength, has⟩
    exact ⟨_, _, _, ⟨x, rfl, rfl⟩, ⟨hlength, has⟩, rfl⟩

end Decoder

end BrokerWire
