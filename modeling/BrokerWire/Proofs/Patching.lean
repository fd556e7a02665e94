import BrokerWire.Proofs.Checksum.Division
import BrokerWire.Proofs.Primitives
import Mathlib.Data.List.Induction
import Mathlib.Data.List.Pairwise

/-!
# Filling in reserved bytes

Values are put one behind the other, four bytes are reserved here and there, and lengths and
checksums are filled in at any time, in any order and more than once. `Draft.run_outcome` says what
is there in the end: what was put stands where it was put, and four reserved bytes hold what was
filled in last.

A checksum that is filled in covers reserved bytes behind it as they are at that time, so what is
there in the end depends on the order. `Draft.Field` therefore goes back to when a place was
filled in last. That nothing else is changed rests on the reserved places lying apart, which is part
of the `Draft.Outcome` that each edit preserves.
-/

namespace BrokerWire

/-! ### Overwriting -/

namespace FrameBuffer

variable {b b' : FrameBuffer} {bytes : Bytes} {position place i : Nat}

/-- The four bytes at a position. -/
def field (b : FrameBuffer) (position : Nat) : Bytes :=
  (b.toList.drop position).take 4

theorem size_overwrite (h : position + bytes.length ≤ b.size) :
    (b.overwrite position bytes).size = b.size := by
  rw [← length_toList, toList_overwrite _ _ _ h]
  simp only [List.length_append, List.length_take, List.length_drop, length_toList]
  omega

/-- Bytes in front of an overwritten place and behind it stay. -/
theorem getElem?_overwrite_of_outside (h : position + bytes.length ≤ b.size)
    (hi : i < position ∨ position + bytes.length ≤ i) :
    (b.overwrite position bytes).toList[i]? = b.toList[i]? := by
  have htake : (b.toList.take position).length = position :=
    List.length_take_of_le (by rw [length_toList]; omega)
  rw [toList_overwrite _ _ _ h]
  rcases hi with hi | hi
  · rw [List.append_assoc, List.getElem?_append_left (by omega), List.getElem?_take_of_lt hi]
  · have hfront : (b.toList.take position ++ bytes).length = position + bytes.length := by
      rw [List.length_append, htake]
    rw [List.getElem?_append_right (by omega), hfront, List.getElem?_drop,
      Nat.add_sub_cancel' hi]

theorem field_overwrite_self (h : position + bytes.length ≤ b.size) (hbytes : bytes.length = 4) :
    (b.overwrite position bytes).field position = bytes := by
  have htake : (b.toList.take position).length = position :=
    List.length_take_of_le (by rw [length_toList]; omega)
  rw [field, toList_overwrite _ _ _ h, List.append_assoc, List.drop_left' htake,
    List.take_left' hbytes]

theorem field_congr (h : ∀ i, position ≤ i → i < position + 4 → b.toList[i]? = b'.toList[i]?) :
    b.field position = b'.field position := by
  apply List.ext_getElem?
  intro i
  simp only [field, List.getElem?_take, List.getElem?_drop]
  split
  · exact h _ (by omega) (by omega)
  · rfl

/-- Overwriting changes no field that lies apart. -/
theorem field_overwrite_of_apart (h : position + bytes.length ≤ b.size)
    (hapart : place + 4 ≤ position ∨ position + bytes.length ≤ place) :
    (b.overwrite position bytes).field place = b.field place :=
  field_congr fun i _ _ => getElem?_overwrite_of_outside h (by omega)

theorem field_append (h : position + 4 ≤ b.size) :
    (b.append bytes).field position = b.field position :=
  field_congr fun i _ _ => by
    rw [toList_append, List.getElem?_append_left (by rw [length_toList]; omega)]

end FrameBuffer

/-! ### Edits -/

/-- What can be filled in for the bytes behind a place. -/
inductive Patch where
  /-- Their number. -/
  | length
  /-- Their checksum. -/
  | checksum
  deriving DecidableEq, Repr

namespace Patch

/-- Fills in a place; `none` if the buffer ends before it does. -/
def fill? : Patch → FrameBuffer → Nat → Option FrameBuffer
  | length => FrameBuffer.patchLength?
  | checksum => FrameBuffer.patchChecksum?

/-- What is filled in if these bytes are behind the place: their number modulo `2 ^ 32`, or their
checksum. -/
def value : Patch → Bytes → Nat
  | length, behind => behind.length % 4294967296
  | checksum, behind => (Checksum.bitwise behind).toNat

/-- A place that ends within the buffer is overwritten with the value in four bytes. -/
theorem fill?_eq (what : Patch) {b : FrameBuffer} {position : Nat} (h : position + 4 ≤ b.size) :
    what.fill? b position = some (b.overwrite position
      (BigEndian.encode 4 (what.value (b.toList.drop (position + 4))))) := by
  have hholds : b.holds position = true := decide_eq_true h
  cases what with
  | length =>
    have hlength : b.size - (position + FrameBuffer.placeholderSize) =
        (b.toList.drop (position + 4)).length := by
      rw [List.length_drop, FrameBuffer.length_toList, FrameBuffer.placeholderSize]
    simp only [fill?, FrameBuffer.patchLength?, hholds, if_true, FrameBuffer.patchLength, hlength]
    rfl
  | checksum =>
    simp only [fill?, FrameBuffer.patchChecksum?, hholds, if_true, FrameBuffer.patchChecksum,
      FrameBuffer.toList_since, Checksum.crc32_eq_bitwise]
    rfl

end Patch

/-- One operation on a buffer. -/
inductive Edit where
  /-- A value is put at the end, unless it is refused. -/
  | put (value : Primitive)
  /-- Four bytes are reserved at the end. -/
  | reserve
  /-- A reserved place is filled in. -/
  | patch (what : Patch) (position : Nat)
  deriving DecidableEq, Repr

namespace Edit

/-- The bytes that come to the end of the buffer. -/
def appended : Edit → Bytes
  | put value => value.emission.bytes
  | reserve => [0, 0, 0, 0]
  | patch .. => []

/-- The number of bytes that come to the end of the buffer. -/
def size : Edit → Nat
  | put value => value.size
  | reserve => 4
  | patch .. => 0

@[simp]
theorem length_appended (e : Edit) : e.appended.length = e.size := by
  cases e with
  | put value => exact value.length_emission
  | reserve => rfl
  | patch => rfl

/-- The number of bytes that edits bring to the end of the buffer, one after the other. -/
def total : List Edit → Nat
  | [] => 0
  | e :: edits => e.size + total edits

@[simp]
theorem length_flatMap_appended (edits : List Edit) :
    (edits.flatMap appended).length = total edits := by
  induction edits with
  | nil => rfl
  | cons e edits ih => rw [List.flatMap_cons, List.length_append, length_appended, ih, total]

theorem total_concat (edits : List Edit) (e : Edit) :
    total (edits ++ [e]) = total edits + e.size := by
  simp only [← length_flatMap_appended, List.flatMap_append, List.length_append,
    List.flatMap_singleton, length_appended]

end Edit

/-- A buffer that is being edited. -/
structure Draft where
  /-- What has been written. -/
  buffer : FrameBuffer
  /-- The places that have been reserved, in this order. -/
  reserved : List Nat
  deriving DecidableEq, Repr

namespace Draft

/-- A buffer in which no place has been reserved. -/
def onto (b : FrameBuffer) : Draft := ⟨b, []⟩

/-- Carries out an edit; `none` if it would overwrite past the end. -/
def write (d : Draft) : Edit → Option Draft
  | .put value => some ⟨value.write.after d.buffer, d.reserved⟩
  | .reserve =>
    match Encoder.placeholder d.buffer with
    | .ok position b => some ⟨b, d.reserved ++ [position]⟩
    | .error _ _ => none
  | .patch what position => (what.fill? d.buffer position).map fun b => ⟨b, d.reserved⟩

/-- Carries out edits, one after the other. -/
def run (d : Draft) (edits : List Edit) : Option Draft :=
  edits.foldlM write d

/-- An edit fills in no place that has not been reserved. -/
def Admits (d : Draft) : Edit → Prop
  | .put _ => True
  | .reserve => True
  | .patch _ position => position ∈ d.reserved

/-- Each edit fills in no place that has not been reserved by then. -/
def Admitted (d : Draft) : List Edit → Prop
  | [] => True
  | e :: edits => d.Admits e ∧ ∀ d' ∈ d.write e, d'.Admitted edits

instance (d : Draft) : (e : Edit) → Decidable (d.Admits e)
  | .put _ => isTrue trivial
  | .reserve => isTrue trivial
  | .patch _ position => inferInstanceAs (Decidable (position ∈ d.reserved))

instance decidableAdmitted : (edits : List Edit) → (d : Draft) → Decidable (d.Admitted edits)
  | [], _ => isTrue trivial
  | e :: edits, d =>
    have : DecidablePred fun d' : Draft => d'.Admitted edits := decidableAdmitted edits
    inferInstanceAs (Decidable (d.Admits e ∧ ∀ d' ∈ d.write e, d'.Admitted edits))

theorem run_concat (d : Draft) (edits : List Edit) (e : Edit) :
    d.run (edits ++ [e]) = (d.run edits).bind (·.write e) := by
  simp [run, List.foldlM_append]

theorem admitted_concat {d : Draft} {edits : List Edit} {e : Edit} :
    d.Admitted (edits ++ [e]) ↔
      d.Admitted edits ∧ ∀ d', d.run edits = some d' → d'.Admits e := by
  induction edits generalizing d with
  | nil =>
    simp [Admitted, run]
  | cons first edits ih =>
    have hrun : ∀ d', d.run (first :: edits) = some d' ↔
        ∃ d'', d.write first = some d'' ∧ d''.run edits = some d' := by
      simp [run, Option.bind_eq_some_iff]
    simp only [List.cons_append, Admitted, ih, hrun]
    constructor
    · rintro ⟨hfirst, hedits⟩
      exact ⟨⟨hfirst, fun d'' hd'' => (hedits d'' hd'').1⟩,
        fun d' ⟨d'', hd'', hd'⟩ => (hedits d'' hd'').2 d' hd'⟩
    · rintro ⟨⟨hfirst, hedits⟩, hlast⟩
      exact ⟨hfirst, fun d'' hd'' => ⟨hedits d'' hd'', fun d' hd' => hlast d' ⟨d'', hd'', hd'⟩⟩⟩

theorem write_put (d : Draft) (value : Primitive) :
    d.write (.put value) = some ⟨d.buffer.append (Edit.put value).appended, d.reserved⟩ := by
  rw [write, value.emits_write.after]
  rfl

theorem write_reserve (d : Draft) :
    d.write .reserve =
      some ⟨d.buffer.append Edit.reserve.appended, d.reserved ++ [d.buffer.size]⟩ := rfl

theorem write_patch {d : Draft} {position : Nat} (h : position + 4 ≤ d.buffer.size)
    (what : Patch) :
    d.write (.patch what position) = some ⟨d.buffer.overwrite position
      (BigEndian.encode 4 (what.value (d.buffer.toList.drop (position + 4)))), d.reserved⟩ := by
  rw [write, what.fill?_eq h]
  rfl

/-! ### What edits make of a buffer -/

variable {b : FrameBuffer} {edits : List Edit} {d : Draft}

/-- What stands at a reserved place. -/
inductive Field (b : FrameBuffer) (edits : List Edit) (position : Nat) : Bytes → Prop
  /-- Nothing has been filled in. -/
  | unpatched (h : ∀ what, .patch what position ∉ edits) : Field b edits position [0, 0, 0, 0]
  /-- What was filled in last belongs to the bytes that were behind the place then. -/
  | patched (before after : List Edit) (what : Patch) (d : Draft)
      (hedits : edits = before ++ .patch what position :: after)
      (hrun : (onto b).run before = some d)
      (hlast : ∀ what', .patch what' position ∉ after) :
      Field b edits position
        (BigEndian.encode 4 (what.value (d.buffer.toList.drop (position + 4))))

/-- An edit that does not fill in the place changes nothing at it. -/
theorem Field.concat {position : Nat} {bytes : Bytes} {e : Edit}
    (h : Field b edits position bytes) (he : ∀ what, e ≠ .patch what position) :
    Field b (edits ++ [e]) position bytes := by
  cases h with
  | unpatched h =>
    refine .unpatched fun what hmem => ?_
    rcases List.mem_append.mp hmem with hmem | hmem
    · exact h what hmem
    · exact he what (List.mem_singleton.mp hmem).symm
  | patched before after what d hedits hrun hlast =>
    refine .patched before (after ++ [e]) what d ?_ hrun fun what' hmem => ?_
    · rw [hedits, List.append_assoc, List.cons_append]
    · rcases List.mem_append.mp hmem with hmem | hmem
      · exact hlast what' hmem
      · exact he what' (List.mem_singleton.mp hmem).symm

/-- What edits make of a buffer. -/
structure Outcome (b : FrameBuffer) (edits : List Edit) (d : Draft) : Prop where
  /-- The buffer has grown by what was put and reserved. -/
  size_eq : d.buffer.size = b.size + Edit.total edits
  /-- The reserved places lie behind what was there before. -/
  within : ∀ position ∈ d.reserved, b.size ≤ position ∧ position + 4 ≤ d.buffer.size
  /-- No two of them overlap. -/
  apart : d.reserved.Pairwise fun position position' => position + 4 ≤ position'
  /-- Only they have been filled in. -/
  mem_reserved : ∀ what position, .patch what position ∈ edits → position ∈ d.reserved
  /-- A byte outside them is the one that came to the end there. -/
  byte_eq : ∀ i, (∀ position ∈ d.reserved, i < position ∨ position + 4 ≤ i) →
    d.buffer.toList[i]? = (b.toList ++ edits.flatMap Edit.appended)[i]?
  /-- Each of them holds what was filled in last. -/
  field : ∀ position ∈ d.reserved, Field b edits position (d.buffer.field position)

namespace Outcome

theorem onto (b : FrameBuffer) : Outcome b [] (Draft.onto b) where
  size_eq := rfl
  within _ h := nomatch h
  apart := .nil
  mem_reserved _ _ h := nomatch h
  byte_eq i _ := by rw [List.flatMap_nil, List.append_nil]; rfl
  field _ h := nomatch h

/-- What comes to the end leaves everything in front of it as it was. -/
theorem append (h : Outcome b edits d) {e : Edit} (he : ∀ what position, e ≠ .patch what position) :
    Outcome b (edits ++ [e]) ⟨d.buffer.append e.appended, d.reserved⟩ where
  size_eq := by
    rw [FrameBuffer.size_append, e.length_appended, h.size_eq, Edit.total_concat, Nat.add_assoc]
  within position hposition := by
    obtain ⟨hge, hle⟩ := h.within position hposition
    rw [FrameBuffer.size_append]
    exact ⟨hge, by omega⟩
  apart := h.apart
  mem_reserved what position hmem := by
    rcases List.mem_append.mp hmem with hmem | hmem
    · exact h.mem_reserved what position hmem
    · exact absurd (List.mem_singleton.mp hmem).symm (he what position)
  byte_eq i hi := by
    have hlength : d.buffer.toList.length = (b.toList ++ edits.flatMap Edit.appended).length := by
      rw [FrameBuffer.length_toList, h.size_eq, List.length_append, FrameBuffer.length_toList,
        Edit.length_flatMap_appended]
    rw [FrameBuffer.toList_append, List.flatMap_append, ← List.append_assoc]
    simp only [List.flatMap_singleton]
    rw [List.getElem?_append, List.getElem?_append, hlength, h.byte_eq i hi]
  field position hposition := by
    rw [FrameBuffer.field_append (h.within position hposition).2]
    exact (h.field position hposition).concat (he · position)

/-- Four zero bytes behind all reserved places are one more such place. -/
theorem reserve (h : Outcome b edits d) {position : Nat} (hge : b.size ≤ position)
    (hle : position + 4 ≤ d.buffer.size) (hbehind : ∀ place ∈ d.reserved, place + 4 ≤ position)
    (hfield : d.buffer.field position = [0, 0, 0, 0]) :
    Outcome b edits ⟨d.buffer, d.reserved ++ [position]⟩ where
  size_eq := h.size_eq
  within place hplace := by
    rcases List.mem_append.mp hplace with hplace | hplace
    · exact h.within place hplace
    · obtain rfl := List.mem_singleton.mp hplace
      exact ⟨hge, hle⟩
  apart := by
    refine List.pairwise_append.mpr ⟨h.apart, List.pairwise_singleton .., ?_⟩
    intro place hplace last hlast
    obtain rfl := List.mem_singleton.mp hlast
    exact hbehind place hplace
  mem_reserved what place hmem := List.mem_append_left _ (h.mem_reserved what place hmem)
  byte_eq i hi := h.byte_eq i fun place hplace => hi place (List.mem_append_left _ hplace)
  field place hplace := by
    rcases List.mem_append.mp hplace with hplace | hplace
    · exact h.field place hplace
    · obtain rfl := List.mem_singleton.mp hplace
      rw [hfield]
      -- a place that had been filled in would be one of the earlier ones
      refine .unpatched fun what hmem => ?_
      have hlt := hbehind place (h.mem_reserved what place hmem)
      omega

theorem lies_apart (h : Outcome b edits d) {place place' : Nat} (hplace : place ∈ d.reserved)
    (hplace' : place' ∈ d.reserved) (hne : place ≠ place') :
    place + 4 ≤ place' ∨ place' + 4 ≤ place := by
  let Apart (p q : Nat) : Prop := p + 4 ≤ q ∨ q + 4 ≤ p
  have hsymm : Std.Symm Apart := ⟨fun _ _ => Or.symm⟩
  have hapart : d.reserved.Pairwise Apart := h.apart.imp Or.inl
  exact hapart.forall hplace hplace' hne

/-- Filling in a place leaves everything outside it as it was. -/
theorem patch (h : Outcome b edits d) (hrun : (Draft.onto b).run edits = some d) {position : Nat}
    (hposition : position ∈ d.reserved) (what : Patch) :
    Outcome b (edits ++ [.patch what position]) ⟨d.buffer.overwrite position
      (BigEndian.encode 4 (what.value (d.buffer.toList.drop (position + 4)))), d.reserved⟩ := by
  generalize hbytes :
    BigEndian.encode 4 (what.value (d.buffer.toList.drop (position + 4))) = bytes
  have hlength : bytes.length = 4 := by rw [← hbytes, BigEndian.length_encode]
  have hfits : position + bytes.length ≤ d.buffer.size :=
    hlength ▸ (h.within position hposition).2
  constructor
  case size_eq =>
    rw [FrameBuffer.size_overwrite hfits, h.size_eq, Edit.total_concat]
    rfl
  case within =>
    rw [FrameBuffer.size_overwrite hfits]
    exact h.within
  case apart => exact h.apart
  case mem_reserved =>
    intro what' place hmem
    rcases List.mem_append.mp hmem with hmem | hmem
    · exact h.mem_reserved what' place hmem
    · obtain ⟨rfl, rfl⟩ := Edit.patch.inj (List.mem_singleton.mp hmem)
      exact hposition
  case byte_eq =>
    intro i hi
    rw [FrameBuffer.getElem?_overwrite_of_outside hfits (hlength ▸ hi position hposition),
      h.byte_eq i hi]
    simp [Edit.appended]
  case field =>
    intro place hplace
    by_cases heq : place = position
    · subst heq
      rw [FrameBuffer.field_overwrite_self hfits hlength, ← hbytes]
      exact .patched edits [] what d rfl hrun fun _ hmem => nomatch hmem
    · -- two places that are not the same do not overlap
      have hapart : place + 4 ≤ position ∨ position + 4 ≤ place := h.lies_apart hplace hposition heq
      rw [FrameBuffer.field_overwrite_of_apart hfits (hlength ▸ hapart)]
      exact (h.field place hplace).concat fun what' hwhat =>
        heq (Edit.patch.inj hwhat).2.symm

/-- An edit that fills in no place that has not been reserved is carried out. -/
theorem write (h : Outcome b edits d) (hrun : (Draft.onto b).run edits = some d) {e : Edit}
    (he : d.Admits e) : ∃ d', d.write e = some d' ∧ Outcome b (edits ++ [e]) d' := by
  cases e with
  | put value =>
    exact ⟨_, d.write_put value, h.append fun _ _ hne => nomatch hne⟩
  | reserve =>
    refine ⟨_, d.write_reserve, ?_⟩
    have hzeros : (d.buffer.append Edit.reserve.appended).field d.buffer.size = [0, 0, 0, 0] := by
      rw [FrameBuffer.field, FrameBuffer.toList_append, List.drop_left' d.buffer.length_toList]
      rfl
    refine (h.append (e := .reserve) fun _ _ hne => nomatch hne).reserve ?_ ?_ ?_ hzeros
    · have hsize := h.size_eq
      omega
    · rw [FrameBuffer.size_append]
      exact Nat.le_refl _
    · intro place hplace
      exact (h.within place hplace).2
  | patch what position =>
    exact ⟨_, write_patch (h.within position he).2 what, h.patch hrun he what⟩

end Outcome

/-- Putting values, reserving places and filling in reserved places, in any order and as often as
one likes, is always carried out. The buffer then ends with what was put and reserved, where a value
that is refused has taken no bytes; and in it, four bytes that were reserved hold what was filled in
last, which belongs to the bytes that were behind them then, or are still zero. -/
theorem run_outcome (h : (onto b).Admitted edits) :
    (∃ d, (onto b).run edits = some d ∧ Outcome b edits d) ∧
      ∀ (value : Primitive) (c c' : FrameBuffer) (e : WireError),
        value.write c = .error e c' → c' = c ∧ value.size = 0 := by
  refine ⟨?_, fun value c c' e => Primitive.size_of_write_error⟩
  -- from the last edit backwards, as what is filled in depends on the edits in front
  induction edits using List.reverseRecOn with
  | nil => exact ⟨_, rfl, Outcome.onto b⟩
  | append_singleton edits e ih =>
    obtain ⟨hedits, he⟩ := admitted_concat.mp h
    obtain ⟨d, hrun, hd⟩ := ih hedits
    obtain ⟨d', hwrite, hd'⟩ := hd.write hrun (he d hrun)
    refine ⟨d', ?_, hd'⟩
    rw [run_concat, hrun]
    exact hwrite

/-- A checksum, a length behind it, the checksum once more, and a place that stays as it is. -/
def nestedEdits : List Edit :=
  [.put (.int16 7), .reserve, .put (.uint8 1), .reserve, .put (.string (some "ab")),
    .patch .checksum 3, .patch .length 8, .reserve, .put (.array none), .patch .checksum 3]

/-- The checksum is filled in before the length that it covers, and again after it. -/
theorem run_outcome_nested :
    (onto ⟨#[9]⟩).Admitted nestedEdits ∧
      ∃ d, (onto ⟨#[9]⟩).run nestedEdits = some d ∧ Outcome ⟨#[9]⟩ nestedEdits d ∧
        d.reserved = [3, 8, 16] ∧ d.buffer.field 8 = [0, 0, 0, 4] := by
  have hadmitted : (onto ⟨#[9]⟩).Admitted nestedEdits := by decide +kernel
  obtain ⟨⟨d, hrun, hd⟩, -⟩ := run_outcome hadmitted
  refine ⟨hadmitted, d, hrun, hd, ?_⟩
  have hmap : ((onto ⟨#[9]⟩).run nestedEdits).map (fun d => (d.reserved, d.buffer.field 8)) =
      some ([3, 8, 16], [0, 0, 0, 4]) := by decide +kernel
  rw [hrun] at hmap
  exact Prod.mk.inj (Option.some.inj hmap)

end Draft

end BrokerWire
