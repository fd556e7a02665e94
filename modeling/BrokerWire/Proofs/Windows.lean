import BrokerWire.Proofs.Layout

/-!
# Reading a window

A cursor at the start of a window does what a cursor over a copy of the window does. Either one is
used operation by operation, and goes on from where it is left when an operation fails. All that can
be learnt of the bytes around the window is where it starts, which is what positions are told by.

What an operation does is settled by the unread bytes (`Decoder.Local`), and so is where it leaves
the cursor, failed or not. `Cursor.Op.run_eq_error_iff` tells how each operation fails, and
`Cursor.window_eq_slice` is the main statement.
-/

namespace BrokerWire

/-- A failure as it is told where all bytes stand `n` places further back. -/
def WireError.shift (n : Nat) : WireError → WireError
  | .protocol (.invalidUtf8 start fault) => .protocol (.invalidUtf8 (n + start) fault)
  | e => e

theorem WireError.shift_shift (m n : Nat) (e : WireError) :
    (e.shift n).shift m = e.shift (m + n) := by
  cases e with
  | protocol fault =>
    cases fault with
    | invalidUtf8 start fault => simp [shift, Nat.add_assoc]
    | _ => rfl
  | _ => rfl

namespace Cursor

/-- The operations on a cursor. -/
inductive Op where
  | uint8
  | int16
  | int32
  | int64
  | string
  | bytes
  | count
  | int32s
  | take (n : Nat)
  | skip (n : Nat)
  | available (n : Nat)
  | hasData
  | remaining
  | position
  deriving DecidableEq, Repr

/-- What an operation gives. -/
inductive Answer where
  | uint8 (x : UInt8)
  | int16 (x : Int16)
  | int32 (x : Int32)
  | int64 (x : Int64)
  | string (text : Option String)
  | bytes (array : Option Bytes)
  | count (n : Nat)
  | int32s (xs : List Int32)
  | slice (bytes : Bytes)
  | skipped
  | available (enough : Bool)
  | hasData (some : Bool)
  | remaining (n : Nat)
  | position (n : Nat)
  deriving DecidableEq, Repr

/-- An answer as it is given where all bytes stand `n` places further back. -/
def Answer.shift (n : Nat) : Answer → Answer
  | position p => position (n + p)
  | answer => answer

/-- What an operation comes to, where all bytes stand `n` places further back. -/
def shiftOutcome (n : Nat) : Except WireError Answer → Except WireError Answer
  | .ok answer => .ok (answer.shift n)
  | .error e => .error (e.shift n)

instance : DecidableEq (Except WireError Answer)
  | .ok a, .ok b => decidable_of_iff (a = b) ⟨congrArg _, Except.ok.inj⟩
  | .error e, .error e' => decidable_of_iff (e = e') ⟨congrArg _, Except.error.inj⟩
  | .ok _, .error _ => isFalse fun h => by cases h
  | .error _, .ok _ => isFalse fun h => by cases h

namespace Op

/-- What an operation does. -/
def run : Op → Decoder Answer
  | uint8 => Answer.uint8 <$> Decoder.uint8
  | int16 => Answer.int16 <$> Decoder.int16
  | int32 => Answer.int32 <$> Decoder.int32
  | int64 => Answer.int64 <$> Decoder.int64
  | string => Answer.string <$> Decoder.string
  | bytes => Answer.bytes <$> Decoder.bytes
  | count => Answer.count <$> Decoder.count
  | int32s => Answer.int32s <$> Decoder.int32s
  | take n => Answer.slice <$> Decoder.take n
  | skip n => (fun _ => Answer.skipped) <$> Decoder.skip n
  | available n => (fun c => Answer.available (c.available n)) <$> get
  | hasData => (fun c => Answer.hasData c.hasData) <$> get
  | remaining => (fun c => Answer.remaining c.remaining) <$> get
  | position => (fun c => Answer.position c.position) <$> get

/-- What an operation comes to. -/
def outcome (op : Op) (c : Cursor) : Except WireError Answer :=
  match op.run c with
  | .ok answer _ => .ok answer
  | .error e _ => .error e

/-- Where an operation leaves the cursor, be it that it fails. -/
def next (op : Op) (c : Cursor) : Cursor :=
  match op.run c with
  | .ok _ c' => c'
  | .error _ c' => c'

/-- The number of bytes that an operation reads before anything else. -/
def lead : Op → Option Nat
  | uint8 => some 1
  | int16 | string => some 2
  | int32 | bytes | count | int32s => some 4
  | int64 => some 8
  | take n | skip n => some n
  | available _ | hasData | remaining | position => none

/-- The ways in which an operation fails at a cursor, with the number of bytes that it has read by
then. -/
inductive Fails (c : Cursor) : Op → WireError → Nat → Prop
  /-- There is too little for an integer, for the bytes asked for, or for a length or a number. -/
  | short {op : Op} {n : Nat} (hlead : op.lead = some n) (h : c.remaining < n) :
      Fails c op (.truncated n c.remaining) 0
  /-- A text ends before the length in front of it is reached. -/
  | text {size : Int16} (hsize : size = BigEndian.toInt16 (c.rest.take 2)) (hpos : 0 < size)
      (hlead : 2 ≤ c.remaining) (h : c.remaining < 2 + size.toNatClampNeg) :
      Fails c string (.truncated size.toNatClampNeg (c.remaining - 2)) 2
  /-- A text is there and is not UTF-8. -/
  | utf8 {size : Int16} {fault : Utf8.Fault} (hsize : size = BigEndian.toInt16 (c.rest.take 2))
      (hpos : 0 < size) (h : 2 + size.toNatClampNeg ≤ c.remaining)
      (hfault : Utf8.decode ((c.rest.drop 2).take size.toNatClampNeg) = .error fault) :
      Fails c string (.protocol (.invalidUtf8 (c.position + 2) fault)) (2 + size.toNatClampNeg)
  /-- A byte string ends before the length in front of it is reached. -/
  | array {size : Int32} (hsize : size = BigEndian.toInt32 (c.rest.take 4)) (hpos : 0 < size)
      (hlead : 4 ≤ c.remaining) (h : c.remaining < 4 + size.toNatClampNeg) :
      Fails c bytes (.truncated size.toNatClampNeg (c.remaining - 4)) 4
  /-- Of the elements announced, only `k` are complete. -/
  | elements {k : Nat} (hk : k < (BigEndian.toInt32 (c.rest.take 4)).toNatClampNeg)
      (hfront : 4 + 4 * k ≤ c.remaining) (h : c.remaining < 4 + 4 * (k + 1)) :
      Fails c int32s (.truncated 4 (c.remaining - (4 + 4 * k))) (4 + 4 * k)

end Op

/-- What operations come to, each of which starts where the one before left the cursor. -/
def outcomes : Cursor → List Op → List (Except WireError Answer)
  | _, [] => []
  | c, op :: ops => op.outcome c :: (op.next c).outcomes ops

/-- Where operations leave the cursor. -/
def after : Cursor → List Op → Cursor
  | c, [] => c
  | c, op :: ops => (op.next c).after ops

/-- The start of a window, as far as the window lies inside the byte string. -/
def windowStart (bytes : Bytes) (offset : Nat) : Nat := min offset bytes.length

/-- The end of a window, computed with numbers of which `greatest` is the greatest: a greater sum
is taken for that one. -/
def windowEnd (greatest : Nat) (bytes : Bytes) (offset size : Nat) : Nat :=
  min (min (windowStart bytes offset + size) greatest) bytes.length

end Cursor

variable {α β : Type}

namespace Decoder

/-! ### Only the unread bytes matter -/

/-- What the decoder does is settled by the unread bytes: how many of them it reads, and the value
that it makes of them or the failure, in which places are counted from the cursor. -/
def Local (d : Decoder α) : Prop :=
  ∀ rest, ∃ n ≤ rest.length,
    (∃ a, ∀ buffer position,
      d ⟨buffer, position, rest⟩ = .ok a ⟨buffer, position + n, rest.drop n⟩) ∨
    ∃ e : WireError, ∀ buffer position,
      d ⟨buffer, position, rest⟩ = .error (e.shift position) ⟨buffer, position + n, rest.drop n⟩

variable {d : Decoder α} {f : α → Decoder β} {c c' c'' : Cursor} {a : α} {e : WireError} {n : Nat}

theorem bind_of_eq_ok (h : d c = .ok a c') : (d >>= f) c = f a c' := by
  change EStateM.bind d f c = _
  unfold EStateM.bind
  rw [h]

theorem bind_of_eq_error (h : d c = .error e c') : (d >>= f) c = .error e c' := by
  change EStateM.bind d f c = _
  unfold EStateM.bind
  rw [h]

theorem local_pure (a : α) : (pure a : Decoder α).Local :=
  fun _ => ⟨0, Nat.zero_le _, .inl ⟨a, fun _ _ => rfl⟩⟩

theorem Local.bind (h : d.Local) (hf : ∀ a, (f a).Local) : (d >>= f).Local := by
  intro rest
  obtain ⟨n, hn, ⟨a, ha⟩ | ⟨e, he⟩⟩ := h rest
  · obtain ⟨m, hm, hfa⟩ := hf a (rest.drop n)
    rw [List.length_drop] at hm
    refine ⟨n + m, by omega, hfa.imp ?_ ?_⟩
    · rintro ⟨b, hb⟩
      refine ⟨b, fun buffer position => ?_⟩
      rw [bind_of_eq_ok (ha buffer position), hb, Nat.add_assoc, List.drop_drop]
    · rintro ⟨e, he⟩
      refine ⟨e.shift n, fun buffer position => ?_⟩
      rw [bind_of_eq_ok (ha buffer position), he, e.shift_shift, Nat.add_assoc, List.drop_drop]
  · exact ⟨n, hn, .inr ⟨e, fun buffer position => bind_of_eq_error (he buffer position)⟩⟩

theorem Local.map (h : d.Local) (g : α → β) : (g <$> d).Local := by
  rw [map_eq_pure_bind]
  exact h.bind fun a => local_pure (g a)

theorem local_ite {p : Prop} [Decidable p] {d' : Decoder α} (h : d.Local) (h' : d'.Local) :
    (if p then d else d').Local := by
  split
  · exact h
  · exact h'

theorem take_of_le {rest : Bytes} (h : n ≤ rest.length) (buffer : Bytes) (position : Nat) :
    take n ⟨buffer, position, rest⟩ =
      .ok (rest.take n) ⟨buffer, position + n, rest.drop n⟩ := by
  simp [take, Cursor.advance, Nat.min_eq_left h]

theorem local_take (n : Nat) : (take n).Local := by
  intro rest
  by_cases h : n ≤ rest.length
  · exact ⟨n, h, .inl ⟨_, take_of_le h⟩⟩
  · exact ⟨0, Nat.zero_le _, .inr ⟨.truncated n rest.length, fun _ _ =>
      take_short (Nat.lt_of_not_le h)⟩⟩

/-- The one failure that tells a place. -/
theorem local_text (n : Nat) :
    (do
      let start := (← get).position
      match Utf8.decode (← take n) with
      | .ok text => return some text
      | .error fault => throw (.protocol (.invalidUtf8 start fault)) :
      Decoder (Option String)).Local := by
  intro rest
  by_cases h : n ≤ rest.length
  · refine ⟨n, h, ?_⟩
    cases hdecode : Utf8.decode (rest.take n) with
    | ok text =>
      refine .inl ⟨some text, fun buffer position => ?_⟩
      change EStateM.bind (take n) _ _ = _
      unfold EStateM.bind
      simp only [take_of_le h, hdecode]
      rfl
    | error fault =>
      refine .inr ⟨.protocol (.invalidUtf8 0 fault), fun buffer position => ?_⟩
      change EStateM.bind (take n) _ _ = _
      unfold EStateM.bind
      simp only [take_of_le h, hdecode]
      rfl
  · refine ⟨0, Nat.zero_le _, .inr ⟨.truncated n rest.length, fun buffer position => ?_⟩⟩
    change EStateM.bind (take n) _ _ = _
    unfold EStateM.bind
    rw [take_short (Nat.lt_of_not_le h)]
    rfl

theorem local_uint8 : uint8.Local := (local_take 1).bind fun _ => local_pure _

theorem local_int16 : int16.Local := (local_take 2).bind fun _ => local_pure _

theorem local_int32 : int32.Local := (local_take 4).bind fun _ => local_pure _

theorem local_int64 : int64.Local := (local_take 8).bind fun _ => local_pure _

theorem local_count : count.Local := local_int32.bind fun _ => local_pure _

theorem local_skip (n : Nat) : (skip n).Local := (local_take n).bind fun _ => local_pure _

theorem local_string : string.Local :=
  local_int16.bind fun _ => local_ite (local_pure none) (local_ite (local_pure _) (local_text _))

theorem local_bytes : bytes.Local :=
  local_int32.bind fun _ => local_ite (local_pure none) (local_ite (local_pure _)
    ((local_take _).bind fun _ => local_pure _))

theorem Local.repeated (h : d.Local) (n : Nat) : (repeated d n).Local := by
  induction n with
  | zero => exact local_pure []
  | succ n ih =>
    rw [repeated_succ]
    exact h.bind fun a => ih.map (a :: ·)

theorem local_int32s : int32s.Local := local_count.bind local_int32.repeated

/-! ### How reading fails -/

theorem bind_eq_error_iff : (d >>= f) c = .error e c'' ↔
    d c = .error e c'' ∨ ∃ a c', d c = .ok a c' ∧ f a c' = .error e c'' := by
  cases h : d c with
  | ok a c' => simp [bind_of_eq_ok h, and_assoc]
  | error e c' => simp [bind_of_eq_error h]

theorem pure_ne_error : (pure a : Decoder α) c ≠ .error e c' := fun h => by cases h

theorem map_eq_error_iff (g : α → β) : (g <$> d) c = .error e c' ↔ d c = .error e c' := by
  rw [map_eq_pure_bind, bind_eq_error_iff]
  simp [pure_ne_error]

theorem take_eq_ok_iff {bytes : Bytes} : take n c = .ok bytes c' ↔
    n ≤ c.remaining ∧ bytes = c.rest.take n ∧ c' = c.advance n := by
  by_cases h : n ≤ c.remaining
  · rw [take_of_le h]
    simp [h, Cursor.advance, eq_comm]
  · rw [take_short (Nat.lt_of_not_le h)]
    simp [h]

theorem take_eq_error_iff : take n c = .error e c' ↔
    c.remaining < n ∧ e = .truncated n c.remaining ∧ c' = c := by
  by_cases h : n ≤ c.remaining
  · rw [take_of_le h]
    simp [Nat.not_lt.mpr h]
  · have hlt : c.remaining < n := Nat.lt_of_not_le h
    rw [take_short hlt]
    change EStateM.Result.error (WireError.truncated n c.remaining) c = _ ↔ _
    simp [hlt, eq_comm]

theorem field_eq_ok_iff {g : Bytes → α} : (take n >>= fun bytes => pure (g bytes)) c = .ok a c' ↔
    n ≤ c.remaining ∧ a = g (c.rest.take n) ∧ c' = c.advance n := by
  constructor
  · intro h
    obtain ⟨bytes, c₁, htake, hpure⟩ := exists_of_bind_eq_ok h
    obtain ⟨hn, rfl, rfl⟩ := take_eq_ok_iff.mp htake
    cases hpure
    exact ⟨hn, rfl, rfl⟩
  · rintro ⟨hn, rfl, rfl⟩
    exact bind_of_eq_ok (take_eq_ok_iff.mpr ⟨hn, rfl, rfl⟩)

theorem field_eq_error_iff {g : Bytes → α} :
    (take n >>= fun bytes => pure (g bytes)) c = .error e c' ↔
      c.remaining < n ∧ e = .truncated n c.remaining ∧ c' = c := by
  rw [bind_eq_error_iff, take_eq_error_iff]
  simp [pure_ne_error]

/-- Elements run out behind the last complete one. -/
theorem repeated_int32_eq_error_iff : repeated int32 n c = .error e c' ↔
    ∃ k < n, 4 * k ≤ c.remaining ∧ c.remaining < 4 * (k + 1) ∧
      e = .truncated 4 (c.remaining - 4 * k) ∧ c' = c.advance (4 * k) := by
  induction n generalizing c with
  | zero => simp [repeated_zero, pure_ne_error]
  | succ n ih =>
    rw [repeated_succ, bind_eq_error_iff]
    simp only [map_eq_error_iff, ih]
    constructor
    · rintro (hfirst | ⟨x, c₁, hfirst, k, hk, hle, hlt, rfl, rfl⟩)
      · obtain ⟨hlt, rfl, rfl⟩ := field_eq_error_iff.mp hfirst
        exact ⟨0, Nat.succ_pos n, Nat.zero_le _, hlt, rfl, rfl⟩
      · obtain ⟨hn, -, rfl⟩ := field_eq_ok_iff.mp hfirst
        rw [Cursor.remaining_advance] at hle hlt ⊢
        refine ⟨k + 1, Nat.succ_lt_succ hk, by omega, by omega, ?_, ?_⟩
        · rw [show c.remaining - 4 - 4 * k = c.remaining - 4 * (k + 1) by omega]
        · rw [Cursor.advance_advance, show 4 + 4 * k = 4 * (k + 1) by omega]
    · rintro ⟨k, hk, hle, hlt, rfl, rfl⟩
      cases k with
      | zero => exact .inl (field_eq_error_iff.mpr ⟨hlt, rfl, rfl⟩)
      | succ k =>
        refine .inr ⟨_, _, field_eq_ok_iff.mpr ⟨by omega, rfl, rfl⟩, k, Nat.lt_of_succ_lt_succ hk,
          ?_, ?_, ?_, ?_⟩
        · rw [Cursor.remaining_advance]
          omega
        · rw [Cursor.remaining_advance]
          omega
        · rw [Cursor.remaining_advance,
            show c.remaining - 4 - 4 * k = c.remaining - 4 * (k + 1) by omega]
        · rw [Cursor.advance_advance, show 4 + 4 * k = 4 * (k + 1) by omega]

/-- The text behind a length that is read. -/
theorem text_eq_error_iff :
    (do
      let start := (← get).position
      match Utf8.decode (← take n) with
      | .ok text => return some text
      | .error fault => throw (.protocol (.invalidUtf8 start fault)) :
      Decoder (Option String)) c = .error e c' ↔
    (c.remaining < n ∧ e = .truncated n c.remaining ∧ c' = c) ∨
      ∃ fault, n ≤ c.remaining ∧ Utf8.decode (c.rest.take n) = .error fault ∧
        e = .protocol (.invalidUtf8 c.position fault) ∧ c' = c.advance n := by
  change (take n >>= fun bytes => match Utf8.decode bytes with
    | .ok text => pure (some text)
    | .error fault => throw (.protocol (.invalidUtf8 c.position fault)) :
    Decoder (Option String)) c = .error e c' ↔ _
  rw [bind_eq_error_iff, take_eq_error_iff]
  refine or_congr Iff.rfl ⟨?_, ?_⟩
  · rintro ⟨bytes, c₁, htake, hdecode⟩
    obtain ⟨hn, rfl, rfl⟩ := take_eq_ok_iff.mp htake
    cases hfault : Utf8.decode (c.rest.take n) with
    | ok text =>
      simp only [hfault] at hdecode
      cases hdecode
    | error fault =>
      simp only [hfault] at hdecode
      cases hdecode
      exact ⟨fault, hn, rfl, rfl, rfl⟩
  · rintro ⟨fault, hn, hfault, rfl, rfl⟩
    refine ⟨_, _, take_eq_ok_iff.mpr ⟨hn, rfl, rfl⟩, ?_⟩
    simp only [hfault]
    rfl

end Decoder

namespace Cursor

variable {c c' : Cursor} {op : Op} {e : WireError}

namespace Op

/-- An operation that does not go on behind the bytes that it reads first. -/
theorem exists_fails_iff {n : Nat} (hlead : op.lead = some n)
    (hop : op ∉ [string, bytes, int32s]) :
    (∃ k, Fails c op e k ∧ c' = c.advance k) ↔
      c.remaining < n ∧ e = .truncated n c.remaining ∧ c' = c := by
  constructor
  · rintro ⟨k, h, rfl⟩
    cases h with
    | short hlead' hlt =>
      obtain rfl := Option.some.inj (hlead.symm.trans hlead')
      exact ⟨hlt, rfl, rfl⟩
    | _ => simp at hop
  · rintro ⟨hlt, rfl, rfl⟩
    exact ⟨0, .short hlead hlt, rfl⟩

theorem run_string_eq_error_iff :
    Decoder.string c = .error e c' ↔ ∃ n, Fails c string e n ∧ c' = c.advance n := by
  rw [Decoder.string, Decoder.bind_eq_error_iff]
  constructor
  · rintro (hsize | ⟨size, c₁, hsize, hbody⟩)
    · obtain ⟨hlt, rfl, rfl⟩ := Decoder.field_eq_error_iff.mp hsize
      exact ⟨0, .short rfl hlt, rfl⟩
    · obtain ⟨hlead, rfl, rfl⟩ := Decoder.field_eq_ok_iff.mp hsize
      split at hbody
      · cases hbody
      split at hbody
      · cases hbody
      · next hpos =>
        have hpos := Int16.not_le.mp hpos
        rcases Decoder.text_eq_error_iff.mp hbody with ⟨hlt, rfl, rfl⟩ | ⟨fault, hle, hf, rfl, rfl⟩
        · rw [remaining_advance] at hlt ⊢
          exact ⟨2, .text rfl hpos hlead (by omega), rfl⟩
        · rw [remaining_advance] at hle
          exact ⟨_, .utf8 rfl hpos (by omega) hf, advance_advance c 2 _⟩
  · rintro ⟨n, h, rfl⟩
    cases h with
    | short hlead hlt =>
      cases hlead
      exact .inl (Decoder.field_eq_error_iff.mpr ⟨hlt, rfl, rfl⟩)
    | text hsize hpos hlead hlt =>
      refine .inr ⟨_, _, Decoder.field_eq_ok_iff.mpr ⟨hlead, hsize, rfl⟩, ?_⟩
      rw [if_neg fun h => absurd (h ▸ hpos) (by decide), if_neg (Int16.not_le.mpr hpos)]
      refine Decoder.text_eq_error_iff.mpr (.inl ⟨?_, ?_, rfl⟩)
      · rw [remaining_advance]
        omega
      · rw [remaining_advance]
    | utf8 hsize hpos hle hfault =>
      refine .inr ⟨_, _, Decoder.field_eq_ok_iff.mpr ⟨by omega, hsize, rfl⟩, ?_⟩
      rw [if_neg fun h => absurd (h ▸ hpos) (by decide), if_neg (Int16.not_le.mpr hpos)]
      refine Decoder.text_eq_error_iff.mpr (.inr ⟨_, ?_, hfault, rfl, ?_⟩)
      · rw [remaining_advance]
        omega
      · rw [advance_advance]

theorem run_bytes_eq_error_iff :
    Decoder.bytes c = .error e c' ↔ ∃ n, Fails c bytes e n ∧ c' = c.advance n := by
  rw [Decoder.bytes, Decoder.bind_eq_error_iff]
  constructor
  · rintro (hsize | ⟨size, c₁, hsize, hbody⟩)
    · obtain ⟨hlt, rfl, rfl⟩ := Decoder.field_eq_error_iff.mp hsize
      exact ⟨0, .short rfl hlt, rfl⟩
    · obtain ⟨hlead, rfl, rfl⟩ := Decoder.field_eq_ok_iff.mp hsize
      split at hbody
      · cases hbody
      split at hbody
      · cases hbody
      · next hnonpos =>
        have hpos := Int32.not_le.mp hnonpos
        obtain ⟨hlt, rfl, rfl⟩ := Decoder.field_eq_error_iff.mp hbody
        rw [remaining_advance] at hlt ⊢
        exact ⟨4, .array rfl hpos hlead (by omega), rfl⟩
  · rintro ⟨n, h, rfl⟩
    cases h with
    | short hlead hlt =>
      cases hlead
      exact .inl (Decoder.field_eq_error_iff.mpr ⟨hlt, rfl, rfl⟩)
    | array hsize hpos hlead hlt =>
      refine .inr ⟨_, _, Decoder.field_eq_ok_iff.mpr ⟨hlead, hsize, rfl⟩, ?_⟩
      rw [if_neg fun h => absurd (h ▸ hpos) (by decide), if_neg (Int32.not_le.mpr hpos)]
      refine Decoder.field_eq_error_iff.mpr ⟨?_, ?_, rfl⟩
      · rw [remaining_advance]
        omega
      · rw [remaining_advance]

theorem count_eq : Decoder.count =
    Decoder.take 4 >>= fun bytes => pure (BigEndian.toInt32 bytes).toNatClampNeg := by
  simp [Decoder.count, Decoder.int32]

theorem run_int32s_eq_error_iff :
    Decoder.int32s c = .error e c' ↔ ∃ n, Fails c int32s e n ∧ c' = c.advance n := by
  rw [Decoder.int32s, Decoder.counted, Decoder.bind_eq_error_iff, count_eq]
  constructor
  · rintro (hcount | ⟨n, c₁, hcount, helements⟩)
    · obtain ⟨hlt, rfl, rfl⟩ := Decoder.field_eq_error_iff.mp hcount
      exact ⟨0, .short rfl hlt, rfl⟩
    · obtain ⟨hlead, rfl, rfl⟩ := Decoder.field_eq_ok_iff.mp hcount
      obtain ⟨k, hk, hle, hlt, rfl, rfl⟩ := Decoder.repeated_int32_eq_error_iff.mp helements
      rw [remaining_advance] at hle hlt ⊢
      rw [advance_advance, Nat.sub_sub]
      exact ⟨_, .elements hk (by omega) (by omega), rfl⟩
  · rintro ⟨n, h, rfl⟩
    cases h with
    | short hlead hlt =>
      cases hlead
      exact .inl (Decoder.field_eq_error_iff.mpr ⟨hlt, rfl, rfl⟩)
    | elements hk hle hlt =>
      refine .inr ⟨_, _, Decoder.field_eq_ok_iff.mpr ⟨by omega, rfl, rfl⟩,
        Decoder.repeated_int32_eq_error_iff.mpr ⟨_, hk, ?_, ?_, ?_, ?_⟩⟩
      · rw [remaining_advance]
        omega
      · rw [remaining_advance]
        omega
      · rw [remaining_advance, Nat.sub_sub]
      · rw [advance_advance]

/-- How an operation fails, and where it leaves the cursor. -/
theorem run_eq_error_iff (op : Op) :
    op.run c = .error e c' ↔ ∃ n, Fails c op e n ∧ c' = c.advance n := by
  cases op with
  | string => exact (Decoder.map_eq_error_iff _).trans run_string_eq_error_iff
  | bytes => exact (Decoder.map_eq_error_iff _).trans run_bytes_eq_error_iff
  | int32s => exact (Decoder.map_eq_error_iff _).trans run_int32s_eq_error_iff
  | uint8 | int16 | int32 | int64 =>
    rw [exists_fails_iff rfl (by simp), run, Decoder.map_eq_error_iff]
    exact Decoder.field_eq_error_iff
  | count =>
    rw [exists_fails_iff rfl (by simp), run, Decoder.map_eq_error_iff]
    rw [count_eq]
    exact Decoder.field_eq_error_iff
  | take n =>
    rw [exists_fails_iff rfl (by simp), run, Decoder.map_eq_error_iff]
    exact Decoder.take_eq_error_iff
  | skip n =>
    rw [exists_fails_iff rfl (by simp), run, Decoder.map_eq_error_iff]
    exact Decoder.field_eq_error_iff
  | available | hasData | remaining | position =>
    refine ⟨fun h => ?_, fun h => ?_⟩
    · cases h
    · obtain ⟨n, h, -⟩ := h
      cases h with
      | short hlead => cases hlead

/-! ### Operations one after the other -/

theorem outcome_eq_error_iff :
    op.outcome c = .error e ↔ ∃ n, Fails c op e n ∧ op.next c = c.advance n := by
  rw [← run_eq_error_iff]
  unfold outcome next
  cases op.run c <;> simp

/-- What is read off the unread bytes alone, with no mention of a place. -/
theorem exists_outcome_of_local {α : Type} {d : Decoder α} {g : α → Answer} (h : d.Local)
    (hg : ∀ n a, (g a).shift n = g a) (hrun : op.run = g <$> d) (rest : Bytes) :
    ∃ n ≤ rest.length, ∃ r, ∀ buffer position,
      op.outcome ⟨buffer, position, rest⟩ = shiftOutcome position r ∧
        op.next ⟨buffer, position, rest⟩ = ⟨buffer, position + n, rest.drop n⟩ := by
  unfold outcome next
  rw [hrun, map_eq_pure_bind]
  obtain ⟨n, hn, ⟨a, ha⟩ | ⟨e, he⟩⟩ := h rest
  · refine ⟨n, hn, .ok (g a), fun buffer position => ?_⟩
    rw [Decoder.bind_of_eq_ok (ha buffer position), shiftOutcome, hg]
    exact ⟨rfl, rfl⟩
  · refine ⟨n, hn, .error e, fun buffer position => ?_⟩
    rw [Decoder.bind_of_eq_error (he buffer position)]
    exact ⟨rfl, rfl⟩

/-- What an operation comes to is settled by the unread bytes and, where a place is told, by where
the cursor stands. It reads some of the unread bytes. -/
theorem exists_outcome (op : Op) (rest : Bytes) :
    ∃ n ≤ rest.length, ∃ r, ∀ buffer position,
      op.outcome ⟨buffer, position, rest⟩ = shiftOutcome position r ∧
        op.next ⟨buffer, position, rest⟩ = ⟨buffer, position + n, rest.drop n⟩ := by
  cases op with
  | uint8 => exact exists_outcome_of_local Decoder.local_uint8 (fun _ _ => rfl) rfl rest
  | int16 => exact exists_outcome_of_local Decoder.local_int16 (fun _ _ => rfl) rfl rest
  | int32 => exact exists_outcome_of_local Decoder.local_int32 (fun _ _ => rfl) rfl rest
  | int64 => exact exists_outcome_of_local Decoder.local_int64 (fun _ _ => rfl) rfl rest
  | string => exact exists_outcome_of_local Decoder.local_string (fun _ _ => rfl) rfl rest
  | bytes => exact exists_outcome_of_local Decoder.local_bytes (fun _ _ => rfl) rfl rest
  | count => exact exists_outcome_of_local Decoder.local_count (fun _ _ => rfl) rfl rest
  | int32s => exact exists_outcome_of_local Decoder.local_int32s (fun _ _ => rfl) rfl rest
  | take n => exact exists_outcome_of_local (Decoder.local_take n) (fun _ _ => rfl) rfl rest
  | skip n => exact exists_outcome_of_local (Decoder.local_skip n) (fun _ _ => rfl) rfl rest
  | available n =>
    exact ⟨0, Nat.zero_le _, .ok (.available (n ≤ rest.length)), fun _ _ => ⟨rfl, rfl⟩⟩
  | hasData => exact ⟨0, Nat.zero_le _, .ok (.hasData !rest.isEmpty), fun _ _ => ⟨rfl, rfl⟩⟩
  | remaining => exact ⟨0, Nat.zero_le _, .ok (.remaining rest.length), fun _ _ => ⟨rfl, rfl⟩⟩
  | position => exact ⟨0, Nat.zero_le _, .ok (.position 0), fun _ _ => ⟨rfl, rfl⟩⟩

end Op

variable {ops : List Op}

theorem shiftOutcome_shiftOutcome (m n : Nat) (r : Except WireError Answer) :
    shiftOutcome m (shiftOutcome n r) = shiftOutcome (m + n) r := by
  cases r with
  | ok answer =>
    cases answer with
    | position p => simp [shiftOutcome, Answer.shift, Nat.add_assoc]
    | _ => rfl
  | error e => simp [shiftOutcome, WireError.shift_shift]

/-- Operations read some of the unread bytes. -/
theorem exists_after (c : Cursor) (ops : List Op) :
    ∃ n ≤ c.remaining, c.after ops = c.advance n := by
  induction ops generalizing c with
  | nil => exact ⟨0, Nat.zero_le _, rfl⟩
  | cons op ops ih =>
    obtain ⟨n, hn, r, h⟩ := op.exists_outcome c.rest
    have hnext : op.next c = c.advance n := (h c.buffer c.position).2
    obtain ⟨m, hm, hafter⟩ := ih (c.advance n)
    rw [remaining_advance] at hm
    refine ⟨n + m, ?_, ?_⟩
    · change n ≤ c.remaining at hn
      omega
    · rw [after, hnext, hafter, advance_advance]

/-- Operations on a cursor that stands elsewhere, in front of the same bytes. -/
theorem outcomes_shift (buffer : Bytes) (start : Nat) (c : Cursor) (ops : List Op) :
    outcomes ⟨buffer, start + c.position, c.rest⟩ ops =
        (c.outcomes ops).map (shiftOutcome start) ∧
      after ⟨buffer, start + c.position, c.rest⟩ ops =
        ⟨buffer, start + (c.after ops).position, (c.after ops).rest⟩ := by
  induction ops generalizing c with
  | nil => exact ⟨rfl, rfl⟩
  | cons op ops ih =>
    obtain ⟨n, -, r, h⟩ := op.exists_outcome c.rest
    have houtcome : op.outcome c = shiftOutcome c.position r := (h c.buffer c.position).1
    have hnext : op.next c = c.advance n := (h c.buffer c.position).2
    obtain ⟨houtcome', hnext'⟩ := h buffer (start + c.position)
    rw [outcomes, outcomes, after, after, houtcome, houtcome', hnext, hnext', Nat.add_assoc,
      List.map_cons, shiftOutcome_shiftOutcome]
    obtain ⟨houtcomes, hafter⟩ := ih (c.advance n)
    exact ⟨congrArg (_ :: ·) houtcomes, hafter⟩

/-- The bytes of a window. -/
theorem take_size_eq {bytes : Bytes} {greatest : Nat} (h : bytes.length ≤ greatest)
    (offset size : Nat) :
    (bytes.drop (windowStart bytes offset)).take size =
      (bytes.drop (windowStart bytes offset)).take
        (windowEnd greatest bytes offset size - windowStart bytes offset) := by
  rw [List.take_eq_take_iff, List.length_drop, windowEnd]
  omega

/-- A cursor at the start of a window answers each of any number of operations as a cursor over a
copy of the window does, with the start of the window added to every place, and the bytes around the
window play no part. All along the cursor stands between the start and the end of the window, in
front of what is left of the window, and it never goes back. How an operation fails and where it
then leaves the cursor is told by `Op.Fails`. -/
theorem window_eq_slice (bytes : Bytes) (offset size : Nat) {greatest : Nat}
    (h : bytes.length ≤ greatest) (ops : List Op) :
    let start := windowStart bytes offset
    let stop := windowEnd greatest bytes offset size
    let slice := (bytes.drop start).take (stop - start)
    let c := (window bytes offset size).after ops
    (window bytes offset size).outcomes ops =
        ((ofBytes slice).outcomes ops).map (shiftOutcome start) ∧
      c.position = start + ((ofBytes slice).after ops).position ∧
      (∀ front back : Bytes, front.length = start →
        (window (front ++ slice ++ back) start slice.length).outcomes ops =
          (window bytes offset size).outcomes ops) ∧
      (start ≤ c.position ∧ c.position ≤ stop ∧ stop ≤ bytes.length) ∧
      c.rest = (bytes.drop c.position).take (stop - c.position) ∧
      (∀ more, c.position ≤ (c.after more).position) ∧
      ∀ op e, op.outcome c = .error e ↔ ∃ n, Op.Fails c op e n ∧ op.next c = c.advance n := by
  intro start stop slice c
  have hwindow : window bytes offset size = ⟨bytes, start + 0, slice⟩ :=
    congrArg (Cursor.mk bytes start) (take_size_eq h offset size)
  have hshift (buffer : Bytes) := outcomes_shift buffer start (ofBytes slice) ops
  have hstart : start ≤ stop := by
    simp only [start, stop, windowEnd, windowStart]
    omega
  have hstop : stop ≤ bytes.length := Nat.min_le_right _ _
  have hlength : slice.length = stop - start := by
    rw [List.length_take, List.length_drop]
    omega
  have hafter : c = (⟨bytes, start + 0, slice⟩ : Cursor).after ops :=
    congrArg (Cursor.after · ops) hwindow
  obtain ⟨n, hn, hadvance⟩ := exists_after ⟨bytes, start + 0, slice⟩ ops
  rw [← hafter] at hadvance
  have hposition : c.position = start + n := congrArg Cursor.position hadvance
  have hrest : c.rest = slice.drop n := congrArg Cursor.rest hadvance
  change n ≤ slice.length at hn
  refine ⟨?_, ?_, fun front back hfront => ?_, ⟨?_, ?_, hstop⟩, ?_, fun more => ?_, fun op e =>
    Op.outcome_eq_error_iff⟩
  · rw [hwindow]
    exact (hshift bytes).1
  · rw [hafter]
    exact congrArg Cursor.position (hshift bytes).2
  · have haround : window (front ++ slice ++ back) start slice.length =
        ⟨front ++ slice ++ back, start + 0, slice⟩ := by
      rw [← hfront, List.append_assoc, window_append, List.take_left]
      rfl
    rw [haround, hwindow]
    exact (hshift _).1.trans (hshift bytes).1.symm
  · omega
  · omega
  · rw [hrest, hposition, List.drop_take, List.drop_drop, Nat.sub_sub]
  · obtain ⟨m, -, hmore⟩ := exists_after c more
    rw [hmore]
    exact Nat.le_add_right _ _

/-- A list that runs out and then a text that is not UTF-8, in a window of which only the start lies
inside the byte string and whose end is past the greatest 64-bit number. -/
theorem window_eq_slice_past_end :
    let bytes : Bytes := [7, 0, 0, 0, 2, 0, 0, 0, 5, 0, 1, 255]
    let ops := [Op.int32s, .position, .string, .position, .uint8, .remaining]
    bytes.length ≤ 18446744073709551615 ∧
      (window bytes 1 18446744073709551615).outcomes ops =
        [.error (.truncated 4 3), .ok (.position 9),
          .error (.protocol (.invalidUtf8 11 (.invalid 1 0))), .ok (.position 12),
          .error (.truncated 1 0), .ok (.remaining 0)] ∧
      (ofBytes bytes.tail).outcomes ops =
        [.error (.truncated 4 3), .ok (.position 8),
          .error (.protocol (.invalidUtf8 10 (.invalid 1 0))), .ok (.position 11),
          .error (.truncated 1 0), .ok (.remaining 0)] := by
  intro bytes ops
  have hlength : bytes.length ≤ 18446744073709551615 := by decide
  have hslice : (bytes.drop (windowStart bytes 1)).take
      (windowEnd 18446744073709551615 bytes 1 18446744073709551615 - windowStart bytes 1) =
        bytes.tail := by
    decide +kernel
  have htail : (ofBytes bytes.tail).outcomes ops =
      [.error (.truncated 4 3), .ok (.position 8),
        .error (.protocol (.invalidUtf8 10 (.invalid 1 0))), .ok (.position 11),
        .error (.truncated 1 0), .ok (.remaining 0)] := by
    decide +kernel
  obtain ⟨houtcomes, -⟩ := window_eq_slice bytes 1 18446744073709551615 hlength ops
  rw [hslice, htail] at houtcomes
  exact ⟨hlength, houtcomes, htail⟩

end Cursor

end BrokerWire
