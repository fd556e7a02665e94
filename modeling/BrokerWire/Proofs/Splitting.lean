import BrokerWire.Proofs.Records
import Mathlib.Data.List.Forall2

/-!
# Splitting a message set

Every byte string is a run of records and then something that no whole record stands in front of
(`splits_records`), and it is that in one way only (`Splits.unique`). It decodes to one message for
each of its records, or it fails for the first record that does not decode
(`Splits.decode_eq_ok_iff`, `Splits.decode_eq_error_iff`).
-/

namespace BrokerWire

/-! ### Lists of attempts -/

section Attempts

variable {ε α β : Type} {f : α → Except ε β}

/-- All attempts succeed, each with the result in its place. -/
theorem mapM_eq_ok_iff {as : List α} {bs : List β} :
    as.mapM f = .ok bs ↔ List.Forall₂ (fun a b => f a = .ok b) as bs := by
  induction as generalizing bs with
  | nil =>
    rw [List.mapM_nil, List.forall₂_nil_left_iff]
    exact ⟨fun h => (Except.ok.inj h).symm, fun h => h ▸ rfl⟩
  | cons a as ih =>
    rw [List.mapM_cons, List.forall₂_cons_left_iff]
    simp only [← ih]
    cases f a with
    | error e => exact ⟨fun h => by contradiction, fun ⟨_, _, h, _⟩ => by contradiction⟩
    | ok b =>
      cases as.mapM f with
      | error e => exact ⟨fun h => by contradiction, fun ⟨_, _, _, h, _⟩ => by contradiction⟩
      | ok bs' =>
        refine ⟨fun h => ⟨b, bs', rfl, rfl, (Except.ok.inj h).symm⟩, ?_⟩
        rintro ⟨_, _, ⟨⟩, ⟨⟩, rfl⟩
        rfl

/-- Attempts behind others are made if these succeed. -/
theorem mapM_append_eq_bind (as as' : List α) :
    (as ++ as').mapM f = as.mapM f >>= fun bs => (bs ++ ·) <$> as'.mapM f := by
  rw [List.mapM_append]
  simp only [map_eq_pure_bind]

/-- The first attempt that fails is the failure of the whole. -/
theorem mapM_append_eq_error {before after : List α} {a : α} {e : ε}
    (hbefore : ∀ a ∈ before, ∃ b, f a = .ok b) (ha : f a = .error e) :
    (before ++ a :: after).mapM f = .error e := by
  induction before with
  | nil =>
    rw [List.nil_append, List.mapM_cons, ha]
    rfl
  | cons a' before ih =>
    obtain ⟨⟨b, ha'⟩, hbefore⟩ := List.forall_mem_cons.mp hbefore
    rw [List.cons_append, List.mapM_cons, ha', ih hbefore]
    rfl

theorem mapM_eq_error_iff {as : List α} {e : ε} :
    as.mapM f = .error e ↔ ∃ before a after, as = before ++ a :: after ∧
      (∀ a ∈ before, ∃ b, f a = .ok b) ∧ f a = .error e := by
  refine ⟨fun h => ?_, fun ⟨before, a, after, has, hbefore, ha⟩ =>
    has ▸ mapM_append_eq_error hbefore ha⟩
  induction as with
  | nil => contradiction
  | cons a as ih =>
    rw [List.mapM_cons] at h
    cases ha : f a with
    | error e' =>
      rw [ha] at h
      cases h
      exact ⟨[], a, as, rfl, by simp, ha⟩
    | ok b =>
      -- the failure is one of the others
      rw [ha] at h
      cases has : as.mapM f with
      | ok bs =>
        rw [has] at h
        contradiction
      | error e' =>
        rw [has] at h
        cases h
        obtain ⟨before, a', after, rfl, hbefore, ha'⟩ := ih has
        exact ⟨a :: before, a', after, rfl, List.forall_mem_cons.mpr ⟨⟨b, ha⟩, hbefore⟩, ha'⟩

end Attempts

namespace MessageSet

/-- No whole record stands in front: there are too few bytes for an offset and a size, or the size
is negative, or there are fewer bytes behind the size than it says. -/
inductive Stops : Bytes → Prop
  | header {set : Bytes} (h : set.length < 12) : Stops set
  | size (offset : Int64) (size : Int32) {rest : Bytes}
    (h : size < 0 ∨ rest.length < size.toNatClampNeg) :
    Stops (BigEndian.ofInt64 offset ++ (BigEndian.ofInt32 size ++ rest))

/-- A byte string is these records, one behind the other, and then something else. -/
structure Splits (set : Bytes) (records : List Record) (stop : Bytes) : Prop where
  /-- The bytes of the records come first. -/
  spelled : set = records.flatMap Record.bytes ++ stop
  /-- The size in front of a body can say how long the body is. -/
  fits : ∀ record ∈ records, record.body.length < lengthLimit
  /-- Behind them stands no further record. -/
  stops : Stops stop

/-! ### Records and the bytes behind them -/

/-- Enough bytes for an offset and a size spell an offset and a size. -/
theorem exists_header {set : Bytes} (h : 12 ≤ set.length) : ∃ offset size rest,
    set = BigEndian.ofInt64 offset ++ (BigEndian.ofInt32 size ++ rest) := by
  obtain ⟨offset, behind, rfl⟩ := BigEndian.exists_ofInt64_append (Nat.le_trans (by decide) h)
  rw [List.length_append, BigEndian.length_ofInt64] at h
  obtain ⟨size, rest, rfl⟩ := BigEndian.exists_ofInt32_append (Nat.le_of_add_le_add_left h)
  exact ⟨offset, size, rest, rfl⟩

theorem Stops.nextRecord?_eq {set : Bytes} (h : Stops set) : nextRecord? set = none := by
  cases h with
  | header h =>
    rw [nextRecord?]
    exact if_pos (by rw [List.length_take, headerSize]; omega)
  | size offset size h => rw [nextRecord?_header, if_pos h]

/-- There is a whole record in front, or there is none. -/
theorem stops_or_append (set : Bytes) : Stops set ∨ ∃ record rest,
    set = Record.bytes record ++ rest ∧ record.body.length < lengthLimit := by
  by_cases hlength : set.length < 12
  · exact .inl (.header hlength)
  obtain ⟨offset, size, rest, rfl⟩ := exists_header (Nat.le_of_not_lt hlength)
  by_cases hstop : size < 0 ∨ rest.length < size.toNatClampNeg
  · exact .inl (.size offset size hstop)
  obtain ⟨hnonneg, hwhole⟩ := not_or.mp hstop
  have hbody : (rest.take size.toNatClampNeg).length = size.toNatClampNeg :=
    List.length_take_of_le (Nat.le_of_not_lt hwhole)
  have hsize : Int32.ofNat size.toNatClampNeg = size :=
    Int32.ofNat_toNatClampNeg size (Int32.not_lt.mp hnonneg)
  refine .inr ⟨⟨offset, rest.take size.toNatClampNeg⟩, rest.drop size.toNatClampNeg, ?_, ?_⟩
  · rw [Record.bytes, hbody, hsize, List.append_assoc, List.append_assoc, List.take_append_drop]
  · rw [hbody]
    exact size.toNatClampNeg_lt

theorem Stops.records_eq {set : Bytes} (h : Stops set) : records set = [] := by
  rw [records]
  split
  · rfl
  · next hsome =>
    rw [h.nextRecord?_eq] at hsome
    contradiction

theorem length_bytes (record : Record) : record.bytes.length = 12 + record.body.length := by
  rw [Record.bytes, List.length_append, List.length_append, BigEndian.length_ofInt64,
    BigEndian.length_ofInt32]
  omega

/-! ### Splitting -/

theorem Stops.splits {set : Bytes} (h : Stops set) : Splits set [] set :=
  ⟨rfl, by simp, h⟩

theorem Splits.cons {set stop : Bytes} {records : List Record} (h : Splits set records stop)
    {record : Record} (hrecord : record.body.length < lengthLimit) :
    Splits (record.bytes ++ set) (record :: records) stop where
  spelled := by rw [h.spelled, List.flatMap_cons, List.append_assoc]
  fits := List.forall_mem_cons.mpr ⟨hrecord, h.fits⟩
  stops := h.stops

/-- Splitting off a record leaves a set that is split into the others. -/
theorem Splits.exists_of_cons {set stop : Bytes} {record : Record} {records : List Record}
    (h : Splits set (record :: records) stop) :
    ∃ set', set = record.bytes ++ set' ∧ record.body.length < lengthLimit ∧
      Splits set' records stop := by
  obtain ⟨hrecord, hrecords⟩ := List.forall_mem_cons.mp h.fits
  refine ⟨records.flatMap Record.bytes ++ stop, ?_, hrecord, rfl, hrecords, h.stops⟩
  rw [h.spelled, List.flatMap_cons, List.append_assoc]

theorem splits_records (set : Bytes) : ∃ stop, Splits set (records set) stop := by
  obtain hstops | ⟨record, rest, rfl, hrecord⟩ := stops_or_append set
  · rw [hstops.records_eq]
    exact ⟨set, hstops.splits⟩
  · obtain ⟨stop, hrest⟩ := splits_records rest
    rw [records_append hrecord]
    exact ⟨stop, hrest.cons hrecord⟩
termination_by set.length
decreasing_by
  subst_vars
  rw [List.length_append, length_bytes]
  omega

theorem Splits.records_eq {set stop : Bytes} {records : List Record}
    (h : Splits set records stop) : MessageSet.records set = records := by
  induction records generalizing set with
  | nil =>
    rw [h.spelled]
    exact h.stops.records_eq
  | cons record records ih =>
    obtain ⟨set, rfl, hrecord, hset⟩ := h.exists_of_cons
    rw [records_append hrecord, ih hset]

theorem Splits.unique {set stop stop' : Bytes} {records records' : List Record}
    (h : Splits set records stop) (h' : Splits set records' stop') :
    records' = records ∧ stop' = stop := by
  have hrecords : records' = records := h'.records_eq.symm.trans h.records_eq
  refine ⟨hrecords, ?_⟩
  have hspelled := h'.spelled.symm.trans h.spelled
  rw [hrecords] at hspelled
  exact List.append_cancel_left hspelled

/-! ### Decoding -/

variable {set stop : Bytes} {records : List Record} {partitionId : Int32}

theorem Splits.decode_eq_ok_iff (h : Splits set records stop) {messages : List Message} :
    decode set partitionId = .ok messages ↔
      List.Forall₂ (fun record m => record.decode partitionId = .ok m) records messages := by
  rw [decode, h.records_eq]
  exact mapM_eq_ok_iff

theorem Splits.decode_eq_error_iff (h : Splits set records stop) {e : WireError} :
    decode set partitionId = .error e ↔ ∃ before record after, records = before ++ record :: after ∧
      (∀ r ∈ before, ∃ m, r.decode partitionId = .ok m) ∧
      record.decode partitionId = .error e := by
  rw [decode, h.records_eq]
  exact mapM_eq_error_iff

end MessageSet

end BrokerWire
