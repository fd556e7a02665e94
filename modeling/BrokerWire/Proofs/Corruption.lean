import BrokerWire.Proofs.Acceptance
import BrokerWire.Proofs.Checksum.Bursts

/-!
# Corrupted message sets

A record of a set that decodes holds its own checksum. Errors that lie within 32 consecutive bits of
what the checksum covers change the checksum and not its copy in the record, and errors in the copy
change only that, so either way the two differ. The records in front still decode, and nothing
behind is looked at. Main statement: `decode_corrupted`, such errors are always reported, with the
offset of the record that they are in.
-/

namespace BrokerWire

namespace MessageSet

open Checksum

/-- What stands in front of the body of a record: the records before it, its offset and its
size. -/
def inFront (before : List Record) (offset : Int64) (size : Nat) : Bytes :=
  before.flatMap Record.bytes ++ (BigEndian.ofInt64 offset ++ BigEndian.ofInt32 (Int32.ofNat size))

/-- With these bytes for the body of the record at `offset`, the set fails for the checksum of that
record, whatever stands behind them. -/
def Detected (front : Bytes) (partitionId : Int32) (offset : Int64) (body : Bytes) : Prop :=
  ∀ rest, decode (front ++ (body ++ rest)) partitionId = .error (.crcMismatch offset)

/-! ### Records that decode -/

variable {partitionId : Int32}

/-- In a set that decodes every record does. -/
theorem Splits.exists_decode {set stop : Bytes} {records : List Record} {messages : List Message}
    (h : Splits set records stop) (hok : decode set partitionId = .ok messages) :
    ∀ record ∈ records, ∃ m, record.decode partitionId = .ok m := by
  have hall := h.decode_eq_ok_iff.mp hok
  clear h hok
  induction hall with
  | nil => simp
  | cons hrecord _ ih => exact List.forall_mem_cons.mpr ⟨⟨_, hrecord⟩, ih⟩

theorem Splits.append {set stop : Bytes} {records : List Record} (h : Splits set records stop)
    {before : List Record} (hbefore : ∀ record ∈ before, record.body.length < lengthLimit) :
    Splits (before.flatMap Record.bytes ++ set) (before ++ records) stop where
  spelled := by rw [h.spelled, List.flatMap_append, List.append_assoc]
  fits := List.forall_mem_append.mpr ⟨hbefore, h.fits⟩
  stops := h.stops

/-- A record that decodes is its checksum and the bytes that the checksum is of. -/
theorem exists_of_decode {offset : Int64} {body : Bytes} {m : Message}
    (h : Record.decode partitionId ⟨offset, body⟩ = .ok m) :
    ∃ covered, body = stored (crc32 covered) ++ covered := by
  obtain ⟨offset, slack, hfields⟩ := Record.decode_eq_ok_iff.mp h
  exact ⟨_, by rw [crc32_eq_bitwise]⟩

theorem inFront_append (before : List Record) (offset : Int64) (body rest : Bytes) :
    inFront before offset body.length ++ (body ++ rest) =
      before.flatMap Record.bytes ++ (Record.bytes ⟨offset, body⟩ ++ rest) := by
  simp only [inFront, Record.bytes, List.append_assoc]

/-- A checksum that is not the one of the bytes behind it is reported. -/
theorem detected_of_ne {before : List Record}
    (hfits : ∀ record ∈ before, record.body.length < lengthLimit)
    (hbefore : ∀ record ∈ before, ∃ m, record.decode partitionId = .ok m) (offset : Int64)
    {sum covered : Bytes} (hsum : sum.length = 4) (hlength : (sum ++ covered).length < lengthLimit)
    (hne : stored (crc32 covered) ≠ sum) :
    Detected (inFront before offset (sum ++ covered).length) partitionId offset
      (sum ++ covered) := by
  intro rest
  obtain ⟨stop, hrest⟩ := splits_records rest
  have hbehind : Splits (Record.bytes ⟨offset, sum ++ covered⟩ ++ rest)
      (⟨offset, sum ++ covered⟩ :: records rest) stop := hrest.cons hlength
  rw [inFront_append]
  refine (hbehind.append hfits).decode_eq_error_iff.mpr ⟨before, _, records rest, rfl, hbefore, ?_⟩
  rw [Record.decode_stored_append hsum, if_pos hne]

/-! ### Detection -/

/-- Take a record of a set that decodes. Flipping the bits of a burst in what its checksum covers,
or changing the checksum, makes the set fail with the offset of the record, whatever stands behind
it. So do a single flipped bit and changes within four adjacent bytes. -/
theorem decode_corrupted {set stop body : Bytes} {before after : List Record} {offset : Int64}
    {messages : List Message} (hset : Splits set (before ++ ⟨offset, body⟩ :: after) stop)
    (hok : decode set partitionId = .ok messages) :
    ∃ front sum covered, front = inFront before offset body.length ∧
      body = sum ++ covered ∧ sum.length = 4 ∧
      set = front ++ (sum ++ covered ++ (after.flatMap Record.bytes ++ stop)) ∧
      (∀ error, error.length = covered.length → IsBurst error →
        Detected front partitionId offset (sum ++ flipped covered error)) ∧
      (∀ sum', sum'.length = 4 → sum' ≠ sum →
        Detected front partitionId offset (sum' ++ covered)) ∧
      (∀ i covered', i < (bits covered).length → bits covered' = (bits covered).modify i not →
        Detected front partitionId offset (sum ++ covered')) ∧
      ∀ start covered', covered'.length = covered.length → covered' ≠ covered →
        (∀ i : Nat, covered'[i]? ≠ covered[i]? → start ≤ i ∧ i < start + 4) →
        Detected front partitionId offset (sum ++ covered') := by
  obtain ⟨hdecodeBefore, hdecodeBehind⟩ :=
    List.forall_mem_append.mp (hset.exists_decode hok)
  obtain ⟨m, hm⟩ := hdecodeBehind _ List.mem_cons_self
  obtain ⟨hfitsBefore, hfitsBehind⟩ := List.forall_mem_append.mp hset.fits
  have hfits := hfitsBehind _ List.mem_cons_self
  obtain ⟨covered, rfl⟩ := exists_of_decode hm
  -- the size does not change with the bytes
  have hdetected {sum covered' : Bytes} (hsum : sum.length = 4)
      (hlength : covered'.length = covered.length) (hne : stored (crc32 covered') ≠ sum) :
      Detected (inFront before offset (stored (crc32 covered) ++ covered).length) partitionId offset
        (sum ++ covered') := by
    have hsame : (stored (crc32 covered) ++ covered).length = (sum ++ covered').length := by
      rw [List.length_append, List.length_append, length_stored, hsum, hlength]
    rw [hsame] at hfits ⊢
    exact detected_of_ne hfitsBefore hdecodeBefore offset hsum hfits hne
  refine ⟨_, stored (crc32 covered), covered, rfl, rfl, length_stored _, ?_,
    fun error herror hburst => ?_, fun sum hsum hne => ?_, fun i covered' hi hbits => ?_,
    fun start covered' hlength hne hwithin => ?_⟩
  · rw [hset.spelled, inFront_append, List.flatMap_append, List.flatMap_cons, List.append_assoc,
      List.append_assoc]
  · exact hdetected (length_stored _) (length_flipped herror)
      (mt stored_inj.mp (crc32_flipped_ne herror hburst))
  · exact hdetected hsum rfl hne.symm
  · refine hdetected (length_stored _) ?_ (mt stored_inj.mp (crc32_ne_of_bit hi hbits))
    have hlength := congrArg List.length hbits
    rw [List.length_modify, length_bits, length_bits] at hlength
    omega
  · exact hdetected (length_stored _) hlength
      (mt stored_inj.mp (crc32_ne_of_bytes hlength hne start hwithin))

/-- The last bit of the second of two messages is flipped, and three more bytes follow. -/
theorem decode_corrupted_two :
    decode (Record.bytes ⟨3, bodyOf {}⟩ ++ Record.bytes ⟨7, bodyOf { value := some [1] }⟩) 5 =
        .ok [⟨3, 5, 0, 0, none, none⟩, ⟨7, 5, 0, 0, none, some [1]⟩] ∧
      decode (Record.bytes ⟨3, bodyOf {}⟩ ++ (Record.bytes
          ⟨7, stored (crc32 [0, 0, 255, 255, 255, 255, 0, 0, 0, 1, 1]) ++
            [0, 0, 255, 255, 255, 255, 0, 0, 0, 1, 129]⟩ ++ [1, 2, 3])) 5 =
        .error (.crcMismatch 7) := by
  have hfirst : Fits {} := by
    unfold Fits
    decide
  have hsecond : Fits { value := some [1] } := by
    unfold Fits
    decide
  have hbodyFirst : (Record.mk 3 (bodyOf {})).body.length < lengthLimit := hfirst.length_ofMessage
  have hbodySecond : (Record.mk 7 (bodyOf { value := some [1] })).body.length < lengthLimit :=
    hsecond.length_ofMessage
  have hset : Splits (Record.bytes ⟨3, bodyOf {}⟩ ++
      (Record.bytes ⟨7, bodyOf { value := some [1] }⟩ ++ []))
      ([⟨3, bodyOf {}⟩] ++ ⟨7, bodyOf { value := some [1] }⟩ :: []) [] :=
    ((Stops.header (by decide)).splits.cons hbodySecond).cons hbodyFirst
  have hok : decode (Record.bytes ⟨3, bodyOf {}⟩ ++
      (Record.bytes ⟨7, bodyOf { value := some [1] }⟩ ++ [])) 5 =
      .ok [⟨3, 5, 0, 0, none, none⟩, ⟨7, 5, 0, 0, none, some [1]⟩] := by
    rw [decode_append hbodyFirst (decode_bodyOf hfirst (by decide) 3 5),
      decode_append hbodySecond (decode_bodyOf hsecond (by decide) 7 5)]
    simp [decode, records, nextRecord?, headerSize, pure, Except.pure, Except.map]
  obtain ⟨front, sum, bytes, rfl, hbody, hsum, -, -, -, hbit, -⟩ := decode_corrupted hset hok
  have hcovered : covered { value := some [1] } = [0, 0, 255, 255, 255, 255, 0, 0, 0, 1, 1] := by
    decide
  obtain ⟨rfl, rfl⟩ := List.append_inj hbody ((length_stored _).trans hsum.symm)
  rw [hcovered] at hbit
  have hdetected := hbit 87 [0, 0, 255, 255, 255, 255, 0, 0, 0, 1, 129] (by decide) (by decide)
  exact ⟨by rwa [List.append_nil] at hok, hdetected [1, 2, 3]⟩

end MessageSet

end BrokerWire
