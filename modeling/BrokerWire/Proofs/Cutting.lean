import BrokerWire.Proofs.Acceptance

/-!
# Cutting a message set

A broker cuts a set at a byte count. What is left is split into the records that lie wholly inside
(`Splits.take`), and these are the first ones of the set (`within_prefix`). Main statement:
`decode_take`, so a cut set either decodes to the messages of those records or fails as the whole
set does.
-/

namespace BrokerWire

namespace MessageSet

/-- Records and the positions right behind them, the first record standing at `start`. -/
def ends (start : Nat) : List Record → List (Record × Nat)
  | [] => []
  | record :: records =>
    let behind := start + record.bytes.length
    (record, behind) :: ends behind records

/-- The records that lie wholly inside the first `k` bytes. -/
def within (k : Nat) (records : List Record) : List Record :=
  ((ends 0 records).filter fun x => x.2 ≤ k).map Prod.fst

/-! ### Records inside and behind the cut -/

theorem ends_add (start n : Nat) (records : List Record) :
    ends (start + n) records = (ends start records).map fun x => (x.1, x.2 + n) := by
  induction records generalizing start with
  | nil => rfl
  | cons record records ih =>
    simp only [ends, List.map_cons, ← ih, Nat.add_right_comm start n]

theorem within_cons (k : Nat) (record : Record) (records : List Record) :
    within k (record :: records) =
      if record.bytes.length ≤ k then record :: within (k - record.bytes.length) records
      else [] := by
  have hlater : ((ends record.bytes.length records).filter fun x => x.2 ≤ k) =
      ((ends 0 records).filter fun x => x.2 + record.bytes.length ≤ k).map
        fun x => (x.1, x.2 + record.bytes.length) := by
    have hends := ends_add 0 record.bytes.length records
    rw [Nat.zero_add] at hends
    rw [hends, List.filter_map]
    rfl
  simp only [within, ends, Nat.zero_add, List.filter_cons]
  by_cases h : record.bytes.length ≤ k
  · simp only [h, decide_true, if_true, List.map_cons, hlater, List.map_map, Function.comp_def,
      Nat.le_sub_iff_add_le h]
  · -- a record that reaches over the cut is in front of all others
    simp only [h, decide_false, if_false, hlater]
    rw [List.filter_eq_nil_iff.mpr fun x _ => by simp; omega]
    rfl

theorem within_prefix (k : Nat) (records : List Record) : within k records <+: records := by
  induction records generalizing k with
  | nil => exact List.prefix_rfl
  | cons record records ih =>
    rw [within_cons]
    split
    · exact List.prefix_cons_inj record |>.mpr (ih _)
    · exact List.nil_prefix

/-! ### Cutting -/

/-- After a cut a size is still there, or too little is left for a size. -/
theorem stops_take_header (offset : Int64) {size : Int32} {rest : Bytes} {k : Nat}
    (h : 12 ≤ k → size < 0 ∨ (rest.take (k - 12)).length < size.toNatClampNeg) :
    Stops ((BigEndian.ofInt64 offset ++ (BigEndian.ofInt32 size ++ rest)).take k) := by
  by_cases hk : k < 12
  · exact .header (Nat.lt_of_le_of_lt (List.length_take_le k _) hk)
  have htake : (BigEndian.ofInt64 offset ++ (BigEndian.ofInt32 size ++ rest)).take k =
      BigEndian.ofInt64 offset ++ (BigEndian.ofInt32 size ++ rest.take (k - 12)) := by
    have hoffset : (BigEndian.ofInt64 offset).length ≤ k := by
      rw [BigEndian.length_ofInt64]
      omega
    have hsize : (BigEndian.ofInt32 size).length ≤ k - 8 := by
      rw [BigEndian.length_ofInt32]
      omega
    rw [List.take_append, List.take_of_length_le hoffset, BigEndian.length_ofInt64,
      List.take_append, List.take_of_length_le hsize, BigEndian.length_ofInt32, Nat.sub_sub]
  rw [htake]
  exact .size offset size (h (Nat.le_of_not_lt hk))

/-- Where no whole record stands in front, none stands there after a cut. -/
theorem Stops.take {set : Bytes} (h : Stops set) (k : Nat) : Stops (set.take k) := by
  cases h with
  | header h => exact .header (Nat.lt_of_le_of_lt (List.length_take_le' k set) h)
  | size offset size h =>
    refine stops_take_header offset fun _ => h.imp_right ?_
    exact Nat.lt_of_le_of_lt (List.length_take_le' ..)

/-- A cut set is split into the records in front of the cut. -/
theorem Splits.take {set stop : Bytes} {records : List Record} (h : Splits set records stop)
    (k : Nat) : ∃ stop', Splits (set.take k) (within k records) stop' := by
  induction records generalizing set k with
  | nil =>
    rw [h.spelled]
    exact ⟨_, (h.stops.take k).splits⟩
  | cons record records ih =>
    obtain ⟨set, rfl, hrecord, hset⟩ := h.exists_of_cons
    rw [within_cons]
    split
    · next hinside =>
      obtain ⟨stop', hcut⟩ := ih hset (k - record.bytes.length)
      rw [List.take_append, List.take_of_length_le hinside]
      exact ⟨stop', hcut.cons hrecord⟩
    · next hacross =>
      -- fewer bytes are left than the size of the record says
      have hk : k < 12 + record.body.length := by rwa [length_bytes, Nat.not_le] at hacross
      have hstops : Stops (record.bytes.take k) := by
        refine stops_take_header record.offset fun hheader => .inr ?_
        rw [toNatClampNeg_ofNat hrecord, List.length_take]
        omega
      rw [List.take_append_of_le_length (Nat.le_of_not_le hacross)]
      exact ⟨_, hstops.splits⟩

/-- What a set decodes to is what a cut of it decodes to and then something else. -/
theorem exists_decode_eq_bind (set : Bytes) (partitionId : Int32) (k : Nat) :
    ∃ later, decode set partitionId =
      decode (set.take k) partitionId >>= fun messages => (messages ++ ·) <$> later := by
  obtain ⟨stop, hset⟩ := splits_records set
  obtain ⟨stop', hcut⟩ := hset.take k
  obtain ⟨later, hlater⟩ := within_prefix k (records set)
  refine ⟨later.mapM (Record.decode partitionId), ?_⟩
  rw [decode, decode, hcut.records_eq, ← mapM_append_eq_bind, hlater]

theorem decode_take_prefix {set : Bytes} {partitionId : Int32} {k l : Nat}
    {messages messages' : List Message} (hkl : k ≤ l)
    (h : decode (set.take k) partitionId = .ok messages)
    (h' : decode (set.take l) partitionId = .ok messages') : messages <+: messages' := by
  obtain ⟨later, hlater⟩ := exists_decode_eq_bind (set.take l) partitionId k
  rw [List.take_take, Nat.min_eq_left hkl, h, h'] at hlater
  cases later with
  | error e => contradiction
  | ok later =>
    cases hlater
    exact List.prefix_append messages later

/-- However a set is cut, it fails as the whole set does, or it decodes to the messages of the
records that lie wholly inside, which are the first messages of any longer cut that decodes. A cut
of a set that decodes always decodes. -/
theorem decode_take (set : Bytes) (partitionId : Int32) (k : Nat) :
    (∀ e, decode (set.take k) partitionId = .error e → decode set partitionId = .error e) ∧
      (∀ messages, decode (set.take k) partitionId = .ok messages →
        (∃ records stop, Splits set records stop ∧
          List.Forall₂ (Record.Accepted partitionId) (within k records) messages) ∧
        ∀ l messages', k ≤ l → decode (set.take l) partitionId = .ok messages' →
          messages <+: messages') ∧
      ∀ messages, decode set partitionId = .ok messages →
        ∃ messages', decode (set.take k) partitionId = .ok messages' := by
  obtain ⟨later, hlater⟩ := exists_decode_eq_bind set partitionId k
  refine ⟨fun e he => ?_, fun messages hmessages => ⟨?_, fun l messages' hkl hmessages' => ?_⟩,
    fun messages hmessages => ?_⟩
  · rw [hlater, he]
    rfl
  · obtain ⟨stop, hset⟩ := splits_records set
    obtain ⟨stop', hcut⟩ := hset.take k
    refine ⟨records set, stop, hset, ?_⟩
    have haccepted := hcut.decode_eq_ok_iff.mp hmessages
    simpa only [Record.decode_eq_ok_iff] using haccepted
  · exact decode_take_prefix hkl hmessages hmessages'
  · cases hcut : decode (set.take k) partitionId with
    | ok messages' => exact ⟨messages', rfl⟩
    | error e =>
      rw [hlater, hcut] at hmessages
      contradiction

end MessageSet

end BrokerWire
