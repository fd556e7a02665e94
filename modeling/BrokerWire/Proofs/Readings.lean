import BrokerWire.Link.Read
import BrokerWire.Proofs.FrameSequence
import Mathlib.Tactic.SplitIfs

/-!
# Reading a stream frame by frame

`Link.readings` says what reads of frames make of all the bytes of a stream that has ended, one
read after the other: frames as long as there are any, and then one failure. It is a function of
the bytes alone, and knows nothing of the pieces in which they arrive.
-/

namespace BrokerWire

variable {bytes more header behind body rest tail : Bytes} {bodies : List Bytes} {length : Int32}

/-! ### The first frame -/

theorem nextFrame_of_lt (hshort : bytes.length < 4) : nextFrame bytes = .short := by
  have hfield : (bytes.take 4).length < 4 := Nat.lt_of_le_of_lt (List.length_take_le' ..) hshort
  rw [nextFrame, if_pos hfield]

/-- What stands behind a length. -/
theorem nextFrame_append (hheader : header.length = 4) (behind : Bytes) :
    nextFrame (header ++ behind) =
      if isFrameLength (BigEndian.toInt32 header) then
        if behind.length < (BigEndian.toInt32 header).toNatClampNeg then .short
        else .frame (behind.take (BigEndian.toInt32 header).toNatClampNeg)
          (behind.drop (BigEndian.toInt32 header).toNatClampNeg)
      else .impossible (BigEndian.toInt32 header) := by
  have hfield : (header ++ behind).take 4 = header := List.take_left' hheader
  have hbehind : (header ++ behind).drop 4 = behind := List.drop_left' hheader
  have hbody : ∀ n, (behind.take n).length < n ↔ behind.length < n := fun n => by
    rw [List.length_take]
    omega
  rw [nextFrame, hfield, hbehind, if_neg (by omega)]
  simp only [hbody]

theorem nextFrame_frame_append (hbody : IsBody body) (tail : Bytes) :
    nextFrame (frame body ++ tail) = .frame body tail := by
  rw [frame, List.append_assoc, nextFrame_append (BigEndian.length_ofInt32 _),
    BigEndian.toInt32_ofInt32, if_pos hbody.isFrameLength, hbody.toNatClampNeg,
    if_neg (by simp), List.take_left, List.drop_left]

/-- A stream is too short for a frame's length, or it begins with one. -/
theorem short_or_append (bytes : Bytes) :
    bytes.length < 4 ∨ ∃ header behind, bytes = header ++ behind ∧ header.length = 4 := by
  rcases Nat.lt_or_ge bytes.length 4 with hshort | hlong
  · exact .inl hshort
  · exact .inr ⟨bytes.take 4, bytes.drop 4, (List.take_append_drop ..).symm,
      List.length_take_of_le hlong⟩

theorem eq_of_nextFrame (h : nextFrame bytes = .frame body rest) :
    bytes = frame body ++ rest ∧ IsBody body := by
  obtain hshort | ⟨header, behind, rfl, hheader⟩ := short_or_append bytes
  · rw [nextFrame_of_lt hshort] at h
    contradiction
  · rw [nextFrame_append hheader] at h
    split_ifs at h with hlength hbehind
    obtain ⟨rfl, rfl⟩ := NextFrame.frame.inj h
    have hbody : (behind.take (BigEndian.toInt32 header).toNatClampNeg).length =
        (BigEndian.toInt32 header).toNatClampNeg :=
      List.length_take_of_le (Nat.le_of_not_lt hbehind)
    refine ⟨?_, isBody_of_isFrameLength hbody hlength⟩
    rw [← append_eq_frame hbody hlength hheader, List.append_assoc, List.take_append_drop]

/-- An impossible length stays one, whatever follows. -/
theorem nextFrame_impossible_append (h : nextFrame bytes = .impossible length) (more : Bytes) :
    nextFrame (bytes ++ more) = .impossible length := by
  obtain hshort | ⟨header, behind, rfl, hheader⟩ := short_or_append bytes
  · rw [nextFrame_of_lt hshort] at h
    contradiction
  · rw [nextFrame_append hheader] at h
    split_ifs at h with hlength
    rw [List.append_assoc, nextFrame_append hheader, if_neg hlength]
    exact h

theorem length_lt_of_nextFrame (h : nextFrame bytes = .frame body rest) :
    rest.length < bytes.length := by
  rw [(eq_of_nextFrame h).1, List.length_append, length_frame]
  omega

namespace Link

/-! ### All frames -/

/-- How reads of frames end, one after the other, on a stream of these bytes: each frame is
returned, a length that no frame has and the end of the stream are failures, and nothing is read
behind either. -/
def readings (endpoint : String) (bytes : Bytes) : List Result :=
  match _h : nextFrame bytes with
  | .frame body rest => .ok body :: readings endpoint rest
  | .impossible length => [.error (.protocol (.frameLength length endpoint))]
  | .short => [.error (.serverDisconnected endpoint)]
termination_by bytes.length
decreasing_by exact length_lt_of_nextFrame _h

variable {endpoint : String}

theorem readings_eq (endpoint : String) (bytes : Bytes) :
    readings endpoint bytes =
      match nextFrame bytes with
      | .frame body rest => .ok body :: readings endpoint rest
      | .impossible length => [.error (.protocol (.frameLength length endpoint))]
      | .short => [.error (.serverDisconnected endpoint)] := by
  rw [readings]
  split <;> rename_i h <;> rw [h]

theorem readings_of_frame (h : nextFrame bytes = .frame body rest) :
    readings endpoint bytes = .ok body :: readings endpoint rest := by
  rw [readings_eq, h]

theorem readings_of_impossible (h : nextFrame bytes = .impossible length) :
    readings endpoint bytes = [.error (.protocol (.frameLength length endpoint))] := by
  rw [readings_eq, h]

theorem readings_of_short (h : nextFrame bytes = .short) :
    readings endpoint bytes = [.error (.serverDisconnected endpoint)] := by
  rw [readings_eq, h]

/-- Without a whole length there is no frame. -/
theorem readings_of_lt (hshort : bytes.length < 4) :
    readings endpoint bytes = [.error (.serverDisconnected endpoint)] :=
  readings_of_short (nextFrame_of_lt hshort)

/-- What stands behind a length is the body of a frame and all that follows it, if the length is
one and there is so much. -/
theorem readings_ofInt32_append (endpoint : String) (length : Int32) (behind : Bytes) :
    readings endpoint (BigEndian.ofInt32 length ++ behind) =
      if 0 ≤ length.toInt ∧ length.toInt ≤ 104857600 then
        if behind.length < length.toInt.toNat then [.error (.serverDisconnected endpoint)]
        else .ok (behind.take length.toInt.toNat) ::
          readings endpoint (behind.drop length.toInt.toNat)
      else [.error (.protocol (.frameLength length endpoint))] := by
  have hlength : isFrameLength length ↔ 0 ≤ length.toInt ∧ length.toInt ≤ 104857600 := by
    rw [isFrameLength, Bool.and_eq_true, decide_eq_true_iff, decide_eq_true_iff, maxFrameSize]
  have hsize : length.toNatClampNeg = length.toInt.toNat := rfl
  rw [readings_eq, nextFrame_append (BigEndian.length_ofInt32 _), BigEndian.toInt32_ofInt32]
  simp only [hlength, hsize]
  split_ifs
  · rfl
  · rfl
  · rfl

theorem readings_frames_append (hbodies : ∀ body ∈ bodies, IsBody body) (tail : Bytes) :
    readings endpoint (frames bodies ++ tail) = bodies.map .ok ++ readings endpoint tail := by
  induction bodies with
  | nil => rfl
  | cons body bodies ih =>
    have hbody := hbodies body (List.mem_cons_self ..)
    rw [frames_cons, List.append_assoc, readings_of_frame (nextFrame_frame_append hbody _),
      ih fun b hb => hbodies b (List.mem_cons_of_mem _ hb)]
    rfl

end Link

end BrokerWire
