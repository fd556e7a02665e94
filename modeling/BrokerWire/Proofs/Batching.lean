import BrokerWire.Proofs.FrameSequence
import BrokerWire.Proofs.Outline
import BrokerWire.Proofs.Splitting

/-!
# Requests one after the other

What a request adds to a buffer does not depend on what is there already
(`Request.encode_of_frame`), so requests that are written one after the other come out as the
concatenation of their frames. `splitDelimited` takes such a concatenation apart again, by the
lengths alone. Main statement: `Request.forM_encode`.
-/

namespace BrokerWire

/-! ### Splitting by lengths -/

/-- What stands in front of some bytes, a length and as many bytes as it says, and what follows. It
is `none` if the length is negative or is greater than the number of bytes behind it. -/
def nextDelimited? (data : Bytes) : Option (Bytes × Bytes) :=
  let length := BigEndian.toInt32 (data.take 4)
  let size := 4 + length.toNatClampNeg
  if length < 0 ∨ data.length < size then none else some (data.take size, data.drop size)

theorem length_lt_of_nextDelimited? {data first rest : Bytes}
    (h : nextDelimited? data = some (first, rest)) : rest.length < data.length := by
  unfold nextDelimited? at h
  simp only at h
  split at h
  · contradiction
  · cases h
    rw [List.length_drop]
    omega

/-- The parts of some bytes, each with its length in front, and what is left when no further part
can be split off. -/
def splitDelimited (data : Bytes) : List Bytes × Bytes :=
  match _h : nextDelimited? data with
  | none => ([], data)
  | some (first, rest) => (splitDelimited rest).map (first :: ·) id
termination_by data.length
decreasing_by exact length_lt_of_nextDelimited? _h

/-- A body behind its length is split off whatever stands behind it. -/
theorem nextDelimited?_append {body : Bytes} (h : body.length < lengthLimit) (rest : Bytes) :
    nextDelimited? (frame body ++ rest) = some (frame body, rest) := by
  have hlength : BigEndian.toInt32 ((frame body ++ rest).take 4) = Int32.ofNat body.length := by
    rw [frame, List.append_assoc, List.take_left' (BigEndian.length_ofInt32 _),
      BigEndian.toInt32_ofInt32]
  have hnonneg : ¬Int32.ofNat body.length < 0 := Int32.not_lt.mpr (Int32.zero_le_ofNat_of_lt h)
  have hsize : 4 + body.length = (frame body).length := (length_frame body).symm
  have hwhole : ¬(frame body ++ rest).length < (frame body).length := by simp
  simp only [nextDelimited?, hlength, toNatClampNeg_ofNat h, hsize,
    if_neg (not_or.mpr ⟨hnonneg, hwhole⟩), List.take_left, List.drop_left]

theorem splitDelimited_append {body : Bytes} (h : body.length < lengthLimit) (rest : Bytes) :
    splitDelimited (frame body ++ rest) = (splitDelimited rest).map (frame body :: ·) id := by
  rw [splitDelimited]
  split
  · next hnone =>
    rw [nextDelimited?_append h] at hnone
    contradiction
  · next hsome =>
    rw [nextDelimited?_append h] at hsome
    cases hsome
    rfl

theorem splitDelimited_nil : splitDelimited [] = ([], []) := by
  rw [splitDelimited]
  split
  · rfl
  · next hsome => exact absurd (length_lt_of_nextDelimited? hsome) (Nat.not_lt_zero _)

/-! ### Writing one after the other -/

namespace Request

/-- A request that has a frame adds the frame to whatever has been written. -/
theorem encode_of_frame {r : Request} {bytes : Bytes} (h : r.frame = .ok bytes) (b : FrameBuffer) :
    r.encode b = .ok () (b.append bytes) := by
  obtain ⟨payload, -, hthrow⟩ | ⟨-, hemits⟩ := r.encode_or_emits
  · rw [frame, hthrow] at h
    contradiction
  · rw [hemits b, hemits.eq_of_encode h]
    rfl

/-- The frame of a request is a body behind its length. -/
theorem exists_body_of_frame {r : Request} {bytes : Bytes} (h : r.frame = .ok bytes) :
    ∃ body, bytes = BrokerWire.frame body := by
  obtain ⟨hwrites, rfl⟩ := eq_bytes_of_frame h
  exact ⟨_, Outline.bytes_delimited (Outline.writes_delimited.mp hwrites)⟩

theorem forM_encode_of_frame {rs : List Request} {frames : List Bytes}
    (h : List.Forall₂ (fun r bytes => r.frame = .ok bytes) rs frames) (b : FrameBuffer) :
    rs.forM encode b = .ok () (b.append frames.flatten) := by
  induction h generalizing b with
  | nil => exact congrArg (EStateM.Result.ok ()) b.append_nil.symm
  | @cons r bytes rs frames hr _ ih =>
    change EStateM.bind r.encode (fun _ => rs.forM encode) b = _
    unfold EStateM.bind
    rw [encode_of_frame hr]
    simp only [ih, FrameBuffer.append_append, List.flatten_cons]

/-- Frames that are put one behind the other are split by their lengths. -/
theorem splitDelimited_flatten {rs : List Request} {frames : List Bytes}
    (h : List.Forall₂ (fun r bytes => r.frame = .ok bytes) rs frames)
    (hlength : ∀ bytes ∈ frames, bytes.length < lengthLimit) :
    splitDelimited frames.flatten = (frames, []) := by
  induction h with
  | nil => exact splitDelimited_nil
  | cons hr _ ih =>
    obtain ⟨hfirst, hlater⟩ := List.forall_mem_cons.mp hlength
    obtain ⟨body, rfl⟩ := exists_body_of_frame hr
    have hbody : body.length < lengthLimit := by
      rw [length_frame] at hfirst
      omega
    rw [List.flatten_cons, splitDelimited_append hbody, ih hlater]
    rfl

/-- Requests that are written one after the other add the concatenation of their frames to a buffer,
and splitting what was added by the lengths in it gives the frames back, with nothing left over. -/
theorem forM_encode {rs : List Request} {frames : List Bytes} (hframes : rs.mapM frame = .ok frames)
    (hlength : ∀ bytes ∈ frames, bytes.length < lengthLimit) (b : FrameBuffer) :
    ∃ b', rs.forM encode b = .ok () b' ∧ b'.toList = b.toList ++ frames.flatten ∧
      splitDelimited (b'.toList.drop b.size) = (frames, []) := by
  have hall : List.Forall₂ (fun r bytes => r.frame = .ok bytes) rs frames :=
    mapM_eq_ok_iff.mp hframes
  refine ⟨_, forM_encode_of_frame hall b, FrameBuffer.toList_append b _, ?_⟩
  rw [FrameBuffer.toList_append, List.drop_left' (FrameBuffer.length_toList b)]
  exact splitDelimited_flatten hall hlength

/-- Two requests behind a byte that is no part of them. -/
theorem forM_encode_two :
    ∃ b', [Request.metadata ⟨⟨1, none⟩, []⟩, .consumerMetadata ⟨⟨2, some "c"⟩, "g"⟩].forM encode
        ⟨#[255]⟩ = .ok () b' ∧
      b'.toList = [255, 0, 0, 0, 14, 0, 3, 0, 0, 0, 0, 0, 1, 255, 255, 0, 0, 0, 0,
        0, 0, 0, 14, 0, 10, 0, 0, 0, 0, 0, 2, 0, 1, 99, 0, 1, 103] ∧
      splitDelimited (b'.toList.drop 1) =
        ([[0, 0, 0, 14, 0, 3, 0, 0, 0, 0, 0, 1, 255, 255, 0, 0, 0, 0],
          [0, 0, 0, 14, 0, 10, 0, 0, 0, 0, 0, 2, 0, 1, 99, 0, 1, 103]], []) := by
  have hframes : [Request.metadata ⟨⟨1, none⟩, []⟩,
      .consumerMetadata ⟨⟨2, some "c"⟩, "g"⟩].mapM frame =
        .ok [[0, 0, 0, 14, 0, 3, 0, 0, 0, 0, 0, 1, 255, 255, 0, 0, 0, 0],
          [0, 0, 0, 14, 0, 10, 0, 0, 0, 0, 0, 2, 0, 1, 99, 0, 1, 103]] := by
    decide +kernel
  exact forM_encode hframes (by decide) ⟨#[255]⟩

end Request

end BrokerWire
