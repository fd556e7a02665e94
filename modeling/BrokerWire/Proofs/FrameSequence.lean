import BrokerWire.Frame
import BrokerWire.Proofs.Reading

/-!
# Frames one after the other

A stream of frames can be told apart in one way only. Whatever is split off the front of it as
frames is what was put there (`eq_append_of_frames_prefix`), the next four bytes are the length of
another frame (`exists_cons_of_header`), and fewer bytes than a frame has end inside of it
(`exists_frame_of_short`).
-/

namespace BrokerWire

/-- A frame with this body. -/
def frame (body : Bytes) : Bytes := BigEndian.ofInt32 (Int32.ofNat body.length) ++ body

/-- Frames with these bodies, one after the other. -/
def frames (bodies : List Bytes) : Bytes := bodies.flatMap frame

/-- Whether a body is short enough for a frame. -/
def IsBody (body : Bytes) : Prop := body.length ≤ maxFrameSize

instance (body : Bytes) : Decidable (IsBody body) := inferInstanceAs (Decidable (_ ≤ _))

variable {body body' header got tail tail' : Bytes} {bodies sent : List Bytes}

@[simp]
theorem frames_cons (body : Bytes) (bodies : List Bytes) :
    frames (body :: bodies) = frame body ++ frames bodies := rfl

theorem frames_concat (bodies : List Bytes) (body : Bytes) :
    frames (bodies ++ [body]) = frames bodies ++ frame body := by
  simp [frames]

theorem length_frame (body : Bytes) : (frame body).length = 4 + body.length := by
  rw [frame, List.length_append, BigEndian.length_ofInt32]

theorem frame_ne_nil (body : Bytes) : frame body ≠ [] := by
  intro hnil
  have hlength := length_frame body
  rw [hnil, List.length_nil] at hlength
  omega

/-! ### Lengths -/

theorem IsBody.toInt (h : IsBody body) : (Int32.ofNat body.length).toInt = body.length := by
  rw [IsBody, maxFrameSize] at h
  exact Int32.toInt_ofNat_of_lt (by omega)

theorem IsBody.toNatClampNeg (h : IsBody body) :
    (Int32.ofNat body.length).toNatClampNeg = body.length :=
  congrArg Int.toNat h.toInt

/-- The length of a body that is short enough is the length of a frame. -/
theorem IsBody.isFrameLength (h : IsBody body) : isFrameLength (Int32.ofNat body.length) := by
  rw [BrokerWire.isFrameLength, h.toInt, Bool.and_eq_true, decide_eq_true_eq, decide_eq_true_eq]
  exact ⟨Int.natCast_nonneg _, h⟩

section Header

variable (hbody : body.length = (BigEndian.toInt32 header).toNatClampNeg)
  (hlength : isFrameLength (BigEndian.toInt32 header))
include hbody hlength

theorem isBody_of_isFrameLength : IsBody body := by
  rw [isFrameLength, Bool.and_eq_true, decide_eq_true_eq, decide_eq_true_eq] at hlength
  have hint : (body.length : Int) = (BigEndian.toInt32 header).toInt := by
    rw [hbody]
    exact Int.toNat_of_nonneg hlength.1
  rw [IsBody, hint]
  exact hlength.2

/-- A length and as many bytes as it says are a frame. -/
theorem append_eq_frame (hheader : header.length = 4) : header ++ body = frame body := by
  rw [isFrameLength, Bool.and_eq_true, decide_eq_true_eq] at hlength
  have hword : Int32.ofNat body.length = BigEndian.toInt32 header := by
    rw [hbody]
    exact Int32.ofNat_toNatClampNeg _ (Int32.le_iff_toInt_le.mpr hlength.1)
  rw [frame, hword, BigEndian.ofInt32_toInt32 hheader]

end Header

/-! ### Splitting -/

/-- A frame and what follows it can be told apart. -/
theorem frame_append_inj (hbody : IsBody body) (hbody' : IsBody body')
    (h : frame body ++ tail = frame body' ++ tail') : body = body' ∧ tail = tail' := by
  rw [frame, frame, List.append_assoc, List.append_assoc] at h
  obtain ⟨hheader, hrest⟩ := List.append_inj h (by simp)
  have hlength : body.length = body'.length := by
    have hword := congrArg (fun h => (BigEndian.toInt32 h).toNatClampNeg) hheader
    simpa only [BigEndian.toInt32_ofInt32, hbody.toNatClampNeg, hbody'.toNatClampNeg] using hword
  exact List.append_inj hrest hlength

/-- Frames that are split off the front of a stream of frames are the ones that were put there. -/
theorem eq_append_of_frames_prefix (hbodies : ∀ body ∈ bodies, IsBody body)
    (hsent : ∀ body ∈ sent, IsBody body) (h : frames bodies ++ tail <+: frames sent) :
    ∃ rest, sent = bodies ++ rest ∧ tail <+: frames rest := by
  induction bodies generalizing sent with
  | nil => exact ⟨sent, rfl, h⟩
  | cons body bodies ih =>
    obtain ⟨left, hleft⟩ := h
    rw [frames_cons, List.append_assoc, List.append_assoc] at hleft
    cases sent with
    | nil => exact absurd (List.append_eq_nil_iff.mp hleft).1 (frame_ne_nil body)
    | cons body' sent =>
      obtain ⟨rfl, hrest⟩ := frame_append_inj (hbodies _ (List.mem_cons_self ..))
        (hsent _ (List.mem_cons_self ..)) hleft
      obtain ⟨rest, rfl, htail⟩ := ih (fun b hb => hbodies b (List.mem_cons_of_mem _ hb))
        (fun b hb => hsent b (List.mem_cons_of_mem _ hb))
        ⟨left, (List.append_assoc ..).trans hrest⟩
      exact ⟨rest, rfl, htail⟩

/-- Four bytes at the front of a stream of frames are the length of its first frame. -/
theorem exists_cons_of_header (hheader : header.length = 4) (h : header ++ tail <+: frames sent) :
    ∃ body rest, sent = body :: rest ∧ header = BigEndian.ofInt32 (Int32.ofNat body.length) := by
  cases sent with
  | nil =>
    have hnil := (List.append_eq_nil_iff.mp (List.prefix_nil.mp h)).1
    rw [hnil] at hheader
    contradiction
  | cons body rest =>
    obtain ⟨left, hleft⟩ := h
    rw [frames_cons, frame, List.append_assoc, List.append_assoc] at hleft
    exact ⟨body, rest, rfl, (List.append_inj hleft (by simp [hheader])).1⟩

/-- Some bytes at the front of a stream of frames, but fewer than its first frame has, are a part of
that frame. -/
theorem exists_frame_of_short (hsent : ∀ body ∈ sent, IsBody body) (hgot : got ≠ [])
    (hshort : got.length < 4 ∨ ∃ header part, got = header ++ part ∧ header.length = 4 ∧
      part.length < (BigEndian.toInt32 header).toNatClampNeg)
    (h : got <+: frames sent) :
    ∃ body rest left, sent = body :: rest ∧ frame body = got ++ left ∧ left ≠ [] := by
  -- either the length is not complete, or it is and tells the size of the first frame
  obtain ⟨body, rest, rfl, hless⟩ :
      ∃ body rest, sent = body :: rest ∧ got.length < (frame body).length := by
    rcases hshort with hshort | ⟨header, part, rfl, hheader, hpart⟩
    · cases sent with
      | nil => exact absurd (List.prefix_nil.mp h) hgot
      | cons body rest =>
        refine ⟨body, rest, rfl, ?_⟩
        rw [length_frame]
        omega
    · obtain ⟨body, rest, rfl, rfl⟩ := exists_cons_of_header hheader h
      refine ⟨body, rest, rfl, ?_⟩
      rw [BigEndian.toInt32_ofInt32, (hsent body (List.mem_cons_self ..)).toNatClampNeg] at hpart
      rw [length_frame, List.length_append, hheader]
      omega
  obtain ⟨left, hleft⟩ : got <+: frame body :=
    List.prefix_of_prefix_length_le h (List.prefix_append _ _) (Nat.le_of_lt hless)
  refine ⟨body, rest, left, rfl, hleft.symm, ?_⟩
  rintro rfl
  rw [← hleft, List.append_nil] at hless
  exact Nat.lt_irrefl _ hless

end BrokerWire
