import BrokerWire.Proofs.Batching
import BrokerWire.Proofs.Frames

/-!
# What a request leaves in a buffer

A request that is written adds its whole frame to what has been written before, and
`Request.IsFrame` says what that is. A request with a payload that is to be compressed adds nothing.
But a request that is refused later, for a text or a byte string that is too long, is not taken
back: behind what was there before stands the beginning of a frame, and its length, which is filled
in last, is zero. Main statement: `Request.encode_leaves`; and a request that leaves such a
beginning.
-/

namespace BrokerWire

open Outline

/-- A frame that is not written to its end has no length yet. -/
theorem Outline.bytes_delimited_of_not_writes {body : Outline} (h : ¬body.Writes) :
    (delimited body).bytes = List.replicate 4 0 ++ body.bytes := by
  obtain ⟨e, hfailure⟩ := Option.ne_none_iff_exists'.mp h
  simp only [bytes, emission, Emission.delimited, hfailure]

namespace Request

/-- Bytes are the whole frame of a request. They are what the request is on its own: a length that
counts the bytes behind it modulo `2 ^ 32`, and those bytes. As long as there are few enough for the
length field, they are read back as the request, to the last byte. -/
structure IsFrame (r : Request) (bytes : Bytes) : Prop where
  /-- The request has a frame of its own, and this is it. -/
  frame_eq : r.frame = .ok bytes
  /-- The frame starts with its length. -/
  exists_body : ∃ body, bytes = BrokerWire.frame body
  /-- Nothing of the request is missing. -/
  run_eq : bytes.length < lengthLimit →
    Reception.frame.run (.ofBytes bytes) =
      .ok (Reception.frameOf r bytes.length) ⟨bytes, bytes.length, []⟩

variable {r : Request} {b b' : FrameBuffer}

theorem isFrame_of_frame {bytes : Bytes} (h : r.frame = .ok bytes) : r.IsFrame bytes :=
  ⟨h, exists_body_of_frame h, Reception.read_frame h⟩

/-- A request that is written is written as a whole. -/
theorem exists_isFrame_of_encode (h : r.encode b = .ok () b') :
    ∃ bytes, r.IsFrame bytes ∧ b' = b.append bytes := by
  obtain ⟨payload, -, hthrow⟩ | ⟨-, hemits⟩ := r.encode_or_emits
  · rw [hthrow] at h
    contradiction
  · obtain ⟨hwrites, rfl⟩ := eq_append_of_encode h
    have hok : r.outline.emission.failure = none := hwrites
    have hframe : r.frame = .ok r.outline.bytes := by
      rw [frame, hemits.encode, hok]
      rfl
    exact ⟨_, isFrame_of_frame hframe, rfl⟩

/-! ### Frames that are begun -/

/-- What stands in front of the client's name in a frame whose length has not been filled in. -/
def beginning (r : Request) : Bytes :=
  List.replicate 4 0 ++ (BigEndian.ofInt16 r.kind.apiKey.code ++
    (BigEndian.ofInt16 apiVersion ++ BigEndian.ofInt32 r.header.correlationId))

/-- Nothing in front of the client's name can fail. -/
theorem exists_bytes_outline (h : ¬r.outline.Writes) :
    ∃ rest, r.outline.bytes = r.beginning ++ rest := by
  refine ⟨(append (text r.header.clientId) r.bodyOutline).bytes, ?_⟩
  rw [outline, bytes_delimited_of_not_writes (fun hbody => h (writes_delimited.mpr hbody)), headed,
    bytes_append (writes_raw _), bytes_append (writes_raw _), bytes_append (writes_raw _)]
  simp only [beginning, List.append_assoc]
  rfl

/-- A request that is refused leaves nothing if it is refused for a payload, and otherwise the
beginning of a frame. -/
theorem leaves_of_encode_error {e : WireError} (h : r.encode b = .error e b') :
    (∃ payload ∈ r.payloads, payload.codec ≠ .none) ∧ b' = b ∨
      (∀ payload ∈ r.payloads, payload.codec = .none) ∧
        ∃ rest, b' = b.append (r.beginning ++ rest) := by
  obtain ⟨payload, hfind, hthrow⟩ | ⟨hplain, hemits⟩ := r.encode_or_emits
  · rw [hthrow] at h
    have hcodec : payload.codec ≠ .none := by simpa using List.find?_some hfind
    obtain ⟨-, rfl⟩ := EStateM.Result.error.inj h
    exact .inl ⟨⟨payload, List.mem_of_find?_eq_some hfind, hcodec⟩, rfl⟩
  · rw [hemits b, Emission.onto] at h
    split at h
    · contradiction
    · next hfailure =>
      obtain ⟨-, rfl⟩ := EStateM.Result.error.inj h
      have hnot : ¬r.outline.Writes := fun hwrites =>
        Option.some_ne_none _ (hfailure.symm.trans hwrites)
      obtain ⟨rest, hrest⟩ := exists_bytes_outline hnot
      exact .inr ⟨hplain, rest, congrArg b.append hrest⟩

/-- The beginning of a frame shows in the buffer. -/
theorem append_beginning_ne (r : Request) (b : FrameBuffer) (rest : Bytes) :
    b.append (r.beginning ++ rest) ≠ b := by
  intro heq
  have hsize := congrArg FrameBuffer.size heq
  simp only [FrameBuffer.size_append, List.length_append, beginning, List.length_replicate] at hsize
  omega

/-- The requests that leave nothing when they fail are those that do not fail, or fail at once. -/
theorem leaves_nothing_iff (r : Request) (b : FrameBuffer) :
    (∀ e b', r.encode b = .error e b' → b' = b) ↔
      (∃ payload ∈ r.payloads, payload.codec ≠ .none) ∨ ∃ bytes, r.frame = .ok bytes := by
  constructor
  · intro h
    cases hencode : r.encode b with
    | ok _ b' =>
      obtain ⟨bytes, hbytes, -⟩ := exists_isFrame_of_encode hencode
      exact .inr ⟨bytes, hbytes.frame_eq⟩
    | error e b' =>
      refine .inl ?_
      obtain ⟨hcompressed, -⟩ | ⟨-, rest, hrest⟩ := leaves_of_encode_error hencode
      · exact hcompressed
      · exact absurd (hrest ▸ h e b' hencode) (append_beginning_ne r b rest)
  · rintro (⟨payload, hpayload, hcodec⟩ | ⟨bytes, hframe⟩) e b' hencode
    · obtain ⟨-, heq⟩ | ⟨hplain, -⟩ := leaves_of_encode_error hencode
      · exact heq
      · exact absurd (hplain payload hpayload) hcodec
    · rw [encode_of_frame hframe] at hencode
      contradiction

/-! ### Several requests -/

/-- What is in a buffer after a request has been written to it or has been refused. -/
def addTo (b : FrameBuffer) (r : Request) : FrameBuffer :=
  r.encode.after b

/-- A request that leaves nothing when it fails adds its frame or nothing. -/
theorem addTo_eq (h : ∀ e b', r.encode b = .error e b' → b' = b) :
    addTo b r = b.append r.frame.toOption.toList.flatten := by
  unfold addTo Encoder.after
  cases hencode : r.encode b with
  | ok _ b' =>
    obtain ⟨bytes, hbytes, heq⟩ := exists_isFrame_of_encode hencode
    rw [heq, hbytes.frame_eq]
    simp [Except.toOption]
  | error e b' =>
    have hnone : r.frame.toOption = none := by
      cases hframe : r.frame with
      | error e => rfl
      | ok bytes =>
        rw [encode_of_frame hframe] at hencode
        contradiction
    simp [hnone, h e b' hencode, FrameBuffer.append_nil]

/-- Requests of which none leaves anything when it fails add the frames of those that have one. -/
theorem foldl_addTo {rs : List Request}
    (h : ∀ r ∈ rs, (∃ payload ∈ r.payloads, payload.codec ≠ .none) ∨ ∃ bytes, r.frame = .ok bytes)
    (b : FrameBuffer) :
    rs.foldl addTo b = b.append (rs.filterMap fun r => r.frame.toOption).flatten := by
  induction rs generalizing b with
  | nil => exact b.append_nil.symm
  | cons r rs ih =>
    obtain ⟨hr, hrs⟩ := List.forall_mem_cons.mp h
    rw [List.foldl_cons, addTo_eq ((leaves_nothing_iff r b).mpr hr), ih hrs]
    cases hframe : r.frame.toOption <;> simp [hframe, FrameBuffer.append_append]

/-- A request that is written adds its whole frame to a buffer. One that is refused for a payload
leaves the buffer as it was. One that is refused later leaves the beginning of a frame, with a
length of zero. So a request leaves nothing when it fails if and only if it is not refused later,
and after several requests of which none is refused later there are whole frames in the buffer and
nothing else. -/
theorem encode_leaves (b : FrameBuffer) :
    (∀ r : Request,
      (∀ b', r.encode b = .ok () b' → ∃ bytes, r.IsFrame bytes ∧ b' = b.append bytes) ∧
      (∀ e b', r.encode b = .error e b' →
        (∃ payload ∈ r.payloads, payload.codec ≠ .none) ∧ b' = b ∨
          (∀ payload ∈ r.payloads, payload.codec = .none) ∧
            ∃ rest, b' = b.append (r.beginning ++ rest)) ∧
      ((∀ e b', r.encode b = .error e b' → b' = b) ↔
        (∃ payload ∈ r.payloads, payload.codec ≠ .none) ∨ ∃ bytes, r.frame = .ok bytes)) ∧
    ∀ rs : List Request,
      (∀ r ∈ rs, (∃ payload ∈ r.payloads, payload.codec ≠ .none) ∨ ∃ bytes, r.frame = .ok bytes) →
        rs.foldl addTo b = b.append (rs.filterMap fun r => r.frame.toOption).flatten ∧
          ∀ bytes ∈ rs.filterMap fun r => r.frame.toOption, ∃ r ∈ rs, r.IsFrame bytes := by
  refine ⟨fun r => ⟨fun b' => exists_isFrame_of_encode, fun e b' => leaves_of_encode_error,
    leaves_nothing_iff r b⟩, fun rs hrs => ⟨foldl_addTo hrs b, fun bytes hbytes => ?_⟩⟩
  obtain ⟨r, hr, hframe⟩ := List.mem_filterMap.mp hbytes
  refine ⟨r, hr, isFrame_of_frame ?_⟩
  cases hok : r.frame with
  | error e => rw [hok] at hframe; contradiction
  | ok bytes' =>
    rw [hok] at hframe
    exact congrArg Except.ok (Option.some.inj hframe)

/-- A request that is refused for a payload between two that are written. -/
theorem encode_leaves_two :
    ([Request.metadata ⟨⟨1, none⟩, []⟩, .produce ⟨⟨2, none⟩, 1, 250, [⟨"t", 0, .gzip, []⟩]⟩,
      .consumerMetadata ⟨⟨3, none⟩, "g"⟩].foldl addTo ⟨#[255]⟩).toList =
        [255, 0, 0, 0, 14, 0, 3, 0, 0, 0, 0, 0, 1, 255, 255, 0, 0, 0, 0,
          0, 0, 0, 13, 0, 10, 0, 0, 0, 0, 0, 3, 255, 255, 0, 1, 103] := by
  have hrequests : ∀ r ∈ [Request.metadata ⟨⟨1, none⟩, []⟩,
      .produce ⟨⟨2, none⟩, 1, 250, [⟨"t", 0, .gzip, []⟩]⟩, .consumerMetadata ⟨⟨3, none⟩, "g"⟩],
      (∃ payload ∈ r.payloads, payload.codec ≠ .none) ∨ ∃ bytes, r.frame = .ok bytes := by
    simp only [List.forall_mem_cons, List.not_mem_nil, false_imp_iff, implies_true, and_true]
    exact ⟨.inr ⟨_, rfl⟩, .inl (by decide), .inr ⟨_, rfl⟩⟩
  rw [((encode_leaves ⟨#[255]⟩).2 _ hrequests).1, FrameBuffer.toList_append]
  decide +kernel

/-- A text of as many bytes as it has letters. -/
def longText (n : Nat) : String := String.ofList (List.replicate n 'a')

theorem length_encode_longText (n : Nat) : (Utf8.encode (longText n)).length = n := by
  have hsize : 'a'.utf8Size = 1 := by decide
  simp [Utf8.encode, longText, List.utf8Encode, hsize]

/-- A client's name that is too long is refused behind the beginning of the frame. -/
theorem encode_metadata_of_long {client : String}
    (hlong : (Utf8.encode client).length > Int16.maxValue.toNatClampNeg) (correlationId : Int32)
    (topics : List String) (b : FrameBuffer) :
    (metadata ⟨⟨correlationId, some client⟩, topics⟩).encode b =
      .error (.protocol (.stringTooLong (Utf8.encode client).length))
        (b.append (metadata ⟨⟨correlationId, some client⟩, topics⟩).beginning) := by
  have hplain : ∀ payload ∈ (metadata ⟨⟨correlationId, some client⟩, topics⟩).payloads,
      payload.codec = .none := by simp [payloads]
  rw [emits_encode hplain b]
  simp [outline, headed, emission, header, kind, Outline.text, Emission.string, hlong, raw,
    Emission.andThen, Emission.delimited, Emission.onto, beginning]

/-- A client's name of 32768 bytes is refused, and the beginning of the frame stays. -/
theorem encode_leaves_beginning :
    (metadata ⟨⟨1, some (longText 32768)⟩, []⟩).encode ⟨#[7]⟩ =
      .error (.protocol (.stringTooLong 32768)) ⟨#[7, 0, 0, 0, 0, 0, 3, 0, 0, 0, 0, 0, 1]⟩ := by
  have hlength := length_encode_longText 32768
  rw [encode_metadata_of_long (by rw [hlength]; decide), hlength]
  rfl

end Request

end BrokerWire
