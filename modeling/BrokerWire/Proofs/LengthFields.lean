import BrokerWire.Proofs.Outline
import BrokerWire.Proofs.Reading
import Mathlib.Data.List.Basic

/-!
# Lengths that are filled in

`Request.lengthFields` lists the lengths of a request's frame that are filled in after what they
delimit has been written: that of the frame, that of each message set and that of each record. Each
stands right in front of the bytes it delimits, and holds their number modulo `2 ^ 32`
(`Outline.standsIn_of_mem`). Nothing checks that the number is small enough for the four bytes.
As the frame is around everything else, all lengths are right if and only if its own is. Main
statement: `Request.lengthFields_right_iff`; a single message of two gibibytes shows that the
condition is needed.
-/

namespace BrokerWire

/-- A length that was filled in. -/
structure LengthField where
  /-- Where its four bytes start. -/
  position : Nat
  /-- The bytes that it delimits. -/
  body : Bytes
  deriving DecidableEq, Repr

namespace LengthField

/-- The length as whoever reads it finds it. -/
def value (field : LengthField) (written : Bytes) : Int :=
  (BigEndian.toInt32 ((written.drop field.position).take 4)).toInt

/-- Four bytes at its position hold the number of bytes in the body modulo `2 ^ 32`, and the body
follows them. -/
def StandsIn (field : LengthField) (written : Bytes) : Prop :=
  ∃ before after, before.length = field.position ∧
    written = before ++ (BigEndian.ofInt32 (Int32.ofNat field.body.length) ++ (field.body ++ after))

variable {field : LengthField} {written : Bytes}

theorem StandsIn.value_eq (h : field.StandsIn written) :
    field.value written = (Int32.ofNat field.body.length).toInt := by
  obtain ⟨before, after, hbefore, rfl⟩ := h
  rw [value, List.drop_left' hbefore, List.take_left' (BigEndian.length_ofInt32 _),
    BigEndian.toInt32_ofInt32]

/-- A length is right if the number of bytes is small enough for four bytes with a sign. -/
theorem StandsIn.value_eq_length_iff (h : field.StandsIn written) :
    field.value written = field.body.length ↔ field.body.length < lengthLimit := by
  rw [h.value_eq]
  refine ⟨fun hvalue => ?_, Int32.toInt_ofNat_of_lt⟩
  have hlt := Int32.toInt_lt (Int32.ofNat field.body.length)
  unfold lengthLimit
  omega

theorem StandsIn.length_le (h : field.StandsIn written) :
    field.position + 4 + field.body.length ≤ written.length := by
  obtain ⟨before, after, hbefore, rfl⟩ := h
  simp only [List.length_append, BigEndian.length_ofInt32]
  omega

end LengthField

namespace Outline

/-- The lengths in an outline that starts at a position, outer ones first. -/
def lengthFields : Outline → Nat → List LengthField
  | leaf _, _ => []
  | append front back, position =>
    front.lengthFields position ++ back.lengthFields (position + front.bytes.length)
  | delimited body, position => ⟨position, body.bytes⟩ :: body.lengthFields (position + 4)
  | checksummed body, position => body.lengthFields (position + 4)

/-- What stands behind the lengths in an outline, outer ones first. -/
def delimitedBytes : Outline → List Bytes
  | leaf _ => []
  | append front back => front.delimitedBytes ++ back.delimitedBytes
  | delimited body => body.bytes :: body.delimitedBytes
  | checksummed body => body.delimitedBytes

variable {part o : Outline} {field : LengthField}

theorem map_body_lengthFields (o : Outline) (position : Nat) :
    (o.lengthFields position).map LengthField.body = o.delimitedBytes := by
  induction o generalizing position with
  | leaf => rfl
  | append front back ihFront ihBack =>
    rw [lengthFields, List.map_append, ihFront, ihBack, delimitedBytes]
  | delimited body ih => rw [lengthFields, List.map_cons, ih, delimitedBytes]
  | checksummed body ih => exact ih (position + 4)

theorem delimitedBytes_each (f : α → Outline) (as : List α) :
    (each f as).delimitedBytes = as.flatMap fun a => (f a).delimitedBytes := by
  induction as with
  | nil => rfl
  | cons a as ih => rw [each, delimitedBytes, ih, List.flatMap_cons]

theorem delimitedBytes_topics (groups : List (String × List α)) (member : α → Outline) :
    (topics groups member).delimitedBytes =
      groups.flatMap fun group => group.2.flatMap fun a => (member a).delimitedBytes := by
  simp only [topics, counted, delimitedBytes, delimitedBytes_each, raw, text, List.nil_append]

/-- The length of a record delimits what stands behind it in the record. -/
theorem delimitedBytes_message {m : Message} (h : m.outline.Writes) :
    m.outline.delimitedBytes = [MessageSet.bodyOf m] := by
  obtain ⟨hkey, hvalue⟩ := Message.writes_outline_iff.mp h
  have hcovered : (leaf (MessageSet.coveredEmission m)).bytes = MessageSet.covered m :=
    congrArg Emission.bytes (MessageSet.coveredEmission_eq hkey hvalue)
  have hwrites : (leaf (MessageSet.coveredEmission m)).Writes :=
    congrArg Emission.failure (MessageSet.coveredEmission_eq hkey hvalue)
  simp only [Message.outline, delimitedBytes, raw, bytes_checksummed hwrites, hcovered,
    List.nil_append, MessageSet.bodyOf]

/-- A message set has a length, and so has each record in it. -/
theorem delimitedBytes_messageSet {messages : List Message} (h : (messageSet messages).Writes) :
    (messageSet messages).delimitedBytes =
      messages.flatMap (fun m => (MessageSet.Record.ofMessage m).bytes) ::
        messages.map MessageSet.bodyOf := by
  have hset : (each Message.outline messages).Writes := writes_delimited.mp h
  have hmessages : ∀ m ∈ messages, m.outline.Writes := writes_each.mp hset
  rw [messageSet, delimitedBytes, delimitedBytes_each, bytes_each hset,
    List.flatMap_congr fun m hm => Message.bytes_outline (hmessages m hm),
    List.flatMap_congr fun m hm => delimitedBytes_message (hmessages m hm),
    List.map_eq_flatMap]

theorem le_position_of_mem {position : Nat} (h : field ∈ o.lengthFields position) :
    position ≤ field.position := by
  induction o generalizing position with
  | leaf => contradiction
  | append front back ihFront ihBack =>
    rcases List.mem_append.mp h with h | h
    · exact ihFront h
    · exact Nat.le_of_add_right_le (ihBack h)
  | delimited body ih =>
    rcases List.mem_cons.mp h with rfl | h
    · exact Nat.le_refl _
    · exact Nat.le_of_add_right_le (ih h)
  | checksummed body ih => exact Nat.le_of_add_right_le (ih h)

/-- Every length stands in front of its body, whatever stands around the outline. -/
theorem standsIn_of_mem (hwrites : o.Writes) {front : Bytes} (back : Bytes)
    (h : field ∈ o.lengthFields front.length) :
    field.StandsIn (front ++ (o.bytes ++ back)) := by
  -- what stands around a part is what stands around the whole and the other parts
  induction o generalizing front back with
  | leaf => contradiction
  | append o o' ih ih' =>
    obtain ⟨ho, ho'⟩ := writes_append.mp hwrites
    rw [bytes_append ho, List.append_assoc]
    rcases List.mem_append.mp h with h | h
    · exact ih ho (o'.bytes ++ back) h
    · rw [← List.append_assoc]
      exact ih' ho' back (by rwa [List.length_append])
  | delimited body ih =>
    have hbody := writes_delimited.mp hwrites
    rw [bytes_delimited hbody, List.append_assoc]
    rcases List.mem_cons.mp h with rfl | h
    · exact ⟨front, back, rfl, rfl⟩
    · rw [← List.append_assoc]
      exact ih hbody back (by rwa [List.length_append, BigEndian.length_ofInt32])
  | checksummed body ih =>
    have hbody := writes_checksummed.mp hwrites
    rw [bytes_checksummed hbody, List.append_assoc, ← List.append_assoc]
    exact ih hbody back (by rwa [List.length_append, Checksum.length_stored])

/-- What a length delimits is shorter than the outline. -/
theorem length_body_of_mem (hwrites : o.Writes) {position : Nat}
    (h : field ∈ o.lengthFields position) : 4 + field.body.length ≤ o.bytes.length := by
  have hlength : (List.replicate position (0 : UInt8)).length = position := List.length_replicate
  rw [← hlength] at h
  have hle := (standsIn_of_mem hwrites [] h).length_le
  have hposition := le_position_of_mem h
  rw [List.append_nil, List.length_append] at hle
  omega

/-- The lengths in something that is delimited are right, all of them, if the first one can be. -/
theorem lengthFields_delimited_iff (hwrites : part.Writes) (front back : Bytes) :
    (∀ field ∈ (delimited part).lengthFields front.length,
      field.value (front ++ ((delimited part).bytes ++ back)) = field.body.length) ↔
        part.bytes.length < lengthLimit := by
  have hstands : ∀ field ∈ (delimited part).lengthFields front.length,
      field.StandsIn (front ++ ((delimited part).bytes ++ back)) := fun field hfield =>
    standsIn_of_mem (writes_delimited.mpr hwrites) back hfield
  constructor
  · intro hright
    have hfirst : ⟨front.length, part.bytes⟩ ∈ (delimited part).lengthFields front.length :=
      List.mem_cons_self
    exact (hstands _ hfirst).value_eq_length_iff.mp (hright _ hfirst)
  · intro hlt field hfield
    have hle := length_body_of_mem (writes_delimited.mpr hwrites) hfield
    rw [bytes_delimited hwrites, List.length_append, BigEndian.length_ofInt32] at hle
    exact (hstands field hfield).value_eq_length_iff.mpr (by omega)

end Outline

namespace Request

/-- The lengths that are filled in when a request is written from a position on. -/
def lengthFields (r : Request) (position : Nat) : List LengthField :=
  r.outline.lengthFields position

/-- What is delimited inside a request to append: for each partition, its message set and the body
of each record in the set. The other kinds of request have no length inside. -/
def delimitedParts : Request → List Bytes
  | produce r => r.partitions.flatMap fun (_, runs) => runs.flatMap fun (_, payloads) =>
      let messages := payloads.flatMap Payload.messages
      messages.flatMap (fun m => (MessageSet.Record.ofMessage m).bytes) ::
        messages.map MessageSet.bodyOf
  | _ => []

theorem delimitedBytes_bodyOutline {r : Request} (h : r.bodyOutline.Writes) :
    r.bodyOutline.delimitedBytes = r.delimitedParts := by
  cases r with
  | produce r =>
    have hgroups := Outline.writes_topics.mp
      (Outline.writes_append.mp (Outline.writes_append.mp h).2).2
    simp only [bodyOutline, Outline.delimitedBytes, Outline.delimitedBytes_topics, Outline.raw,
      List.nil_append]
    refine List.flatMap_congr fun group hgroup => List.flatMap_congr fun run hrun => ?_
    exact Outline.delimitedBytes_messageSet
      (Outline.writes_append.mp ((hgroups group hgroup).2 run hrun)).2
  | _ =>
    simp [bodyOutline, delimitedParts, Outline.delimitedBytes, Outline.delimitedBytes_topics,
      Outline.counted, Outline.delimitedBytes_each, Outline.raw, Outline.text]

section Encoded

variable {r : Request} {b b' : FrameBuffer} (h : r.encode b = .ok () b')
include h

/-- The first length is that of the frame; the others are inside of it. -/
theorem map_body_lengthFields :
    (r.lengthFields b.size).map LengthField.body =
      b'.toList.drop (b.size + 4) :: r.delimitedParts := by
  obtain ⟨hwrites, rfl⟩ := eq_append_of_encode h
  have hheaded := Outline.writes_delimited.mp hwrites
  have hbytes : r.outline.bytes = _ := Outline.bytes_delimited hheaded
  rw [lengthFields, Outline.map_body_lengthFields, FrameBuffer.toList_append, hbytes,
    ← List.append_assoc, List.drop_left' (by simp)]
  exact congrArg (List.cons _) (delimitedBytes_bodyOutline (Outline.writes_headed.mp hheaded).2)

theorem standsIn_of_mem_lengthFields {field : LengthField}
    (hfield : field ∈ r.lengthFields b.size) : field.StandsIn b'.toList := by
  obtain ⟨hwrites, rfl⟩ := eq_append_of_encode h
  rw [lengthFields, ← FrameBuffer.length_toList] at hfield
  have hstands := Outline.standsIn_of_mem hwrites [] hfield
  rwa [List.append_nil, ← FrameBuffer.toList_append] at hstands

end Encoded

/-- Each length of a frame stands in front of the bytes that it delimits and holds their number
modulo `2 ^ 32`. The first one is the length of the frame; the others are those of message sets and
of records. All of them are right if and only if the frame has fewer than `2 ^ 31` bytes behind its
own length. -/
theorem lengthFields_right_iff (r : Request) {b b' : FrameBuffer} (h : r.encode b = .ok () b') :
    (r.lengthFields b.size).map LengthField.body =
        b'.toList.drop (b.size + 4) :: r.delimitedParts ∧
      (∀ field ∈ r.lengthFields b.size, field.StandsIn b'.toList) ∧
      ((∀ field ∈ r.lengthFields b.size, field.value b'.toList = field.body.length) ↔
        b'.size < b.size + 4 + lengthLimit) := by
  refine ⟨map_body_lengthFields h, fun _ => standsIn_of_mem_lengthFields h, ?_⟩
  obtain ⟨hwrites, rfl⟩ := eq_append_of_encode h
  have hheaded := Outline.writes_delimited.mp hwrites
  have hsize : (b.append r.outline.bytes).size =
      b.size + 4 + (Outline.headed r.kind.apiKey r.header r.bodyOutline).bytes.length := by
    rw [FrameBuffer.size_append, outline, Outline.bytes_delimited hheaded, List.length_append,
      BigEndian.length_ofInt32, Nat.add_assoc]
  have hiff := Outline.lengthFields_delimited_iff hheaded b.toList []
  rw [List.append_nil, FrameBuffer.length_toList] at hiff
  rw [hsize, FrameBuffer.toList_append]
  exact hiff.trans (Nat.add_lt_add_iff_left ..).symm

/-- A request to append a message with a value and nothing else. -/
def appending (value : Bytes) : Request :=
  .produce { payloads := [{ topic := "t", partition := 0, messages := [{ value := some value }] }] }

/-- The lengths of a small frame are right. -/
theorem lengthFields_right_appending :
    ∃ b', (appending [1, 2]).encode ⟨#[255]⟩ = .ok () b' ∧
      ∀ field ∈ (appending [1, 2]).lengthFields 1, field.value b'.toList = field.body.length := by
  obtain ⟨b', hencode, hsize⟩ : ∃ b', (appending [1, 2]).encode ⟨#[255]⟩ = .ok () b' ∧
      b'.size < 1 + 4 + lengthLimit := by
    simp only [appending, encode, Produce.Request.encode, Produce.Request.body,
      Produce.partitions_eq]
    refine ⟨_, rfl, ?_⟩
    decide +kernel
  exact ⟨b', hencode, (lengthFields_right_iff _ hencode).2.2.mpr hsize⟩

theorem writes_appending {value : Bytes} (h : value.length < lengthLimit) :
    (appending value).outline.Writes := by
  have hclient : (Outline.text (some "thorwire")).Writes := by decide
  have htopic : (Outline.text (some "t")).Writes := by decide
  refine Produce.Request.writes_outline_iff.mpr ⟨hclient, ?_⟩
  simp only [List.forall_mem_singleton]
  exact ⟨htopic, Message.writes_outline_iff.mpr ⟨rfl, MessageSet.failure_array.mpr h⟩⟩

/-- The record of a message that is written alone has the length of its body modulo `2 ^ 32`. -/
theorem encode_appending (value : Bytes) (h : value.length < lengthLimit) (b : FrameBuffer) :
    ∃ b', (appending value).encode b = .ok () b' ∧
      ∃ field ∈ (appending value).lengthFields b.size, field.body.length = 14 + value.length ∧
        field.value b'.toList = (Int32.ofNat (14 + value.length)).toInt := by
  have hencode : (appending value).encode b = .ok () (b.append (appending value).outline.bytes) :=
    encode_produce (by simp) (writes_appending h) b
  have hmem : MessageSet.bodyOf { value := some value } ∈
      ((appending value).lengthFields b.size).map LengthField.body := by
    rw [map_body_lengthFields hencode]
    simp [appending, delimitedParts, Produce.partitions_eq, groupedBy]
  obtain ⟨field, hfield, hbody⟩ := List.mem_map.mp hmem
  have hlength : field.body.length = 14 + value.length := by
    have hbodyOf := MessageSet.length_bodyOf (m := { value := some value }) rfl
      (MessageSet.failure_array.mpr h)
    rw [hbody, hbodyOf]
    rfl
  refine ⟨_, hencode, field, hfield, hlength, ?_⟩
  rw [(standsIn_of_mem_lengthFields hencode hfield).value_eq, hlength]

/-- A request with a value of nearly two gibibytes is not refused, and the size of the record is
written as a negative number. -/
theorem exists_negative_length :
    ∃ b', (appending (List.replicate 2147483634 0)).encode .empty = .ok () b' ∧
      ∃ field ∈ (appending (List.replicate 2147483634 0)).lengthFields 0,
        field.body.length = 2147483648 ∧ field.value b'.toList = -2147483648 := by
  have hlength : (List.replicate 2147483634 (0 : UInt8)).length = 2147483634 :=
    List.length_replicate
  obtain ⟨b', hencode, field, hfield, hbody, hvalue⟩ :=
    encode_appending (List.replicate 2147483634 0) (by rw [hlength]; decide) .empty
  rw [hlength] at hbody hvalue
  exact ⟨b', hencode, field, hfield, hbody, hvalue.trans (by decide)⟩

end Request

end BrokerWire
