import BrokerWire.Proofs.Regrouping
import BrokerWire.Proofs.Wholeness

/-!
# Requests that are refused

A request is refused for a payload that is to be compressed, and that before anything is written.
Otherwise it is refused for the first text that is too long for its length field, and that where the
text would have to be written: what stands in front of it has been written and stays.

`Request.texts` lists the texts of a request in the order of the bytes, which is the order of groups
and not the order in which entries were handed over. Which of them is at fault is settled for all
kinds of request at once by the failures in an outline (`Outline.failures`), of which only the first
is met. Main statement: `Request.encode_refusal`, when and how a request is refused.
-/

namespace BrokerWire

/-- A text has more bytes than its length field can say. -/
def TooLong (text : String) : Prop := 32767 < (Utf8.encode text).length

instance : DecidablePred TooLong := fun _ => inferInstanceAs (Decidable (_ < _))

/-- Why a text that is too long is refused. -/
def tooLong (text : String) : WireError := .protocol (.stringTooLong (Utf8.encode text).length)

/-- The reason to refuse a text, if there is one. -/
def refusal (text : String) : List WireError := if TooLong text then [tooLong text] else []

/-- The first text that is too long is the one for which texts are refused. -/
theorem head?_flatMap_refusal (texts : List String) :
    (texts.flatMap refusal).head? = (texts.find? (TooLong ·)).map tooLong := by
  induction texts with
  | nil => rfl
  | cons text texts ih =>
    rw [List.flatMap_cons, List.head?_append, ih]
    by_cases h : TooLong text <;> simp [refusal, h]

namespace Outline

variable {α : Type}

/-- The failures in an outline, in the order of its leaves. Writing stops at the first one. -/
def failures : Outline → List WireError
  | leaf emission => emission.failure.toList
  | append front back => front.failures ++ back.failures
  | delimited body => body.failures
  | checksummed body => body.failures

theorem failure_emission (o : Outline) : o.emission.failure = o.failures.head? := by
  induction o with
  | leaf emission =>
    obtain ⟨bytes, failure⟩ := emission
    cases failure <;> rfl
  | append front back ihFront ihBack =>
    rw [failures, List.head?_append, ← ihFront, ← ihBack, emission, Emission.andThen]
    cases hfront : front.emission.failure with
    | none => rfl
    | some e => exact hfront
  | delimited body ih =>
    rw [failures, ← ih, emission, Emission.delimited]
    cases body.emission.failure <;> rfl
  | checksummed body ih =>
    rw [failures, ← ih, emission, Emission.checksummed]
    cases body.emission.failure <;> rfl

theorem failures_eq_nil_iff {o : Outline} : o.failures = [] ↔ o.Writes := by
  rw [Writes, failure_emission, List.head?_eq_none_iff]

theorem failures_raw (bytes : Bytes) : (raw bytes).failures = [] := rfl

theorem failures_text (text : Option String) :
    (Outline.text text).failures = text.toList.flatMap refusal := by
  cases text with
  | none => rfl
  | some text =>
    rw [Option.toList_some, List.flatMap_singleton, refusal]
    by_cases hlong : TooLong text
    · have hgt : (Utf8.encode text).length > Int16.maxValue.toNatClampNeg := hlong
      simp [Outline.text, failures, Emission.string, hlong, hgt, tooLong]
    · have hle : ¬(Utf8.encode text).length > Int16.maxValue.toNatClampNeg := hlong
      simp only [Outline.text, failures, Emission.string, Option.getD_some, if_neg hle,
        if_neg hlong]
      split <;> rfl

theorem failures_each (f : α → Outline) (as : List α) :
    (each f as).failures = as.flatMap fun a => (f a).failures := by
  induction as with
  | nil => rfl
  | cons a as ih => rw [each, failures, ih, List.flatMap_cons]

theorem failures_counted (f : α → Outline) (as : List α) :
    (counted f as).failures = as.flatMap fun a => (f a).failures := by
  rw [counted, failures, failures_raw, failures_each, List.nil_append]

theorem failures_topics (groups : List (String × List α)) (member : α → Outline) :
    (topics groups member).failures = groups.flatMap fun group =>
      refusal group.1 ++ group.2.flatMap fun a => (member a).failures := by
  simp only [topics, failures_counted, failures, failures_text, Option.toList_some,
    List.flatMap_singleton]

/-- Topics whose members cannot fail. -/
theorem failures_topics_of_nil {groups : List (String × List α)} {member : α → Outline}
    (h : ∀ group ∈ groups, ∀ a ∈ group.2, (member a).failures = []) :
    (topics groups member).failures = (groups.map Prod.fst).flatMap refusal := by
  rw [failures_topics, List.flatMap_map]
  refine List.flatMap_congr fun group hgroup => ?_
  rw [List.flatMap_eq_nil_iff.mpr (h group hgroup), List.append_nil]

end Outline

open Outline

namespace Request

/-- The messages of a request; only a request to append has any. -/
def messages (r : Request) : List Message := r.payloads.flatMap Payload.messages

/-- The texts that a request has to write behind its header, in the order of the bytes. -/
def bodyTexts : Request → List String
  | produce r => (groupByTopic Payload.topic Payload.partition r.payloads).map Prod.fst
  | fetch r => (groupByTopic Fetch.Entry.topic Fetch.Entry.partitionId r.fetches).map Prod.fst
  | offset r => (groupByTopic Offset.Entry.topic Offset.Entry.partitionId r.offsets).map Prod.fst
  | metadata r => r.topics
  | offsetCommit r =>
    r.group ::
      (groupByTopic OffsetCommit.Entry.topic OffsetCommit.Entry.partitionId r.commits).flatMap
        fun (topic, commits) => topic :: commits.flatMap fun commit => commit.metadata.toList
  | offsetFetch r =>
    r.group ::
      (groupByTopic OffsetFetch.Entry.topic OffsetFetch.Entry.partitionId r.topics).map Prod.fst
  | consumerMetadata r => [r.group]

/-- The texts that a request has to write, in the order of the bytes. -/
def texts (r : Request) : List String := r.header.clientId.toList ++ r.bodyTexts

/-- The key and the value of every message are short enough for their length fields. -/
def MessagesFit (r : Request) : Prop :=
  ∀ m ∈ r.messages, MessageSet.size m.key < lengthLimit ∧ MessageSet.size m.value < lengthLimit

variable {r : Request}

theorem failures_outline_of_mem_messages (hfit : r.MessagesFit) {m : Message}
    (hm : m ∈ r.messages) : m.outline.failures = [] := by
  obtain ⟨hkey, hvalue⟩ := hfit m hm
  exact failures_eq_nil_iff.mpr (Message.writes_outline_iff.mpr
    ⟨MessageSet.failure_array.mpr hkey, MessageSet.failure_array.mpr hvalue⟩)

/-- What follows the header can fail for its texts only. -/
theorem failures_bodyOutline (hfit : r.MessagesFit) :
    r.bodyOutline.failures = r.bodyTexts.flatMap refusal := by
  cases r with
  | produce r =>
    have hruns : ∀ group ∈ r.partitions, ∀ run ∈ group.2, (partition run).failures = [] := by
      intro group hgroup run hrun
      have hmem := (Produce.Request.mem_payloads_of_mem_partitions hgroup).2 run hrun
      simp only [partition, messageSet, failures, failures_raw, failures_each, List.nil_append]
      refine List.flatMap_eq_nil_iff.mpr fun m hm => failures_outline_of_mem_messages hfit ?_
      obtain ⟨payload, hpayload, hm⟩ := List.mem_flatMap.mp hm
      exact List.mem_flatMap.mpr ⟨payload, hmem payload hpayload, hm⟩
    have hnames : r.partitions.map Prod.fst =
        (groupByTopic Payload.topic Payload.partition r.payloads).map Prod.fst := by
      rw [Produce.Request.partitions, List.map_map]
      rfl
    simp only [bodyOutline, failures, failures_raw, List.nil_append]
    rw [failures_topics_of_nil hruns, hnames, bodyTexts]
  | fetch r =>
    simp only [bodyOutline, failures, failures_raw, List.nil_append]
    exact failures_topics_of_nil fun _ _ _ _ => rfl
  | offset r =>
    simp only [bodyOutline, failures, failures_raw, List.nil_append]
    exact failures_topics_of_nil fun _ _ _ _ => rfl
  | metadata r =>
    simp only [bodyOutline, failures_counted, failures_text, bodyTexts, Option.toList_some,
      List.flatMap_singleton]
  | offsetCommit r =>
    simp only [bodyOutline, failures, failures_raw, failures_text, failures_topics, bodyTexts,
      Option.toList_some, List.flatMap_cons, List.flatMap_nil, List.nil_append, List.append_nil,
      List.flatMap_assoc]
  | offsetFetch r =>
    simp only [bodyOutline, failures, failures_text, bodyTexts, Option.toList_some,
      List.flatMap_cons, List.flatMap_nil, List.append_nil]
    rw [failures_topics_of_nil fun _ _ _ _ => rfl]
  | consumerMetadata r => exact failures_text (some r.group)

/-- Nothing but its texts can keep the outline of a request from being written. -/
theorem failure_outline (hfit : r.MessagesFit) :
    r.outline.emission.failure = (r.texts.find? (TooLong ·)).map tooLong := by
  rw [failure_emission, ← head?_flatMap_refusal, texts, List.flatMap_append,
    ← failures_bodyOutline hfit, ← failures_text]
  rfl

/-! ### Refusals -/

theorem exists_find?_of_compressed (h : ∃ payload ∈ r.payloads, payload.codec ≠ .none) :
    ∃ payload, r.payloads.find? (fun payload => payload.codec ≠ .none) = some payload := by
  obtain ⟨payload, hpayload, hcodec⟩ := h
  exact Option.isSome_iff_exists.mp
    (List.find?_isSome.mpr ⟨payload, hpayload, decide_eq_true hcodec⟩)

theorem exists_find?_of_tooLong {texts : List String} (h : ∃ text ∈ texts, TooLong text) :
    ∃ text, texts.find? (TooLong ·) = some text := by
  obtain ⟨text, htext, hlong⟩ := h
  exact Option.isSome_iff_exists.mp (List.find?_isSome.mpr ⟨text, htext, decide_eq_true hlong⟩)

section Plain

variable (hplain : ∀ payload ∈ r.payloads, payload.codec = .none) (hfit : r.MessagesFit)
include hplain hfit

/-- What is written in front of a text that is too long stays. -/
theorem encode_of_find?_eq_some {text : String} (h : r.texts.find? (TooLong ·) = some text)
    (b : FrameBuffer) : r.encode b = .error (tooLong text) (b.append r.outline.bytes) := by
  have hfailure : r.outline.emission.failure = some (tooLong text) := by
    rw [failure_outline hfit, h, Option.map_some]
  rw [emits_encode hplain b, Emission.onto, hfailure]
  rfl

theorem exists_encode_of_texts (h : ∀ text ∈ r.texts, ¬TooLong text) (b : FrameBuffer) :
    ∃ bytes, r.IsFrame bytes ∧ r.encode b = .ok () (b.append bytes) := by
  have hnone : r.texts.find? (TooLong ·) = none := by
    rw [List.find?_eq_none]
    exact fun text htext hlong => h text htext (of_decide_eq_true hlong)
  have hwrites : r.outline.emission.failure = none := by
    rw [failure_outline hfit, hnone, Option.map_none]
  have hencode : r.encode b = .ok () (b.append r.outline.bytes) := by
    rw [emits_encode hplain b, Emission.onto, hwrites]
    rfl
  obtain ⟨bytes, hbytes, heq⟩ := exists_isFrame_of_encode hencode
  exact ⟨bytes, hbytes, by rw [hencode, heq]⟩

end Plain

/-- A request fails in one of two ways: at once and without a trace, for a payload that is to be
compressed, or for a text that is too long and behind what has been written by then. In the first
case the texts do not matter, and in the second it is the first such text in the order of the bytes.
What the buffer held before stays in any case, and if nothing fails there is the whole frame behind
it. -/
theorem encode_refusal (r : Request) (hfit : r.MessagesFit) (b : FrameBuffer) :
    ((∃ e b', r.encode b = .error e b') ↔
      (∃ payload ∈ r.payloads, payload.codec ≠ .none) ∨ ∃ text ∈ r.texts, TooLong text) ∧
    (∀ payload, r.payloads.find? (fun payload => payload.codec ≠ .none) = some payload →
      r.encode b = .error (.unsupportedCodec payload.codec.id) b) ∧
    ((∀ payload ∈ r.payloads, payload.codec = .none) →
      (∀ text, r.texts.find? (TooLong ·) = some text →
        ∃ written, r.encode b =
          .error (.protocol (.stringTooLong (Utf8.encode text).length)) (b.append written)) ∧
      ((∀ text ∈ r.texts, ¬TooLong text) →
        ∃ bytes, r.IsFrame bytes ∧ r.encode b = .ok () (b.append bytes))) := by
  have hcompressed : ∀ payload,
      r.payloads.find? (fun payload => payload.codec ≠ .none) = some payload →
        r.encode b = .error (.unsupportedCodec payload.codec.id) b := fun payload hpayload => by
    rw [encode_of_compressed hpayload]
    rfl
  refine ⟨⟨fun ⟨e, b', herror⟩ => ?_, fun h => ?_⟩, hcompressed, fun hplain =>
    ⟨fun text htext => ⟨_, encode_of_find?_eq_some hplain hfit htext b⟩,
      fun hshort => exists_encode_of_texts hplain hfit hshort b⟩⟩
  · by_contra hnot
    obtain ⟨hplain, hshort⟩ := not_or.mp hnot
    obtain ⟨bytes, -, hok⟩ := exists_encode_of_texts (by simpa using hplain) hfit
      (by simpa using hshort) b
    rw [hok] at herror
    contradiction
  · by_cases hany : ∃ payload ∈ r.payloads, payload.codec ≠ .none
    · obtain ⟨payload, hpayload⟩ := exists_find?_of_compressed hany
      exact ⟨_, _, hcompressed payload hpayload⟩
    · obtain ⟨text, htext⟩ := exists_find?_of_tooLong (h.resolve_left hany)
      exact ⟨_, _, encode_of_find?_eq_some (by simpa using hany) hfit htext b⟩

/-- A topic that is too long is met behind a message set that has been written. -/
theorem encode_refusal_behind_set :
    ∃ written, (produce ⟨⟨7, none⟩, 1, 250, [⟨"t", 0, .none, [{ value := some [1] }]⟩,
        ⟨longText 40000, 0, .none, []⟩, ⟨"t", 1, .none, []⟩]⟩).encode ⟨#[255]⟩ =
      .error (.protocol (.stringTooLong 40000)) (FrameBuffer.append ⟨#[255]⟩ written) := by
  have hlength := length_encode_longText 40000
  have hlong : TooLong (longText 40000) := by
    rw [TooLong, hlength]
    decide
  have hshort : ¬TooLong "t" := by decide
  have hne : longText 40000 ≠ "t" := fun heq => hshort (heq ▸ hlong)
  have htexts : (produce ⟨⟨7, none⟩, 1, 250, [⟨"t", 0, .none, [{ value := some [1] }]⟩,
      ⟨longText 40000, 0, .none, []⟩, ⟨"t", 1, .none, []⟩]⟩).texts = ["t", longText 40000] := by
    simp [texts, bodyTexts, header, groupByTopic_eq, map_fst_arranged, List.eraseDups_cons, hne]
  have hfit : (produce ⟨⟨7, none⟩, 1, 250, [⟨"t", 0, .none, [{ value := some [1] }]⟩,
      ⟨longText 40000, 0, .none, []⟩, ⟨"t", 1, .none, []⟩]⟩).MessagesFit := by
    intro m hm
    obtain rfl : m = { value := some [1] } := by simpa [messages, payloads] using hm
    decide
  have hfind := (encode_refusal _ hfit ⟨#[255]⟩).2.2 (by simp [payloads])
  obtain ⟨written, hencode⟩ := hfind.1 (longText 40000) (by simp [htexts, hlong, hshort])
  rw [hlength] at hencode
  exact ⟨written, hencode⟩

end Request

end BrokerWire
