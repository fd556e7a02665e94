import BrokerWire.Proofs.Responses

/-!
# Bytes that are cut short

A decoder reads its value off a definite number of bytes and needs every one of them
(`Decoder.Exact`): whatever follows them makes no difference, and with any fewer the decoder runs
short and does not come to another value or another failure. Decoders that are exact compose to
decoders that are exact. Together with a least size for each part of a layout this tells how many
bytes a response has been read off (`RequestKind.decode_cut`).
-/

namespace BrokerWire

namespace Decoder

variable {α β : Type} {d : Decoder α} {f : α → Decoder β} {bytes front back : Bytes} {a : α}

/-- The bytes are too few for the decoder, and that is why it fails. -/
def RunsShort (d : Decoder α) (bytes : Bytes) : Prop :=
  ∀ buffer position, ∃ needed remaining c,
    d ⟨buffer, position, bytes⟩ = .error (.truncated needed remaining) c

/-- The decoder runs short on any front of the bytes that lacks some of them. -/
def NeedsAll (d : Decoder α) (bytes : Bytes) : Prop :=
  ∀ front back, bytes = front ++ back → back ≠ [] → d.RunsShort front

/-- Whenever the decoder reads a value, it does so off the bytes that it needs. -/
def Exact (d : Decoder α) : Prop :=
  ∀ ⦃c c' : Cursor⦄ ⦃a : α⦄, d c = .ok a c' →
    ∃ bytes, c.rest = bytes ++ c'.rest ∧ d.Reads bytes a ∧ d.NeedsAll bytes

/-! ### Running short -/

theorem RunsShort.decode (h : d.RunsShort bytes) :
    ∃ needed remaining, d.decode bytes = .error (.truncated needed remaining) := by
  obtain ⟨needed, remaining, c, hc⟩ := h bytes 0
  refine ⟨needed, remaining, ?_⟩
  unfold Decoder.decode EStateM.run Cursor.ofBytes
  rw [hc]

theorem runsShort_take {n : Nat} (h : bytes.length < n) : (take n).RunsShort bytes :=
  fun _ _ => ⟨_, _, _, take_short h⟩

theorem RunsShort.bind (h : d.RunsShort bytes) (f : α → Decoder β) :
    (d >>= f).RunsShort bytes := by
  intro buffer position
  obtain ⟨needed, remaining, c, hc⟩ := h buffer position
  refine ⟨needed, remaining, c, ?_⟩
  change EStateM.bind d f _ = _
  unfold EStateM.bind
  rw [hc]

/-- Too few bytes stand behind a value that is read. -/
theorem Reads.bind_runsShort (h : d.Reads front a) (hf : (f a).RunsShort back) :
    (d >>= f).RunsShort (front ++ back) := by
  intro buffer position
  obtain ⟨needed, remaining, c, hc⟩ := hf buffer (position + front.length)
  refine ⟨needed, remaining, c, ?_⟩
  change EStateM.bind d f _ = _
  unfold EStateM.bind
  rw [h]
  exact hc

/-! ### Needing all bytes -/

theorem needsAll_nil (d : Decoder α) : d.NeedsAll [] := fun _ _ hbytes hback =>
  absurd (List.append_eq_nil_iff.mp hbytes.symm).2 hback

theorem needsAll_take (bytes : Bytes) : (take bytes.length).NeedsAll bytes := by
  rintro front back rfl hback
  refine runsShort_take ?_
  rw [List.length_append]
  exact Nat.lt_add_of_pos_right (List.length_pos_iff.mpr hback)

/-- A cut falls into the first part, or behind it. -/
theorem NeedsAll.bind (hd : d.NeedsAll front) (hreads : d.Reads front a)
    (hf : (f a).NeedsAll back) : (d >>= f).NeedsAll (front ++ back) := by
  intro kept lost hbytes hlost
  rcases List.append_eq_append_iff.mp hbytes with ⟨left, rfl, rfl⟩ | ⟨left, rfl, rfl⟩
  · exact hreads.bind_runsShort (hf left lost rfl hlost)
  · by_cases hleft : left = []
    · subst hleft
      rw [List.append_nil] at hreads
      have hshort := hreads.bind_runsShort (hf [] back rfl (by simpa using hlost))
      rwa [List.append_nil] at hshort
    · exact (hd kept left rfl hleft).bind f

/-! ### Exact decoders -/

theorem exact_pure (a : α) : (pure a : Decoder α).Exact := by
  intro c c' b hok
  cases hok
  exact ⟨[], rfl, reads_pure a, needsAll_nil _⟩

theorem exact_throw (e : WireError) : (throw e : Decoder α).Exact := by
  intro c c' b hok
  cases hok

theorem exact_take (n : Nat) : (take n).Exact := by
  intro c c' a hok
  obtain ⟨bytes, ⟨rfl, rfl⟩, hrest⟩ := (recognizes_take n).spelled hok
  exact ⟨a, hrest, reads_take a, needsAll_take a⟩

theorem Exact.bind (hd : d.Exact) (hf : ∀ a, (f a).Exact) : (d >>= f).Exact := by
  intro c c'' b hok
  obtain ⟨a, c', ha, hb⟩ := exists_of_bind_eq_ok hok
  obtain ⟨front, hrest, hreads, hneeds⟩ := hd ha
  obtain ⟨back, hrest', hreads', hneeds'⟩ := hf a hb
  refine ⟨front ++ back, ?_, hreads.bind hreads', hneeds.bind hreads hneeds'⟩
  rw [hrest, hrest', List.append_assoc]

theorem Exact.map (hd : d.Exact) (g : α → β) : (g <$> d).Exact := by
  rw [map_eq_pure_bind]
  exact hd.bind fun a => exact_pure (g a)

/-- What has been read is an instance of the layout, and all of it was needed. -/
theorem Recognizes.exists_of_decode {layout : Bytes → α → Prop} {data : Bytes}
    (h : d.Recognizes layout) (hd : d.Exact) (hdecode : d.decode data = .ok a) :
    ∃ bytes slack, data = bytes ++ slack ∧ layout bytes a ∧ d.NeedsAll bytes := by
  unfold Decoder.decode EStateM.run at hdecode
  split at hdecode
  · next found c' hok =>
    cases hdecode
    obtain ⟨bytes, hlayout, hrest⟩ := h.spelled hok
    obtain ⟨bytes', hrest', -, hneeds⟩ := hd hok
    obtain rfl : bytes' = bytes := List.append_cancel_right (hrest'.symm.trans hrest)
    exact ⟨bytes', c'.rest, hrest, hlayout, hneeds⟩
  · contradiction

theorem exact_int16 : int16.Exact := (exact_take 2).bind fun _ => exact_pure _

theorem exact_int32 : int32.Exact := (exact_take 4).bind fun _ => exact_pure _

theorem exact_int64 : int64.Exact := (exact_take 8).bind fun _ => exact_pure _

theorem exact_count : count.Exact := exact_int32.bind fun _ => exact_pure _

theorem exact_errorCode : errorCode.Exact := exact_int16.bind fun _ => exact_pure _

theorem needsAll_int16 (x : Int16) : int16.NeedsAll (BigEndian.ofInt16 x) := by
  have htake := needsAll_take (BigEndian.ofInt16 x)
  rw [BigEndian.length_ofInt16] at htake
  exact fun front back hbytes hback => (htake front back hbytes hback).bind _

/-- A text that is cut is not looked into, so it does not matter whether its front is a text. -/
theorem exact_string : string.Exact := by
  intro c c' text hok
  obtain ⟨bytes, htext, hrest⟩ := recognizes_string.spelled hok
  refine ⟨bytes, hrest, recognizes_string.reads htext, ?_⟩
  cases htext with
  | absent => exact fun front back hbytes hback => (needsAll_int16 _ front back hbytes hback).bind _
  | empty size hsize hne =>
    exact fun front back hbytes hback => (needsAll_int16 _ front back hbytes hback).bind _
  | text size text hsize hlength =>
    refine (needsAll_int16 size).bind (reads_int16 size) fun front back hbytes hback => ?_
    have hpos : ¬size ≤ 0 := Int16.not_le.mpr hsize
    have hne : size ≠ -1 := fun h => hpos (h ▸ by decide)
    rw [if_neg hne, if_neg hpos, ← hlength]
    exact fun buffer position => (needsAll_take _ front back hbytes hback).bind _ buffer position

theorem exact_name : name.Exact := exact_string.bind fun _ => exact_pure _

theorem exact_repeated (hd : d.Exact) (n : Nat) : (repeated d n).Exact := by
  induction n with
  | zero => exact exact_pure []
  | succ n ih =>
    rw [repeated_succ]
    exact hd.bind fun a => ih.map _

theorem exact_counted (hd : d.Exact) : (counted d).Exact :=
  exact_count.bind fun n => exact_repeated hd n

theorem exact_topics {partition : String → Decoder α} (h : ∀ topic, (partition topic).Exact) :
    (topics partition).Exact := by
  have hgroups : (counted (name >>= fun topic => counted (partition topic))).Exact :=
    exact_counted (exact_name.bind fun topic => exact_counted (h topic))
  exact hgroups.bind fun groups => exact_pure groups.flatten

end Decoder

/-! ### Sizes of layouts

Every part of a layout takes a least number of bytes, so a list cannot have more elements than the
bytes behind its number pay for, whatever that number is. -/

namespace Layout

variable {α β : Type} {item : Bytes → α → Prop} {bytes : Bytes} {as : List α} {m n : Nat}

theorem Text.two_le_length {text : Option String} (h : Text bytes text) : 2 ≤ bytes.length := by
  cases h <;> simp

theorem Name.two_le_length {name : String} (h : Name bytes name) : 2 ≤ bytes.length := by
  obtain ⟨htext⟩ := h
  exact htext.two_le_length

/-- Each element takes `m` bytes, and `n` more for each of its parts. -/
theorem Each.length_ge {parts : α → List β}
    (hitem : ∀ bytes a, item bytes a → m + n * (parts a).length ≤ bytes.length)
    (h : Each item bytes as) : m * as.length + n * (as.flatMap parts).length ≤ bytes.length := by
  induction h with
  | nil => simp
  | cons ha has ih =>
    have hfront := hitem _ _ ha
    rw [List.length_cons, List.flatMap_cons, List.length_append, List.length_append, Nat.mul_succ,
      Nat.mul_add]
    omega

theorem Counted.length_ge {parts : α → List β}
    (hitem : ∀ bytes a, item bytes a → m + n * (parts a).length ≤ bytes.length)
    (h : Counted item bytes as) :
    4 + (m * as.length + n * (as.flatMap parts).length) ≤ bytes.length := by
  obtain ⟨count, hcount, has⟩ := h
  rw [List.length_append, BigEndian.length_ofInt32]
  exact Nat.add_le_add_left (has.length_ge hitem) 4

/-- Elements without parts. -/
theorem Counted.mul_length_le (hitem : ∀ bytes a, item bytes a → m ≤ bytes.length)
    (h : Counted item bytes as) : 4 + m * as.length ≤ bytes.length := by
  have hnone : ∀ bytes a, item bytes a → m + 0 * ([] : List Unit).length ≤ bytes.length := hitem
  have hlength := h.length_ge hnone
  rwa [Nat.zero_mul] at hlength

/-- Partitions of which each takes at least `n` bytes, whichever topics they are under. -/
theorem Topics.mul_length_le {partition : String → Bytes → α → Prop}
    (hpartition : ∀ topic bytes a, partition topic bytes a → n ≤ bytes.length)
    (h : Topics partition bytes as) : 4 + n * as.length ≤ bytes.length := by
  obtain ⟨hgroups⟩ := h
  have htopic : ∀ bytes group, Topic partition bytes group →
      0 + n * (id group).length ≤ bytes.length := by
    rintro _ _ ⟨hname, has⟩
    have hpartitions := has.mul_length_le (hpartition _)
    rw [List.length_append, id]
    omega
  have hlength := hgroups.length_ge htopic
  rwa [Nat.zero_mul, Nat.zero_add, List.flatMap_id] at hlength

theorem Reply.mul_length_le {partition : String → Bytes → α → Prop}
    (h : Reply (Topics partition) bytes as)
    (hpartition : ∀ topic bytes a, partition topic bytes a → n ≤ bytes.length) :
    n * as.length ≤ bytes.length := by
  obtain ⟨correlationId, htopics⟩ := h
  have hlength := htopics.mul_length_le hpartition
  rw [List.length_append]
  omega

end Layout

/-! ### Responses -/

/-- How many records there are. -/
def Responses.count : Responses → Nat
  | produce rs => rs.length
  | fetch rs => rs.length
  | offset rs => rs.length
  | metadata rs => rs.length
  | offsetCommit rs => rs.length
  | offsetFetch rs => rs.length
  | consumerMetadata rs => rs.length

open Decoder in
theorem Fetch.exact_messageSet (partitionId : Int32) : (messageSet partitionId).Exact := by
  refine exact_count.bind fun n => (exact_take n).bind fun set => ?_
  cases MessageSet.decode set partitionId with
  | ok messages => exact exact_pure messages
  | error e => exact exact_throw e

open Decoder in
theorem Metadata.exact_partition : partition.Exact :=
  exact_errorCode.bind fun _ => exact_int32.bind fun _ => exact_int32.bind fun _ =>
    (exact_counted exact_int32).bind fun _ => (exact_counted exact_int32).bind fun _ => exact_pure _

open Decoder in
/-- The decoders of all kinds are exact, since their parts are. -/
theorem RequestKind.exact_responses (kind : RequestKind) : kind.responses.Exact := by
  cases kind with
  | produce =>
    refine Exact.map (exact_int32.bind fun _ => exact_topics fun topic => ?_) _
    exact exact_int32.bind fun _ => exact_errorCode.bind fun _ => exact_int64.bind fun _ =>
      exact_pure _
  | fetch =>
    refine Exact.map (exact_int32.bind fun _ => exact_topics fun topic => ?_) _
    exact exact_int32.bind fun partitionId => exact_errorCode.bind fun _ =>
      exact_int64.bind fun _ => (Fetch.exact_messageSet partitionId).bind fun _ => exact_pure _
  | offset =>
    refine Exact.map (exact_int32.bind fun _ => exact_topics fun topic => ?_) _
    exact exact_int32.bind fun _ => exact_errorCode.bind fun _ =>
      (exact_counted exact_int64).bind fun _ => exact_pure _
  | metadata =>
    have hbroker : Metadata.broker.Exact :=
      exact_int32.bind fun _ => exact_name.bind fun _ => exact_int32.bind fun _ => exact_pure _
    have htopic : Metadata.topic.Exact :=
      exact_errorCode.bind fun _ => exact_name.bind fun _ =>
        (exact_counted Metadata.exact_partition).bind fun _ => exact_pure _
    exact Exact.map (exact_int32.bind fun _ => (exact_counted hbroker).bind fun _ =>
      (exact_counted htopic).bind fun _ => exact_pure _) _
  | offsetCommit =>
    refine Exact.map (exact_int32.bind fun _ => exact_topics fun topic => ?_) _
    exact exact_int32.bind fun _ => exact_errorCode.bind fun _ => exact_pure _
  | offsetFetch =>
    refine Exact.map (exact_int32.bind fun _ => exact_topics fun topic => ?_) _
    exact exact_int32.bind fun _ => exact_int64.bind fun _ => exact_string.bind fun _ =>
      exact_errorCode.bind fun _ => exact_pure _
  | consumerMetadata =>
    refine Exact.map (exact_int32.bind fun _ => ?_) _
    exact exact_errorCode.bind fun _ => exact_int32.bind fun _ => exact_name.bind fun _ =>
      exact_int32.bind fun _ => exact_pure _

section Sizes

open List (length_append length_singleton)
open BigEndian (length_ofInt16 length_ofInt32 length_ofInt64)

variable {bytes : Bytes} {rs : Responses}

/-- What is listed takes at least so many bytes. -/
theorem Metadata.ResponseLayout.length_ge {r : Metadata.Response} (h : ResponseLayout bytes r) :
    12 + (10 * r.brokers.length + (8 * r.topics.length +
      18 * (r.topics.flatMap Topic.partitions).length)) ≤ bytes.length := by
  obtain ⟨correlationId, hbrokers, htopics⟩ := h
  have hbroker : ∀ bytes b, BrokerLayout bytes b → 10 ≤ bytes.length := by
    rintro _ _ ⟨brokerId, port, hhost⟩
    have hname := hhost.two_le_length
    simp only [length_append, length_ofInt32]
    omega
  have hpartition : ∀ bytes p, PartitionLayout bytes p → 18 ≤ bytes.length := by
    rintro _ _ ⟨code, partitionId, leaderId, hreplicas, hisrs⟩
    have hreplicas := hreplicas.mul_length_le (m := 0) fun _ _ _ => Nat.zero_le _
    have hisrs := hisrs.mul_length_le (m := 0) fun _ _ _ => Nat.zero_le _
    simp only [length_append, length_ofInt16, length_ofInt32]
    omega
  have htopic : ∀ bytes (t : Topic), TopicLayout bytes t →
      8 + 18 * t.partitions.length ≤ bytes.length := by
    rintro _ _ ⟨code, hname, hpartitions⟩
    have hname := hname.two_le_length
    have hpartitions := hpartitions.mul_length_le hpartition
    simp only [length_append, length_ofInt16]
    omega
  have hbrokers := hbrokers.mul_length_le hbroker
  have htopics := htopics.length_ge htopic
  simp only [length_append, length_ofInt32]
  omega

/-- No kind of record takes fewer than six bytes. -/
theorem RequestKind.ResponseLayout.mul_count_le {kind : RequestKind}
    (h : kind.ResponseLayout bytes rs) : 6 * rs.count ≤ bytes.length := by
  cases kind with
  | produce =>
    obtain ⟨found, hreply, rfl⟩ := h
    refine hreply.mul_length_le fun topic bytes r hr => ?_
    obtain ⟨⟩ := hr
    simp only [length_append, length_ofInt16, length_ofInt32, length_ofInt64]
    omega
  | fetch =>
    obtain ⟨found, hreply, rfl⟩ := h
    refine hreply.mul_length_le fun topic bytes r hr => ?_
    obtain ⟨⟩ := hr
    simp only [length_append, length_ofInt16, length_ofInt32, length_ofInt64]
    omega
  | offset =>
    obtain ⟨found, hreply, rfl⟩ := h
    refine hreply.mul_length_le fun topic bytes r hr => ?_
    obtain ⟨⟩ := hr
    simp only [length_append, length_ofInt16, length_ofInt32]
    omega
  | metadata =>
    obtain ⟨found, ⟨hresponse⟩, rfl⟩ := h
    have hlength := hresponse.length_ge
    rw [Responses.count, List.length_singleton]
    omega
  | offsetCommit =>
    obtain ⟨found, hreply, rfl⟩ := h
    refine hreply.mul_length_le fun topic bytes r hr => ?_
    obtain ⟨⟩ := hr
    simp only [length_append, length_ofInt16, length_ofInt32]
    omega
  | offsetFetch =>
    obtain ⟨found, hreply, rfl⟩ := h
    refine hreply.mul_length_le fun topic bytes r hr => ?_
    obtain ⟨⟩ := hr
    simp only [length_append, length_ofInt16, length_ofInt32, length_ofInt64]
    omega
  | consumerMetadata =>
    obtain ⟨found, hreply, rfl⟩ := h
    obtain ⟨correlationId, ⟨hcoordinator⟩⟩ := hreply
    obtain ⟨code, coordinatorId, coordinatorPort, hhost⟩ := hcoordinator
    simp only [Responses.count, length_singleton, length_append, length_ofInt32]
    omega

end Sizes

/-- A response that is read has been read off its first `c` bytes: nothing behind them makes a
difference, and any fewer of them are refused as cut short. There is at least the room for the
records that are returned. -/
theorem RequestKind.decode_cut (kind : RequestKind) (data : Bytes) (rs : Responses)
    (h : kind.decode data = .ok rs) :
    ∃ c ≤ data.length,
      (∀ slack, kind.decode (data.take c ++ slack) = .ok rs) ∧
      (∀ k < c, ∃ needed remaining,
        kind.decode (data.take k) = .error (.truncated needed remaining)) ∧
      6 * rs.count ≤ c ∧
      ∀ found, rs = .metadata found → ∀ r ∈ found,
        10 * r.brokers.length + 8 * r.topics.length +
          18 * (r.topics.flatMap Metadata.Topic.partitions).length ≤ c := by
  obtain ⟨bytes, slack, rfl, hlayout, hneeds⟩ :=
    kind.recognizes_responses.exists_of_decode kind.exact_responses h
  have hreads := kind.recognizes_responses.reads hlayout
  refine ⟨bytes.length, ?_, fun slack => ?_, fun k hk => ?_, hlayout.mul_count_le, ?_⟩
  · rw [List.length_append]
    exact Nat.le_add_right _ _
  · rw [List.take_left]
    exact hreads.decode slack
  · -- what is left out is in front of the slack
    have hlost : bytes.drop k ≠ [] := fun h => Nat.not_le_of_lt hk (List.drop_eq_nil_iff.mp h)
    rw [List.take_append_of_le_length (Nat.le_of_lt hk)]
    exact (hneeds _ _ (List.take_append_drop k bytes).symm hlost).decode
  · rintro found rfl r hr
    cases kind with
    | metadata =>
      obtain ⟨_, ⟨hresponse⟩, hfound⟩ := hlayout
      obtain rfl := Responses.metadata.inj hfound
      obtain rfl := List.mem_singleton.mp hr
      have hlength := hresponse.length_ge
      omega
    | _ =>
      obtain ⟨_, -, hfound⟩ := hlayout
      contradiction

/-- A broker, a topic with one partition that has one replica, and two bytes behind them. The parts
pay for at least 36 bytes, and fewer than all but the last two bytes are refused. -/
theorem RequestKind.decode_cut_metadata :
    let data : Bytes := [0, 0, 0, 7,
      0, 0, 0, 1, 0, 0, 0, 1, 0, 1, 98, 0, 0, 35, 132,
      0, 0, 0, 1, 0, 0, 0, 1, 116, 0, 0, 0, 1,
      0, 0, 0, 0, 0, 3, 0, 0, 0, 1, 0, 0, 0, 1, 0, 0, 0, 1, 0, 0, 0, 0,
      9, 9]
    let partition : Metadata.Partition := ⟨.noError, 3, 1, [1], []⟩
    let response : Metadata.Response := ⟨7, [⟨1, "b", 9092⟩], [⟨.noError, "t", [partition]⟩]⟩
    metadata.decode data = .ok (.metadata [response]) ∧
    ∃ c ≤ data.length,
      (∀ slack, metadata.decode (data.take c ++ slack) = .ok (.metadata [response])) ∧
      (∀ k < c, ∃ needed remaining,
        metadata.decode (data.take k) = .error (.truncated needed remaining)) ∧ 36 ≤ c := by
  intro data partition response
  have hbroker : Metadata.BrokerLayout _ ⟨1, "b", 9092⟩ := .mk 1 9092 (.mk (.text 1 "b" rfl rfl))
  have hpartition : Metadata.PartitionLayout _ partition :=
    .mk 0 3 1 (.mk 1 rfl (.cons rfl .nil)) (.mk 0 rfl .nil)
  have htopic : Metadata.TopicLayout _ ⟨.noError, "t", [partition]⟩ :=
    .mk 0 (.mk (.text 1 "t" rfl rfl)) (.mk 1 rfl (.cons hpartition .nil))
  have hresponse : Metadata.ResponseLayout _ response :=
    .mk 7 (.mk 1 rfl (.cons hbroker .nil)) (.mk 1 rfl (.cons htopic .nil))
  have hdecode : metadata.decode data = .ok (.metadata [response]) :=
    metadata.recognizes_responses.decode_eq_ok_iff.mpr ⟨_, [9, 9], ⟨_, ⟨hresponse⟩, rfl⟩, rfl⟩
  obtain ⟨c, hc, hmore, hless, -, hroom⟩ := decode_cut metadata data _ hdecode
  exact ⟨hdecode, c, hc, hmore, hless, hroom _ rfl response (List.mem_singleton_self response)⟩

end BrokerWire
