import BrokerWire.Proofs.Cutting
import BrokerWire.Proofs.Responses

/-!
# Partitions of a Fetch response

A broker returns partitions one behind the other, each with a message set behind its size. Reading
moves on by the size, however much of the set turned out to be messages, so that a set is read as
it would be read alone.

`Decoder.Gives` says of a decoder that on certain bytes it comes to a certain end, a value or a
failure. A run of elements comes to the end that `mapM` comes to on the elements
(`Decoder.gives_repeated`), and so do topics with partitions (`Decoder.gives_topics`). Main
statement: `Fetch.decode_reply`.
-/

namespace BrokerWire

/-! ### Values and failures together -/

namespace Decoder

/-- The decoder reads these bytes as a value and moves behind them, or finds a failure in them,
whatever follows. -/
def Gives (d : Decoder α) (bytes : Bytes) : Except WireError α → Prop
  | .ok a => d.Reads bytes a
  | .error e => ∀ rest, d.Fails (bytes ++ rest) e

theorem Gives.decode {d : Decoder α} {bytes : Bytes} {x : Except WireError α}
    (h : d.Gives bytes x) : d.decode bytes = x := by
  cases x with
  | ok a =>
    have hdecode := Reads.decode h []
    rwa [List.append_nil] at hdecode
  | error e =>
    have hfails := h []
    rw [List.append_nil] at hfails
    exact hfails.decode

/-- The second part is looked at only if the first one is a value. -/
theorem Gives.bind {d : Decoder α} {f : α → Decoder β} {front back : Bytes}
    {x : Except WireError α} {y : α → Except WireError β} (h : d.Gives front x)
    (h' : ∀ a, x = .ok a → (f a).Gives back (y a)) : (d >>= f).Gives (front ++ back) (x >>= y) := by
  cases x with
  | error e =>
    intro rest
    rw [List.append_assoc]
    exact (h (back ++ rest)).bind f
  | ok a =>
    have hback := h' a rfl
    change Gives _ _ (y a)
    generalize y a = z at hback
    cases z with
    | ok b => exact Reads.bind h hback
    | error e =>
      intro rest
      rw [List.append_assoc]
      exact Reads.bind_fails h (hback rest)

theorem Reads.bind_gives {d : Decoder α} {f : α → Decoder β} {front back : Bytes} {a : α}
    {y : Except WireError β} (h : d.Reads front a) (h' : (f a).Gives back y) :
    (d >>= f).Gives (front ++ back) y :=
  Gives.bind (x := .ok a) (y := fun _ => y) h fun _ ha => by
    cases ha
    exact h'

theorem gives_pure (a : α) : (pure a : Decoder α).Gives [] (.ok a) :=
  reads_pure a

theorem gives_throw (e : WireError) : (throw e : Decoder α).Gives [] (.error e) :=
  fun rest => fails_throw e ([] ++ rest)

/-- Whatever the last step makes of a value without reading on. -/
theorem Gives.bind_pure {d : Decoder α} {bytes : Bytes} {x : Except WireError α}
    (h : d.Gives bytes x) (f : α → β) : (d >>= fun a => pure (f a)).Gives bytes (f <$> x) := by
  have hbind := h.bind (f := fun a => pure (f a)) (y := fun a => .ok (f a)) fun a _ =>
    gives_pure (f a)
  rw [List.append_nil] at hbind
  cases x with
  | ok a => exact hbind
  | error e => exact hbind

theorem Gives.map {d : Decoder α} {bytes : Bytes} {x : Except WireError α} (h : d.Gives bytes x)
    (f : α → β) : (f <$> d).Gives bytes (f <$> x) := by
  rw [map_eq_pure_bind]
  exact h.bind_pure f

/-- A run of elements is read element by element, up to the first failure. -/
theorem gives_repeated {item : Decoder α} {f : β → Bytes} {g : β → Except WireError α}
    {bs : List β} (h : ∀ b ∈ bs, item.Gives (f b) (g b)) :
    (repeated item bs.length).Gives (bs.flatMap f) (bs.mapM g) := by
  induction bs with
  | nil => exact gives_pure []
  | cons b bs ih =>
    obtain ⟨hb, hbs⟩ := List.forall_mem_cons.mp h
    rw [List.length_cons, repeated_succ, List.flatMap_cons, List.mapM_cons]
    refine hb.bind fun a _ => ?_
    rw [← map_eq_pure_bind]
    exact (ih hbs).map (a :: ·)

theorem gives_counted {item : Decoder α} {f : β → Bytes} {g : β → Except WireError α}
    {bs : List β} (hcount : bs.length < lengthLimit) (h : ∀ b ∈ bs, item.Gives (f b) (g b)) :
    (counted item).Gives (BigEndian.ofInt32 (Int32.ofNat bs.length) ++ bs.flatMap f)
      (bs.mapM g) :=
  (reads_count hcount).bind_gives (gives_repeated h)

end Decoder

/-! ### Lists in step -/

section InStep

variable {α β : Type} {R : α → β → Prop} {bs : List β}

theorem exists_of_mem_forall₂ {as : List α} (h : List.Forall₂ R as bs) {b : β} (hb : b ∈ bs) :
    ∃ a ∈ as, R a b := by
  induction h with
  | nil => contradiction
  | cons hab _ ih =>
    obtain rfl | hb := List.mem_cons.mp hb
    · exact ⟨_, List.mem_cons_self, hab⟩
    · obtain ⟨a, ha, hab⟩ := ih hb
      exact ⟨a, List.mem_cons_of_mem _ ha, hab⟩

/-- What is in step with one element among others. -/
theorem exists_of_forall₂_append_cons {as as' : List α} {a : α}
    (h : List.Forall₂ R (as ++ a :: as') bs) : ∃ bs₁ b bs₂,
      bs = bs₁ ++ b :: bs₂ ∧ List.Forall₂ R as bs₁ ∧ R a b ∧ List.Forall₂ R as' bs₂ := by
  induction as generalizing bs with
  | nil =>
    obtain ⟨b, bs₂, hb, hbs₂, rfl⟩ := List.forall₂_cons_left_iff.mp h
    exact ⟨[], b, bs₂, rfl, .nil, hb, hbs₂⟩
  | cons a' as ih =>
    obtain ⟨b', bs, hb', hbs, rfl⟩ := List.forall₂_cons_left_iff.mp h
    obtain ⟨bs₁, b, bs₂, rfl, hbs₁, hb, hbs₂⟩ := ih hbs
    exact ⟨b' :: bs₁, b, bs₂, rfl, .cons hb' hbs₁, hb, hbs₂⟩

end InStep

/-! ### Topics -/

section Topics

variable {α β : Type} {groups : List (String × List α)}

/-- The bytes of topics, given the bytes of their members. -/
def topicsBytes (groups : List (String × List α)) (member : α → Bytes) : Bytes :=
  BigEndian.ofInt32 (Int32.ofNat groups.length) ++ groups.flatMap fun group =>
    (Emission.string (some group.1)).bytes ++
      (BigEndian.ofInt32 (Int32.ofNat group.2.length) ++ group.2.flatMap member)

/-- The members of all topics in the order of the bytes, each with the name of its topic. -/
def tagged (groups : List (String × List α)) : List (String × α) :=
  groups.flatMap fun group => group.2.map (group.1, ·)

/-- Numbers and names that the fields in front of them can tell. -/
structure Tellable (groups : List (String × List α)) : Prop where
  /-- The number of topics. -/
  count : groups.length < lengthLimit
  /-- Their names. -/
  names : ∀ group ∈ groups, (Utf8.encode group.1).length ≤ Int16.maxValue.toNatClampNeg
  /-- The number of members of each topic. -/
  counts : ∀ group ∈ groups, group.2.length < lengthLimit

theorem Tellable.failure_string (h : Tellable groups) {group : String × List α}
    (hgroup : group ∈ groups) : (Emission.string (some group.1)).failure = none := by
  have hname : ¬(Utf8.encode ((some group.1).getD "")).length > Int16.maxValue.toNatClampNeg :=
    Nat.not_lt.mpr (h.names group hgroup)
  simp only [Emission.string]
  rw [if_neg hname]
  split <;> rfl

theorem Encoder.emits_topics (h : Tellable groups) {member : α → Encoder Unit} {f : α → Bytes}
    (hmember : ∀ group ∈ groups, ∀ a ∈ group.2, (member a).Emits ⟨f a, none⟩) :
    (topics groups member).Emits ⟨topicsBytes groups f, none⟩ := by
  have hgroup : ∀ group ∈ groups, (string (some group.1) >>= fun _ => count group.2.length >>=
      fun _ => group.2.forM member).Emits
        ⟨(Emission.string (some group.1)).bytes ++
          (BigEndian.ofInt32 (Int32.ofNat group.2.length) ++ group.2.flatMap f), none⟩ := by
    intro group hgroup
    have hname : (string (some group.1)).Emits ⟨(Emission.string (some group.1)).bytes, none⟩ := by
      rw [← h.failure_string hgroup]
      exact emits_string (some group.1)
    have hmembers := Emits.forM (hmember group hgroup)
    rw [Emission.each_ok] at hmembers
    exact hname.bind ((emits_raw (BigEndian.ofInt32 (Int32.ofNat group.2.length))).bind hmembers)
  have hgroups := Emits.forM hgroup
  rw [Emission.each_ok] at hgroups
  exact (emits_raw (BigEndian.ofInt32 (Int32.ofNat groups.length))).bind hgroups

/-- Attempts made list by list. -/
theorem mapM_flatMap {ε γ : Type} {f : β → Except ε γ} {g : α → List β} (as : List α) :
    (as.flatMap g).mapM f = List.flatten <$> as.mapM fun a => (g a).mapM f := by
  induction as with
  | nil => rfl
  | cons a as ih =>
    rw [List.flatMap_cons, mapM_append_eq_bind, ih, List.mapM_cons]
    cases (g a).mapM f with
    | error e => rfl
    | ok bs => cases as.mapM fun a => (g a).mapM f <;> rfl

theorem tagged_append_cons (before after : List (String × List α)) (topic : String)
    (members members' : List α) (a : α) :
    tagged (before ++ (topic, members ++ a :: members') :: after) =
      (tagged before ++ members.map (topic, ·)) ++
        (topic, a) :: (members'.map (topic, ·) ++ tagged after) := by
  simp [tagged]

/-- Topics with their members, each to be read under the name of its topic. -/
theorem Decoder.gives_topics (h : Tellable groups) {partition : String → Decoder β}
    {f : α → Bytes} {g : String → α → Except WireError β}
    (hmember : ∀ group ∈ groups, ∀ a ∈ group.2, (partition group.1).Gives (f a) (g group.1 a)) :
    (topics partition).Gives (topicsBytes groups f)
      ((tagged groups).mapM fun member => g member.1 member.2) := by
  have hgroup : ∀ group ∈ groups, (name >>= fun topic => counted (partition topic)).Gives
      ((Emission.string (some group.1)).bytes ++
        (BigEndian.ofInt32 (Int32.ofNat group.2.length) ++ group.2.flatMap f))
      (group.2.mapM (g group.1)) := fun group hgroup =>
    (reads_name (h.failure_string hgroup)).bind_gives
      (gives_counted (h.counts group hgroup) (hmember group hgroup))
  have hgroups := (gives_counted h.count hgroup).bind_pure List.flatten
  simp only [tagged, mapM_flatMap, List.mapM_map]
  exact hgroups

end Topics

namespace MessageSet

/-- A message says which partition it was read from. -/
theorem partitionId_of_mem_decode {set : Bytes} {partitionId : Int32} {messages : List Message}
    (h : decode set partitionId = .ok messages) {m : Message} (hm : m ∈ messages) :
    m.partitionId = partitionId := by
  obtain ⟨record, -, hrecord⟩ := exists_of_mem_forall₂ (mapM_eq_ok_iff.mp h) hm
  obtain ⟨offset, slack, hfields⟩ := Record.decode_eq_ok_iff.mp hrecord
  cases hfields
  rfl

/-- What stands in front in a set that is accepted is accepted, with the first of its messages. -/
theorem exists_decode_prefix {set cut : Bytes} {partitionId : Int32} {messages : List Message}
    (hcut : cut <+: set) (h : decode set partitionId = .ok messages) :
    ∃ found, decode cut partitionId = .ok found ∧ found <+: messages := by
  obtain ⟨later, hlater⟩ := exists_decode_eq_bind set partitionId cut.length
  rw [← List.prefix_iff_eq_take.mp hcut, h] at hlater
  cases hfound : decode cut partitionId with
  | error e =>
    rw [hfound] at hlater
    contradiction
  | ok found =>
    refine ⟨found, rfl, ?_⟩
    rw [hfound] at hlater
    cases later with
    | error e => contradiction
    | ok later =>
      cases hlater
      exact List.prefix_append found later

end MessageSet

namespace Fetch

/-! ### What a broker writes -/

/-- What a broker returns for one partition, with the bytes of the message set as they are. -/
structure Portion where
  /-- The partition. -/
  partitionId : Int32
  /-- The code for whether it could be read. -/
  code : Int16
  /-- The offset at the end of the partition's log. -/
  highWaterMark : Int64
  /-- The message set. -/
  set : Bytes
  deriving DecidableEq, Repr

/-- Writes a response. -/
def reply (correlationId : Int32) (topics : List (String × List Portion)) : Encoder Unit := do
  Encoder.int32 correlationId
  Encoder.topics topics fun portion => do
    Encoder.int32 portion.partitionId
    Encoder.int16 portion.code
    Encoder.int64 portion.highWaterMark
    Encoder.bytes (some portion.set)

/-- The bytes of a portion. -/
def Portion.bytes (portion : Portion) : Bytes :=
  BigEndian.ofInt32 portion.partitionId ++ (BigEndian.ofInt16 portion.code ++
    (BigEndian.ofInt64 portion.highWaterMark ++
      (BigEndian.ofInt32 (Int32.ofNat portion.set.length) ++ portion.set)))

/-- The record of a portion, given the messages in its set. -/
def Portion.record (topic : String) (portion : Portion) (messages : List Message) : Response where
  topic
  partitionId := portion.partitionId
  error := .ofCode portion.code
  highWaterMark := portion.highWaterMark
  messages

/-- A portion as a record, or why its set is not accepted. -/
def Portion.response (topic : String) (portion : Portion) : Except WireError Response :=
  portion.record topic <$> MessageSet.decode portion.set portion.partitionId

/-- The topics of a response can be written, and so can the sizes of the sets. -/
structure Writable (topics : List (String × List Portion)) : Prop extends Tellable topics where
  /-- The size in front of each set can tell its length. -/
  sets : ∀ group ∈ topics, ∀ portion ∈ group.2, portion.set.length < lengthLimit

theorem Portion.gives_bytes (topic : String) {portion : Portion}
    (h : portion.set.length < lengthLimit) :
    (do
      let partitionId ← Decoder.int32
      let error ← Decoder.errorCode
      let highWaterMark ← Decoder.int64
      let messages ← messageSet partitionId
      return { topic, partitionId, error, highWaterMark, messages } : Decoder Response).Gives
      portion.bytes (portion.response topic) := by
  have hset : (messageSet portion.partitionId).Gives
      (BigEndian.ofInt32 (Int32.ofNat portion.set.length) ++ (portion.set ++ []))
      (MessageSet.decode portion.set portion.partitionId) := by
    refine (Decoder.reads_count h).bind_gives ((Decoder.reads_take portion.set).bind_gives ?_)
    cases MessageSet.decode portion.set portion.partitionId with
    | ok messages => exact Decoder.gives_pure messages
    | error e => exact Decoder.gives_throw e
  rw [List.append_nil] at hset
  have herror := (Decoder.reads_int16 portion.code).bind_pure ErrorCode.ofCode
  exact (Decoder.reads_int32 portion.partitionId).bind_gives (herror.bind_gives
    ((Decoder.reads_int64 portion.highWaterMark).bind_gives (hset.bind_pure _)))

/-! ### Responses -/

theorem Portion.response_eq_ok_iff {topic : String} {portion : Portion} {r : Response} :
    portion.response topic = .ok r ↔ ∃ messages,
      MessageSet.decode portion.set portion.partitionId = .ok messages ∧
        r = portion.record topic messages := by
  unfold response
  cases MessageSet.decode portion.set portion.partitionId with
  | error e => simp [Functor.map, Except.map]
  | ok messages => simp [Functor.map, Except.map, eq_comm]

theorem Portion.response_eq_error_iff {topic : String} {portion : Portion} {e : WireError} :
    portion.response topic = .error e ↔
      MessageSet.decode portion.set portion.partitionId = .error e := by
  unfold response
  cases MessageSet.decode portion.set portion.partitionId with
  | error e => simp [Functor.map, Except.map]
  | ok messages => simp [Functor.map, Except.map]

theorem Portion.exists_response_iff {topic : String} {portion : Portion} :
    (∃ r, portion.response topic = .ok r) ↔
      ∃ messages, MessageSet.decode portion.set portion.partitionId = .ok messages := by
  simp [response_eq_ok_iff]

section Topics

variable {topics : List (String × List Portion)}

/-- A response can be written, and reading it is reading its portions in order. -/
theorem exists_encode_reply (h : Writable topics) (correlationId : Int32) :
    ∃ body, (reply correlationId topics).encode = .ok body ∧
      RequestKind.fetch.decode body = Responses.fetch <$>
        (tagged topics).mapM fun portion => portion.2.response portion.1 := by
  have hmember : ∀ group ∈ topics, ∀ portion ∈ group.2, (do
      Encoder.int32 portion.partitionId
      Encoder.int16 portion.code
      Encoder.int64 portion.highWaterMark
      Encoder.bytes (some portion.set) : Encoder Unit).Emits ⟨portion.bytes, none⟩ := by
    intro group hgroup portion hportion
    have hset : ¬portion.set.length > Int32.maxValue.toNatClampNeg :=
      Nat.not_lt.mpr (Nat.le_of_lt_succ (h.sets group hgroup portion hportion))
    have hbytes := Encoder.emits_bytes (some portion.set)
    simp only [Emission.array, if_neg hset] at hbytes
    exact (Encoder.emits_raw _).bind ((Encoder.emits_raw _).bind
      ((Encoder.emits_raw _).bind hbytes))
  have hemits := (Encoder.emits_raw (BigEndian.ofInt32 correlationId)).bind
    (Encoder.emits_topics h.toTellable hmember)
  refine ⟨_, hemits.encode, ?_⟩
  have hgives : responses.Gives
      (BigEndian.ofInt32 correlationId ++ topicsBytes topics Portion.bytes)
      ((tagged topics).mapM fun portion => portion.2.response portion.1) :=
    (Decoder.reads_int32 correlationId).bind_gives <|
      Decoder.gives_topics (g := fun topic portion => portion.response topic) h.toTellable
        fun group hgroup portion hportion =>
          portion.gives_bytes group.1 (h.sets group hgroup portion hportion)
  exact (hgives.map Responses.fetch).decode

/-- A set may be exchanged for one that is not longer. -/
theorem Writable.exchange {before after : List (String × List Portion)} {topic : String}
    {ps ps' : List Portion} {p q : Portion}
    (h : Writable (before ++ (topic, ps ++ p :: ps') :: after))
    (hlength : q.set.length ≤ p.set.length) :
    Writable (before ++ (topic, ps ++ q :: ps') :: after) := by
  have hnames := h.names
  have hcounts := h.counts
  have hsets := h.sets
  simp only [List.forall_mem_append, List.forall_mem_cons] at hnames hcounts hsets
  refine ⟨⟨?_, ?_, ?_⟩, ?_⟩
  · simpa using h.count
  · simpa only [List.forall_mem_append, List.forall_mem_cons] using hnames
  · simp only [List.forall_mem_append, List.forall_mem_cons]
    simpa using hcounts
  · simp only [List.forall_mem_append, List.forall_mem_cons]
    exact ⟨hsets.1, ⟨hsets.2.1.1, Nat.lt_of_le_of_lt hlength hsets.2.1.2.1, hsets.2.1.2.2⟩,
      hsets.2.2⟩

end Topics

/-- What a response decodes to, and why it does not. -/
theorem exists_decode_reply {topics : List (String × List Portion)} (h : Writable topics)
    (correlationId : Int32) :
    ∃ body, (reply correlationId topics).encode = .ok body ∧
      (∀ rs, RequestKind.fetch.decode body = .ok (.fetch rs) ↔
        List.Forall₂ (fun portion r => ∃ messages,
          MessageSet.decode portion.2.set portion.2.partitionId = .ok messages ∧
            r = portion.2.record portion.1 messages) (tagged topics) rs) ∧
      ∀ e, RequestKind.fetch.decode body = .error e ↔ ∃ before portion after,
        tagged topics = before ++ portion :: after ∧
          (∀ other ∈ before, ∃ messages,
            MessageSet.decode other.2.set other.2.partitionId = .ok messages) ∧
          MessageSet.decode portion.2.set portion.2.partitionId = .error e := by
  obtain ⟨body, hbody, hdecode⟩ := exists_encode_reply h correlationId
  refine ⟨body, hbody, fun rs => ?_, fun e => ?_⟩
  · simp only [← Portion.response_eq_ok_iff]
    rw [hdecode, ← mapM_eq_ok_iff]
    cases (tagged topics).mapM fun portion => portion.2.response portion.1 <;>
      simp [Functor.map, Except.map]
  · have herror : ((tagged topics).mapM fun portion => portion.2.response portion.1) = .error e ↔
        _ := mapM_eq_error_iff
    simp only [Portion.exists_response_iff, Portion.response_eq_error_iff] at herror
    rw [hdecode, ← herror]
    cases (tagged topics).mapM fun portion => portion.2.response portion.1 <;>
      simp [Functor.map, Except.map]

/-- A response decodes to one record for each of its portions, in order and each with what its own
set decodes to, or it fails for the first set that is not accepted. If a set is cut short, only the
record of its portion changes, and this record keeps the first of its messages. -/
theorem decode_reply (correlationId : Int32) {topics : List (String × List Portion)}
    (h : Writable topics) :
    ∃ body, (reply correlationId topics).encode = .ok body ∧
      (∀ rs, RequestKind.fetch.decode body = .ok (.fetch rs) ↔
        List.Forall₂ (fun portion r => ∃ messages,
          MessageSet.decode portion.2.set portion.2.partitionId = .ok messages ∧
            r = portion.2.record portion.1 messages) (tagged topics) rs) ∧
      (∀ e, RequestKind.fetch.decode body = .error e ↔ ∃ before portion after,
        tagged topics = before ++ portion :: after ∧
          (∀ other ∈ before, ∃ messages,
            MessageSet.decode other.2.set other.2.partitionId = .ok messages) ∧
          MessageSet.decode portion.2.set portion.2.partitionId = .error e) ∧
      ∀ rs, RequestKind.fetch.decode body = .ok (.fetch rs) →
        (∀ r ∈ rs, ∀ m ∈ r.messages, m.partitionId = r.partitionId) ∧
        ∀ before topic ps p ps' after cut,
          topics = before ++ (topic, ps ++ p :: ps') :: after → cut <+: p.set →
          ∃ body' front r back messages,
            (reply correlationId
              (before ++ (topic, ps ++ { p with set := cut } :: ps') :: after)).encode = .ok body' ∧
            rs = front ++ r :: back ∧ front.length = (tagged before).length + ps.length ∧
            messages <+: r.messages ∧
            RequestKind.fetch.decode body' = .ok (.fetch (front ++ { r with messages } :: back)) := by
  obtain ⟨body, hbody, hok, herror⟩ := exists_decode_reply h correlationId
  refine ⟨body, hbody, hok, herror, fun rs hrs => ⟨fun r hr m hm => ?_, ?_⟩⟩
  · obtain ⟨portion, -, messages, hmessages, rfl⟩ := exists_of_mem_forall₂ ((hok rs).mp hrs) hr
    exact MessageSet.partitionId_of_mem_decode hmessages hm
  · rintro before topic ps p ps' after cut rfl hcut
    -- what the portions around the one that is cut give does not change
    have hall := (hok rs).mp hrs
    rw [tagged_append_cons] at hall
    obtain ⟨front, r, back, rfl, hfront, ⟨messages, hmessages, rfl⟩, hback⟩ :=
      exists_of_forall₂_append_cons hall
    obtain ⟨body', hbody', hok', -⟩ := exists_decode_reply
      (h.exchange (q := { p with set := cut }) hcut.length_le) correlationId
    obtain ⟨found, hfound, hprefix⟩ :=
      MessageSet.exists_decode_prefix hcut hmessages
    refine ⟨body', front, p.record topic messages, back, found, hbody', rfl, ?_, hprefix, ?_⟩
    · rw [← hfront.length_eq, List.length_append, List.length_map]
    · rw [hok', tagged_append_cons]
      exact List.rel_append hfront (.cons ⟨found, hfound, rfl⟩ hback)

/-- Two messages for one partition, none for another, and one message under another topic. The
first set is cut inside its second message. -/
theorem decode_reply_cut :
    let set : Int64 → UInt8 → Bytes := fun offset value =>
      MessageSet.Record.bytes ⟨offset, MessageSet.bodyOf { value := some [value] }⟩
    let message : Int32 → Int64 → UInt8 → Message := fun partitionId offset value =>
      { offset, partitionId, value := some [value] }
    let topics : Bytes → List (String × List Portion) := fun first =>
      [("t", [⟨0, 0, 99, first⟩, ⟨1, 1, -1, []⟩]), ("u", [⟨2, 0, 8, set 7 3⟩])]
    let records : List Message → List Response := fun messages =>
      [⟨"t", 0, .noError, 99, messages⟩, ⟨"t", 1, .offsetOutOfRange, -1, []⟩,
        ⟨"u", 2, .noError, 8, [message 2 7 3]⟩]
    Writable (topics (set 5 1 ++ set 6 2)) ∧ ∃ body body' messages,
      (reply 7 (topics (set 5 1 ++ set 6 2))).encode = .ok body ∧
      RequestKind.fetch.decode body = .ok (.fetch (records [message 0 5 1, message 0 6 2])) ∧
      (reply 7 (topics ((set 5 1 ++ set 6 2).take 40))).encode = .ok body' ∧
      messages <+: [message 0 5 1, message 0 6 2] ∧
      RequestKind.fetch.decode body' = .ok (.fetch (records messages)) := by
  intro set message topics records
  have hfits : ∀ value : UInt8, MessageSet.Fits { value := some [value] } := fun value => by
    simp [MessageSet.Fits, MessageSet.size, lengthLimit]
  have hlength : ∀ offset value, (set offset value).length = 27 := fun offset value => by
    simp only [set, MessageSet.length_bytes]
    rfl
  have hwritable : Writable (topics (set 5 1 ++ set 6 2)) := by
    refine ⟨⟨?_, by decide, ?_⟩, ?_⟩ <;> simp [topics, hlength, lengthLimit]
  have hnil : ∀ partitionId, MessageSet.decode [] partitionId = .ok [] := fun partitionId => by
    rw [MessageSet.decode, (MessageSet.Stops.header (by decide)).records_eq]
    rfl
  have hset : ∀ partitionId offset value rest,
      MessageSet.decode (set offset value ++ rest) partitionId =
        (MessageSet.decode rest partitionId).map (message partitionId offset value :: ·) := by
    intro partitionId offset value rest
    have hbody : (MessageSet.Record.mk offset
        (MessageSet.bodyOf { value := some [value] })).body.length < lengthLimit :=
      (hfits value).length_ofMessage
    have hcodec : (0 : UInt8) &&& 3 = 0 := by decide
    exact MessageSet.decode_append hbody
      (MessageSet.decode_bodyOf (hfits value) hcodec offset partitionId) rest
  have hfirst : MessageSet.decode (set 5 1 ++ set 6 2) 0 = .ok [message 0 5 1, message 0 6 2] := by
    rw [hset, ← List.append_nil (set 6 2), hset, hnil]
    rfl
  have hlast : MessageSet.decode (set 7 3) 2 = .ok [message 2 7 3] := by
    rw [← List.append_nil (set 7 3), hset, hnil]
    rfl
  obtain ⟨body, hbody, hok, -, hcut⟩ := decode_reply 7 hwritable
  have hdecode := (hok (records [message 0 5 1, message 0 6 2])).mpr <|
    .cons ⟨_, hfirst, rfl⟩ (.cons ⟨_, hnil 1, rfl⟩ (.cons ⟨_, hlast, rfl⟩ .nil))
  obtain ⟨body', front, r, back, messages, hbody', hsplit, hfront, hmessages, hdecode'⟩ :=
    (hcut _ hdecode).2 [] "t" [] ⟨0, 0, 99, set 5 1 ++ set 6 2⟩ [⟨1, 1, -1, []⟩]
      [("u", [⟨2, 0, 8, set 7 3⟩])] ((set 5 1 ++ set 6 2).take 40) rfl (List.take_prefix ..)
  -- the partition that is cut is the first of all
  obtain rfl := List.length_eq_zero_iff.mp hfront
  obtain ⟨rfl, rfl⟩ := List.cons.inj hsplit
  exact ⟨hwritable, body, body', messages, hbody, hdecode, hbody', hmessages, hdecode'⟩

end Fetch

end BrokerWire
