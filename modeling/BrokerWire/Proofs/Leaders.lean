import BrokerWire.Request.Metadata
import Mathlib.Data.List.Basic
import Mathlib.Data.List.Nodup
import Mathlib.Data.Multiset.MapFold

/-!
# Leaders of partitions

`leaderFor` looks up a topic by its name, in it a partition by its number, and then the leader of
the partition among the brokers. Main statement: `leaderFor_iff_leads`. What is found is a leader
that the response lists. Where no topic, partition or broker is listed twice, the leader that is
listed is found, and the order in which anything is listed does not matter.

Each of the three lookups takes the first entry with a key and looks no further. Where keys are
distinct it finds whatever is listed under the key (`find?_key_iff`). So the answer is told by what
is listed, `Leads`, which knows of no order.
-/

namespace BrokerWire

section Lookup

variable {α κ : Type} [DecidableEq κ] {key : α → κ} {entries : List α} {k : κ} {entry : α}

/-- What a lookup finds is listed under the key. -/
theorem mem_of_find?_key (h : entries.find? (fun e => key e = k) = some entry) :
    entry ∈ entries ∧ key entry = k := by
  have hkey := List.find?_some h
  exact ⟨List.mem_of_find?_eq_some h, of_decide_eq_true hkey⟩

/-- Under distinct keys a lookup finds whatever is listed. -/
theorem find?_key_iff (hkeys : (entries.map key).Nodup) :
    entries.find? (fun e => key e = k) = some entry ↔ entry ∈ entries ∧ key entry = k := by
  refine ⟨mem_of_find?_key, ?_⟩
  rintro ⟨hentry, rfl⟩
  obtain ⟨found, hfound⟩ : ∃ found, entries.find? (fun e => key e = key entry) = some found :=
    Option.isSome_iff_exists.mp (List.find?_isSome.mpr ⟨entry, hentry, decide_eq_true rfl⟩)
  obtain ⟨hmem, hkey⟩ := mem_of_find?_key hfound
  rw [hfound, List.inj_on_of_nodup_map hkeys hmem hentry hkey]

end Lookup

namespace Metadata

/-- A topic without the order of its partitions. -/
def Topic.unordered (t : Topic) : ErrorCode × String × Multiset Partition :=
  (t.error, t.name, t.partitions)

namespace Response

/-- Whether a response lists a broker as the leader of a partition that has no error. -/
def Leads (r : Response) (topic : String) (partitionId : Int32) (b : Broker) : Prop :=
  b ∈ r.brokers ∧ ∃ t ∈ r.topics, t.name = topic ∧ ∃ p ∈ t.partitions,
    p.partitionId = partitionId ∧ p.error = .noError ∧ 0 ≤ p.leaderId ∧ p.leaderId = b.brokerId

/-- Whether a response lists no broker, no topic and no partition of a topic twice. -/
structure IsDistinct (r : Response) : Prop where
  brokers : (r.brokers.map Broker.brokerId).Nodup
  topics : (r.topics.map Topic.name).Nodup
  partitions : ∀ t ∈ r.topics, (t.partitions.map Partition.partitionId).Nodup

/-- Whether two responses list the same brokers, and the same topics with the same partitions, in
whatever order. -/
structure Reorders (r r' : Response) : Prop where
  brokers : r.brokers.Perm r'.brokers
  topics : (r.topics.map Topic.unordered).Perm (r'.topics.map Topic.unordered)

variable {r r' : Response} {topic : String} {partitionId : Int32} {b : Broker}

/-! ### One listing -/

/-- The three lookups, one after the other. -/
theorem leaderFor_eq_some_iff :
    r.leaderFor topic partitionId = some b ↔
      ∃ t, r.topics.find? (fun t => t.name = topic) = some t ∧
        ∃ p, t.partitions.find? (fun p => p.partitionId = partitionId) = some p ∧
          p.error = .noError ∧ 0 ≤ p.leaderId ∧
            r.brokers.find? (fun b => b.brokerId = p.leaderId) = some b := by
  simp only [leaderFor, broker?, Option.bind_eq_bind, Option.bind_eq_some_iff]
  refine exists_congr fun t => and_congr_right fun _ => exists_congr fun p =>
    and_congr_right fun _ => ?_
  by_cases herror : p.error = .noError
  · by_cases hleader : p.leaderId < 0
    · simp [hleader, Int32.not_le.mpr hleader]
    · simp [ErrorCode.isOk, herror, hleader, Int32.not_lt.mp hleader]
  · simp [ErrorCode.isOk, herror]

/-- What is found is listed. -/
theorem leads_of_leaderFor (h : r.leaderFor topic partitionId = some b) :
    r.Leads topic partitionId b := by
  obtain ⟨t, ht, p, hp, herror, hleader, hb⟩ := leaderFor_eq_some_iff.mp h
  obtain ⟨ht, hname⟩ := mem_of_find?_key ht
  obtain ⟨hp, hnumber⟩ := mem_of_find?_key hp
  obtain ⟨hb, hid⟩ := mem_of_find?_key hb
  exact ⟨hb, t, ht, hname, p, hp, hnumber, herror, hleader, hid.symm⟩

/-- What is listed is found where nothing is listed twice. -/
theorem IsDistinct.leaderFor_of_leads (hr : r.IsDistinct) (h : r.Leads topic partitionId b) :
    r.leaderFor topic partitionId = some b := by
  obtain ⟨hb, t, ht, hname, p, hp, hnumber, herror, hleader, hid⟩ := h
  refine leaderFor_eq_some_iff.mpr ⟨t, ?_, p, ?_, herror, hleader, ?_⟩
  · exact (find?_key_iff hr.topics).mpr ⟨ht, hname⟩
  · exact (find?_key_iff (hr.partitions t ht)).mpr ⟨hp, hnumber⟩
  · exact (find?_key_iff hr.brokers).mpr ⟨hb, hid.symm⟩

theorem IsDistinct.leaderFor_iff (hr : r.IsDistinct) :
    r.leaderFor topic partitionId = some b ↔ r.Leads topic partitionId b :=
  ⟨leads_of_leaderFor, hr.leaderFor_of_leads⟩

/-! ### Another order -/

theorem Reorders.symm (h : r.Reorders r') : r'.Reorders r :=
  ⟨h.brokers.symm, h.topics.symm⟩

/-- A topic of the one listing is in the other, perhaps with its partitions in another order. -/
theorem Reorders.exists_topic (h : r.Reorders r') {t : Topic} (ht : t ∈ r.topics) :
    ∃ t' ∈ r'.topics, t'.name = t.name ∧ t'.partitions.Perm t.partitions := by
  obtain ⟨t', ht', heq⟩ := List.mem_map.mp (h.topics.subset (List.mem_map_of_mem ht))
  obtain ⟨-, hname, hpartitions⟩ : t'.error = t.error ∧ t'.name = t.name ∧
      (t'.partitions : Multiset Partition) = t.partitions := by
    simpa only [Topic.unordered, Prod.mk.injEq] using heq
  exact ⟨t', ht', hname, Multiset.coe_eq_coe.mp hpartitions⟩

theorem Reorders.leads (h : r.Reorders r') (hleads : r.Leads topic partitionId b) :
    r'.Leads topic partitionId b := by
  obtain ⟨hb, t, ht, hname, p, hp, hleader⟩ := hleads
  obtain ⟨t', ht', hname', hpartitions⟩ := h.exists_topic ht
  exact ⟨h.brokers.subset hb, t', ht', hname'.trans hname, p, hpartitions.symm.subset hp, hleader⟩

theorem Reorders.leads_iff (h : r.Reorders r') :
    r.Leads topic partitionId b ↔ r'.Leads topic partitionId b :=
  ⟨h.leads, h.symm.leads⟩

theorem Reorders.isDistinct (h : r.Reorders r') (hr : r.IsDistinct) : r'.IsDistinct where
  brokers := (h.brokers.map Broker.brokerId).nodup hr.brokers
  topics := by
    have hnames := h.topics.map fun t => t.2.1
    simp only [List.map_map, Function.comp_def, Topic.unordered] at hnames
    exact hnames.nodup hr.topics
  partitions := by
    intro t' ht'
    obtain ⟨t, ht, -, hpartitions⟩ := h.symm.exists_topic ht'
    exact (hpartitions.map Partition.partitionId).nodup (hr.partitions t ht)

theorem Reorders.leaderFor_eq (h : r.Reorders r') (hr : r.IsDistinct) :
    r'.leaderFor topic partitionId = r.leaderFor topic partitionId := by
  refine Option.ext fun b => ?_
  rw [hr.leaderFor_iff, (h.isDistinct hr).leaderFor_iff, h.leads_iff]

/-- A broker that is found as the leader of a partition is listed, under the number that a
partition without an error has as its leader. Where nothing is listed twice, the broker that leads
the partition is found, and it is so in whatever order the response lists its brokers, topics and
partitions. -/
theorem leaderFor_iff_leads (r : Response) (topic : String) (partitionId : Int32) :
    (∀ b, r.leaderFor topic partitionId = some b → r.Leads topic partitionId b) ∧
      (r.IsDistinct →
        (∀ b, r.leaderFor topic partitionId = some b ↔ r.Leads topic partitionId b) ∧
        ∀ r', r.Reorders r' →
          r'.leaderFor topic partitionId = r.leaderFor topic partitionId) :=
  ⟨fun _ => leads_of_leaderFor,
    fun hr => ⟨fun _ => hr.leaderFor_iff, fun _ hreorders => hreorders.leaderFor_eq hr⟩⟩

/-- The brokers, the topics and the partitions of a topic each in another order. One partition has
an error, one has no leader, and the leader of one is not listed. -/
theorem leaderFor_iff_leads_shuffled :
    let r : Response :=
      ⟨7, [⟨2, "b", 9093⟩, ⟨1, "a", 9092⟩],
        [⟨.noError, "t", [⟨.leaderNotAvailable, 1, 1, [], []⟩, ⟨.noError, 2, -1, [], []⟩,
          ⟨.noError, 3, 9, [], []⟩, ⟨.noError, 0, 1, [1, 2], [1]⟩]⟩,
        ⟨.noError, "u", [⟨.noError, 0, 2, [], []⟩]⟩]⟩
    let r' : Response :=
      ⟨7, [⟨1, "a", 9092⟩, ⟨2, "b", 9093⟩],
        [⟨.noError, "u", [⟨.noError, 0, 2, [], []⟩]⟩,
        ⟨.noError, "t", [⟨.noError, 0, 1, [1, 2], [1]⟩, ⟨.leaderNotAvailable, 1, 1, [], []⟩,
          ⟨.noError, 2, -1, [], []⟩, ⟨.noError, 3, 9, [], []⟩]⟩]⟩
    r.IsDistinct ∧ r.Reorders r' ∧ r.Leads "t" 0 ⟨1, "a", 9092⟩ ∧
      r'.leaderFor "t" 0 = some ⟨1, "a", 9092⟩ ∧ ¬r.Leads "t" 1 ⟨1, "a", 9092⟩ := by
  intro r r'
  have hr : r.IsDistinct := ⟨by decide, by decide, by decide⟩
  have hreorders : r.Reorders r' := ⟨by decide, by decide⟩
  have hleads : r.Leads "t" 0 ⟨1, "a", 9092⟩ := by
    refine ⟨by decide, _, List.mem_cons_self, rfl, ⟨.noError, 0, 1, [1, 2], [1]⟩, ?_⟩
    decide
  obtain ⟨hiff, horder⟩ := (leaderFor_iff_leads r "t" 0).2 hr
  obtain ⟨hiff', -⟩ := (leaderFor_iff_leads r "t" 1).2 hr
  refine ⟨hr, hreorders, hleads, (horder r' hreorders).trans ((hiff _).mpr hleads), ?_⟩
  rw [← hiff']
  decide

/-- Of a topic that is listed twice only the first listing is looked at. -/
example :
    (⟨7, [⟨1, "a", 9092⟩], [⟨.noError, "t", []⟩, ⟨.noError, "t", [⟨.noError, 0, 1, [], []⟩]⟩]⟩ :
      Response).leaderFor "t" 0 = none := by decide

end Response

end Metadata

end BrokerWire
