import BrokerWire.Proofs.Grouping
import Mathlib.Data.List.Basic
import Mathlib.Data.List.Pairwise

/-!
# Entries in their groups

`groupByTopic_eq` says what grouping by topic computes. This module says what the result is like:
topics and partitions come in the order in which they first appear, entries of one topic and
partition are neighbours and stay in their order, no entry is lost or doubled, and what has been
grouped once is grouped already. Main statement: `groupByTopic_firstAppearance`.

Both properties of the order follow from the shape of the result. Entries of one key are neighbours
wherever the blocks of the keys are put one behind the other (`adjacent_flatMap_filter`), and
grouping finds such blocks again (`groupedBy_flatMap`).
-/

namespace BrokerWire

variable {α κ : Type} [DecidableEq κ] {key : α → κ}

/-! ### Neighbours -/

/-- Between two entries of one key there are only entries of that key. -/
def Adjacent (key : α → κ) (entries : List α) : Prop :=
  ∀ front a between b back, entries = front ++ a :: (between ++ b :: back) → key a = key b →
    ∀ entry ∈ between, key entry = key a

/-- Entries that are sorted by the place of their key in a list are neighbours if they have the same
key. -/
theorem adjacent_of_pairwise {order : List κ} {entries : List α}
    (hmem : ∀ entry ∈ entries, key entry ∈ order)
    (hsorted : entries.Pairwise fun a b => order.idxOf (key a) ≤ order.idxOf (key b)) :
    Adjacent key entries := by
  rintro front a between b back rfl hkey entry hentry
  obtain ⟨-, hsorted, -⟩ := List.pairwise_append.mp hsorted
  obtain ⟨hfirst, hsorted⟩ := List.pairwise_cons.mp hsorted
  obtain ⟨-, -, hlast⟩ := List.pairwise_append.mp hsorted
  -- the place of its key is neither before nor after that of the two ends
  have hle : order.idxOf (key a) ≤ order.idxOf (key entry) :=
    hfirst entry (List.mem_append_left _ hentry)
  have hge : order.idxOf (key entry) ≤ order.idxOf (key a) := by
    rw [hkey]
    exact hlast entry hentry b List.mem_cons_self
  refine (List.idxOf_inj (hmem entry ?_)).mp (Nat.le_antisymm hge hle)
  simp [hentry]

/-- Blocks of one key each, one behind the other, are sorted by key. -/
theorem pairwise_flatMap_filter {order : List κ} (horder : order.Nodup) (entries : List α) :
    (order.flatMap fun k => entries.filter (key · = k)).Pairwise fun a b =>
      order.idxOf (key a) ≤ order.idxOf (key b) := by
  have hkey : ∀ k, ∀ a ∈ entries.filter (key · = k), key a = k := fun k a ha =>
    of_decide_eq_true (List.mem_filter.mp ha).2
  refine List.pairwise_flatMap.mpr ⟨fun k _ => ?_, ?_⟩
  · refine List.pairwise_of_forall_mem_list fun a ha b hb => ?_
    exact Nat.le_of_eq (congrArg order.idxOf ((hkey k a ha).trans (hkey k b hb).symm))
  · rw [List.pairwise_iff_getElem]
    intro i j hi hj hij a ha b hb
    rw [hkey _ a ha, hkey _ b hb, horder.idxOf_getElem, horder.idxOf_getElem]
    exact Nat.le_of_lt hij

theorem adjacent_flatMap_filter {order : List κ} (horder : order.Nodup) (entries : List α) :
    Adjacent key (order.flatMap fun k => entries.filter (key · = k)) := by
  refine adjacent_of_pairwise (fun entry hentry => ?_) (pairwise_flatMap_filter horder entries)
  obtain ⟨k, hk, hentry⟩ := List.mem_flatMap.mp hentry
  rwa [of_decide_eq_true (List.mem_filter.mp hentry).2]

/-! ### Grouping once more -/

/-- Entries of one key form a group if no other entry has that key. -/
theorem groupedBy_append {k : κ} {group rest : List α} (hne : group ≠ [])
    (hgroup : ∀ entry ∈ group, key entry = k) (hrest : ∀ entry ∈ rest, key entry ≠ k) :
    groupedBy key (group ++ rest) = (k, group) :: groupedBy key rest := by
  have hkeys : ((group ++ rest).map key).eraseDups = k :: (rest.map key).eraseDups := by
    obtain ⟨first, group, rfl⟩ := List.exists_cons_of_ne_nil hne
    obtain ⟨rfl, hgroup⟩ := List.forall_mem_cons.mp hgroup
    have hnone : (group.map key).filter (fun k => !k == key first) = [] := by
      simpa [List.filter_eq_nil_iff] using hgroup
    have hall : (rest.map key).filter (fun k => !k == key first) = rest.map key := by
      simpa [List.filter_eq_self] using hrest
    rw [List.cons_append, List.map_cons, List.eraseDups_cons, List.map_append, List.filter_append,
      hnone, hall, List.nil_append]
  have hself : (group ++ rest).filter (key · = k) = group := by
    rw [List.filter_append, List.filter_eq_self.mpr (by simpa using hgroup),
      List.filter_eq_nil_iff.mpr (by simpa using hrest), List.append_nil]
  have hothers : ∀ k' ∈ (rest.map key).eraseDups,
      (group ++ rest).filter (key · = k') = rest.filter (key · = k') := by
    intro k' hk'
    obtain ⟨entry, hentry, rfl⟩ := List.mem_map.mp (List.mem_eraseDups.mp hk')
    have hnone : group.filter (key · = key entry) = [] := by
      rw [List.filter_eq_nil_iff]
      intro other hother hsame
      exact hrest entry hentry ((of_decide_eq_true hsame).symm.trans (hgroup other hother))
    rw [List.filter_append, hnone, List.nil_append]
  rw [groupedBy, hkeys, List.map_cons, hself]
  refine congrArg (List.cons (k, group)) (List.map_congr_left fun k' hk' => ?_)
  rw [hothers k' hk']

/-- Groups with distinct keys are found again in the list of their entries. -/
theorem groupedBy_flatMap {groups : List (κ × List α)} (hkeys : (groups.map Prod.fst).Nodup)
    (hgroups : ∀ group ∈ groups, group.2 ≠ [] ∧ ∀ entry ∈ group.2, key entry = group.1) :
    groupedBy key (groups.flatMap Prod.snd) = groups := by
  induction groups with
  | nil => rfl
  | cons group groups ih =>
    obtain ⟨hfirst, hkeys⟩ := List.nodup_cons.mp hkeys
    obtain ⟨⟨hne, hmem⟩, hgroups⟩ := List.forall_mem_cons.mp hgroups
    rw [List.flatMap_cons, groupedBy_append hne hmem, ih hkeys hgroups]
    intro entry hentry hkey
    obtain ⟨other, hother, hentry⟩ := List.mem_flatMap.mp hentry
    refine hfirst (List.mem_map.mpr ⟨other, hother, ?_⟩)
    rw [← (hgroups other hother).2 entry hentry, hkey]

/-- What has been grouped is grouped already. -/
theorem groupedBy_groupedBy (key : α → κ) (entries : List α) :
    groupedBy key ((groupedBy key entries).flatMap Prod.snd) = groupedBy key entries :=
  groupedBy_flatMap (nodup_groupedBy key entries) fun _ => block_of_mem_groupedBy

/-! ### Topics and partitions -/

section Arranged

variable (topic : α → String) (partition : α → Int32) (entries : List α)

theorem map_fst_arranged :
    (arranged topic partition entries).map Prod.fst = (entries.map topic).eraseDups := by
  rw [arranged, List.map_map]
  exact map_fst_groupedBy topic entries

/-- The groups of arranged entries, each given by the entries that have its topic. -/
theorem arranged_eq :
    arranged topic partition entries =
      (entries.map topic).eraseDups.map fun name =>
        (name, ((entries.filter (topic · = name)).map partition).eraseDups.flatMap fun p =>
          entries.filter fun entry => topic entry = name ∧ partition entry = p) := by
  simp only [arranged, groupedBy, List.map_map, List.flatMap_map, List.filter_filter,
    Function.comp_def, Bool.decide_and, Bool.and_comm]

/-- The topics and partitions of entries in the order in which they are grouped. -/
def arrangedKeys : List (String × Int32) :=
  (entries.map topic).eraseDups.flatMap fun name =>
    ((entries.filter (topic · = name)).map partition).eraseDups.map fun p => (name, p)

theorem nodup_arrangedKeys : (arrangedKeys topic partition entries).Nodup := by
  refine List.pairwise_flatMap.mpr ⟨fun name _ => ?_, ?_⟩
  · exact List.Pairwise.map _ (fun p p' hne heq => hne (Prod.mk.inj heq).2) (nodup_eraseDups _)
  · refine (nodup_eraseDups (entries.map topic)).imp fun {name name'} hne k hk k' hk' heq => ?_
    obtain ⟨p, -, rfl⟩ := List.mem_map.mp hk
    obtain ⟨p', -, rfl⟩ := List.mem_map.mp hk'
    exact hne (Prod.mk.inj heq).1

/-- Grouped entries are the blocks of each topic and partition, one behind the other. -/
theorem flatMap_arranged :
    (arranged topic partition entries).flatMap Prod.snd =
      (arrangedKeys topic partition entries).flatMap fun k =>
        entries.filter fun entry => (topic entry, partition entry) = k := by
  rw [arranged_eq, List.flatMap_map, arrangedKeys, List.flatMap_assoc]
  refine List.flatMap_congr fun name _ => ?_
  rw [List.flatMap_map]
  simp only [Prod.mk.injEq]

/-- Entries of one topic and partition are neighbours. -/
theorem adjacent_arranged :
    Adjacent (fun entry => (topic entry, partition entry))
      ((arranged topic partition entries).flatMap Prod.snd) := by
  rw [flatMap_arranged]
  exact adjacent_flatMap_filter (nodup_arrangedKeys topic partition entries) entries

/-- Grouping by topic finds the topics of what is arranged. -/
theorem groupedBy_arranged :
    groupedBy topic ((arranged topic partition entries).flatMap Prod.snd) =
      arranged topic partition entries := by
  refine groupedBy_flatMap ?_ fun group hgroup => ⟨?_, fun entry hentry => ?_⟩
  · rw [map_fst_arranged]
    exact nodup_eraseDups _
  · obtain ⟨⟨name, members⟩, hmembers, rfl⟩ := List.mem_map.mp hgroup
    intro hnil
    have hperm : ([] : List α).Perm members := hnil ▸ perm_groupedBy partition members
    exact (block_of_mem_groupedBy hmembers).1 hperm.nil_eq.symm
  · exact topic_of_mem_arranged hgroup hentry

/-- What is arranged stays as it is. -/
theorem arranged_arranged :
    arranged topic partition ((arranged topic partition entries).flatMap Prod.snd) =
      arranged topic partition entries := by
  rw [arranged, groupedBy_arranged, arranged, List.map_map]
  refine List.map_congr_left fun group _ => ?_
  exact congrArg (fun groups => (group.1, groups.flatMap Prod.snd))
    (groupedBy_groupedBy partition group.2)

end Arranged

/-- Entries grouped by topic come under their topics in the order in which topics first appear.
Under a topic come its partitions in the order in which they first appear there, and under a
partition its entries as they were. So no entry is lost or doubled, each topic has one group,
entries of one topic and partition are neighbours, and grouping once more changes nothing. -/
theorem groupByTopic_firstAppearance (topic : α → String) (partition : α → Int32)
    (entries : List α) :
    groupByTopic topic partition entries =
        ((entries.map topic).eraseDups.map fun name =>
          (name, ((entries.filter (topic · = name)).map partition).eraseDups.flatMap fun p =>
            entries.filter fun entry => topic entry = name ∧ partition entry = p)) ∧
      ((groupByTopic topic partition entries).flatMap Prod.snd).Perm entries ∧
      ((groupByTopic topic partition entries).map Prod.fst).Nodup ∧
      (∀ name, name ∈ (groupByTopic topic partition entries).map Prod.fst ↔
        ∃ entry ∈ entries, topic entry = name) ∧
      Adjacent (fun entry => (topic entry, partition entry))
        ((groupByTopic topic partition entries).flatMap Prod.snd) ∧
      groupByTopic topic partition ((groupByTopic topic partition entries).flatMap Prod.snd) =
        groupByTopic topic partition entries := by
  have hkeys := map_fst_arranged topic partition entries
  simp only [groupByTopic_eq]
  refine ⟨arranged_eq topic partition entries, perm_arranged topic partition entries, ?_,
    fun name => ?_, adjacent_arranged topic partition entries,
    arranged_arranged topic partition entries⟩
  · rw [hkeys]
    exact nodup_eraseDups _
  · rw [hkeys, List.mem_eraseDups, List.mem_map]

end BrokerWire
