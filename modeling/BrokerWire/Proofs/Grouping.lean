import BrokerWire.Grouping
import BrokerWire.Request.Produce
import Mathlib.Data.List.Basic
import Mathlib.Data.List.Induction
import Mathlib.Data.List.Perm.Basic

/-!
# What grouping does

`groupedBy key` lists the distinct keys of entries in the order in which they first appear, each
with the entries that have it, in their order. Main statements: `groupByTopic_eq`, grouping by topic
is `groupedBy` by topic and, within a topic, by partition; and `partitionRuns_groupedBy`, entries so
ordered fall into one run for each partition.

The first statement joins an insertion loop and a stable sort. The loop is followed entry by entry
from the front (`foldl_insertEntry`). The sort is determined by two facts, that it orders partitions
by their first appearance and that it leaves the entries of one partition as they were; a list with
these two properties can only be one (`flatMap_filter`).
-/

namespace BrokerWire

variable {α κ : Type} [DecidableEq κ]

/-- The distinct keys in the order of their first appearance, each with its entries in order. -/
def groupedBy (key : α → κ) (entries : List α) : List (κ × List α) :=
  (entries.map key).eraseDups.map fun k => (k, entries.filter (key · = k))

theorem eraseDups_concat (l : List κ) (a : κ) :
    (l ++ [a]).eraseDups = if a ∈ l then l.eraseDups else l.eraseDups ++ [a] := by
  by_cases h : a ∈ l
  · simp [List.eraseDups_append, List.removeAll, h]
  · simp [List.eraseDups_append, List.removeAll, List.eraseDups_cons, h]

theorem nodup_eraseDups (l : List κ) : l.eraseDups.Nodup := by
  induction l using List.reverseRecOn with
  | nil => exact List.nodup_nil
  | append_singleton l a ih =>
    rw [eraseDups_concat]
    split
    · exact ih
    · next h =>
      have hnotin : a ∉ l.eraseDups := fun hmem => h (List.mem_eraseDups.mp hmem)
      exact (List.perm_append_singleton a _).nodup_iff.mpr (List.nodup_cons.mpr ⟨hnotin, ih⟩)

/-- The keys of groups come in the order of their first appearance. -/
theorem map_fst_groupedBy (key : α → κ) (entries : List α) :
    (groupedBy key entries).map Prod.fst = (entries.map key).eraseDups := by
  simp [groupedBy, Function.comp_def]

/-- The keys of groups are distinct. -/
theorem nodup_groupedBy (key : α → κ) (entries : List α) :
    ((groupedBy key entries).map Prod.fst).Nodup := by
  rw [map_fst_groupedBy]
  exact nodup_eraseDups _

/-- A group holds the entries that have its key, and there are some. -/
theorem mem_groupedBy {key : α → κ} {entries : List α} {group : κ × List α} :
    group ∈ groupedBy key entries ↔
      group.2 = entries.filter (key · = group.1) ∧ ∃ entry ∈ entries, key entry = group.1 := by
  obtain ⟨k, members⟩ := group
  simp only [groupedBy, List.mem_map, List.mem_eraseDups, Prod.mk.injEq]
  constructor
  · rintro ⟨_, ⟨entry, hentry, rfl⟩, rfl, rfl⟩
    exact ⟨rfl, entry, hentry, rfl⟩
  · rintro ⟨hmembers, entry, hentry, hkey⟩
    exact ⟨k, ⟨entry, hentry, hkey⟩, rfl, hmembers.symm⟩

/-- A group is not empty, and all of its entries have its key. -/
theorem block_of_mem_groupedBy {key : α → κ} {entries : List α} {group : κ × List α}
    (h : group ∈ groupedBy key entries) :
    group.2 ≠ [] ∧ ∀ entry ∈ group.2, key entry = group.1 := by
  obtain ⟨hmembers, entry, hentry, hkey⟩ := mem_groupedBy.mp h
  rw [hmembers]
  constructor
  · exact List.ne_nil_of_mem (List.mem_filter.mpr ⟨hentry, decide_eq_true hkey⟩)
  · intro entry hentry
    exact of_decide_eq_true (List.mem_filter.mp hentry).2

/-- What is made of the entries of one key. -/
theorem mem_map_groupedBy {β : Type} {key : α → κ} {entries : List α} {f : List α → β} {k : κ}
    {b : β} :
    (k, b) ∈ (groupedBy key entries).map (fun (k, members) => (k, f members)) ↔
      (∃ entry ∈ entries, key entry = k) ∧ b = f (entries.filter (key · = k)) := by
  constructor
  · intro h
    obtain ⟨⟨k, members⟩, hgroup, heq⟩ := List.mem_map.mp h
    obtain ⟨rfl, rfl⟩ := Prod.mk.inj heq
    obtain ⟨hmembers, hsome⟩ := mem_groupedBy.mp hgroup
    exact ⟨hsome, congrArg f hmembers⟩
  · rintro ⟨hsome, rfl⟩
    exact List.mem_map.mpr ⟨(k, _), mem_groupedBy.mpr ⟨rfl, hsome⟩, rfl⟩

/-! ### The insertion loop -/

/-- Adding an entry to groups, each of which is given by its name. -/
theorem insertEntry_map {topic : String} {entry : α} {names : List String}
    (hnames : names.Nodup) (members : String → List α) :
    insertEntry topic entry (names.map fun name => (name, members name)) =
      if topic ∈ names then
        names.map fun name =>
          (name, if name = topic then members name ++ [entry] else members name)
      else (names.map fun name => (name, members name)) ++ [(topic, [entry])] := by
  induction names with
  | nil => simp [insertEntry]
  | cons name names ih =>
    obtain ⟨hname, hrest⟩ := List.nodup_cons.mp hnames
    rw [List.map_cons, insertEntry]
    by_cases h : name = topic
    · subst h
      -- no two groups have one name, so the others stay
      have hothers : (names.map fun other =>
          (other, if other = name then members other ++ [entry] else members other)) =
          names.map fun other => (other, members other) := by
        refine List.map_congr_left fun other hother => ?_
        rw [if_neg (ne_of_mem_of_not_mem hother hname)]
      simp [hothers]
    · rw [if_neg h, ih hrest]
      by_cases hmem : topic ∈ names
      · simp [h, hmem]
      · simp [hmem, Ne.symm h]

/-- The insertion loop gathers the entries of each topic. -/
theorem foldl_insertEntry (topic : α → String) (entries : List α) :
    entries.foldl (fun groups entry => insertEntry (topic entry) entry groups) [] =
      groupedBy topic entries := by
  induction entries using List.reverseRecOn with
  | nil => rfl
  | append_singleton entries entry ih =>
    rw [List.foldl_append, ih, List.foldl_cons, List.foldl_nil, groupedBy,
      insertEntry_map (nodup_eraseDups _), groupedBy, List.map_append, List.map_cons, List.map_nil,
      eraseDups_concat]
    simp only [List.mem_eraseDups]
    by_cases h : topic entry ∈ entries.map topic
    -- a topic that is there already gets the entry at its end
    · rw [if_pos h, if_pos h]
      refine List.map_congr_left fun name _ => ?_
      by_cases hname : name = topic entry
      · simp [List.filter_append, hname]
      · simp [List.filter_append, hname, Ne.symm hname]
    -- a new topic comes last and has no other entry
    · have hold : entries.filter (fun other => topic other = topic entry) = [] := by
        rw [List.filter_eq_nil_iff]
        intro other hother hsame
        exact h (List.mem_map.mpr ⟨other, hother, of_decide_eq_true hsame⟩)
      rw [if_neg h, if_neg h, List.map_append]
      refine congrArg₂ (· ++ ·) (List.map_congr_left fun name hname => ?_) ?_
      · have hne : topic entry ≠ name := fun heq => h (heq ▸ List.mem_eraseDups.mp hname)
        simp [List.filter_append, hne]
      · simp [List.filter_append, hold]

/-! ### The stable sort -/

section Rank

variable (rank : α → Nat)

theorem rank_trans (a b c : α) (hab : decide (rank a ≤ rank b) = true)
    (hbc : decide (rank b ≤ rank c) = true) : decide (rank a ≤ rank c) = true :=
  decide_eq_true (Nat.le_trans (of_decide_eq_true hab) (of_decide_eq_true hbc))

theorem rank_total (a b : α) : (decide (rank a ≤ rank b) || decide (rank b ≤ rank a)) = true := by
  simpa using Nat.le_total (rank a) (rank b)

theorem pairwise_mergeSort_rank (l : List α) :
    (l.mergeSort fun a b => rank a ≤ rank b).Pairwise fun a b => rank a ≤ rank b :=
  (List.pairwise_mergeSort (rank_trans rank) (rank_total rank) l).imp of_decide_eq_true

/-- Sorting leaves elements of one rank as they were. -/
theorem filter_mergeSort_rank (q : α → Bool) (l : List α)
    (hq : ∀ a ∈ l, ∀ b ∈ l, q a → q b → rank a = rank b) :
    (l.mergeSort fun a b => rank a ≤ rank b).filter q = l.filter q := by
  have hties : (l.filter q).Pairwise fun a b => decide (rank a ≤ rank b) = true := by
    refine List.pairwise_of_forall_mem_list fun a ha b hb => ?_
    obtain ⟨⟨ha, hqa⟩, hb, hqb⟩ := And.intro (List.mem_filter.mp ha) (List.mem_filter.mp hb)
    exact decide_eq_true (Nat.le_of_eq (hq a ha b hb hqa hqb))
  -- ties form a sublist of the sorted list, and there is no room for more
  have hsub := (List.sublist_mergeSort (rank_trans rank) (rank_total rank) hties
    List.filter_sublist).filter q
  rw [List.filter_filter] at hsub
  simp only [Bool.and_self] at hsub
  exact (hsub.eq_of_length ((List.mergeSort_perm l _).filter q).length_eq.symm).symm

end Rank

/-- A list in which whatever satisfies `q` comes first. -/
theorem filter_append_filter_not {q : α → Prop} [DecidablePred q] {l : List α}
    (h : l.Pairwise fun a b => q b → q a) : l.filter q ++ l.filter (¬q ·) = l := by
  induction l with
  | nil => rfl
  | cons a l ih =>
    obtain ⟨hfirst, hrest⟩ := List.pairwise_cons.mp h
    by_cases ha : q a
    · simpa [ha] using ih hrest
    · have hnone : l.filter q = [] := by
        rw [List.filter_eq_nil_iff]
        intro b hb hq
        exact ha (hfirst b hb (of_decide_eq_true hq))
      have hall : l.filter (¬q ·) = l := by
        rw [List.filter_eq_self]
        intro b hb
        exact decide_eq_true fun hq => ha (hfirst b hb hq)
      rw [List.filter_cons_of_neg (by simpa using ha), List.filter_cons_of_pos (by simpa using ha),
        hnone, hall, List.nil_append]

/-- A list whose keys come in a given order is made of the elements of each key, in that order. -/
theorem flatMap_filter {key : α → κ} {order : List κ} (horder : order.Nodup) {l : List α}
    (hmem : ∀ a ∈ l, key a ∈ order)
    (hsorted : l.Pairwise fun a b => order.idxOf (key a) ≤ order.idxOf (key b)) :
    (order.flatMap fun k => l.filter (key · = k)) = l := by
  induction order generalizing l with
  | nil =>
    obtain rfl : l = [] := List.eq_nil_iff_forall_not_mem.mpr fun a ha => by simpa using hmem a ha
    rfl
  | cons k order ih =>
    obtain ⟨hk, horder⟩ := List.nodup_cons.mp horder
    -- nothing of another key precedes what has the first key
    have hfirst : l.Pairwise fun a b => key b = k → key a = k := hsorted.imp fun hab hb => by
      rw [hb, List.idxOf_cons_self, Nat.le_zero] at hab
      by_contra hne
      rw [List.idxOf_cons_ne _ (Ne.symm hne)] at hab
      contradiction
    -- the rest is made of the later keys
    have hlater : (order.flatMap fun k' => (l.filter (¬key · = k)).filter (key · = k')) =
        l.filter (¬key · = k) := by
      refine ih horder (fun a ha => ?_) ?_
      · obtain ⟨ha, hne⟩ := List.mem_filter.mp ha
        exact (List.mem_cons.mp (hmem a ha)).resolve_left (of_decide_eq_true hne)
      · refine (hsorted.sublist List.filter_sublist).imp_of_mem fun {a b} ha hb hab => ?_
        have hne : ∀ c ∈ l.filter (¬key · = k), k ≠ key c := fun c hc =>
          Ne.symm (of_decide_eq_true (List.mem_filter.mp hc).2)
        rw [List.idxOf_cons_ne _ (hne a ha), List.idxOf_cons_ne _ (hne b hb)] at hab
        exact Nat.le_of_succ_le_succ hab
    have hothers : (order.flatMap fun k' => (l.filter (¬key · = k)).filter (key · = k')) =
        order.flatMap fun k' => l.filter (key · = k') := by
      refine List.flatMap_congr fun k' hk' => ?_
      rw [List.filter_filter]
      have hne : k' ≠ k := ne_of_mem_of_not_mem hk' hk
      refine List.filter_congr fun a _ => ?_
      by_cases ha : key a = k'
      · simp [ha, hne]
      · simp [ha]
    rw [List.flatMap_cons, ← hothers, hlater, filter_append_filter_not hfirst]

/-- Sorting by first appearance puts the entries of one key together. -/
theorem mergeSort_idxOf (key : α → κ) (entries : List α) :
    (entries.mergeSort fun a b => (entries.map key).eraseDups.idxOf (key a) ≤
        (entries.map key).eraseDups.idxOf (key b)) =
      (groupedBy key entries).flatMap Prod.snd := by
  let order := (entries.map key).eraseDups
  let sorted := entries.mergeSort fun a b => order.idxOf (key a) ≤ order.idxOf (key b)
  have hmem : ∀ a ∈ sorted, key a ∈ order := fun a ha =>
    List.mem_eraseDups.mpr (List.mem_map_of_mem (List.mem_mergeSort.mp ha))
  have hsorted : sorted.Pairwise fun a b => order.idxOf (key a) ≤ order.idxOf (key b) :=
    pairwise_mergeSort_rank _ entries
  -- the sort is stable, so the entries of one key stay as they were
  have hfilter : ∀ k, sorted.filter (key · = k) = entries.filter (key · = k) := fun k =>
    filter_mergeSort_rank _ _ entries fun a _ b _ ha hb => by
      rw [of_decide_eq_true ha, of_decide_eq_true hb]
  change sorted = _
  rw [← flatMap_filter (nodup_eraseDups _) hmem hsorted, groupedBy, List.flatMap_map]
  simp only [hfilter]

/-- Grouping loses and invents no entry. -/
theorem perm_groupedBy (key : α → κ) (entries : List α) :
    ((groupedBy key entries).flatMap Prod.snd).Perm entries := by
  rw [← mergeSort_idxOf]
  exact List.mergeSort_perm entries _

/-- Entries by topic and, within a topic, by partition, both in the order of first appearance. -/
def arranged (topic : α → String) (partition : α → Int32) (entries : List α) :
    List (String × List α) :=
  (groupedBy topic entries).map fun (name, members) =>
    (name, (groupedBy partition members).flatMap Prod.snd)

/-- Grouping by topic arranges the entries. -/
theorem groupByTopic_eq (topic : α → String) (partition : α → Int32) (entries : List α) :
    groupByTopic topic partition entries = arranged topic partition entries := by
  rw [groupByTopic, foldl_insertEntry]
  simp only [arranged, sortByFirstAppearance, mergeSort_idxOf]

theorem topic_of_mem_arranged {topic : α → String} {partition : α → Int32} {entries : List α}
    {group : String × List α} (hgroup : group ∈ arranged topic partition entries) {entry : α}
    (hentry : entry ∈ group.2) : topic entry = group.1 := by
  obtain ⟨⟨name, members⟩, hmembers, rfl⟩ := List.mem_map.mp hgroup
  have hmem : entry ∈ members := (perm_groupedBy partition members).mem_iff.mp hentry
  exact (block_of_mem_groupedBy hmembers).2 entry hmem

/-- What is arranged is what was there. -/
theorem perm_arranged (topic : α → String) (partition : α → Int32) (entries : List α) :
    ((arranged topic partition entries).flatMap Prod.snd).Perm entries := by
  refine List.Perm.trans ?_ (perm_groupedBy topic entries)
  rw [arranged, List.flatMap_map]
  exact List.Perm.flatMap_left _ fun group _ => perm_groupedBy partition group.2

/-! ### Runs of one partition -/

namespace Produce

/-- Payloads of one partition form a run if what follows them starts with another partition. -/
theorem partitionRuns_append {p : Int32} {run rest : List Payload} (hne : run ≠ [])
    (hrun : ∀ payload ∈ run, payload.partition = p)
    (hrest : ∀ next ∈ (partitionRuns rest).head?, next.1 ≠ p) :
    partitionRuns (run ++ rest) = (p, run) :: partitionRuns rest := by
  induction run with
  | nil => contradiction
  | cons payload run ih =>
    obtain ⟨hp, hrun⟩ := List.forall_mem_cons.mp hrun
    rw [List.cons_append, partitionRuns]
    -- the last payload of the run meets what follows, and the others meet the run
    cases run with
    | nil =>
      rw [List.nil_append]
      cases hruns : partitionRuns rest with
      | nil => simp [hp]
      | cons next runs =>
        have hnext : next.1 ≠ p := hrest next (by simp [hruns])
        simp [hp, hnext]
    | cons other run =>
      rw [ih (List.cons_ne_nil _ _) hrun]
      simp [hp]

/-- Groups of payloads, each of one partition and no two of the same, are the runs. -/
theorem partitionRuns_flatMap {groups : List (Int32 × List Payload)}
    (hkeys : (groups.map Prod.fst).Nodup)
    (hgroups : ∀ group ∈ groups, group.2 ≠ [] ∧ ∀ payload ∈ group.2, payload.partition = group.1) :
    partitionRuns (groups.flatMap Prod.snd) = groups := by
  induction groups with
  | nil => rfl
  | cons group groups ih =>
    obtain ⟨hkey, hkeys⟩ := List.nodup_cons.mp hkeys
    obtain ⟨⟨hne, hmem⟩, hgroups⟩ := List.forall_mem_cons.mp hgroups
    have hruns := ih hkeys hgroups
    rw [List.flatMap_cons, partitionRuns_append hne hmem, hruns]
    intro next hnext heq
    rw [hruns] at hnext
    exact hkey (List.mem_map.mpr ⟨next, List.mem_of_mem_head? hnext, heq⟩)

/-- After grouping, the payloads of a topic fall into one run for each partition. -/
theorem partitionRuns_groupedBy (payloads : List Payload) :
    partitionRuns ((groupedBy Payload.partition payloads).flatMap Prod.snd) =
      groupedBy Payload.partition payloads :=
  partitionRuns_flatMap (nodup_groupedBy _ _) fun _ => block_of_mem_groupedBy

/-- The payloads of a request by topic and partition. -/
theorem partitions_eq (r : Request) :
    r.partitions = (groupedBy Payload.topic r.payloads).map fun (topic, payloads) =>
      (topic, groupedBy Payload.partition payloads) := by
  simp only [Request.partitions, groupByTopic_eq, arranged, List.map_map, Function.comp_def,
    partitionRuns_groupedBy]

end Produce

end BrokerWire
