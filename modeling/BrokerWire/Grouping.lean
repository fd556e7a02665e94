/-!
# Grouping entries by topic

A request names each topic once. `groupByTopic` gathers the entries of a topic, topics in the
order in which they first appear, and puts entries of one partition next to each other, partitions
again in the order in which they first appear within the topic. Entries of one topic and partition
stay in their order.
-/

namespace BrokerWire

/-- Adds an entry behind those of its topic, or as the first of a new topic behind all others. -/
def insertEntry (topic : String) (entry : α) : List (String × List α) → List (String × List α)
  | [] => [(topic, [entry])]
  | (name, entries) :: groups =>
    if name = topic then (name, entries ++ [entry]) :: groups
    else (name, entries) :: insertEntry topic entry groups

/-- Sorts entries by the place at which their partition first appears; entries of one partition
keep their order. -/
def sortByFirstAppearance (partition : α → Int32) (entries : List α) : List α :=
  let order := (entries.map partition).eraseDups
  entries.mergeSort fun a b => order.idxOf (partition a) ≤ order.idxOf (partition b)

/-- The entries of each topic, entries of one partition next to each other. -/
def groupByTopic (topic : α → String) (partition : α → Int32) (entries : List α) :
    List (String × List α) :=
  (entries.foldl (fun groups entry => insertEntry (topic entry) entry groups) []).map
    fun (name, members) => (name, sortByFirstAppearance partition members)

end BrokerWire
