import BrokerWire.Probe
import Mathlib.Data.List.DropRight
import Mathlib.Data.List.TakeWhile

/-!
# Lists of names

The topics that the probe asks for are a text with commas in it. Main statement: `topics_spelled`.
The text names what stands between its commas, without the white space at either end and with blank
stretches left out; and however names are written between commas, with white space around them and
blank stretches anywhere, the text names just these.

What a text names is told without a word on how it is found. The stretches between its commas are
those that give the text when they are joined (`AreStretches`), and a stretch is white space or a
name with white space around it (`Spells`). Cutting and trimming undo this: cutting undoes joining
(`AreStretches.segments_eq`), and trimming takes away just the white space (`trimBlanks_append`).
-/

namespace BrokerWire

/-! ### White space at the ends -/

/-- Whether there is nothing but white space. -/
def AllBlank (cs : List Char) : Prop := ∀ c ∈ cs, isBlank c = true

instance (cs : List Char) : Decidable (AllBlank cs) :=
  decidable_of_iff (cs.all isBlank) List.all_eq_true

/-- Whether there is no white space at either end. -/
structure IsTrimmed (cs : List Char) : Prop where
  head : ∀ c ∈ cs.head?, isBlank c = false
  last : ∀ c ∈ cs.getLast?, isBlank c = false

instance (cs : List Char) : Decidable (IsTrimmed cs) :=
  decidable_of_iff (cs.head?.all (!isBlank ·) ∧ cs.getLast?.all (!isBlank ·)) <| by
    simp only [Option.all_eq_true, Bool.not_eq_true']
    exact ⟨fun h => ⟨h.1, h.2⟩, fun h => ⟨h.head, h.last⟩⟩

section Trimming

variable {cs before core after : List Char}

theorem trimBlanks_eq (cs : List Char) :
    trimBlanks cs = (cs.dropWhile isBlank).rdropWhile isBlank := rfl

theorem isTrimmed_trimBlanks (cs : List Char) : IsTrimmed (trimBlanks cs) where
  head := by
    intro c hc
    obtain ⟨dropped, hdropped⟩ := List.rdropWhile_prefix isBlank (cs.dropWhile isBlank)
    -- the first character is also the first where only the front is trimmed
    have hhead : c ∈ (cs.dropWhile isBlank).head? :=
      hdropped ▸ List.mem_head?_append_of_mem_head? hc
    have hnot := List.head?_dropWhile_not isBlank cs
    rwa [hhead] at hnot
  last := by
    intro c hc
    obtain ⟨hne, rfl⟩ := List.mem_getLast?_eq_getLast hc
    exact Bool.eq_false_iff.mpr (List.rdropWhile_last_not isBlank _ hne)

/-- What is taken away is white space. -/
theorem exists_append_trimBlanks (cs : List Char) :
    ∃ before after, AllBlank before ∧ AllBlank after ∧ before ++ trimBlanks cs ++ after = cs := by
  refine ⟨cs.takeWhile isBlank, (cs.dropWhile isBlank).rtakeWhile isBlank,
    fun c hc => List.mem_takeWhile_imp hc, fun c hc => List.mem_rtakeWhile_imp hc, ?_⟩
  rw [trimBlanks_eq, List.append_assoc, List.rdropWhile_append_rtakeWhile,
    List.takeWhile_append_dropWhile]

/-- White space is taken away up to what has none at its ends. -/
theorem trimBlanks_append (hbefore : AllBlank before) (hcore : IsTrimmed core)
    (hafter : AllBlank after) : trimBlanks (before ++ core ++ after) = core := by
  have hback : (core ++ after).rdropWhile isBlank = core := by
    have hself : core.rdropWhile isBlank = core := List.rdropWhile_eq_self_iff.mpr fun hne =>
      Bool.eq_false_iff.mp (hcore.last _ (List.getLast?_eq_getLast_of_ne_nil hne))
    rw [List.rdropWhile, List.reverse_append,
      List.dropWhile_append_of_pos fun c hc => hafter c (List.mem_reverse.mp hc)]
    exact hself
  rw [trimBlanks_eq, List.append_assoc, List.dropWhile_append_of_pos hbefore]
  cases core with
  | nil => rw [List.nil_append, List.dropWhile_eq_nil_iff.mpr hafter, List.rdropWhile_nil]
  | cons c cs =>
    have hfirst : ¬isBlank c = true := Bool.eq_false_iff.mp (hcore.head c rfl)
    rwa [List.cons_append, List.dropWhile_cons_of_neg hfirst]

theorem trimBlanks_eq_nil_iff : trimBlanks cs = [] ↔ AllBlank cs := by
  constructor
  · intro hnil
    obtain ⟨before, after, hbefore, hafter, heq⟩ := exists_append_trimBlanks cs
    rw [← heq, hnil, List.append_nil]
    exact List.forall_mem_append.mpr ⟨hbefore, hafter⟩
  · intro hblank
    have hnil : IsTrimmed [] := ⟨nofun, nofun⟩
    have hafter : AllBlank [] := List.forall_mem_nil _
    simpa using trimBlanks_append hblank hnil hafter

end Trimming

/-! ### Cutting at commas -/

section Cutting

variable {separator c : Char} {cs segment : List Char} {stretches : List String}

/-- A character that does not separate goes to the front of the first segment. -/
theorem exists_segments_cons (hc : c ≠ separator) (cs : List Char) :
    ∃ first rest, segments separator cs = first :: rest ∧
      segments separator (c :: cs) = (c :: first) :: rest := by
  obtain ⟨first, rest, hcs⟩ := List.exists_cons_of_ne_nil (segments_ne_nil separator cs)
  exact ⟨first, rest, hcs, by rw [segments, if_neg hc, hcs]⟩

theorem segments_eq_splitOn (separator : Char) (cs : List Char) :
    segments separator cs = cs.splitOn separator := by
  induction cs with
  | nil => rfl
  | cons c cs ih =>
    rw [List.splitOn_eq_splitOnP] at ih ⊢
    rw [List.splitOnP_cons_eq_if_modifyHead, ← ih]
    by_cases hc : c = separator
    · rw [segments, if_pos hc, if_pos (beq_iff_eq.mpr hc)]
    · obtain ⟨first, rest, hcs, hsegments⟩ := exists_segments_cons hc cs
      rw [hsegments, if_neg (mt beq_iff_eq.mp hc), hcs, List.modifyHead_cons]

theorem not_mem_of_mem_segments (h : segment ∈ segments separator cs) : separator ∉ segment := by
  induction cs generalizing segment with
  | nil =>
    rw [List.mem_singleton.mp h]
    exact List.not_mem_nil
  | cons c cs ih =>
    by_cases hc : c = separator
    · rw [segments, if_pos hc] at h
      rcases List.mem_cons.mp h with rfl | hrest
      · exact List.not_mem_nil
      · exact ih hrest
    · obtain ⟨first, rest, hcs, hsegments⟩ := exists_segments_cons hc cs
      rw [hcs] at ih
      rw [hsegments] at h
      rcases List.mem_cons.mp h with rfl | hrest
      · exact List.not_mem_cons_of_ne_of_not_mem (Ne.symm hc) (ih List.mem_cons_self)
      · exact ih (List.mem_cons_of_mem _ hrest)

/-- Whether a text is made of stretches without commas, with commas between them. -/
structure AreStretches (stretches : List String) (text : String) : Prop where
  ne_nil : stretches ≠ []
  noComma : ∀ stretch ∈ stretches, ',' ∉ stretch.toList
  joined : ",".intercalate stretches = text

theorem areStretches_segments (text : String) :
    AreStretches ((segments ',' text.toList).map String.ofList) text where
  ne_nil := by simpa using segments_ne_nil ',' text.toList
  noComma := by
    intro stretch hstretch
    obtain ⟨segment, hsegment, rfl⟩ := List.mem_map.mp hstretch
    rw [String.toList_ofList]
    exact not_mem_of_mem_segments hsegment
  joined := by
    rw [← String.toList_inj, String.toList_intercalate, List.map_map, segments_eq_splitOn]
    simp [Function.comp_def, List.intercalate_splitOn]

/-- Cutting a text at its commas undoes joining the stretches. -/
theorem AreStretches.segments_eq {text : String} (h : AreStretches stretches text) :
    segments ',' text.toList = stretches.map String.toList := by
  rw [← h.joined, segments_eq_splitOn, String.toList_intercalate]
  refine List.splitOn_intercalate ',' ?_ ?_
  · simpa using h.noComma
  · simpa using h.ne_nil

/-- A text is cut at its commas in one way. -/
theorem AreStretches.unique {other : List String} {text : String}
    (h : AreStretches stretches text) (hother : AreStretches other text) : stretches = other :=
  List.map_injective_iff.mpr (fun _ _ heq => String.toList_inj.mp heq)
    (h.segments_eq.symm.trans hother.segments_eq)

end Cutting

/-! ### Names -/

/-- Whether a text can stand for a name in a list: something that has no comma in it and no white
space at either end. -/
structure IsName (text : String) : Prop where
  ne_empty : text ≠ ""
  noComma : ',' ∉ text.toList
  trimmed : IsTrimmed text.toList

/-- Whether stretches spell names: each stretch is white space or a name in the middle of white
space, and these are all names in order. -/
inductive Spells : List String → List String → Prop
  | nil : Spells [] []
  | blank {stretch : String} {stretches names : List String} (hblank : AllBlank stretch.toList)
      (rest : Spells stretches names) : Spells (stretch :: stretches) names
  | name {before name after : String} {stretches names : List String}
      (hbefore : AllBlank before.toList) (hname : IsName name) (hafter : AllBlank after.toList)
      (rest : Spells stretches names) :
      Spells ((before ++ name ++ after) :: stretches) (name :: names)

/-- The names that stand in stretches. -/
def namesAmong (stretches : List (List Char)) : List String :=
  ((stretches.map trimBlanks).filter (· ≠ [])).map String.ofList

variable {text : String} {stretches names : List String}

theorem namesIn_eq (text : String) : namesIn text = namesAmong (segments ',' text.toList) := rfl

theorem namesAmong_cons_of_nil {stretch : List Char} (h : trimBlanks stretch = [])
    (stretches : List (List Char)) : namesAmong (stretch :: stretches) = namesAmong stretches := by
  simp [namesAmong, h]

theorem namesAmong_cons_of_ne_nil {stretch : List Char} (h : trimBlanks stretch ≠ [])
    (stretches : List (List Char)) :
    namesAmong (stretch :: stretches) =
      String.ofList (trimBlanks stretch) :: namesAmong stretches := by
  simp [namesAmong, h]

/-- What is left of a stretch is a name. -/
theorem isName_trimBlanks {stretch : List Char} (hcomma : ',' ∉ stretch)
    (hne : trimBlanks stretch ≠ []) : IsName (String.ofList (trimBlanks stretch)) where
  ne_empty := by simpa using hne
  noComma := by
    obtain ⟨before, after, -, -, heq⟩ := exists_append_trimBlanks stretch
    intro hmem
    rw [String.toList_ofList] at hmem
    exact hcomma (heq ▸ List.mem_append_left _ (List.mem_append_right _ hmem))
  trimmed := by
    rw [String.toList_ofList]
    exact isTrimmed_trimBlanks stretch

/-- Stretches without commas spell the names that stand in them. -/
theorem spells_namesAmong (hcomma : ∀ stretch ∈ stretches, ',' ∉ stretch.toList) :
    Spells stretches (namesAmong (stretches.map String.toList)) := by
  induction stretches with
  | nil => exact .nil
  | cons stretch stretches ih =>
    obtain ⟨hfirst, hcomma⟩ := List.forall_mem_cons.mp hcomma
    rw [List.map_cons]
    by_cases hnil : trimBlanks stretch.toList = []
    · rw [namesAmong_cons_of_nil hnil]
      exact .blank (trimBlanks_eq_nil_iff.mp hnil) (ih hcomma)
    · obtain ⟨before, after, hbefore, hafter, heq⟩ := exists_append_trimBlanks stretch.toList
      have hstretch : String.ofList before ++ String.ofList (trimBlanks stretch.toList) ++
          String.ofList after = stretch := by
        rw [← String.ofList_append, ← String.ofList_append, heq, String.ofList_toList]
      rw [← String.toList_ofList (l := before)] at hbefore
      rw [← String.toList_ofList (l := after)] at hafter
      have hspells := Spells.name hbefore (isName_trimBlanks hfirst hnil) hafter (ih hcomma)
      rwa [hstretch, ← namesAmong_cons_of_ne_nil hnil] at hspells

/-- Stretches that spell names have just these standing in them. -/
theorem Spells.namesAmong_eq (h : Spells stretches names) :
    namesAmong (stretches.map String.toList) = names := by
  induction h with
  | nil => rfl
  | blank hblank _ ih =>
    rw [List.map_cons, namesAmong_cons_of_nil (trimBlanks_eq_nil_iff.mpr hblank), ih]
  | @name before name after stretches names hbefore hname hafter _ ih =>
    have htrim : trimBlanks (before ++ name ++ after).toList = name.toList := by
      rw [String.toList_append, String.toList_append]
      exact trimBlanks_append hbefore hname.trimmed hafter
    have hne : trimBlanks (before ++ name ++ after).toList ≠ [] := by
      rw [htrim]
      exact fun hnil => hname.ne_empty (String.toList_eq_nil_iff.mp hnil)
    rw [List.map_cons, namesAmong_cons_of_ne_nil hne, htrim, String.ofList_toList, ih]

theorem Spells.isName (h : Spells stretches names) : ∀ name ∈ names, IsName name := by
  induction h with
  | nil => exact List.forall_mem_nil _
  | blank _ _ ih => exact ih
  | name _ hname _ _ ih => exact List.forall_mem_cons.mpr ⟨hname, ih⟩

theorem AllBlank.noComma {cs : List Char} (h : AllBlank cs) : ',' ∉ cs :=
  fun hmem => absurd (h _ hmem) (by decide)

theorem Spells.noComma (h : Spells stretches names) :
    ∀ stretch ∈ stretches, ',' ∉ stretch.toList := by
  induction h with
  | nil => exact List.forall_mem_nil _
  | blank hblank _ ih => exact List.forall_mem_cons.mpr ⟨hblank.noComma, ih⟩
  | name hbefore hname hafter _ ih =>
    refine List.forall_mem_cons.mpr ⟨?_, ih⟩
    simp [hbefore.noComma, hname.noComma, hafter.noComma]

/-- A name by itself is a stretch that spells it. -/
theorem spells_self (h : ∀ name ∈ names, IsName name) : Spells names names := by
  induction names with
  | nil => exact .nil
  | cons name names ih =>
    obtain ⟨hname, hnames⟩ := List.forall_mem_cons.mp h
    have hempty : AllBlank "".toList := List.forall_mem_nil _
    simpa only [String.empty_append, String.append_empty] using
      Spells.name hempty hname hempty (ih hnames)

/-- The stretches of a text spell what it names. -/
theorem spells_namesIn (h : AreStretches stretches text) : Spells stretches (namesIn text) := by
  rw [namesIn_eq, h.segments_eq]
  exact spells_namesAmong h.noComma

/-- However names are spelled, the text names them. -/
theorem Spells.namesIn_eq (h : Spells stretches names) :
    namesIn (",".intercalate stretches) = names := by
  cases stretches with
  | nil => cases h; rfl
  | cons stretch stretches =>
    have hstretches : AreStretches (stretch :: stretches) _ :=
      ⟨List.cons_ne_nil _ _, h.noComma, rfl⟩
    rw [BrokerWire.namesIn_eq, hstretches.segments_eq, h.namesAmong_eq]

namespace Probe

/-- The text that lists the topics for the probe is in one way made of stretches between commas, and
these spell the topics that the probe asks for. In turn, stretches that spell some topics make a
text that lists just these. So joining the topics of a text with commas changes nothing. -/
theorem topics_spelled (broker clientId : Option String) (text : String) :
    let topicsIn := fun text => (Settings.ofVariables broker (some text) clientId).topics
    (∃! stretches, AreStretches stretches text) ∧
      (∀ stretches, AreStretches stretches text → Spells stretches (topicsIn text)) ∧
      (∀ topic ∈ topicsIn text, IsName topic) ∧
      (∀ stretches topics, Spells stretches topics →
        topicsIn (",".intercalate stretches) = topics) ∧
      topicsIn (",".intercalate (topicsIn text)) = topicsIn text := by
  intro topicsIn
  have htopics : topicsIn = namesIn := rfl
  rw [htopics]
  have hstretches := areStretches_segments text
  have hname : ∀ topic ∈ namesIn text, IsName topic := (spells_namesIn hstretches).isName
  exact ⟨⟨_, hstretches, fun _ hother => hother.unique hstretches⟩, fun _ h => spells_namesIn h,
    hname, fun _ _ h => h.namesIn_eq, (spells_self hname).namesIn_eq⟩

/-- A topic with white space inside and around it, between blank stretches. -/
theorem topics_spelled_padded :
    AreStretches [" a", "", "\u3000b c\t", "  "] " a,,\u3000b c\t,  " ∧
      Spells [" a", "", "\u3000b c\t", "  "] ["a", "b c"] ∧
      (Settings.ofVariables none (some " a,,\u3000b c\t,  ") none).topics = ["a", "b c"] := by
  have hstretches : AreStretches [" a", "", "\u3000b c\t", "  "] " a,,\u3000b c\t,  " :=
    ⟨by simp, by simp, by simp⟩
  have ha : IsName "a" := ⟨by decide, by decide, by decide⟩
  have hb : IsName "b c" := ⟨by decide, by decide, by decide⟩
  have hspells : Spells [" " ++ "a" ++ "", "", "\u3000" ++ "b c" ++ "\t", "  "] ["a", "b c"] :=
    .name (by decide) ha (by decide) <| .blank (by decide) <|
      .name (by decide) hb (by decide) <| .blank (by decide) .nil
  simp only [String.reduceAppend] at hspells
  obtain ⟨-, -, -, hlisted, -⟩ := topics_spelled none none ""
  refine ⟨hstretches, hspells, ?_⟩
  rw [← hstretches.joined]
  exact hlisted _ _ hspells

/-- A text of white space and commas asks for all topics. -/
example : (Settings.ofVariables none (some " , \t,") none).topics = [] := by decide

end Probe

end BrokerWire
