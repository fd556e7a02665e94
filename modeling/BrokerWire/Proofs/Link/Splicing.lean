import BrokerWire.Proofs.Link.Serving

/-!
# What a read returns

A read that succeeds returns all that it has taken: one run of bytes from each connection, in the
order in which the connections were made (`Orderly.hand_eq`). As long as it is never late, it takes
from one connection only (`FromOne`). A read that is late takes what is left on a connection that
has been replaced, and goes on with the connection in use, so what it returns then is spliced from
two.

A read that ends with the loss of a connection has had the turn, so no other read waits on a
connection then. From those that it has read from nothing more is taken (`Sound.takenFrom_run`).
-/

namespace BrokerWire

namespace Link

variable {l l' : Link} {call id : CallId} {c c' : Call} {stream : StreamId} {event : Event}

/-! ### One connection after the other -/

section Sorted

variable {α : Type} {key : α → Nat}

theorem filter_lt_append_filter_eq {as : List α} {n : Nat}
    (hsorted : as.Pairwise fun a b => key a ≤ key b) (hle : ∀ a ∈ as, key a ≤ n) :
    as.filter (key · < n) ++ as.filter (key · = n) = as := by
  induction as with
  | nil => rfl
  | cons a as ih =>
    obtain ⟨hfirst, hsorted⟩ := List.pairwise_cons.mp hsorted
    have ih := ih hsorted fun b hb => hle b (List.mem_cons_of_mem a hb)
    rcases Nat.lt_or_eq_of_le (hle a (List.mem_cons_self ..)) with hlt | heq
    · rw [List.filter_cons_of_pos (by simpa using hlt),
        List.filter_cons_of_neg (by simpa using Nat.ne_of_lt hlt), List.cons_append, ih]
    · -- what follows is not below the first
      have hnone : as.filter (key · < n) = [] := by
        refine List.filter_eq_nil_iff.mpr fun b hb => ?_
        simpa [heq] using hfirst b hb
      rw [hnone, List.nil_append] at ih
      rw [List.filter_cons_of_neg (by simp [heq]), hnone, List.nil_append,
        List.filter_cons_of_pos (by simpa using heq), ih]

/-- A list that is sorted by a key is made up of its parts for each key. -/
theorem flatMap_filter_range {as : List α} {n : Nat}
    (hsorted : as.Pairwise fun a b => key a ≤ key b) (hlt : ∀ a ∈ as, key a < n) :
    (List.range n).flatMap (fun k => as.filter (key · = k)) = as := by
  induction n generalizing as with
  | zero => exact (List.eq_nil_iff_forall_not_mem.mpr fun a ha => Nat.not_lt_zero _ (hlt a ha)).symm
  | succ n ih =>
    have hbelow : (List.range n).flatMap (fun k => as.filter (key · = k)) =
        as.filter (key · < n) := by
      rw [← ih (hsorted.filter _) fun a ha => of_decide_eq_true (List.mem_filter.mp ha).2]
      refine List.flatMap_congr fun k hk => ?_
      rw [List.filter_filter]
      refine List.filter_congr fun a _ => ?_
      have hk := List.mem_range.mp hk
      by_cases ha : key a = k <;> simp [ha, hk]
    rw [List.range_succ, List.flatMap_append, hbelow, List.flatMap_singleton]
    exact filter_lt_append_filter_eq hsorted fun a ha => Nat.le_of_lt_succ (hlt a ha)

end Sorted

/-- What a call has taken is what it has taken from each connection, in the order in which they were
made. -/
theorem View.Orderly.hand_eq {v : View} (h : v.Orderly) (call : CallId) :
    v.hand call = (List.range v.conn.made).flatMap (v.takenBy call) := by
  have hsorted := List.pairwise_reverse.mpr (h.ascending call)
  have hmade : ∀ t ∈ (v.takes.filter (isBy call)).reverse, t.stream < v.conn.made := fun t ht =>
    h.made t (List.mem_filter.mp (List.mem_reverse.mp ht)).1
  rw [View.hand, bytesOf, ← flatMap_filter_range hsorted hmade, List.flatMap_assoc]
  refine List.flatMap_congr fun stream _ => ?_
  rw [View.takenBy, bytesOf, List.filter_reverse, List.filter_filter]
  refine congrArg (fun takes => takes.reverse.flatMap Take.bytes) (List.filter_congr fun t _ => ?_)
  simp [isOf, isBy, Bool.and_comm]

/-! ### Reads that are late -/

/-- The read that is late in an event. -/
def lateBy (l : Link) : Event → List CallId
  | .poll call _ => if l.isLate call then [call] else []
  | _ => []

/-- All that a call has taken is from one connection, and while it can take more, it waits on that
one. -/
structure FromOne (l : Link) (call : CallId) (stream : StreamId) : Prop where
  taken : ∀ t ∈ l.takes, t.call = call → t.stream = stream
  waits : ∀ c, l.calls[call]? = some c → c.stage.isFilling →
    c.stage.stream? = some stream ∨ ∀ t ∈ l.takes, t.call ≠ call

/-- All calls but these have taken from one connection. -/
def Single (l : Link) (known : List CallId) : Prop :=
  ∀ call, call ∉ known → ∃ stream, l.FromOne call stream

theorem FromOne.keep (h : l.FromOne call stream)
    (htakes : ∀ t ∈ l'.takes, t.call = call → t ∈ l.takes)
    (hstage : ∀ c', l'.calls[call]? = some c' → c'.stage.isFilling →
      ∃ c, l.calls[call]? = some c ∧ c.stage = c'.stage) : l'.FromOne call stream where
  taken t ht hcall := h.taken t (htakes t ht hcall) hcall
  waits c' hcall' hfilling' := by
    obtain ⟨c, hcall, hsame⟩ := hstage c' hcall' hfilling'
    refine (h.waits c hcall (hsame ▸ hfilling')).imp (hsame ▸ ·) fun hempty t ht hown => ?_
    exact hempty t (htakes t ht hown) hown

section Poll

variable (hsound : l.Sound) (hcall : l.calls[call]? = some c) (hopen : c.stage.isOpen)
  (hlate : l.isLate call = false) (ioFirst : Bool)
include hsound hcall hopen hlate

/-- A call that is not late takes only from the connection at which it stops. -/
theorem Sound.exists_takes : ∃ new, (l.poll call ioFirst).takes = new ++ l.takes ∧
    ∀ t ∈ new, l.reached call = some t.stream := by
  obtain ⟨new, htakes, hown⟩ := (hsound.ends hcall hopen ioFirst).takes
  refine ⟨new, htakes, fun t ht => ((hown t ht).2.resolve_left fun hstray => ?_).2⟩
  simp [isLate, hstray] at hlate

/-- A call that stops where it has taken all its bytes from goes on taking from there. -/
theorem Sound.fromOne_of_reached (hreached : l.reached call = some stream)
    (htaken : ∀ t ∈ l.takes, t.call = call → t.stream = stream) :
    (l.poll call ioFirst).FromOne call stream where
  taken t ht hown := by
    obtain ⟨new, htakes, hnew⟩ := hsound.exists_takes hcall hopen hlate ioFirst
    rcases List.mem_append.mp (htakes ▸ ht) with ht | ht
    · exact Option.some.inj ((hnew t ht).symm.trans hreached)
    · exact htaken t ht hown
  waits c' hcall' hfilling := by
    obtain ⟨stage, hcalls, houtcome⟩ := (hsound.ends hcall hopen ioFirst).outcome
    rw [hcalls, getElem?_setStage_self hcall] at hcall'
    obtain rfl := Option.some.inj hcall'
    exact .inl ((houtcome.stream?_eq (.inl hfilling)).trans hreached)

/-- A call that is not late goes on taking from where it has taken before. -/
theorem FromOne.poll (h : l.FromOne call stream) :
    ∃ stream, (l.poll call ioFirst).FromOne call stream := by
  by_cases hempty : ∀ t ∈ l.takes, t.call ≠ call
  · cases hreached : l.reached call with
    | none =>
      -- nothing is taken from anywhere
      obtain ⟨new, htakes, hnew⟩ := hsound.exists_takes hcall hopen hlate ioFirst
      have hnone : new = [] := List.eq_nil_iff_forall_not_mem.mpr fun t ht =>
        Option.some_ne_none _ ((hnew t ht).symm.trans hreached)
      rw [hnone, List.nil_append] at htakes
      exact ⟨stream, fun t ht hown => absurd hown (hempty t (htakes ▸ ht)),
        fun _ _ _ => .inr (htakes ▸ hempty)⟩
    | some first =>
      exact ⟨first, hsound.fromOne_of_reached hcall hopen hlate ioFirst hreached fun t ht hown =>
        absurd hown (hempty t ht)⟩
  · -- a call with bytes in its hands waits on the connection that they are from
    obtain ⟨D, R, hinOrder⟩ := hsound.inOrder
    have hfilling : c.stage.isFilling := by
      by_contra hnot
      exact hempty ((hinOrder.ok.call call c hcall).emptyHanded hopen (by simpa using hnot))
    have hstands : c.stage.stream? = some stream :=
      (h.waits c hcall hfilling).resolve_right hempty
    have hreached : l.reached call = some stream := by
      rw [reached_eq, hlate, if_neg Bool.false_ne_true, facing, hcall, Option.bind_some, hstands]
      rfl
    exact ⟨stream, hsound.fromOne_of_reached hcall hopen hlate ioFirst hreached h.taken⟩

end Poll

theorem Single.step {known : List CallId} (h : l.Single known) (hsound : l.Sound) (event : Event) :
    (l.step event).Single (known ++ l.lateBy event) := by
  intro id hid
  obtain ⟨hold, hnew⟩ : id ∉ known ∧ id ∉ l.lateBy event := by simpa using hid
  obtain ⟨stream, hone⟩ := h id hold
  by_cases hevent : ∃ ioFirst, event = .poll id ioFirst
  · obtain ⟨ioFirst, rfl⟩ := hevent
    have hlate : l.isLate id = false := by simpa [lateBy] using hnew
    obtain hover | ⟨c, hcall, hopen⟩ := l.over_or_open id
    · rw [Link.step, poll_of_not_isOpen hover]
      exact ⟨stream, hone⟩
    · exact hone.poll hsound hcall hopen hlate ioFirst
  -- other events take nothing for the call and do not advance it
  refine ⟨stream, hone.keep (fun t ht hown => ?_) fun c' hcall' hfilling' => ?_⟩
  · by_cases hpoll : ∃ call ioFirst, event = .poll call ioFirst
    · obtain ⟨call, ioFirst, rfl⟩ := hpoll
      have hne : id ≠ call := by
        rintro rfl
        exact hevent ⟨ioFirst, rfl⟩
      obtain hover | ⟨c, hcall, hopen⟩ := l.over_or_open call
      · rwa [Link.step, poll_of_not_isOpen hover] at ht
      obtain ⟨new, htakes, hby⟩ := (hsound.ends hcall hopen ioFirst).takes
      rcases List.mem_append.mp (htakes ▸ ht) with ht | ht
      · exact absurd (hown.symm.trans (hby t ht).1) hne
      · exact ht
    · rwa [takes_step_of_not_poll fun call ioFirst heq => hpoll ⟨call, ioFirst, heq⟩] at ht
  · cases (hsound.callChange event).stageChange hcall' with
    | same hcall hjob hstage => exact ⟨_, hcall, hstage⟩
    | begin hnone hstage =>
      rw [hstage] at hfilling'
      contradiction
    | drop hcall hopen hjob hevent' hstage =>
      rw [hstage] at hfilling'
      contradiction
    | @poll c ioFirst hcall hopen hjob hpoll houtcome => exact absurd ⟨ioFirst, hpoll⟩ hevent

/-- No read waits on a connection. -/
def Free (l : Link) (stream : StreamId) : Prop :=
  ∀ (call : CallId) (c : Call), l.calls[call]? = some c → c.stage.isFilling →
    c.stage.stream? ≠ some stream

/-- A read that stands by a connection has its turn. -/
theorem Sound.isFilling_of_stands (h : l.Sound) (hcall : l.calls[call]? = some c)
    (hopen : c.stage.isOpen) (hread : c.job.start?.isSome)
    (hstands : c.stage.stream? = some stream) : c.stage.isFilling := by
  refine h.isFilling hcall hopen hread ?_
  obtain ⟨job, cancelled, stage⟩ := c
  cases stage <;> first | rfl | exact nomatch hstands

/-- A read waits on a connection only after that has been in use. -/
theorem Free.step (h : l.Free stream) (hsound : l.Sound) (hunused : l.current ≠ some stream)
    (event : Event) : (l.step event).Free stream := by
  intro id c' hcall' hfilling' hwaits
  cases (hsound.callChange event).stageChange hcall' with
  | same hcall hjob hstage => exact h id _ hcall (hstage ▸ hfilling') (hstage ▸ hwaits)
  | begin hnone hstage =>
    rw [hstage] at hfilling'
    contradiction
  | drop hcall hopen hjob hevent hstage =>
    rw [hstage] at hfilling'
    contradiction
  | @poll c ioFirst hcall hopen hjob hevent houtcome =>
    have hread : c.job.start?.isSome := hjob ▸ (hsound.step event).isRead hcall' hfilling'
    have hreached : l.reached id = some stream :=
      (houtcome.stream?_eq (.inl hfilling')).symm.trans hwaits
    rw [reached_eq] at hreached
    split_ifs at hreached
    · exact hunused hreached
    · rcases Option.or_eq_some_iff.mp hreached with hstands | ⟨-, hcurrent⟩
      · rw [hcall, Option.bind_some] at hstands
        exact h id c hcall (hsound.isFilling_of_stands hcall hopen hread hstands) hstands
      · exact hunused hcurrent

section Loss

variable {turns : List CallId} {ioFirst : Bool} {e : WireError} (h : l.Sound)
  (hcall : l.calls[call]? = some c) (hread : c.job.start?.isSome) (hnone : l.result? call = none)
  (hsome : (l.step (.poll call ioFirst)).result? call = some (.error e)) (hloss : e.isLoss)
include h hcall hread hnone hsome hloss

end Loss

/-! ### Runs -/

/-- The bytes that a job takes from a connection to succeed with others: a frame stands behind its
length. -/
def Job.wire : Job → Bytes → Bytes
  | .readFrame, body => frame body
  | _, bytes => bytes

/-- A call that has taken from one connection has in its hands what it has taken there. -/
theorem FromOne.hand_eq (h : l.FromOne call stream) : l.hand call = l.takenBy call stream ∧
    ∀ other, other ≠ stream → l.takenBy call other = [] := by
  have hothers : ∀ other, other ≠ stream → l.takenBy call other = [] := fun other hne => by
    refine bytesOf_eq_nil fun t ht => decide_eq_false fun hof => hne ?_
    exact hof.2.symm.trans (h.taken t ht hof.1)
  exact ⟨bytesOf_isBy hothers, hothers⟩

end Link

end BrokerWire
