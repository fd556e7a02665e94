import BrokerWire.Proofs.Link.Ending

/-!
# One event at a time

What an event makes of the calls (`CallChange`) and of the connection in use (`Conn.Change`). Both
are known of every event on a link that is sound, and a link that is new is sound and stays so
(`Sound.run`). `collect` adds up what the events of a course contribute one by one.
-/

namespace BrokerWire

namespace Link

variable {l l' : Link} {call id : CallId} {c c' : Call} {event : Event}

/-! ### Courses of events -/

/-- What the events of a course contribute, in order. -/
def collect {α : Type} (f : Link → Event → List α) (l : Link) : List Event → List α
  | [] => []
  | event :: events => f l event ++ (l.step event).collect f events

section Collect

variable {α : Type} {f : Link → Event → List α}

end Collect

/-! ### Calls -/

/-- The result of a call at this stage. -/
def Stage.result? : Stage → Option Result
  | .done result => some result
  | _ => none

theorem result?_eq (hcall : l.calls[call]? = some c) : l.result? call = c.stage.result? := by
  rw [result?, hcall]
  obtain ⟨job, cancelled, stage⟩ := c
  cases stage <;> rfl

/-- What an event makes of the calls. -/
inductive CallChange (l : Link) : Event → List Call → Prop where
  /-- They stay as they are. -/
  | same (event : Event) : CallChange l event l.calls
  /-- There is one more. -/
  | begin (job : Job) : CallChange l (.begin job) (l.calls ++ [({ job } : Call)])
  /-- One is withdrawn. -/
  | cancel (call : CallId) :
    CallChange l (.cancel call) (l.calls.modify call fun c => { c with cancelled := true })
  /-- One is dropped. -/
  | drop {call : CallId} {c : Call} (hcall : l.calls[call]? = some c) (hopen : c.stage.isOpen) :
    CallChange l (.drop call) (l.setStage call .dropped).calls
  /-- One is advanced. -/
  | poll {call : CallId} {c : Call} {stage : Stage} {ioFirst : Bool}
    (hcall : l.calls[call]? = some c) (hopen : c.stage.isOpen)
    (houtcome : Outcome l call (l.wayOf call) stage (l.poll call ioFirst).conn) :
    CallChange l (.poll call ioFirst) (l.setStage call stage).calls

/-- What an event makes of one call that is there afterwards. -/
inductive StageChange (l : Link) (event : Event) (id : CallId) (c' : Call) : Prop where
  /-- It stands where it stood. -/
  | same {c : Call} (hcall : l.calls[id]? = some c) (hjob : c.job = c'.job)
    (hstage : c.stage = c'.stage)
  /-- It begins. -/
  | begin (hnone : l.calls[id]? = none) (hstage : c'.stage = .fresh)
  /-- It is dropped. -/
  | drop {c : Call} (hcall : l.calls[id]? = some c) (hopen : c.stage.isOpen) (hjob : c.job = c'.job)
    (hevent : event = .drop id) (hstage : c'.stage = .dropped)
  /-- It is advanced. -/
  | poll {c : Call} {ioFirst : Bool} (hcall : l.calls[id]? = some c) (hopen : c.stage.isOpen)
    (hjob : c.job = c'.job) (hevent : event = .poll id ioFirst)
    (houtcome : Outcome l id (l.wayOf id) c'.stage (l.poll id ioFirst).conn)

theorem CallChange.stageChange {calls : List Call} (h : CallChange l event calls)
    (hcall' : calls[id]? = some c') : StageChange l event id c' := by
  cases h with
  | same event => exact .same hcall' rfl rfl
  | begin job =>
    rcases Nat.lt_or_ge id l.calls.length with hlt | hge
    · rw [List.getElem?_append_left hlt] at hcall'
      exact .same hcall' rfl rfl
    · rw [List.getElem?_append_right hge] at hcall'
      obtain rfl := List.mem_singleton.mp (List.mem_of_getElem? hcall')
      exact .begin (List.getElem?_eq_none hge) rfl
  | cancel call =>
    rw [List.getElem?_modify] at hcall'
    obtain ⟨c, hcall, rfl⟩ := Option.map_eq_some_iff.mp hcall'
    refine .same hcall ?_ ?_ <;> split_ifs <;> rfl
  | @drop call c hcall hopen =>
    by_cases hid : id = call
    · subst hid
      rw [getElem?_setStage_self hcall] at hcall'
      obtain rfl := Option.some.inj hcall'
      exact .drop hcall hopen rfl rfl rfl
    · rw [getElem?_setStage_of_ne hid] at hcall'
      exact .same hcall' rfl rfl
  | @poll call c stage ioFirst hcall hopen houtcome =>
    by_cases hid : id = call
    · subst hid
      rw [getElem?_setStage_self hcall] at hcall'
      obtain rfl := Option.some.inj hcall'
      exact .poll hcall hopen rfl rfl houtcome
    · rw [getElem?_setStage_of_ne hid] at hcall'
      exact .same hcall' rfl rfl

theorem CallChange.length_le {calls : List Call} (h : CallChange l event calls) :
    l.calls.length ≤ calls.length := by
  cases h with
  | begin job => simp
  | _ => simp [setStage]

/-! ### Sound links -/

/-- A link whose calls hold what they should and stand by connections that have been made. -/
structure Sound (l : Link) : Prop where
  inOrder : ∃ D R, l.InOrder D R
  held : l.Held

theorem sound_new (config : Config) (endpoint : String) (window : Nat) :
    Sound { config, endpoint, window } where
  inOrder := ⟨_, _, inOrder_new config endpoint window⟩
  held _ _ _ h := nomatch h

theorem Sound.valid (h : l.Sound) : l.conn.Valid := by
  obtain ⟨D, R, hinOrder⟩ := h.inOrder
  exact hinOrder.ok.conn

theorem Sound.ends (h : l.Sound) (hcall : l.calls[call]? = some c) (hopen : c.stage.isOpen)
    (ioFirst : Bool) : l.Ends call (l.wayOf call) (l.poll call ioFirst) := by
  obtain ⟨D, R, hinOrder⟩ := h.inOrder
  exact ends_poll hinOrder.ok (hinOrder.settled call) h.held hcall hopen ioFirst

/-- The connection that calls may use has been made. -/
theorem Sound.current_lt (h : l.Sound) {stream : StreamId} (hcurrent : l.current = some stream) :
    stream < l.conn.made := by
  rw [current] at hcurrent
  split_ifs at hcurrent with hgate
  exact h.valid.made stream hcurrent

/-- The connection that a call faces has been made. -/
theorem Sound.facing_lt (h : l.Sound) {stream : StreamId} (hfacing : l.facing call = some stream) :
    stream < l.conn.made := by
  rcases Option.or_eq_some_iff.mp hfacing with hstands | ⟨-, hcurrent⟩
  · obtain ⟨c, hcall, hstream⟩ := Option.bind_eq_some_iff.mp hstands
    exact h.held call c stream hcall hstream
  · exact h.current_lt hcurrent

/-- The connection at which a call stops has been made. -/
theorem Sound.made (h : l.Sound) {stream : StreamId} (hreached : l.reached call = some stream) :
    stream < l.conn.made := by
  rw [reached_eq] at hreached
  split_ifs at hreached
  · exact h.current_lt hreached
  · exact h.facing_lt hreached

theorem calls_pollOpening (l : Link) : l.pollOpening.calls = l.calls :=
  congrArg View.calls (view_pollOpening (D := fun _ => []) (R := fun _ => []) l)

theorem calls_pollEpisode (l : Link) (index : Nat) (dial : Dial) (ioFirst : Bool) :
    (l.pollEpisode index dial ioFirst).calls = l.calls :=
  congrArg View.calls (view_pollEpisode (D := fun _ => []) (R := fun _ => []) l index dial ioFirst)

theorem Sound.callChange (h : l.Sound) (event : Event) :
    CallChange l event (l.step event).calls := by
  cases event with
  | begin job => exact .begin job
  | cancel call => exact .cancel call
  | drop call =>
    rw [step]
    obtain hover | ⟨c, hcall, hopen⟩ := l.over_or_open call
    · rw [drop_of_not_isOpen hover]
      exact .same _
    rw [drop_of_isOpen hcall hopen]
    exact .drop hcall hopen
  | poll call ioFirst =>
    rw [step]
    obtain hover | ⟨c, hcall, hopen⟩ := l.over_or_open call
    · rw [poll_of_not_isOpen hover]
      exact .same _
    obtain ⟨stage, hcalls, houtcome⟩ := (h.ends hcall hopen ioFirst).outcome
    rw [hcalls]
    exact .poll hcall hopen houtcome
  | pollOpening =>
    rw [step, calls_pollOpening]
    exact .same _
  | pollEpisode index dial ioFirst =>
    rw [step, calls_pollEpisode]
    exact .same _
  | _ => exact .same _

/-! ### The connection in use -/

/-- Results in which the loss of a connection comes to light. -/
def Result.isLoss : Result → Bool
  | .ok _ => false
  | .error e => e.isLoss

/-- The connection that an event gives up as lost: a call ends with such a result, and it is the one
at which the call stops. -/
def lossBy (l : Link) : Event → Option StreamId
  | .poll call ioFirst =>
    if l.isPending call ∧ ((l.poll call ioFirst).result? call).any Result.isLoss then
      l.reached call
    else none
  | _ => none

theorem isPending_eq (hcall : l.calls[call]? = some c) : l.isPending call = c.stage.isOpen := by
  rw [isPending, hcall]
  obtain ⟨job, cancelled, stage⟩ := c
  cases stage <;> rfl

theorem exists_of_isPending (hpending : l.isPending call) :
    ∃ c, l.calls[call]? = some c ∧ c.stage.isOpen := by
  cases hcall : l.calls[call]? with
  | none =>
    rw [isPending, hcall] at hpending
    contradiction
  | some c => exact ⟨c, rfl, (isPending_eq hcall).symm.trans hpending⟩

theorem lossBy_of_not_isOpen (hover : ∀ c, l.calls[call]? = some c → c.stage.isOpen = false)
    (ioFirst : Bool) : l.lossBy (.poll call ioFirst) = none := by
  have hpending : l.isPending call = false := by
    cases hcall : l.calls[call]? with
    | none => rw [isPending, hcall]
    | some c => exact (isPending_eq hcall).trans (hover c hcall)
  exact if_neg fun h => Bool.false_ne_true (hpending.symm.trans h.1)

theorem lossBy_of_isOpen {stage : Stage} {ioFirst : Bool} (hcall : l.calls[call]? = some c)
    (hopen : c.stage.isOpen)
    (hcalls : (l.poll call ioFirst).calls = (l.setStage call stage).calls) :
    l.lossBy (.poll call ioFirst) =
      if stage.result?.any Result.isLoss then l.reached call else none := by
  have hafter : (l.poll call ioFirst).result? call = stage.result? :=
    result?_eq (hcalls ▸ getElem?_setStage_self hcall stage)
  rw [lossBy, hafter, isPending_eq hcall]
  simp [hopen]

theorem isLoss_refusal (l : Link) : l.refusal.isLoss = false := by
  rw [refusal]
  split_ifs <;> rfl

theorem conn_drop (l : Link) (call : CallId) : (l.drop call).conn = l.conn := by
  rw [drop]
  split
  · rfl
  · split
    · rfl
    · rfl
    · simp [conn, setStage]

theorem Sound.change_poll (h : l.Sound) (call : CallId) (ioFirst : Bool) :
    Conn.Change (l.lossBy (.poll call ioFirst)) l.conn (l.poll call ioFirst).conn := by
  obtain hover | ⟨c, hcall, hopen⟩ := l.over_or_open call
  · rw [lossBy_of_not_isOpen hover, poll_of_not_isOpen hover]
    exact .stay _
  obtain ⟨stage, hcalls, houtcome⟩ := (h.ends hcall hopen ioFirst).outcome
  rw [lossBy_of_isOpen hcall hopen hcalls]
  generalize (l.poll call ioFirst).conn = conn' at houtcome
  cases houtcome with
  | refused hrefused =>
    rw [if_neg (by simp [Stage.result?, Result.isLoss, isLoss_refusal])]
    exact .stay _
  | loses hdisposed hloss =>
    rw [if_pos (by simpa [Stage.result?, Result.isLoss] using hloss)]
    change Conn.Change (l.reached call) l.conn (l.conn.forsake (l.reached call))
    cases hreached : l.reached call with
    | none => exact .stay _
    | some stream => exact .lose hdisposed (h.made hreached)
  | givesUp hstage hslot =>
    rcases hstage with rfl | ⟨task, deadline, rfl⟩ <;> exact .giveUp hslot
  | _ => exact .stay _

/-- An event makes at most one change, and only the loss that it brings to light is noted. -/
theorem Sound.change (h : l.Sound) (event : Event) :
    Conn.Change (l.lossBy event) l.conn (l.step event).conn := by
  cases event with
  | poll call ioFirst => exact h.change_poll call ioFirst
  | pollOpening => exact change_pollOpening h.valid
  | pollEpisode index dial ioFirst => exact change_pollEpisode h.valid index dial ioFirst
  | drop call =>
    rw [step, conn_drop]
    exact .stay _
  | release => exact .giveUp (.inl rfl)
  | begin job => exact .stay _
  | cancel call => exact .stay _
  | elapse nanos => exact .stay _
  | _ =>
    rw [step, conn_modifyStream]
    exact .stay _

/-! ### Runs -/

theorem Sound.step (h : l.Sound) (event : Event) : (l.step event).Sound where
  inOrder := by
    obtain ⟨D, R, hinOrder⟩ := h.inOrder
    exact ⟨_, _, hinOrder.step event⟩
  held := by
    have hmade : l.conn.made ≤ (l.step event).conn.made := (h.change event).made_le
    intro id c' stream hcall' hstream
    refine Nat.lt_of_lt_of_le ?_ hmade
    cases (h.callChange event).stageChange hcall' with
    | same hcall hjob hstage => exact h.held id _ stream hcall (hstage ▸ hstream)
    | begin hnone hstage =>
      rw [hstage] at hstream
      contradiction
    | drop hcall hopen hjob hevent hstage =>
      rw [hstage] at hstream
      contradiction
    | poll hcall hopen hjob hevent houtcome =>
      -- a call that is advanced stands by the connection that it has reached
      suffices hreached : l.reached id = some stream from h.made hreached
      exact (houtcome.stream?_eq (.inr (Option.isSome_of_eq_some hstream))).symm.trans hstream

theorem Sound.run (h : l.Sound) (events : List Event) : (l.run events).Sound := by
  induction events generalizing l with
  | nil => exact h
  | cons event events ih => exact ih (h.step event)

end Link

end BrokerWire
