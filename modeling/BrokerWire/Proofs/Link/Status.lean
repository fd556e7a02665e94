import BrokerWire.Proofs.Link.Changing
import BrokerWire.Proofs.Link.Cancelling

/-!
# The status of a link

The status of a link is put together from the gate, the slot, the episodes and whether the link has
been given up. `Status.Next` lists the moves that callers can see, and every change of a valid
connection makes at most one of them (`Conn.Change.status`). While the gate is open there is a
connection, so no call ends for want of one.
-/

namespace BrokerWire

namespace Link

/-- The moves from one status to another. -/
inductive Status.Next : Status → Status → Prop where
  /-- The first episode starts. -/
  | start : Next disconnected connecting
  /-- An episode ends with a connection. -/
  | establish : Next connecting connected
  /-- The connection in use is lost. -/
  | lose : Next connected connecting
  /-- The link is given up. -/
  | giveUp {s : Status} (hs : s ≠ disposed) : Next s disposed

namespace Conn

/-- What callers see of a connection. -/
def status (c : Conn) : Status :=
  if c.disposed then .disposed
  else if c.gateOpen ∧ c.slot.isSome then .connected
  else if 0 < c.reconnecting then .connecting
  else .disconnected

variable {c c' : Conn}

theorem status_of_disposed (hdisposed : c.disposed) : c.status = .disposed := if_pos hdisposed

theorem status_eq_connected {stream : StreamId} (halive : c.disposed = false) (hgate : c.gateOpen)
    (hslot : c.slot = some stream) : c.status = .connected := by
  simp [status, halive, hgate, hslot]

theorem status_eq_connecting (halive : c.disposed = false) (hgate : c.gateOpen = false)
    (hrunning : c.reconnecting = 1) : c.status = .connecting := by
  simp [status, halive, hgate, hrunning]

theorem status_eq_disconnected (halive : c.disposed = false) (hgate : c.gateOpen = false)
    (hnone : c.reconnecting = 0) : c.status = .disconnected := by
  simp [status, halive, hgate, hnone]

/-- Callers see every change as one move or none. -/
theorem Change.status {loss : Option StreamId} (h : Change loss c c') (hvalid : c.Valid) :
    c'.status = c.status ∨ Status.Next c.status c'.status := by
  by_cases hdisposed : c.disposed
  · have hafter := status_of_disposed (h.disposed hdisposed)
    exact .inl (hafter.trans (status_of_disposed hdisposed).symm)
  have halive : c.disposed = false := eq_false_of_ne_true hdisposed
  cases h with
  | stay => exact .inl rfl
  | @lose _ stream _ _ =>
    rw [Conn.lose]
    split_ifs with hlose
    · obtain ⟨-, hslot, hnone⟩ := hlose
      have hgate := hvalid.gateOpen_of_slot halive hslot hnone
      rw [status_eq_connected halive hgate hslot,
        status_eq_connecting (c := c.launch (some stream)) halive rfl (congrArg (· + 1) hnone)]
      exact .inr .lose
    · exact .inl rfl
  | openingDisposed => exact .inl rfl
  | opening hopened _ =>
    have hnone := hvalid.reconnecting_eq_zero hopened
    rw [status_eq_disconnected halive (hvalid.unopened hopened).2.2 hnone,
      status_eq_connecting (c := Conn.launch { c with opened := true } none) halive rfl
        (congrArg (· + 1) hnone)]
    exact .inr .start
  | dial he hrunning hphase =>
    have hgate := hvalid.not_gateOpen he hrunning
    have hone := hvalid.reconnecting_eq he hrunning
    rw [status_eq_connecting halive hgate hone]
    exact .inl (status_eq_connecting halive hgate hone)
  | retire _ _ hgone => exact absurd hgone hdisposed
  | @establish _ index _ he hrunning =>
    have hgate := hvalid.not_gateOpen he hrunning
    have hone := hvalid.reconnecting_eq he hrunning
    have hafter :
        (Conn.endEpisode { c with slot := some c.made, made := c.made + 1 } index).status =
          .connected := status_eq_connected halive rfl rfl
    rw [status_eq_connecting halive hgate hone, hafter]
    exact .inr .establish
  | giveUp =>
    refine .inr ?_
    rw [status_of_disposed (c := { c with disposed := true, slot := _ }) rfl]
    refine .giveUp fun hsame => ?_
    rw [Conn.status, if_neg hdisposed] at hsame
    split_ifs at hsame

end Conn

variable {l : Link}

theorem Sound.status (h : l.Sound) (event : Event) :
    (l.step event).status = l.status ∨ Status.Next l.status (l.step event).status :=
  (h.change event).status h.valid

/-! ### Waiting for a connection -/

/-- Whether an event is the work of the background: time passes, or a task is advanced. -/
def Event.isBackground : Event → Bool
  | .pollOpening | .pollEpisode .. | .elapse _ => true
  | _ => false

/-- The gate can open by the work of the background alone. -/
def Opens (l : Link) : Prop :=
  ∃ later, (∀ event ∈ later, event.isBackground) ∧ (l.run later).gateOpen

theorem opens_of_gateOpen (hgate : l.gateOpen) : l.Opens := ⟨[], List.forall_mem_nil _, hgate⟩

theorem Opens.of_step {event : Event} (h : (l.step event).Opens) (hevent : event.isBackground) :
    l.Opens := by
  obtain ⟨later, hlater, hopen⟩ := h
  refine ⟨event :: later, fun e he => ?_, hopen⟩
  rcases List.mem_cons.mp he with rfl | he
  · exact hevent
  · exact hlater e he

section Waiting

variable {index : Nat} {e : Episode} (he : l.episodes[index]? = some e)
  (halive : l.disposed = false)
include he halive

/-- An attempt that is under way can succeed. -/
theorem opens_of_dialing {number : UInt32} {wait : Duration}
    (hphase : e.phase = .dialing number wait) : l.Opens := by
  have hopen : (l.step (.pollEpisode index .established false)).gateOpen := by
    simp [step, pollEpisode, he, hphase, halive, establish, endEpisode]
  exact Opens.of_step (opens_of_gateOpen hopen) rfl

/-- An episode that makes an attempt can succeed. -/
theorem opens_attempt (number : UInt32) (wait : Duration) :
    (l.attempt index number wait).Opens := by
  have hattempt : l.attempt index number wait =
      (l.record (.announced number l.clock)).setPhase index (.dialing number wait) :=
    if_neg (by simp [halive])
  have hdialing : (l.attempt index number wait).episodes[index]? =
      some { e with phase := .dialing number wait } := by
    simp [hattempt, setPhase, record, he]
  have halive' : (l.attempt index number wait).disposed = false := by
    rw [hattempt]
    exact halive
  exact opens_of_dialing hdialing halive' rfl

/-- An episode under way can come to an end with a connection. -/
theorem opens_of_isRunning (hrunning : e.isRunning) : l.Opens := by
  obtain ⟨cause, phase⟩ := e
  cases phase with
  | spawned =>
    have hevent : l.step (.pollEpisode index .pending false) =
        ({ l with slot := none } : Link).attempt index 1 l.config.backoff := by
      rw [step, pollEpisode, he]
    exact Opens.of_step (hevent ▸ opens_attempt (l := { l with slot := none }) he halive 1 _) rfl
  | dialing number wait => exact opens_of_dialing he halive rfl
  | waiting number wait deadline =>
    -- time passes until the wait is over
    let l' := l.step (.elapse deadline)
    have hevent : l'.step (.pollEpisode index .pending false) =
        l'.attempt index (nextAttempt number) (wait.backoff l.config.multiplier) := by
      have he' : l'.episodes[index]? = some ⟨cause, .waiting number wait deadline⟩ := he
      have hgone : ¬l'.disposed := (Bool.eq_false_iff.mp halive :)
      have hover : deadline ≤ l'.clock := Nat.le_add_left ..
      rw [step, pollEpisode, he']
      exact (if_neg hgone).trans (if_pos hover)
    have hopens := opens_attempt (l := l') he halive (nextAttempt number)
      (wait.backoff l.config.multiplier)
    exact Opens.of_step (Opens.of_step (hevent ▸ hopens) rfl) rfl
  | _ => contradiction

end Waiting

/-- Once the wait before the first attempt is over, the gate is open or an episode is under way. -/
theorem Sound.opens_of_opened (h : l.Sound) (halive : l.disposed = false) (hopened : l.opened) :
    l.Opens := by
  by_cases hgate : l.gateOpen
  · exact opens_of_gateOpen hgate
  rcases h.valid.pending (eq_false_of_ne_true hgate) halive with hnot | hone
  · exact nomatch hopened.symm.trans hnot
  · have hpos : 0 < l.conn.running := h.valid.counted ▸ hone ▸ Nat.one_pos
    obtain ⟨e, hmem, hrunning⟩ := List.countP_pos_iff.mp hpos
    obtain ⟨index, he⟩ := List.getElem?_of_mem hmem
    exact opens_of_isRunning he halive hrunning

/-- Once the wait before the first attempt may end, the gate can open. -/
theorem Sound.opens_of_due (h : l.Sound) (halive : l.disposed = false) (hopened : ¬l.opened)
    (hdue : l.openingDeadline ≤ l.clock) : l.Opens := by
  have hpoll : l.step .pollOpening = ({ l with opened := true } : Link).reconnect none := by
    rw [Link.step, pollOpening, if_neg hopened, if_neg (by simp [halive]), if_pos hdue]
  have hsound : (l.step .pollOpening).Sound := h.step .pollOpening
  have halive' : (l.step .pollOpening).disposed = false := by
    rw [hpoll, reconnect]
    split_ifs <;> exact halive
  have hopened' : (l.step .pollOpening).opened := by
    rw [hpoll, reconnect]
    split_ifs <;> rfl
  exact Opens.of_step (hsound.opens_of_opened halive' hopened') rfl

/-- As long as a link is not given up, its gate can open. -/
theorem Sound.opens (h : l.Sound) (halive : l.disposed = false) : l.Opens := by
  by_cases hopened : l.opened
  · exact h.opens_of_opened halive hopened
  by_cases hdue : l.openingDeadline ≤ l.clock
  · exact h.opens_of_due halive hopened hdue
  -- the wait begins, if it has not, and time passes until it is over
  let l' := (l.step .pollOpening).step (.elapse l.openingDeadline)
  have hpoll : l.step .pollOpening = { l with opensAt := some l.openingDeadline } := by
    rw [Link.step, pollOpening, if_neg hopened, if_neg (by simp [halive]), if_neg hdue]
  have hl' : l' = { l with
      opensAt := some l.openingDeadline
      clock := l.clock + l.openingDeadline } :=
    congrArg (fun m : Link => m.step (.elapse l.openingDeadline)) hpoll
  have hsound : l'.Sound := (h.step .pollOpening).step _
  have hopens : l'.Opens := by
    refine hsound.opens_of_due (hl' ▸ halive) (hl' ▸ hopened) ?_
    rw [hl']
    exact Nat.le_add_left ..
  exact Opens.of_step (Opens.of_step hopens rfl) rfl

theorem Sound.exists_gateOpen (h : l.Sound) (halive : l.disposed = false) :
    ∃ later, (l.run later).gateOpen := by
  obtain ⟨later, -, hopen⟩ := h.opens halive
  exact ⟨later, hopen⟩

/-! ### Calls that have been served -/

/-- No call has ended because there is no connection. -/
def Served (l : Link) : Prop :=
  ∀ (call : CallId) (c : Call) endpoint, l.calls[call]? = some c →
    c.stage ≠ .done (.error (.serverUnreachable endpoint))

theorem refusal_ne_serverUnreachable (l : Link) (endpoint : String) :
    l.refusal ≠ .serverUnreachable endpoint := by
  rw [refusal]
  split_ifs <;> exact fun h => by contradiction

theorem Served.step (h : l.Served) (hsound : l.Sound) (event : Event) : (l.step event).Served := by
  intro id c' endpoint hcall' hstage'
  cases (hsound.callChange event).stageChange hcall' with
  | same hcall hjob hstage => exact h id _ endpoint hcall (hstage.trans hstage')
  | begin hnone hstage => exact nomatch hstage.symm.trans hstage'
  | drop hcall hopen hjob hevent hstage => exact nomatch hstage.symm.trans hstage'
  | poll hcall hopen hjob hevent houtcome =>
    generalize c'.stage = stage, (l.poll id _).conn = conn' at houtcome hstage'
    cases houtcome with
    | refused =>
      exact refusal_ne_serverUnreachable l endpoint (Result.error.inj (Stage.done.inj hstage'))
    | loses hdisposed hloss =>
      rw [Result.error.inj (Stage.done.inj hstage')] at hloss
      contradiction
    | givesUp hstage => rcases hstage with rfl | ⟨task, deadline, rfl⟩ <;> simp at hstage'
    | _ => simp at hstage'

theorem Served.run (h : l.Served) (hsound : l.Sound) (events : List Event) :
    (l.run events).Served := by
  induction events generalizing l with
  | nil => exact h
  | cons event events ih => exact ih (h.step hsound event) (hsound.step event)

/-- What holds of the gate, the slot and the episodes of a link after any course of events, and what
callers see of it. While the gate is open no episode is under way and there is a connection; while
it is closed an episode is under way or yet to come, so calls that wait for the gate are not
stranded. -/
theorem run_status (config : Config) (endpoint : String) (window : Nat) (events : List Event) :
    let start : Link := { config, endpoint, window }
    let l := start.run events
    (l.reconnecting ≤ 1 ∧ l.reconnecting = l.episodes.countP Episode.isRunning) ∧
    (l.gateOpen → l.episodes.countP Episode.isRunning = 0 ∧ (l.slot.isSome ∨ l.disposed)) ∧
    (l.gateOpen = false → l.disposed = false →
      (l.opened = false ∨ l.episodes.countP Episode.isRunning = 1) ∧
        ∃ later, (l.run later).gateOpen) ∧
    start.status = .disconnected ∧
    (∀ event, (l.step event).status = l.status ∨ Status.Next l.status (l.step event).status) ∧
    ∀ call endpoint, l.result? call ≠ some (.error (.serverUnreachable endpoint)) := by
  intro start l
  have hsound : l.Sound := (sound_new config endpoint window).run events
  have hvalid := hsound.valid
  have hserved : l.Served :=
    Served.run (fun _ _ _ hcall => by simp at hcall) (sound_new config endpoint window) events
  have hcounted : l.reconnecting = l.episodes.countP Episode.isRunning := hvalid.counted
  refine ⟨⟨hvalid.single, hcounted⟩, fun hgate => ⟨?_, ?_⟩, fun hgate halive => ⟨?_, ?_⟩, rfl,
    hsound.status, fun call endpoint hresult => ?_⟩
  · exact hcounted.symm.trans (hvalid.idle hgate)
  · cases hslot : l.slot with
    | none => exact .inr (hvalid.usable hgate hslot)
    | some stream => exact .inl rfl
  · exact hcounted ▸ hvalid.pending hgate halive
  · exact hsound.exists_gateOpen halive
  · obtain ⟨c, hcall, hstage⟩ := exists_of_result? hresult
    exact hserved call c endpoint hcall hstage

/-- A link that is connected, and the same link when a read has found its connection broken. -/
theorem run_status_broken :
    let start : Link := { config := {}, endpoint := "localhost:9092", window := 0 }
    let connected := start.run connecting
    let broken := start.run (connecting ++ [.begin (.read 1), .abort 0, .poll 0 false])
    (connected.gateOpen ∧ connected.status = .connected ∧
      connected.episodes.countP Episode.isRunning = 0 ∧
        (connected.slot.isSome ∨ connected.disposed)) ∧
    broken.gateOpen = false ∧ broken.disposed = false ∧ broken.status = .connecting ∧
      (broken.opened = false ∨ broken.episodes.countP Episode.isRunning = 1) := by
  intro start connected broken
  have hopen : connected.gateOpen := by decide
  have hclosed : broken.gateOpen = false ∧ broken.disposed = false := by decide
  have hconnected := (run_status {} "localhost:9092" 0 connecting).2.1 hopen
  have hbroken := (run_status {} "localhost:9092" 0 _).2.2.1 hclosed.1 hclosed.2
  exact ⟨⟨hopen, by decide, hconnected⟩, hclosed.1, hclosed.2, by decide, hbroken.1⟩

end Link

end BrokerWire
