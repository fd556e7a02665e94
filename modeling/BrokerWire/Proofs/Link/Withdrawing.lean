import BrokerWire.Proofs.Link.Disposing
import BrokerWire.Proofs.Link.Joining
import Mathlib.Data.List.Induction

/-!
# Withdrawing calls

A read or a write that is withdrawn ends as soon as it is advanced, whatever it has waited for and
whatever is ready by then, unless it is a write that has begun to send (`InLine.poll_of_refused`).
It leaves its queue, and that is all that is different (`fail`): the call behind it has the turn
now and goes on with it (`InLine.poll_of_holder`). `run_withdrawn` says so for all courses of events
on a link that is new.
-/

namespace BrokerWire

namespace Link

variable {l l' : Link} {call id : CallId} {c : Call} {stream : StreamId} {event : Event}
  {e : WireError}

/-! ### Calls that may not go on -/

/-- A call that may not go on because it is withdrawn or the link is given up fails for that
reason. -/
theorem ite_of_refused (hrefused : l.disposed ∨ l.isCancelled call) (failed : WireError → Link)
    (rest : Link) :
    (if l.disposed then failed l.disposedError
      else if l.isCancelled call then failed .cancelled else rest) = failed l.refusal := by
  rw [refusal]
  by_cases hdisposed : l.disposed
  · rw [if_pos hdisposed, if_pos hdisposed]
  · rw [if_neg hdisposed, if_neg hdisposed, if_pos (hrefused.resolve_left hdisposed)]

/-- The link after a call has failed, which leaves its queue. -/
def fail (l : Link) (call : CallId) (e : WireError) : Link :=
  (l.leaveAll call).setStage call (.done (.error e))

section Fail

variable (h : l.InLine) (hrefused : l.disposed ∨ l.isCancelled call)
include h hrefused

theorem enterRead_eq_fail (hplace : l.queueOf call = none ∨ l.queueOf call = some .reading)
    (part : Part) (size : Nat) : l.enterRead call part size = l.fail call l.refusal := by
  rw [fail, leaveAll_of_reading h.lines hplace]
  exact ite_of_refused hrefused (fun e => l.endRead call (.error e)) _

theorem readOn_eq_fail (hplace : l.queueOf call = some .reading) (part : Part) {f : Filling}
    (hmissing : 0 < f.missing) (source : Option StreamId) :
    l.readOn call part f source = l.fail call l.refusal := by
  rw [fail, leaveAll_of_reading h.lines (.inr hplace)]
  exact readOn_of_refused hrefused part hmissing source

theorem enterWrite_eq_fail (hplace : l.queueOf call = none) (frame : Bytes) (ioFirst : Bool) :
    l.enterWrite call frame ioFirst = l.fail call l.refusal := by
  rw [fail, leaveAll_of_none h.lines hplace]
  exact ite_of_refused hrefused (fun e => l.setStage call (.done (.error e))) _

theorem lineUp_eq_fail (hplace : l.queueOf call = some (.writing stream)) (frame : Bytes)
    (ioFirst : Bool) : l.lineUp call stream frame ioFirst = l.fail call l.refusal := by
  rw [fail, leaveAll_of_writing h.lines (.inr hplace)]
  exact ite_of_refused hrefused (fun e => l.endWrite call stream (.error e)) _

end Fail

theorem result?_fail (hcall : l.calls[call]? = some c) (e : WireError) :
    (l.fail call e).result? call = some (.error e) :=
  result?_eq (c := { c with stage := .done (.error e) })
    (getElem?_setStage_self (l := l.leaveAll call) hcall _)

/-- A call that fails has no part in the connection in use. -/
theorem conn_fail (l : Link) (call : CallId) (e : WireError) : (l.fail call e).conn = l.conn := by
  simp [fail, leaveAll, setStage, conn]

/-- A read or a write at this stage waits for its turn, for a connection or for bytes, or it has not
been advanced yet. -/
def Stage.waits : Stage → Bool
  | .fresh | .queued | .filling .. | .offering | .lining _ => true
  | _ => false

theorem isCancelled_eq (hcall : l.calls[call]? = some c) : l.isCancelled call = c.cancelled := by
  rw [isCancelled, hcall]

/-- A call that waits and may not go on fails, and only that, when it is advanced. -/
theorem InLine.poll_of_refused (h : l.InLine) (hsound : l.Sound) (hcall : l.calls[call]? = some c)
    (hjob : c.job ≠ .dispose) (hwaits : c.stage.waits) (hrefused : l.disposed ∨ l.isCancelled call)
    (ioFirst : Bool) : l.poll call ioFirst = l.fail call l.refusal := by
  obtain ⟨D, R, hinOrder⟩ := hsound.inOrder
  have hown := hinOrder.ok.call call c hcall
  have hsettled := hinOrder.settled call
  have hasks := fun queue => h.asks call c queue hcall
  have hplace := queueOf_eq hcall
  rw [poll, hcall]
  obtain ⟨job, cancelled, stage⟩ := c
  dsimp only at hasks hplace ⊢
  cases stage with
  | fresh =>
    cases job with
    | read n => exact enterRead_eq_fail h hrefused (.inl hplace) .whole n
    | readFrame => exact enterRead_eq_fail h hrefused (.inl hplace) .length lengthSize
    | write frame => exact enterWrite_eq_fail h hrefused hplace frame ioFirst
    | dispose => contradiction
  | queued =>
    have hread := hasks .reading rfl
    cases job with
    | read n => exact enterRead_eq_fail h hrefused (.inr hplace) .whole n
    | readFrame => exact enterRead_eq_fail h hrefused (.inr hplace) .length lengthSize
    | _ => contradiction
  | filling part f source =>
    have hmissing : 0 < f.missing := hsettled _ part f source hcall rfl
    have hread := readOn_eq_fail h hrefused hplace part hmissing source
    cases job <;> exact hread
  | offering =>
    cases job with
    | write frame => exact enterWrite_eq_fail h hrefused hplace frame ioFirst
    | dispose => contradiction
    | _ => cases hown.1
  | lining stream =>
    obtain ⟨frame, rfl⟩ := hasks (.writing stream) rfl
    exact lineUp_eq_fail h hrefused hplace frame ioFirst
  | _ => contradiction

/-! ### Calls that say that they were withdrawn -/

/-- A write that has begun to send does not notice that it is withdrawn. -/
theorem exists_calls_send (l : Link) (call : CallId) (stream : StreamId) (rest : Bytes)
    (ioFirst : Bool) : ∃ stage, (l.send call stream rest ioFirst).calls =
      (l.setStage call stage).calls ∧ stage.result? ≠ some (.error .cancelled) := by
  have hends : ∀ l' : Link, l'.calls = l.calls → ∀ result,
      (l'.endWrite call stream result).calls = (l.setStage call (.done result)).calls :=
    fun l' hcalls result => by
      rw [setStage, ← hcalls]
      rfl
  rw [send]
  split_ifs
  · exact ⟨_, hends l rfl _, by simp [Stage.result?, disposedError]⟩
  have hput := (aside_putOn l call stream rest).calls
  generalize l.putOn call stream rest = result at hput
  obtain ⟨outlet, l'⟩ := result
  cases outlet with
  | complete => exact ⟨_, hends l' hput _, by simp [Stage.result?]⟩
  | partly rest =>
    dsimp only
    split_ifs
    · exact ⟨_, hends l' hput _, by simp [Stage.result?, disposedError]⟩
    · exact ⟨.sending stream rest, by rw [setStage, setStage, hput], by simp [Stage.result?]⟩
  | aborted =>
    dsimp only
    refine ⟨_, (calls_lose _ stream).trans (hends l' hput _), ?_⟩
    split_ifs <;> simp [Stage.result?, disposedError, brokenError]

theorem result?_of_calls {stage : Stage} (hcall : l.calls[call]? = some c)
    (hcalls : l'.calls = (l.setStage call stage).calls) : l'.result? call = stage.result? :=
  result?_eq (c := { c with stage }) (hcalls ▸ getElem?_setStage_self hcall stage)

/-- Only a call that has been withdrawn says so, and only as long as the link has not been given
up. -/
theorem Sound.refused_of_cancelled (h : l.Sound) (hcall : l.calls[call]? = some c)
    (hopen : c.stage.isOpen) {ioFirst : Bool}
    (hresult : (l.poll call ioFirst).result? call = some (.error .cancelled)) :
    l.disposed = false ∧ l.isCancelled call := by
  obtain ⟨stage, hcalls, houtcome⟩ := (h.ends hcall hopen ioFirst).outcome
  rw [result?_of_calls hcall hcalls] at hresult
  generalize (l.poll call ioFirst).conn = conn' at houtcome
  cases houtcome with
  | refused hrefused =>
    have hrefusal : l.refusal = .cancelled := Result.error.inj (Option.some.inj hresult)
    have halive : l.disposed = false := by
      by_contra hdisposed
      rw [refusal_of_disposed (by simpa using hdisposed)] at hrefusal
      contradiction
    exact ⟨halive, hrefused.resolve_left (by simp [halive])⟩
  | loses _ hloss =>
    obtain rfl := Result.error.inj (Option.some.inj hresult)
    contradiction
  | givesUp hstage =>
    rcases hstage with rfl | ⟨task, deadline, rfl⟩ <;> simp [Stage.result?] at hresult
  | _ => simp [Stage.result?] at hresult

theorem poll_of_sending {rest : Bytes} (hcall : l.calls[call]? = some c)
    (hstage : c.stage = .sending stream rest) (ioFirst : Bool) :
    l.poll call ioFirst = l.send call stream rest ioFirst := by
  obtain ⟨job, cancelled, stage⟩ := c
  obtain rfl : stage = .sending stream rest := hstage
  rw [poll, hcall]

/-- A read or a write that says that it was withdrawn leaves its queue, and that is all. -/
theorem InLine.poll_of_cancelled (h : l.InLine) (hsound : l.Sound)
    (hcall : l.calls[call]? = some c) (hjob : c.job ≠ .dispose) (hopen : c.stage.isOpen)
    {ioFirst : Bool} (hresult : (l.poll call ioFirst).result? call = some (.error .cancelled)) :
    l.disposed = false ∧ l.poll call ioFirst = l.fail call .cancelled := by
  obtain ⟨halive, hcancelled⟩ := hsound.refused_of_cancelled hcall hopen hresult
  have hrefusal : l.refusal = .cancelled := if_neg (by simp [halive])
  refine ⟨halive, hrefusal ▸ h.poll_of_refused hsound hcall hjob ?_ (.inr hcancelled) ioFirst⟩
  -- a write that has begun to send, or a call that waits for the background, ends otherwise
  cases hstage : c.stage with
  | sending stream rest =>
    obtain ⟨stage, hcalls, hnot⟩ := exists_calls_send l call stream rest ioFirst
    rw [poll_of_sending hcall hstage, result?_of_calls hcall hcalls] at hresult
    exact absurd hresult hnot
  | winding task deadline =>
    rw [poll_of_winding hcall hstage] at hresult
    obtain hcalls | hcalls := calls_windDown l call task deadline
    all_goals
      rw [result?_of_calls hcall hcalls] at hresult
      contradiction
  | done result =>
    rw [hstage] at hopen
    contradiction
  | dropped =>
    rw [hstage] at hopen
    contradiction
  | _ => rfl

/-! ### The next in line -/

/-- The link after a call has gone on whose turn it is. -/
def goOn (l : Link) (call : CallId) (c : Call) (ioFirst : Bool) : Link :=
  match c.stage, c.job with
  | .queued, .read n => l.readOn call .whole ⟨[], n⟩ none
  | .queued, .readFrame => l.readOn call .length ⟨[], lengthSize⟩ none
  | .filling part f source, _ => l.readOn call part f source
  | .lining stream, .write frame => l.send call stream frame ioFirst
  | .sending stream rest, _ => l.send call stream rest ioFirst
  | _, _ => l

theorem enterRead_of_holder (halive : l.disposed = false) (hkept : l.isCancelled call = false)
    (hturn : l.readers.holder = some call) (part : Part) (size : Nat) :
    l.enterRead call part size = l.readOn call part ⟨[], size⟩ none := by
  rw [enterRead, if_neg (by simp [halive]), if_neg (by simp [hkept])]
  dsimp only
  rw [Turns.join_of_holder hturn]
  exact if_pos hturn

theorem modifyStream_self {s : Stream} (hs : l.streams[stream]? = some s) {g : Stream → Stream}
    (hsame : g s = s) : l.modifyStream stream g = l := by
  have hstreams : l.streams.modify stream g = l.streams := by
    refine List.ext_getElem? fun i => ?_
    rw [List.getElem?_modify]
    by_cases hi : stream = i
    · subst hi
      simp [hs, hsame]
    · simp [hi]
  rw [modifyStream, hstreams]

theorem lineUp_of_holder (halive : l.disposed = false) (hkept : l.isCancelled call = false)
    (hmade : stream < l.streams.length)
    (hturn : (l.streamAt stream).writers.holder = some call) (frame : Bytes) (ioFirst : Bool) :
    l.lineUp call stream frame ioFirst = l.send call stream frame ioFirst := by
  have hs := getElem?_streams hmade
  have hjoin : (l.modifyStream stream fun s => { s with writers := s.writers.join call }) = l :=
    modifyStream_self hs (by rw [Turns.join_of_holder hturn])
  rw [lineUp, if_neg (by simp [halive]), if_neg (by simp [hkept])]
  dsimp only
  rw [hjoin, hs]
  exact if_pos hturn

/-- Whoever has the turn stands in line for it. -/
theorem InLine.queueOf_of_holder (h : l.InLine) {queue : Queue}
    (hturn : (l.turnsAt queue).holder = some call) : l.queueOf call = some queue := by
  refine ((h.lines queue).mem call).mp (List.mem_of_mem_head? ?_)
  rw [← (h.lines queue).holder_eq, hturn]
  rfl

theorem exists_of_queueOf {queue : Queue} (hplace : l.queueOf call = some queue) :
    ∃ c, l.calls[call]? = some c ∧ c.stage.queue? = some queue :=
  Option.bind_eq_some_iff.mp hplace

/-- A call that has the turn goes on with it when it is advanced. -/
theorem InLine.poll_of_holder (h : l.InLine) (hsound : l.Sound) {queue : Queue}
    (hturn : (l.turnsAt queue).holder = some call) (hcall : l.calls[call]? = some c)
    (hstage : c.stage.queue? = some queue) (halive : l.disposed = false)
    (hkept : c.cancelled = false) (ioFirst : Bool) :
    l.poll call ioFirst = l.goOn call c ioFirst := by
  have hasks := h.asks call c queue hcall hstage
  have hmade := fun stream => hsound.held call c stream hcall
  have hcancelled := (isCancelled_eq hcall).trans hkept
  rw [poll, goOn, hcall]
  obtain ⟨job, cancelled, stage⟩ := c
  dsimp only at hasks hstage hmade ⊢
  cases stage with
  | queued =>
    obtain rfl := Option.some.inj hstage
    cases job with
    | read n => exact enterRead_of_holder halive hcancelled hturn .whole n
    | readFrame => exact enterRead_of_holder halive hcancelled hturn .length lengthSize
    | _ => contradiction
  | filling part f source => cases job <;> rfl
  | lining stream =>
    obtain rfl := Option.some.inj hstage
    obtain ⟨frame, rfl⟩ := hasks
    exact lineUp_of_holder halive hcancelled (hmade stream rfl) hturn frame ioFirst
  | sending stream rest => cases job <;> rfl
  | _ => contradiction

/-! ### Courses of events -/

/-- In a course of events a call is withdrawn after it has begun. -/
def Withdrawn (l : Link) (call : CallId) (events : List Event) : Prop :=
  ∃ early late, events = early ++ .cancel call :: late ∧ call < (l.run early).calls.length

theorem withdrawn_concat (events : List Event) : l.Withdrawn call (events ++ [event]) ↔
    l.Withdrawn call events ∨ event = .cancel call ∧ call < (l.run events).calls.length := by
  constructor
  · rintro ⟨early, late, hevents, hlt⟩
    rcases List.eq_nil_or_concat late with rfl | ⟨late, last, rfl⟩
    · obtain ⟨rfl, hlast⟩ := List.append_inj' hevents rfl
      exact .inr ⟨List.singleton_inj.mp hlast, hlt⟩
    · rw [List.concat_eq_append, ← List.cons_append, ← List.append_assoc] at hevents
      exact .inl ⟨early, late, (List.append_inj' hevents rfl).1, hlt⟩
  · rintro (⟨early, late, rfl, hlt⟩ | ⟨rfl, hlt⟩)
    · exact ⟨early, late ++ [event], by simp, hlt⟩
    · exact ⟨events, [], rfl, hlt⟩

theorem run_concat (l : Link) (events : List Event) (event : Event) :
    l.run (events ++ [event]) = (l.run events).step event :=
  l.run_append events [event]

theorem isCancelled_setStage (l : Link) (call : CallId) (stage : Stage) (id : CallId) :
    (l.setStage call stage).isCancelled id = l.isCancelled id := by
  rw [isCancelled, isCancelled, setStage, List.getElem?_modify]
  cases l.calls[id]? with
  | none => rfl
  | some c => by_cases hid : call = id <;> simp [hid]

/-- A call is withdrawn by its caller and by nothing else. -/
theorem Sound.isCancelled_step (h : l.Sound) (event : Event) :
    (l.step event).isCancelled id ↔
      l.isCancelled id ∨ event = .cancel id ∧ id < l.calls.length := by
  by_cases hevent : event = .cancel id
  · subst hevent
    rw [Link.step, isCancelled, isCancelled, List.getElem?_modify]
    by_cases hlt : id < l.calls.length
    · simp [hlt]
    · simp [hlt]
  · have hchange := h.callChange event
    rw [isCancelled, isCancelled]
    simp only [hevent, false_and, or_false]
    generalize (l.step event).calls = calls at hchange ⊢
    refine Bool.eq_iff_iff.mp ?_
    cases hchange with
    | same => rfl
    | begin job =>
      rcases Nat.lt_or_ge id l.calls.length with hlt | hge
      · rw [List.getElem?_append_left hlt]
      · rw [List.getElem?_append_right hge, List.getElem?_eq_none hge]
        cases id - l.calls.length <;> rfl
    | cancel call =>
      have hne : call ≠ id := fun heq => hevent (heq ▸ rfl)
      rw [List.getElem?_modify_ne _ _ hne]
    | @drop call => exact isCancelled_setStage l call .dropped id
    | @poll call c stage => exact isCancelled_setStage l call stage id

/-- The calls that are withdrawn are those whose callers have withdrawn them. -/
theorem Sound.isCancelled_run (h : l.Sound) (hnone : l.isCancelled call = false)
    (events : List Event) : (l.run events).isCancelled call ↔ l.Withdrawn call events := by
  induction events using List.reverseRec with
  | nil => simp [Withdrawn, Link.run, hnone]
  | append_singleton events event ih =>
    rw [run_concat, (h.run events).isCancelled_step, withdrawn_concat, ih]

/-- A call that is over has been advanced to its end. -/
theorem Sound.exists_poll_of_result (h : l.Sound) (hnone : l.result? call = none)
    (events : List Event) {result : Result} (hresult : (l.run events).result? call = some result) :
    ∃ early ioFirst late, events = early ++ .poll call ioFirst :: late ∧
      (l.run early).isPending call ∧
      ((l.run early).step (.poll call ioFirst)).result? call = some result := by
  induction events using List.reverseRec with
  | nil => exact nomatch hnone.symm.trans hresult
  | append_singleton events event ih =>
    rw [run_concat] at hresult
    obtain ⟨c', hcall', hdone⟩ := exists_of_result? hresult
    cases ((h.run events).callChange event).stageChange hcall' with
    | same hcall hjob hstage =>
      obtain ⟨early, ioFirst, late, rfl, hpoll⟩ :=
        ih ((result?_eq hcall).trans (by rw [hstage, hdone]; rfl))
      exact ⟨early, ioFirst, late ++ [event], by simp, hpoll⟩
    | begin _ hstage => exact nomatch hstage.symm.trans hdone
    | drop _ _ _ _ hstage => exact nomatch hstage.symm.trans hdone
    | poll hcall hopen _ hevent =>
      subst hevent
      exact ⟨events, _, [], rfl, (isPending_eq hcall).trans hopen, hresult⟩

/-- A read or a write says that it was withdrawn only if its caller has withdrawn it and the link
has not been given up by then. If it is withdrawn while it waits, it ends as soon as it is advanced,
whatever is ready. It leaves its queue, in which all others keep their order, and neither the
status, nor the connection in use, nor the record of what has been announced is different then.
Whoever is first in the queue has the turn and goes on with it. -/
theorem run_withdrawn (config : Config) (endpoint : String) (window : Nat) (events : List Event)
    (id : CallId) (ioFirst : Bool) :
    let start : Link := { config, endpoint, window }
    let l := start.run events
    let l' := l.step (.poll id ioFirst)
    (l.result? id = some (.error .cancelled) →
      ∃ early ioFirst late, events = early ++ .poll id ioFirst :: late ∧
        start.Withdrawn id early ∧ (start.run early).disposed = false ∧
        (start.run early).isPending id ∧
        ((start.run early).step (.poll id ioFirst)).result? id = some (.error .cancelled)) ∧
    ∀ c, l.calls[id]? = some c → c.job ≠ .dispose →
      (start.Withdrawn id events → c.stage.waits →
        l'.result? id = some (.error (if l.disposed then .disposed endpoint else .cancelled))) ∧
      (c.stage.isOpen → l'.result? id = some (.error .cancelled) →
        l' = l.fail id .cancelled ∧ l'.status = l.status ∧ l'.conn = l.conn ∧
        l'.announcements = l.announcements ∧
        ∀ queue,
          (l'.turnsAt queue).line = (l.turnsAt queue).line.filter (· ≠ id) ∧
          (l'.turnsAt queue).holder = (l'.turnsAt queue).line.head? ∧
          ∀ next, (l'.turnsAt queue).holder = some next →
            ∃ c', l'.calls[next]? = some c' ∧ c'.stage.queue? = some queue ∧
              (c'.cancelled = false →
                ∀ ioFirst, l'.step (.poll next ioFirst) = l'.goOn next c' ioFirst)) := by
  intro start l l'
  have hnew : start.Sound := sound_new config endpoint window
  have hsound : l.Sound := hnew.run events
  have hline : l.InLine := (inLine_new config endpoint window).run hnew events
  have hcancelled : l.isCancelled id ↔ start.Withdrawn id events :=
    hnew.isCancelled_run rfl events
  refine ⟨fun hresult => ?_, fun c hcall hjob => ⟨fun hwithdrawn hwaits => ?_, ?_⟩⟩
  · obtain ⟨early, ioFirst, late, hevents, hpending, hpoll⟩ :=
      hnew.exists_poll_of_result rfl events hresult
    obtain ⟨c, hcall, hopen⟩ := exists_of_isPending hpending
    obtain ⟨halive, hcancelled⟩ := (hnew.run early).refused_of_cancelled hcall hopen hpoll
    exact ⟨early, ioFirst, late, hevents, (hnew.isCancelled_run rfl early).mp hcancelled, halive,
      hpending, hpoll⟩
  · have hendpoint : l.endpoint = endpoint := (start.continues_run events).endpoint
    have hpoll : l' = l.fail id l.refusal :=
      hline.poll_of_refused hsound hcall hjob hwaits (.inr (hcancelled.mpr hwithdrawn)) ioFirst
    rw [hpoll, result?_fail hcall, refusal, disposedError, hendpoint]
  · intro hopen hresult
    obtain ⟨halive, hpoll⟩ : l.disposed = false ∧ l' = l.fail id .cancelled :=
      hline.poll_of_cancelled hsound hcall hjob hopen hresult
    have hsound' : l'.Sound := hsound.step (.poll id ioFirst)
    have hline' : l'.InLine := hline.step hsound (.poll id ioFirst)
    have halive' : l'.disposed = false := hpoll ▸ halive
    have hturns : l'.turnsAt = fun queue => (l.turnsAt queue).leave id := by
      rw [hpoll]
      exact turnsAt_leaveAll l id
    refine ⟨hpoll, hpoll ▸ rfl, hpoll ▸ conn_fail l id .cancelled, hpoll ▸ rfl, fun queue =>
      ⟨?_, (hline'.lines queue).holder_eq, fun next hturn => ?_⟩⟩
    · rw [hturns]
      exact (hline.lines queue).line_leave id
    · obtain ⟨c', hcall', hstage'⟩ := exists_of_queueOf (hline'.queueOf_of_holder hturn)
      exact ⟨c', hcall', hstage',
        hline'.poll_of_holder hsound' hturn hcall' hstage' halive'⟩

/-- A link on which one call reads and one writes, with another behind each of them. The read is
withdrawn, and then what it has waited for arrives. -/
def awaited : List Event :=
  connecting ++ [.begin (.read 1), .poll 0 false, .begin .readFrame, .poll 1 false,
    .begin (.write [1]), .poll 2 false, .begin (.write [2]), .poll 3 false, .cancel 0,
    .arrive 0 [7]]

/-- The read ends all the same, and the next one goes on in its place. -/
theorem run_withdrawn_awaited :
    let l := run { config := {}, endpoint := "localhost:9092", window := 0 } awaited
    let l' := l.step (.poll 0 true)
    (l.turnsAt .reading).line = [0, 1] ∧ l'.result? 0 = some (.error .cancelled) ∧
      l'.status = .connected ∧ (l'.turnsAt .reading).line = [1] ∧
      (l'.turnsAt (.writing 0)).line = [2, 3] ∧
      l'.step (.poll 1 false) = l'.readOn 1 .length ⟨[], lengthSize⟩ none := by
  intro l l'
  have hwithdrawn : Withdrawn { config := {}, endpoint := "localhost:9092", window := 0 } 0
      awaited := ⟨awaited.take 11, [.arrive 0 [7]], rfl, by decide⟩
  have hcall : l.calls[0]? = some ⟨.read 1, true, .filling .whole ⟨[], 1⟩ (some 0)⟩ := by
    decide +kernel
  have hreading : (l.turnsAt .reading).line = [0, 1] := by decide +kernel
  have hwriting : (l.turnsAt (.writing 0)).line = [2, 3] := by decide +kernel
  obtain ⟨-, hends⟩ := run_withdrawn {} "localhost:9092" 0 awaited 0 true
  obtain ⟨hfails, hleaves⟩ := hends _ hcall (by decide)
  have hresult : l'.result? 0 = some (.error .cancelled) := hfails hwithdrawn rfl
  obtain ⟨-, hstatus, -, -, hqueues⟩ := hleaves rfl hresult
  obtain ⟨hline, hholder, hnext⟩ := hqueues .reading
  have hline' : (l'.turnsAt .reading).line = [1] := by
    rw [hline, hreading]
    rfl
  obtain ⟨c', hcall', -, hgoes⟩ := hnext 1 (by rw [hholder, hline']; rfl)
  have hcall₁ : l'.calls[1]? = some ⟨.readFrame, false, .queued⟩ := by decide +kernel
  obtain rfl := Option.some.inj (hcall₁.symm.trans hcall')
  refine ⟨hreading, hresult, hstatus.trans (by decide +kernel), hline', ?_, hgoes rfl false⟩
  rw [(hqueues (.writing 0)).1, hwriting]
  rfl

end Link

end BrokerWire
