import BrokerWire.Proofs.Link.Background
import BrokerWire.Proofs.Link.Putting
import BrokerWire.Proofs.Link.Serving

/-!
# Disposing

On a link that has been given up, a read or a write that is advanced ends at once, whatever it waits
for (`Sound.denied`), so of each call that was not over it is known how it ends (`Fate`). The call
that gives up the link stands until the background has stopped or its time is over.
-/

namespace BrokerWire

namespace Link

variable {l l' l₁ : Link} {d : StreamId → Bytes} {call id : CallId} {c c' : Call} {task : Task}
  {deadline : Nat} {stage : Stage}

/-! ### Calls on a link that has been given up -/

/-- Where a call stands that is advanced on a link that has been given up. -/
inductive Denied (l : Link) (c : Call) : Stage → Prop where
  /-- It fails. -/
  | fails : Denied l c (.done (.error l.disposedError))
  /-- It is a write, and what was left of its frame has been accepted. -/
  | sent {frame : Bytes} (hjob : c.job = .write frame) (hsending : c.stage.isSending) :
    Denied l c (.done (.ok []))
  /-- It disposes the link, and has nothing more to do. -/
  | disposes (hjob : c.job = .dispose) : Denied l c (.done (.ok []))
  /-- It disposes the link, and waits on. -/
  | waits (hjob : c.job = .dispose) : Denied l c c.stage

/-- A read that has its turn and may not go on ends. -/
theorem readOn_of_refused (hrefused : l.disposed ∨ l.isCancelled call) (part : Part) {f : Filling}
    (hmissing : 0 < f.missing) (source : Option StreamId) :
    l.readOn call part f source = l.endRead call (.error l.refusal) := by
  have hfill : l.fill call f source = (l, .failed l.refusal) := by
    rw [fill, gather_refused _ source hmissing hrefused]
  have hlast : l.readLast call part f source = l.endRead call (.error l.refusal) := by
    rw [readLast, hfill]
  cases part with
  | length => rw [readOn, hfill]
  | _ => exact hlast

/-- A write that has its turn ends, and if it succeeds its frame has been accepted. -/
theorem send_of_disposed (hdisposed : l.disposed) (call : CallId) (stream : StreamId) (rest : Bytes)
    (ioFirst : Bool) :
    (l.send call stream rest ioFirst).calls =
        (l.setStage call (.done (.error l.disposedError))).calls ∨
      (l.send call stream rest ioFirst).calls = (l.setStage call (.done (.ok []))).calls := by
  rw [send]
  split_ifs
  · exact .inl rfl
  have hkeeps := keeps_putOn l call ⟨none, some stream⟩ stream rest
  generalize l.putOn call stream rest = result at hkeeps
  obtain ⟨outlet, l'⟩ := result
  dsimp only at hkeeps ⊢
  have hdisposed' : l'.disposed := hkeeps.disposed.trans hdisposed
  have hends : ∀ result, (l'.endWrite call stream result).calls =
      (l.setStage call (.done result)).calls := fun result => by
    rw [endWrite, setStage, setStage, ← hkeeps.calls]
    rfl
  have herror : l'.disposedError = l.disposedError := by
    rw [disposedError, disposedError, hkeeps.endpoint]
  cases outlet with
  | complete => exact .inr (hends _)
  | partly rest =>
    dsimp only
    rw [if_pos hdisposed', herror]
    exact .inl (hends _)
  | aborted =>
    dsimp only
    rw [if_pos hdisposed', herror, calls_lose]
    exact .inl (hends _)

/-- A read that is advanced ends. -/
theorem Sound.denied_read (h : l.Sound) (hdisposed : l.disposed) (hcall : l.calls[call]? = some c)
    (hopen : c.stage.isOpen) (hread : c.job.start?.isSome) (ioFirst : Bool) :
    (l.poll call ioFirst).calls = (l.setStage call (.done (.error l.disposedError))).calls := by
  by_cases hearly : c.stage.isEarly
  · obtain ⟨part, size, hpoll⟩ := exists_enterRead hcall hread hearly ioFirst
    rw [hpoll, enterRead, if_pos hdisposed]
    rfl
  · obtain ⟨D, R, hinOrder⟩ := h.inOrder
    have hsettled := hinOrder.settled call
    have hfilling := h.isFilling hcall hopen hread (eq_false_of_ne_true hearly)
    obtain ⟨job, cancelled, stage⟩ := c
    cases stage with
    | filling part f source =>
      have hmissing : 0 < f.missing := hsettled _ part f source hcall rfl
      have hpoll : l.poll call ioFirst = l.readOn call part f source := by
        rw [poll, hcall]
      rw [hpoll, readOn_of_refused (.inl hdisposed) part hmissing source,
        refusal_of_disposed hdisposed]
      rfl
    | _ => contradiction

/-- A write that is advanced ends. -/
theorem denied_write (hposted : (l.outflow d).Posted) (hdisposed : l.disposed)
    (hcall : l.calls[call]? = some c) (hopen : c.stage.isOpen) {frame : Bytes}
    (hjob : c.job = .write frame) (ioFirst : Bool) :
    ∃ stage, (l.poll call ioFirst).calls = (l.setStage call stage).calls ∧ Denied l c stage := by
  have hsuits := hposted call c.job c.stage (posts_outflow hcall)
  have henter : (l.enterWrite call frame ioFirst).calls =
      (l.setStage call (.done (.error l.disposedError))).calls := by
    rw [enterWrite, if_pos hdisposed]
  have hline : ∀ stream, (l.lineUp call stream frame ioFirst).calls =
      (l.setStage call (.done (.error l.disposedError))).calls := fun stream => by
    rw [lineUp, if_pos hdisposed]
    rfl
  rw [poll, hcall]
  obtain ⟨job, cancelled, stage⟩ := c
  obtain rfl : job = .write frame := hjob
  cases stage with
  | fresh => exact ⟨_, henter, .fails⟩
  | offering => exact ⟨_, henter, .fails⟩
  | lining stream => exact ⟨_, hline stream, .fails⟩
  | sending stream rest =>
    obtain hsend | hsend := send_of_disposed hdisposed call stream rest ioFirst
    · exact ⟨_, hsend, .fails⟩
    · exact ⟨_, hsend, .sent rfl rfl⟩
  | done result => contradiction
  | dropped => contradiction
  | _ => simpa [Stage.isAhead, Stage.isSending] using hsuits hopen

theorem calls_windDown (l : Link) (call : CallId) (task : Task) (deadline : Nat) :
    (l.windDown call task deadline).calls = (l.setStage call (.done (.ok []))).calls ∨
      (l.windDown call task deadline).calls =
        (l.setStage call (.winding task deadline)).calls := by
  rw [windDown]
  split_ifs
  · exact .inl rfl
  · exact .inr rfl

/-- A call to dispose the link, which has been disposed before, ends or waits on. -/
theorem denied_dispose (hposted : (l.outflow d).Posted) (hcalled : l.disposals ≠ 0)
    (hcall : l.calls[call]? = some c) (hjob : c.job = .dispose)
    (hfilling : c.stage.isFilling = false) (ioFirst : Bool) :
    ∃ stage, (l.poll call ioFirst).calls = (l.setStage call stage).calls ∧ Denied l c stage := by
  have hsuits := hposted call c.job c.stage (posts_outflow hcall)
  have hstay : ∃ stage, l.calls = (l.setStage call stage).calls ∧ Denied l c stage :=
    ⟨c.stage, (congrArg View.calls
      (View.setStage_self (v := l.view (fun _ => []) fun _ => []) hcall)).symm, .waits hjob⟩
  rw [poll, hcall]
  obtain ⟨job, cancelled, stage⟩ := c
  obtain rfl : job = .dispose := hjob
  cases stage with
  | fresh =>
    refine ⟨.done (.ok []), ?_, .disposes rfl⟩
    dsimp only
    rw [enterDispose, if_pos hcalled]
    rfl
  | winding task deadline =>
    obtain hover | hwaits := calls_windDown l call task deadline
    · exact ⟨_, hover, .disposes rfl⟩
    · exact ⟨_, hwaits, .waits rfl⟩
  | filling => contradiction
  | sending => contradiction
  | _ => exact hstay

/-- A call that can still go on is advanced. -/
theorem Sound.denied (h : l.Sound) (hposted : (l.outflow d).Posted) (hdisposed : l.disposed)
    (hcalled : l.disposals ≠ 0) (hcall : l.calls[call]? = some c) (hopen : c.stage.isOpen)
    (ioFirst : Bool) :
    ∃ stage, (l.poll call ioFirst).calls = (l.setStage call stage).calls ∧ Denied l c stage := by
  by_cases hread : c.job.start?.isSome
  · exact ⟨_, h.denied_read hdisposed hcall hopen hread ioFirst, .fails⟩
  cases hjob : c.job with
  | write frame => exact denied_write hposted hdisposed hcall hopen hjob ioFirst
  | dispose =>
    have hfilling : c.stage.isFilling = false :=
      eq_false_of_ne_true fun hfilling => hread (h.isRead hcall hfilling)
    exact denied_dispose hposted hcalled hcall hjob hfilling ioFirst
  | _ => simp [hjob, Job.start?] at hread

/-! ### What becomes of calls -/

/-- What has become of a call other than to dispose the link, given the link when it was given
up. -/
inductive Fate (l : Link) (id : CallId) (c' : Call) : Prop where
  /-- It has not gone on. -/
  | stays {c : Call} (hcall : l.calls[id]? = some c) (hjob : c.job = c'.job)
    (hstage : c.stage = c'.stage)
  /-- It has begun since and has not been advanced. -/
  | begins (hnone : l.calls[id]? = none) (hstage : c'.stage = .fresh)
  /-- It was not over, and is dropped. -/
  | drops (hstage : c'.stage = .dropped)
  /-- It was not over, and has failed. -/
  | fails (hstage : c'.stage = .done (.error l.disposedError))
  /-- It was sending, and its frame has been accepted. -/
  | sent {c : Call} {frame : Bytes} (hcall : l.calls[id]? = some c) (hjob : c.job = c'.job)
    (hwrite : c.job = .write frame) (hsending : c.stage.isSending)
    (hstage : c'.stage = .done (.ok []))

/-- What becomes of all calls but those to dispose the link. -/
def Fated (l l' : Link) : Prop :=
  ∀ (id : CallId) (c' : Call), l'.calls[id]? = some c' → c'.job ≠ .dispose → Fate l id c'

theorem Fate.of_eq (h : Fate l id c) (hjob : c.job = c'.job) (hstage : c.stage = c'.stage) :
    Fate l id c' := by
  cases h with
  | stays hcall hjob₀ hstage₀ => exact .stays hcall (hjob₀.trans hjob) (hstage₀.trans hstage)
  | begins hnone hstage₀ => exact .begins hnone (hstage.symm.trans hstage₀)
  | drops hstage₀ => exact .drops (hstage.symm.trans hstage₀)
  | fails hstage₀ => exact .fails (hstage.symm.trans hstage₀)
  | sent hcall hjob₀ hwrite hsending hstage₀ =>
    exact .sent hcall (hjob₀.trans hjob) hwrite hsending (hstage.symm.trans hstage₀)

/-- A call that is advanced comes to one of these ends. -/
theorem Fate.denied (h : Fate l id c) (hcall' : c.job = c'.job)
    (hjob : c'.job ≠ .dispose) (herror : l₁.disposedError = l.disposedError)
    (hdenied : Denied l₁ c c'.stage) : Fate l id c' := by
  generalize hstage' : c'.stage = stage' at hdenied
  cases hdenied with
  | fails => exact .fails (hstage'.trans (by rw [herror]))
  | disposes hdispose => exact absurd (hcall'.symm.trans hdispose) hjob
  | waits hdispose => exact absurd (hcall'.symm.trans hdispose) hjob
  | sent hwrite hsending =>
    cases h with
    | stays hcall hjob₀ hstage₀ =>
      exact .sent hcall (hjob₀.trans hcall') (hjob₀.trans hwrite) (hstage₀ ▸ hsending) hstage'
    | begins _ hstage₀ => simp [hstage₀, Stage.isSending] at hsending
    | drops hstage₀ => simp [hstage₀, Stage.isSending] at hsending
    | fails hstage₀ => simp [hstage₀, Stage.isSending] at hsending
    | sent _ _ _ _ hstage₀ => simp [hstage₀, Stage.isSending] at hsending

theorem Fated.step (h : Fated l l₁) (hsound : l₁.Sound) (hposted : (l₁.outflow d).Posted)
    (hdisposed : l₁.disposed) (hcalled : l₁.disposals ≠ 0)
    (herror : l₁.disposedError = l.disposedError) (hlength : l.calls.length ≤ l₁.calls.length)
    (event : Event) : Fated l (l₁.step event) := by
  intro id c' hcall' hjob'
  cases (hsound.callChange event).stageChange hcall' with
  | same hcall hjob hstage => exact (h id _ hcall (hjob ▸ hjob')).of_eq hjob hstage
  | begin hnone hstage =>
    refine .begins (List.getElem?_eq_none ?_) hstage
    exact Nat.le_trans hlength (List.getElem?_eq_none_iff.mp hnone)
  | drop hcall hopen hjob hevent hstage => exact .drops hstage
  | @poll c ioFirst hcall hopen hjob hevent houtcome =>
    subst hevent
    obtain ⟨stage, hcalls, hdenied⟩ := hsound.denied hposted hdisposed hcalled hcall hopen ioFirst
    rw [Link.step, hcalls, getElem?_setStage_self hcall] at hcall'
    obtain rfl := Option.some.inj hcall'
    exact (h id c hcall hjob').denied rfl hjob' herror hdenied

/-- A link some time after another was given up. -/
structure After (l l₁ : Link) : Prop where
  sound : l₁.Sound
  posted : ∃ d, (l₁.outflow d).Posted
  disposed : l₁.disposed
  called : l₁.disposals ≠ 0
  error : l₁.disposedError = l.disposedError
  length : l.calls.length ≤ l₁.calls.length
  fated : Fated l l₁

theorem After.step (h : l.After l₁) (event : Event) : l.After (l₁.step event) := by
  obtain ⟨d, hposted⟩ := h.posted
  have hcontinues := l₁.continues_step event
  refine ⟨h.sound.step event, ⟨_, hposted.moves (moves_step_outflow h.sound hposted event)⟩,
    (h.sound.change event).disposed h.disposed, fun hnone => h.called ?_, ?_,
    Nat.le_trans h.length (h.sound.callChange event).length_le,
    h.fated.step h.sound hposted h.disposed h.called h.error h.length event⟩
  · exact Nat.le_zero.mp (hnone ▸ hcontinues.disposals)
  · rw [disposedError, hcontinues.endpoint]
    exact h.error

theorem After.run (h : l.After l₁) (events : List Event) : l.After (l₁.run events) := by
  induction events generalizing l₁ with
  | nil => exact h
  | cons event events ih => exact ih (h.step event)

/-! ### The call that gives up the link -/

/-- A call waits for a task to stop, but not past an instant, or it is over. -/
def Winds (l : Link) (call : CallId) (task : Task) (deadline : Nat) : Prop :=
  ∃ c, l.calls[call]? = some c ∧
    (c.stage = .winding task deadline ∨ c.stage.isOpen = false)

theorem poll_of_winding (hcall : l.calls[call]? = some c)
    (hstage : c.stage = .winding task deadline) (ioFirst : Bool) :
    l.poll call ioFirst = l.windDown call task deadline := by
  obtain ⟨job, cancelled, stage⟩ := c
  obtain rfl : stage = .winding task deadline := hstage
  rw [poll, hcall]

theorem winds_of_calls {stage : Stage} (hcall : l.calls[call]? = some c)
    (hcalls : l'.calls = (l.setStage call stage).calls)
    (hstage : stage = .winding task deadline ∨ stage.isOpen = false) :
    l'.Winds call task deadline :=
  ⟨{ c with stage }, hcalls ▸ getElem?_setStage_self hcall stage, hstage⟩

theorem winds_windDown (hcall : l.calls[call]? = some c) :
    (l.windDown call task deadline).Winds call task deadline := by
  obtain hcalls | hcalls := calls_windDown l call task deadline
  · exact winds_of_calls hcall hcalls (.inr rfl)
  · exact winds_of_calls hcall hcalls (.inl rfl)

theorem Winds.step (h : l.Winds call task deadline) (hsound : l.Sound) (event : Event) :
    (l.step event).Winds call task deadline := by
  obtain ⟨c, hcall, hstage⟩ := h
  obtain ⟨c', hcall'⟩ : ∃ c', (l.step event).calls[call]? = some c' := by
    have hlt := (List.getElem?_eq_some_iff.mp hcall).1
    exact ⟨_, List.getElem?_eq_getElem
      (Nat.lt_of_lt_of_le hlt (hsound.callChange event).length_le)⟩
  cases (hsound.callChange event).stageChange hcall' with
  | same hcall₀ hjob hsame =>
    obtain rfl := Option.some.inj (hcall.symm.trans hcall₀)
    exact ⟨c', hcall', hsame ▸ hstage⟩
  | begin hnone => exact nomatch hcall.symm.trans hnone
  | drop hcall₀ hopen hjob hevent hdropped => exact ⟨c', hcall', .inr (by rw [hdropped]; rfl)⟩
  | @poll c₀ ioFirst hcall₀ hopen hjob hevent houtcome =>
    obtain rfl := Option.some.inj (hcall.symm.trans hcall₀)
    have hwinding := hstage.resolve_right fun hover => nomatch hopen.symm.trans hover
    subst hevent
    rw [Link.step, poll_of_winding hcall hwinding]
    exact winds_windDown hcall

theorem Winds.run (h : l.Winds call task deadline) (hsound : l.Sound) (events : List Event) :
    (l.run events).Winds call task deadline := by
  induction events generalizing l with
  | nil => exact h
  | cons event events ih => exact ih (h.step hsound event) (hsound.step event)

/-- A call that returns because the task has stopped leaves nothing that could come into the
slot. -/
theorem final_windDown (hdisposed : l.disposed) (hcovers : l.conn.Covers task)
    (hcall : l.calls[call]? = some c)
    (hresult : (l.windDown call task deadline).result? call ≠ none)
    (hintime : l.clock < deadline ∨ l.hasStopped task) :
    (l.windDown call task deadline).conn.Final := by
  rw [windDown] at hresult ⊢
  split_ifs at hresult ⊢ with hover
  · have hstopped : l.hasStopped task := by
      rcases hover with hstopped | hlate
      · exact hstopped
      · exact hintime.resolve_left (Nat.not_lt.mpr hlate)
    exact ⟨hdisposed, rfl, hcovers hstopped⟩
  · rw [result?_eq (getElem?_setStage_self hcall _)] at hresult
    exact absurd rfl hresult

theorem Winds.final (h : l.Winds call task deadline) (hdisposed : l.disposed)
    (hcovers : l.conn.Covers task) {ioFirst : Bool} (hnone : l.result? call = none)
    (hresult : (l.poll call ioFirst).result? call ≠ none)
    (hintime : l.clock < deadline ∨ l.hasStopped task) :
    (l.poll call ioFirst).conn.Final := by
  obtain ⟨c, hcall, hstage⟩ := h
  rcases hstage with hwinding | hover
  · rw [poll_of_winding hcall hwinding] at hresult ⊢
    exact final_windDown hdisposed hcovers hcall hresult hintime
  · -- a call that is over without a result never has one
    have hsame : l.poll call ioFirst = l := poll_of_not_isOpen (fun c₀ hcall₀ => by
      obtain rfl := Option.some.inj (hcall.symm.trans hcall₀)
      exact hover) ioFirst
    exact absurd hnone (hsame ▸ hresult)

/-- The first call to dispose a link waits for the task that the link keeps track of. -/
theorem poll_of_dispose {cancelled : Bool} (hcalled : l.disposals = 0)
    (hcall : l.calls[call]? = some ⟨.dispose, cancelled, .fresh⟩) (htask : l.tracked = some task)
    (ioFirst : Bool) :
    l.poll call ioFirst =
      ({ l with disposals := l.disposals + 1, disposed := true, tracked := none } : Link).windDown
        call task (l.clock + l.config.grace.nanos) := by
  rw [poll, hcall]
  dsimp only
  rw [enterDispose, hcalled]
  dsimp only
  rw [htask]
  rfl

/-- The first call to dispose a link gives it up. -/
theorem Sound.after_dispose (h : l.Sound) (hposted : (l.outflow d).Posted) {cancelled : Bool}
    (hcall : l.calls[call]? = some ⟨.dispose, cancelled, .fresh⟩) {ioFirst : Bool}
    (hpoll : l.poll call ioFirst =
      ({ l with disposals := l.disposals + 1, disposed := true, tracked := none } : Link).windDown
        call task deadline) : l.After (l.step (.poll call ioFirst)) := by
  have hcontinues := l.continues_step (.poll call ioFirst)
  have hfixed : (l.poll call ioFirst).disposed ∧ (l.poll call ioFirst).disposals ≠ 0 := by
    rw [hpoll, windDown]
    split_ifs <;> exact ⟨rfl, Nat.succ_ne_zero _⟩
  refine ⟨h.step (.poll call ioFirst), ⟨_, hposted.moves (moves_step_outflow h hposted _)⟩,
    hfixed.1, hfixed.2, congrArg WireError.disposed hcontinues.endpoint,
    (h.callChange (.poll call ioFirst)).length_le, fun id c' hcall' hjob' => ?_⟩
  · -- no other call has gone on
    cases (h.callChange (.poll call ioFirst)).stageChange hcall' with
    | same hcall₀ hjob hstage => exact .stays hcall₀ hjob hstage
    | begin hnone hstage => exact .begins hnone hstage
    | drop _ _ _ hevent => contradiction
    | poll hcall₀ _ hjob hevent =>
      obtain ⟨rfl, rfl⟩ := Event.poll.inj hevent
      obtain rfl := Option.some.inj (hcall.symm.trans hcall₀)
      exact absurd hjob.symm hjob'

/-- How things stand on a link after another was given up. -/
structure Disposed (l after : Link) : Prop where
  status : after.status = .disposed
  /-- No attempt to connect is announced. -/
  announcements : after.announcements = l.announcements
  /-- No attempt to connect begins. -/
  episodes : ∀ (index : Nat) (e : Episode), after.episodes[index]? = some e →
    e.phase = .over ∨ l.episodes[index]? = some e
  /-- Reads fail as soon as they are advanced. -/
  read : ∀ (id : CallId) (c : Call), after.calls[id]? = some c → c.job.start?.isSome →
    l.result? id = none →
      (∀ r, after.result? id = some r → r = .error (.disposed l.endpoint)) ∧
      (after.isPending id → ∀ ioFirst,
        (after.step (.poll id ioFirst)).result? id = some (.error (.disposed l.endpoint)))
  /-- Writes end as soon as they are advanced. They fail, but for those that were sending and of
  which the whole frame has been accepted. -/
  write : ∀ (id : CallId) (c : Call) frame, after.calls[id]? = some c → c.job = .write frame →
    l.result? id = none →
      (∀ r, after.result? id = some r → r = .error (.disposed l.endpoint) ∨
        r = .ok [] ∧ (∃ c₀, l.calls[id]? = some c₀ ∧ c₀.stage.isSending) ∧
          ∃ stream, after.putBy id stream = frame) ∧
      (after.isPending id → ∀ ioFirst, (after.step (.poll id ioFirst)).result? id ≠ none)
  /-- Further calls to dispose the link are only counted. -/
  dispose : ∀ (id : CallId) (c : Call) ioFirst, after.calls[id]? = some c → c.job = .dispose →
    c.stage = .fresh → after.step (.poll id ioFirst) =
      ({ after with disposals := after.disposals + 1 } : Link).setStage id (.done (.ok []))

/-- A call that has come to its end since has failed, or it was a write that was sending. -/
theorem Fate.result {r : Result} (h : Fate l id c) (hcall : l'.calls[id]? = some c)
    (hnone : l.result? id = none) (hresult : l'.result? id = some r) :
    r = .error l.disposedError ∨ r = .ok [] ∧ c.stage = .done (.ok []) ∧
      ∃ c₀ frame, l.calls[id]? = some c₀ ∧ c.job = .write frame ∧ c₀.stage.isSending := by
  rw [result?_eq hcall] at hresult
  cases h with
  | stays hcall₀ hjob hstage =>
    rw [result?_eq hcall₀, hstage] at hnone
    exact nomatch hnone.symm.trans hresult
  | begins _ hstage =>
    rw [hstage] at hresult
    contradiction
  | drops hstage =>
    rw [hstage] at hresult
    contradiction
  | fails hstage =>
    rw [hstage] at hresult
    exact .inl (Option.some.inj hresult).symm
  | @sent c₀ frame hcall₀ hjob hwrite hsending hstage =>
    rw [hstage] at hresult
    exact .inr ⟨(Option.some.inj hresult).symm, hstage, c₀, frame, hcall₀, hjob ▸ hwrite, hsending⟩

theorem After.disposed_link (h : l.After l') (htold : (l'.outflow d).Told) (hlapses : Lapses l l') :
    l.Disposed l' where
  status := if_pos h.disposed
  announcements := hlapses.announcements
  episodes := hlapses.episodes
  read id c hcall hread hnone := by
    have hjob : c.job ≠ .dispose := fun hdispose => by simp [hdispose, Job.start?] at hread
    refine ⟨fun r hresult => ?_, fun hpending ioFirst => ?_⟩
    · obtain herror | ⟨-, -, c₀, frame, -, hwrite, -⟩ :=
        (h.fated id c hcall hjob).result hcall hnone hresult
      · exact herror
      · simp [hwrite, Job.start?] at hread
    · have hopen : c.stage.isOpen := (isPending_eq hcall).symm.trans hpending
      have hcalls := h.sound.denied_read h.disposed hcall hopen hread ioFirst
      rw [Link.step, result?_eq (hcalls ▸ getElem?_setStage_self hcall _), h.error]
      rfl
  write id c frame hcall hwrite hnone := by
    have hjob : c.job ≠ .dispose := by simp [hwrite]
    refine ⟨fun r hresult => ?_, fun hpending ioFirst => ?_⟩
    · obtain herror | ⟨hok, hdone, c₀, frame', hcall₀, -, hsending⟩ :=
        (h.fated id c hcall hjob).result hcall hnone hresult
      · exact .inl herror
      · exact .inr ⟨hok, ⟨c₀, hcall₀, hsending⟩, exists_putBy_of_ok htold hcall hwrite hdone⟩
    · have hopen : c.stage.isOpen := (isPending_eq hcall).symm.trans hpending
      obtain ⟨d, hposted⟩ := h.posted
      obtain ⟨stage, hcalls, hdenied⟩ := denied_write hposted h.disposed hcall hopen hwrite ioFirst
      rw [Link.step, result?_eq (hcalls ▸ getElem?_setStage_self hcall stage)]
      cases hdenied with
      | fails => exact Option.some_ne_none _
      | sent => exact Option.some_ne_none _
      | disposes hdispose => exact absurd hdispose hjob
      | waits hdispose => exact absurd hdispose hjob
  dispose id c ioFirst hcall hjob hstage := by
    obtain ⟨job, cancelled, stage⟩ := c
    obtain rfl : job = .dispose := hjob
    obtain rfl : stage = .fresh := hstage
    rw [Link.step, poll, hcall]
    dsimp only
    rw [enterDispose, if_pos h.called]

/-- Wherever in its course a call returns that disposes the link, the slot is left empty for good,
unless the call returns because its time is over. -/
theorem Sound.slot_of_returns (h : l.Sound) {cancelled ioFirst : Bool} (hcalled : l.disposals = 0)
    (hcall : l.calls[call]? = some ⟨.dispose, cancelled, .fresh⟩) (htask : l.tracked = some task)
    (hcovers : l.conn.Covers task) {later early late : List Event} {io : Bool}
    (hcourse : .poll call ioFirst :: later = early ++ .poll call io :: late)
    (hnone : (l.run early).result? call = none)
    (hresult : ((l.run early).step (.poll call io)).result? call ≠ none)
    (hintime : (l.run early).clock < l.clock + l.config.grace.nanos ∨
      (l.run early).hasStopped task) :
    (((l.run early).step (.poll call io)).run late).slot = none := by
  suffices hfinal : ((l.run early).step (.poll call io)).conn.Final from
    (((h.run early).step _).final_run hfinal late).slot
  have hpoll := poll_of_dispose hcalled hcall htask
  cases early with
  | nil =>
    have hend : (l.run []).step (.poll call io) = l.poll call io := rfl
    rw [hend, hpoll] at hresult ⊢
    exact final_windDown rfl hcovers hcall hresult hintime
  | cons event early =>
    obtain ⟨rfl, -⟩ := List.cons_eq_cons.mp hcourse
    have hsound := h.step (.poll call ioFirst)
    have hbegun : (l.step (.poll call ioFirst)).disposed ∧
        (l.step (.poll call ioFirst)).conn.Covers task := by
      rw [Link.step, hpoll, windDown]
      split_ifs <;> exact ⟨rfl, hcovers⟩
    have hwinds : (l.step (.poll call ioFirst)).Winds call task
        (l.clock + l.config.grace.nanos) := by
      rw [Link.step, hpoll]
      exact winds_windDown hcall
    exact (hwinds.run hsound early).final (hsound.lapses_run hbegun.1 early).1
      (hsound.covers_run hbegun.1 hbegun.2 early) hnone hresult hintime

/-- Disposing is final. When the first call to do so is advanced the link is given up: from then on
no attempt to connect begins, reads and writes that are not over fail unless the whole frame of a
write has been accepted, and further calls to dispose the link do nothing. When that first call
returns in time, the slot is empty and stays empty. -/
theorem run_dispose (config : Config) (endpoint : String) (window : Nat) (events : List Event)
    (call : CallId) (ioFirst : Bool) (later : List Event) :
    let start : Link := { config, endpoint, window }
    let l := start.run events
    let course := .poll call ioFirst :: later
    l.disposals = 0 → (∃ cancelled, l.calls[call]? = some ⟨.dispose, cancelled, .fresh⟩) →
    l.Disposed (l.run course) ∧
    ∀ early io late, course = early ++ .poll call io :: late →
      (l.run early).result? call = none →
      ((l.run early).step (.poll call io)).result? call ≠ none →
      (l.run early).clock < l.clock + l.config.grace.nanos ∨
        l.tracked.all (l.run early).hasStopped →
      (l.run course).slot = none := by
  intro start l course hcalled ⟨cancelled, hcall⟩
  have hstart : start.Sound := sound_new config endpoint window
  have hsound : l.Sound := hstart.run events
  have hnew := posted_new config endpoint window
  have hposted := hnew.moves (moves_run hstart hnew events)
  have htold := (told_new config endpoint window).moves (moves_run hstart hnew (events ++ course))
  rw [run_append] at htold
  have htracks : l.Tracks := (tracks_new config endpoint window).run hstart events
  obtain ⟨task, htask, hcovers⟩ := htracks hcalled
  have hpoll := poll_of_dispose hcalled hcall htask ioFirst
  have hafter := hsound.after_dispose hposted hcall hpoll
  have hlapses : Lapses l (l.step (.poll call ioFirst)) := by
    rw [Link.step, hpoll, windDown]
    split_ifs <;> exact .of_eq rfl rfl
  have hlater := (hafter.sound.lapses_run hafter.disposed later).2
  refine ⟨(hafter.run later).disposed_link htold (hlapses.trans hlater), ?_⟩
  intro early io late hcourse hnone hresult hintime
  rw [htask] at hintime
  have hslot := hsound.slot_of_returns hcalled hcall htask hcovers hcourse hnone hresult hintime
  rw [hcourse, run_append]
  exact hslot

/-- A link is disposed while a write waits for room, a read for a connection and an episode for its
next attempt. The write is finished, the read fails, and the call returns when the episode is
over. -/
theorem run_dispose_busy :
    let start : Link := { config := {}, endpoint := "localhost:9092", window := 2 }
    let events := connecting ++ [.begin (.write [1, 2, 3]), .poll 0 false, .begin .readFrame,
      .finish 0, .poll 1 false, .pollEpisode 1 .pending false, .pollEpisode 1 .refused false,
      .begin (.read 4), .poll 2 false, .begin .dispose]
    let early := [.poll 3 false, .drain 0 2, .poll 0 true, .poll 2 false, .begin .dispose,
      .elapse 500000000, .pollEpisode 1 .pending false]
    let course := early ++ [.poll 3 false]
    let l := start.run events
    let after := l.run course
    l.status = .connecting ∧ after.status = .disposed ∧
      after.result? 0 = some (.ok []) ∧ (∃ stream, after.putBy 0 stream = [1, 2, 3]) ∧
      after.result? 2 = some (.error (.disposed "localhost:9092")) ∧
      after.result? 3 = some (.ok []) ∧
      (after.step (.poll 4 false)) =
        ({ after with disposals := 2 } : Link).setStage 4 (.done (.ok [])) ∧
      after.announcements = [(1, 0), (1, 0)] ∧ after.slot = none := by
  intro start events early course l after
  have hcalled : l.disposals = 0 := by decide
  have hcall : l.calls[3]? = some ⟨.dispose, false, .fresh⟩ := by decide
  have hwrite : after.calls[0]? = some ⟨.write [1, 2, 3], false, .done (.ok [])⟩ := by decide
  have hdispose : after.calls[4]? = some ⟨.dispose, false, .fresh⟩ := by decide
  obtain ⟨hdisposed, hslot⟩ := run_dispose {} "localhost:9092" 2 events 3 false course.tail hcalled
    ⟨false, hcall⟩
  have hput := ((hdisposed.write 0 _ [1, 2, 3] hwrite rfl (by decide)).1 (.ok []) (by decide))
  refine ⟨by decide, hdisposed.status, by decide, ?_, by decide, by decide, ?_, ?_,
    hslot early false [] rfl (by decide) (by decide) (.inr (by decide))⟩
  · exact (hput.resolve_left nofun).2.2
  · exact hdisposed.dispose 4 _ false hdispose rfl rfl
  · exact hdisposed.announcements.trans (by decide)

end Link

end BrokerWire
