import BrokerWire.Proofs.Link.Queues

/-!
# Joining and leaving queues

A call that goes on joins a queue at its end, leaves the one in which it stands, or stays where it
is (`Lands`). Nothing else moves anybody, so the calls that stand in a queue are those whose stage
says so, in every course of events (`InLine.run`).
-/

namespace BrokerWire

namespace Link

variable {l l' l₁ : Link} {call : CallId} {c : Call} {stream : StreamId} {job : Job} {stage : Stage}
  {place : CallId → Option Queue}

/-! ### What concerns nobody in a queue -/

/-- A change that concerns neither turns nor calls. -/
structure Aside (l l' : Link) : Prop where
  turns : l'.turnsAt = l.turnsAt
  calls : l'.calls = l.calls

theorem Aside.refl (l : Link) : l.Aside l := ⟨rfl, rfl⟩

theorem Aside.trans (h₁ : l.Aside l₁) (h : l₁.Aside l') : l.Aside l' :=
  ⟨h.turns.trans h₁.turns, h.calls.trans h₁.calls⟩

theorem aside_lose (l : Link) (stream : StreamId) : l.Aside (l.lose stream) := by
  rw [lose, reconnect]
  split_ifs <;> exact ⟨rfl, rfl⟩

/-- Bytes go to or come from a connection, and the record says so. -/
theorem aside_record {s s' : Stream} (hs : l.streams[stream]? = some s)
    (hwriters : s'.writers = s.writers) (entry : Entry) :
    l.Aside ((l.modifyStream stream fun _ => s').record entry) := by
  have hturns : (l.modifyStream stream fun _ => s').turnsAt = l.turnsAt := by
    refine turnsAt_modifyStream fun s₀ hs₀ => ?_
    obtain rfl := Option.some.inj (hs.symm.trans hs₀)
    exact hwriters
  exact ⟨hturns, rfl⟩

/-! ### How a call goes on -/

/-- A call goes on to a stage, which says in which queue it stands now; the others stand where they
stood. -/
def Lands (l : Link) (job : Job) (place : CallId → Option Queue) (call : CallId) (l' : Link) :
    Prop :=
  ∃ stage, l'.calls = (l.setStage call stage).calls ∧
    Lines l'.turnsAt (Function.update place call stage.queue?) ∧
    ∀ queue, stage.queue? = some queue → job.Asks queue

theorem Lands.of_calls (h : l₁.Lands job place call l') (hcalls : l₁.calls = l.calls) :
    l.Lands job place call l' := by
  obtain ⟨stage, hafter, hlines, hasks⟩ := h
  exact ⟨stage, hafter.trans (by rw [setStage, setStage, hcalls]), hlines, hasks⟩

/-- It does not matter where the call itself has stood. -/
theorem Lands.of_update {queue : Option Queue}
    (h : l.Lands job (Function.update place call queue) call l') : l.Lands job place call l' := by
  obtain ⟨stage, hafter, hlines, hasks⟩ := h
  rw [Function.update_idem] at hlines
  exact ⟨stage, hafter, hlines, hasks⟩

theorem Lands.aside (h : l.Lands job place call l₁) (haside : l₁.Aside l') :
    l.Lands job place call l' := by
  obtain ⟨stage, hafter, hlines, hasks⟩ := h
  exact ⟨stage, haside.calls.trans hafter, haside.turns ▸ hlines, hasks⟩

/-- A call goes on, and stands where it stood. -/
theorem lands_setStage (h : Lines l.turnsAt place) (hstage : stage.queue? = place call)
    (hasks : ∀ queue, stage.queue? = some queue → job.Asks queue) :
    l.Lands job place call (l.setStage call stage) := by
  refine ⟨stage, rfl, ?_, hasks⟩
  rw [hstage, Function.update_eq_self]
  exact h

/-- A call that stands in a queue goes on there. -/
theorem lands_within {queue : Queue} (h : Lines l.turnsAt place)
    (hplace : place call = some queue) (hstage : stage.queue? = some queue)
    (hasks : job.Asks queue) : l.Lands job place call (l.setStage call stage) :=
  lands_setStage h (hstage.trans hplace.symm) fun _ hother =>
    Option.some.inj (hstage.symm.trans hother) ▸ hasks

/-- A call that stands in no queue goes on, and does not join one. -/
theorem lands_outside (h : Lines l.turnsAt place) (hplace : place call = none) (stage : Stage)
    (hstage : stage.queue? = none) (job : Job) :
    l.Lands job place call (l.setStage call stage) :=
  lands_setStage h (hstage.trans hplace.symm) fun queue hqueue => by
    rw [hstage] at hqueue
    contradiction

/-- A call ends, and leaves its queue. -/
theorem lands_leaveAll (h : Lines l.turnsAt place) (hstage : stage.queue? = none) (job : Job)
    (call : CallId) : l.Lands job place call ((l.leaveAll call).setStage call stage) := by
  refine ⟨stage, rfl, ?_, fun queue hqueue => nomatch hstage.symm.trans hqueue⟩
  have hturns : ((l.leaveAll call).setStage call stage).turnsAt =
      fun queue => (l.turnsAt queue).leave call := turnsAt_leaveAll l call
  rw [hturns, hstage]
  exact h.leave call

/-! ### Reads -/

theorem writers_take (s : Stream) (n : Nat) : (s.take n).2.writers = s.writers := by
  rw [Stream.take]
  split_ifs <;> rfl

theorem aside_takeFrom (l : Link) (call : CallId) (stream : StreamId) (n : Nat) :
    l.Aside (l.takeFrom call stream n).2 := by
  rw [takeFrom]
  cases hs : l.streams[stream]? with
  | none => exact .refl l
  | some s =>
    have hwriters := writers_take s n
    dsimp only
    generalize s.take n = result at hwriters
    obtain ⟨intake, s'⟩ := result
    cases intake with
    | bytes chunk => exact aside_record hs hwriters _
    | nothing => exact .refl l
    | ended => exact aside_lose l stream
    | aborted => exact aside_lose l stream

theorem aside_gather (rounds : Nat) (l : Link) (call : CallId) (f : Filling)
    (source : Option StreamId) : l.Aside (gather rounds l call f source).1 := by
  induction rounds generalizing l f source with
  | zero => exact .refl l
  | succ rounds ih =>
    cases source with
    | none =>
      rw [gather]
      split_ifs
      · exact .refl l
      · exact .refl l
      · exact .refl l
      · cases l.slot with
        | none => exact .refl l
        | some stream => exact ih l f (some stream)
      · exact .refl l
    | some stream =>
      have htake := aside_takeFrom l call stream f.missing
      rw [gather]
      split_ifs
      · exact .refl l
      · exact .refl l
      · exact .refl l
      · generalize l.takeFrom call stream f.missing = result at htake
        obtain ⟨intake, l'⟩ := result
        cases intake with
        | bytes chunk => exact htake.trans (ih l' _ none)
        | _ => exact htake

theorem lands_endRead (h : Lines l.turnsAt place)
    (hplace : place call = none ∨ place call = some .reading) (job : Job) (result : Result) :
    l.Lands job place call (l.endRead call result) := by
  rw [endRead, ← leaveAll_of_reading h hplace]
  exact lands_leaveAll h rfl job call

section Read

variable (hjob : job.start?.isSome)
include hjob

theorem lands_readLast (h : Lines l.turnsAt place) (hplace : place call = some .reading)
    (part : Part) (f : Filling) (source : Option StreamId) :
    l.Lands job place call (l.readLast call part f source) := by
  have hfill : l.Aside (l.fill call f source).1 := aside_gather _ l call f source
  rw [readLast]
  generalize l.fill call f source = result at hfill
  obtain ⟨l', filled⟩ := result
  have h' : Lines l'.turnsAt place := hfill.turns ▸ h
  refine Lands.of_calls ?_ hfill.calls
  cases filled with
  | complete bytes => exact lands_endRead h' (.inr hplace) job _
  | waiting f' source' => exact lands_within h' hplace rfl hjob
  | failed e => exact lands_endRead h' (.inr hplace) job _

theorem lands_readBody (h : Lines l.turnsAt place) (hplace : place call = some .reading)
    (length : Int32) : l.Lands job place call (l.readBody call length) := by
  rw [readBody]
  split_ifs
  · exact lands_readLast hjob h hplace _ _ _
  · cases l.slot with
    | none => exact lands_endRead h (.inr hplace) job _
    | some stream =>
      have hlose := aside_lose l stream
      have h' : Lines (l.lose stream).turnsAt place := hlose.turns ▸ h
      exact (lands_endRead h' (.inr hplace) job _).of_calls hlose.calls

theorem lands_readOn (h : Lines l.turnsAt place) (hplace : place call = some .reading)
    (part : Part) (f : Filling) (source : Option StreamId) :
    l.Lands job place call (l.readOn call part f source) := by
  have hlast := lands_readLast hjob h hplace part f source
  cases part with
  | length =>
    have hfill : l.Aside (l.fill call f source).1 := aside_gather _ l call f source
    rw [readOn]
    generalize l.fill call f source = result at hfill
    obtain ⟨l', filled⟩ := result
    have h' : Lines l'.turnsAt place := hfill.turns ▸ h
    refine Lands.of_calls ?_ hfill.calls
    cases filled with
    | complete bytes => exact lands_readBody hjob h' hplace _
    | waiting f' source' => exact lands_within h' hplace rfl hjob
    | failed e => exact lands_endRead h' (.inr hplace) job _
  | _ => exact hlast

theorem lands_enterRead (h : Lines l.turnsAt place)
    (hplace : place call = none ∨ place call = some .reading) (part : Part) (size : Nat) :
    l.Lands job place call (l.enterRead call part size) := by
  let joined : Link := { l with readers := l.readers.join call }
  have hjoin : Lines joined.turnsAt (Function.update place call (some .reading)) :=
    turnsAt_joinReading l call ▸ h.join hplace
  have hself : Function.update place call (some .reading) call = some .reading :=
    Function.update_self ..
  rw [enterRead]
  dsimp only
  split_ifs
  · exact lands_endRead h hplace job _
  · exact lands_endRead h hplace job _
  · exact ((lands_readOn hjob hjoin hself part ⟨[], size⟩ none).of_calls rfl).of_update
  · exact ((lands_within hjoin hself rfl hjob).of_calls rfl).of_update

end Read

/-! ### Writes -/

theorem writers_put (s : Stream) (window : Nat) (bytes : Bytes) :
    (s.put window bytes).2.2.writers = s.writers := by
  rw [Stream.put]
  split_ifs <;> rfl

theorem aside_putOn (l : Link) (call : CallId) (stream : StreamId) (bytes : Bytes) :
    l.Aside (l.putOn call stream bytes).2 := by
  rw [putOn]
  cases hs : l.streams[stream]? with
  | none => exact .refl l
  | some s =>
    have hwriters := writers_put s l.window bytes
    dsimp only
    generalize s.put l.window bytes = result at hwriters
    obtain ⟨outlet, accepted, s'⟩ := result
    cases accepted with
    | nil => exact .refl l
    | cons b rest => exact aside_record hs hwriters _

theorem lands_endWrite (h : Lines l.turnsAt place)
    (hplace : place call = none ∨ place call = some (.writing stream)) (job : Job)
    (result : Result) : l.Lands job place call (l.endWrite call stream result) := by
  rw [endWrite, ← leaveAll_of_writing h hplace]
  exact lands_leaveAll h rfl job call

theorem lands_send (h : Lines l.turnsAt place) (hplace : place call = some (.writing stream))
    (frame rest : Bytes) (ioFirst : Bool) :
    l.Lands (.write frame) place call (l.send call stream rest ioFirst) := by
  rw [send]
  split_ifs
  · exact lands_endWrite h (.inr hplace) _ _
  have hput := aside_putOn l call stream rest
  generalize l.putOn call stream rest = result at hput
  obtain ⟨outlet, l'⟩ := result
  have h' : Lines l'.turnsAt place := hput.turns ▸ h
  refine Lands.of_calls ?_ hput.calls
  cases outlet with
  | complete => exact lands_endWrite h' (.inr hplace) _ _
  | partly rest =>
    dsimp only
    split_ifs
    · exact lands_endWrite h' (.inr hplace) _ _
    · exact lands_within h' hplace rfl ⟨frame, rfl⟩
  | aborted => exact (lands_endWrite h' (.inr hplace) _ _).aside (aside_lose _ stream)

theorem lands_lineUp (h : Lines l.turnsAt place)
    (hplace : place call = none ∨ place call = some (.writing stream))
    (hmade : stream < l.streams.length) (frame : Bytes) (ioFirst : Bool) :
    l.Lands (.write frame) place call (l.lineUp call stream frame ioFirst) := by
  rw [lineUp]
  dsimp only
  split_ifs
  · exact lands_endWrite h hplace _ _
  · exact lands_endWrite h hplace _ _
  let joined := l.modifyStream stream fun s => { s with writers := s.writers.join call }
  have hjoin : Lines joined.turnsAt (Function.update place call (some (.writing stream))) :=
    turnsAt_joinWriting hmade call ▸ h.join hplace
  have hself : Function.update place call (some (.writing stream)) call =
      some (.writing stream) := Function.update_self ..
  obtain ⟨s, hs⟩ : ∃ s, joined.streams[stream]? = some s := by simp [joined, modifyStream, hmade]
  rw [hs]
  dsimp only
  split_ifs
  · exact ((lands_send hjoin hself frame frame ioFirst).of_calls rfl).of_update
  · exact ((lands_within hjoin hself rfl ⟨frame, rfl⟩).of_calls rfl).of_update

theorem lands_enterWrite (h : Lines l.turnsAt place) (hplace : place call = none)
    (hvalid : l.conn.Valid) (frame : Bytes) (ioFirst : Bool) :
    l.Lands (.write frame) place call (l.enterWrite call frame ioFirst) := by
  rw [enterWrite]
  split_ifs
  · exact lands_outside h hplace _ rfl _
  · exact lands_outside h hplace _ rfl _
  · cases hslot : l.slot with
    | none => exact lands_outside h hplace _ rfl _
    | some stream => exact lands_lineUp h (.inl hplace) (hvalid.made stream hslot) frame ioFirst
  · exact lands_outside h hplace _ rfl _

/-! ### Calls -/

theorem lands_finishDispose (h : Lines l.turnsAt place) (hplace : place call = none)
    (job : Job) : l.Lands job place call (l.finishDispose call) := by
  have hends := lands_outside (l := { l with slot := none }) h hplace (.done (.ok [])) rfl job
  exact hends.of_calls rfl

theorem lands_windDown (h : Lines l.turnsAt place) (hplace : place call = none) (job : Job)
    (task : Task) (deadline : Nat) :
    l.Lands job place call (l.windDown call task deadline) := by
  rw [windDown]
  split_ifs
  · exact lands_finishDispose h hplace job
  · exact lands_outside h hplace _ rfl job

theorem lands_enterDispose (h : Lines l.turnsAt place) (hplace : place call = none) (job : Job) :
    l.Lands job place call (l.enterDispose call) := by
  rw [enterDispose]
  dsimp only
  split_ifs
  · have hends := lands_outside (l := { l with disposals := l.disposals + 1 }) h hplace
      (.done (.ok [])) rfl job
    exact hends.of_calls rfl
  · let l₁ : Link := { l with disposals := l.disposals + 1, disposed := true, tracked := none }
    cases l.tracked with
    | none => exact (lands_finishDispose (l := l₁) h hplace job).of_calls rfl
    | some task => exact (lands_windDown (l := l₁) h hplace job task _).of_calls rfl

/-- A call that does not go on stands where it stood. -/
theorem InLine.lands_stay (h : l.InLine) (hcall : l.calls[call]? = some c) :
    l.Lands c.job l.queueOf call l := by
  have hself : (l.setStage call c.stage).calls = l.calls :=
    congrArg View.calls (View.setStage_self (v := l.view (fun _ => []) fun _ => []) hcall)
  refine ⟨c.stage, hself.symm, ?_, fun queue => h.asks call c queue hcall⟩
  rw [← queueOf_eq hcall, Function.update_eq_self]
  exact h.lines

/-- A call is advanced. -/
theorem InLine.lands_poll (h : l.InLine) (hsound : l.Sound) (hcall : l.calls[call]? = some c)
    (ioFirst : Bool) : l.Lands c.job l.queueOf call (l.poll call ioFirst) := by
  have hstay := h.lands_stay hcall
  have hplace := queueOf_eq hcall
  have hasks := fun queue => h.asks call c queue hcall
  have hmade := fun stream => hsound.held call c stream hcall
  have hlines := h.lines
  rw [poll, hcall]
  obtain ⟨job, cancelled, stage⟩ := c
  dsimp only at hplace hasks hmade ⊢
  cases stage with
  | fresh =>
    cases job with
    | read n => exact lands_enterRead rfl hlines (.inl hplace) .whole n
    | readFrame => exact lands_enterRead rfl hlines (.inl hplace) .length lengthSize
    | write frame => exact lands_enterWrite hlines hplace hsound.valid frame ioFirst
    | dispose => exact lands_enterDispose hlines hplace .dispose
  | queued =>
    cases job with
    | read n => exact lands_enterRead rfl hlines (.inr hplace) .whole n
    | readFrame => exact lands_enterRead rfl hlines (.inr hplace) .length lengthSize
    | _ => exact hstay
  | filling part f source =>
    have hread := lands_readOn (hasks .reading rfl) hlines hplace part f source
    cases job <;> exact hread
  | offering =>
    cases job with
    | write frame => exact lands_enterWrite hlines hplace hsound.valid frame ioFirst
    | _ => exact hstay
  | lining stream =>
    cases job with
    | write frame => exact lands_lineUp hlines (.inr hplace) (hmade stream rfl) frame ioFirst
    | _ => exact hstay
  | sending stream rest =>
    obtain ⟨frame, rfl⟩ := hasks (.writing stream) rfl
    exact lands_send hlines hplace frame rest ioFirst
  | winding task deadline =>
    have hwinds := lands_windDown hlines hplace job task deadline
    cases job <;> exact hwinds
  | done result => cases job <;> exact hstay
  | dropped => cases job <;> exact hstay

theorem queueOf_of_calls (hcall : l.calls[call]? = some c)
    (hcalls : l'.calls = (l.setStage call stage).calls) :
    l'.queueOf = Function.update l.queueOf call stage.queue? := by
  funext id
  rw [queueOf, hcalls]
  by_cases hid : id = call
  · subst hid
    rw [getElem?_setStage_self hcall, Function.update_self, Option.bind_some]
  · rw [getElem?_setStage_of_ne hid, Function.update_of_ne hid, queueOf]

theorem InLine.of_lands (h : l.InLine) (hcall : l.calls[call]? = some c)
    (hlands : l.Lands c.job l.queueOf call l') : l'.InLine := by
  obtain ⟨stage, hcalls, hlines, hasks⟩ := hlands
  refine ⟨queueOf_of_calls hcall hcalls ▸ hlines, fun id c' queue hcall' hqueue => ?_⟩
  rw [hcalls] at hcall'
  by_cases hid : id = call
  · subst hid
    rw [getElem?_setStage_self hcall] at hcall'
    obtain rfl := Option.some.inj hcall'
    exact hasks queue hqueue
  · rw [getElem?_setStage_of_ne hid] at hcall'
    exact h.asks id c' queue hcall' hqueue

/-! ### Events -/

theorem InLine.of_aside (h : l.InLine) (haside : l.Aside l') : l'.InLine where
  lines := by
    have hplace : l'.queueOf = l.queueOf := by
      funext id
      rw [queueOf, queueOf, haside.calls]
    rw [haside.turns, hplace]
    exact h.lines
  asks call c queue hcall := h.asks call c queue (haside.calls ▸ hcall)

/-- A call that begins stands in no queue, and one that is withdrawn stays where it is. -/
theorem InLine.of_stageChange (h : l.InLine) {event : Event} (hsound : l.Sound)
    (hturns : (l.step event).turnsAt = l.turnsAt)
    (hplace : (l.step event).queueOf = l.queueOf)
    (hdrop : ∀ id, event ≠ .drop id) (hpoll : ∀ id ioFirst, event ≠ .poll id ioFirst) :
    (l.step event).InLine := by
  refine ⟨hturns.symm ▸ hplace.symm ▸ h.lines, fun id c' queue hcall' hqueue => ?_⟩
  cases (hsound.callChange event).stageChange hcall' with
  | same hcall hjob hstage => exact hjob ▸ h.asks id _ queue hcall (hstage ▸ hqueue)
  | begin hnone hstage =>
    rw [hstage] at hqueue
    contradiction
  | drop _ _ _ hevent => exact absurd hevent (hdrop id)
  | poll _ _ _ hevent => exact absurd hevent (hpoll id _)

theorem InLine.begin (h : l.InLine) (hsound : l.Sound) (job : Job) :
    (l.step (.begin job)).InLine := by
  refine h.of_stageChange hsound rfl (funext fun id => ?_) nofun nofun
  show (l.calls ++ [({ job } : Call)])[id]?.bind (·.stage.queue?) = l.queueOf id
  rcases Nat.lt_or_ge id l.calls.length with hlt | hge
  · rw [List.getElem?_append_left hlt, queueOf]
  · rw [List.getElem?_append_right hge, queueOf, List.getElem?_eq_none hge]
    cases id - l.calls.length <;> rfl

theorem InLine.cancel (h : l.InLine) (hsound : l.Sound) (call : CallId) :
    (l.step (.cancel call)).InLine := by
  refine h.of_stageChange hsound rfl (funext fun id => ?_) nofun nofun
  rw [Link.step, queueOf, queueOf, List.getElem?_modify]
  cases l.calls[id]? with
  | none => rfl
  | some c => by_cases hid : call = id <;> simp [hid]

/-- The far side changes nothing about turns. -/
theorem InLine.modifyStream (h : l.InLine) {g : Stream → Stream}
    (hwriters : ∀ s, (g s).writers = s.writers) (stream : StreamId) :
    (l.modifyStream stream g).InLine :=
  h.of_aside ⟨turnsAt_modifyStream fun s _ => hwriters s, rfl⟩

theorem aside_pollOpening (l : Link) : l.Aside l.pollOpening where
  turns := by
    let d : StreamId → Bytes := fun _ => []
    exact turnsAt_eq (outflow_pollOpening l d)
      (congrArg View.readers (view_pollOpening (D := d) (R := fun _ => []) l))
  calls := calls_pollOpening l

theorem aside_pollEpisode (l : Link) (index : Nat) (dial : Dial) (ioFirst : Bool) :
    l.Aside (l.pollEpisode index dial ioFirst) where
  turns := by
    let d : StreamId → Bytes := fun _ => []
    exact turnsAt_eq (outflow_pollEpisode l d index dial ioFirst)
      (congrArg View.readers (view_pollEpisode (D := d) (R := fun _ => []) l index dial ioFirst))
  calls := calls_pollEpisode l index dial ioFirst

theorem InLine.step (h : l.InLine) (hsound : l.Sound) (event : Event) :
    (l.step event).InLine := by
  cases event with
  | begin job => exact h.begin hsound job
  | cancel call => exact h.cancel hsound call
  | drop call =>
    rw [Link.step]
    obtain hover | ⟨c, hcall, hopen⟩ := l.over_or_open call
    · rw [drop_of_not_isOpen hover]
      exact h
    · rw [drop_of_isOpen hcall hopen]
      exact h.of_lands hcall (lands_leaveAll h.lines rfl c.job call)
  | poll call ioFirst =>
    rw [Link.step]
    obtain hover | ⟨c, hcall, -⟩ := l.over_or_open call
    · rw [poll_of_not_isOpen hover]
      exact h
    · exact h.of_lands hcall (h.lands_poll hsound hcall ioFirst)
  | pollOpening => exact h.of_aside (aside_pollOpening l)
  | pollEpisode index dial ioFirst => exact h.of_aside (aside_pollEpisode l index dial ioFirst)
  | arrive stream bytes =>
    refine h.modifyStream (fun s => ?_) stream
    rw [Stream.arrive]
    split_ifs <;> rfl
  | finish stream => exact h.modifyStream (g := Stream.finish) (fun _ => rfl) stream
  | abort stream => exact h.modifyStream (g := Stream.abort) (fun _ => rfl) stream
  | flush stream =>
    refine h.modifyStream (fun s => ?_) stream
    rw [Stream.flush]
    split_ifs <;> rfl
  | drain stream n => exact h.modifyStream (g := (·.drain n)) (fun _ => rfl) stream
  | elapse nanos => exact h.of_aside ⟨rfl, rfl⟩
  | release => exact h.of_aside ⟨rfl, rfl⟩

/-! ### Runs -/

theorem inLine_new (config : Config) (endpoint : String) (window : Nat) :
    InLine { config, endpoint, window } where
  lines queue := by
    cases queue <;> exact Turns.serves_empty fun _ h => nomatch h
  asks _ _ _ h := nomatch h

/-- In every course of events those who stand in a queue are the calls whose stage says so. -/
theorem InLine.run (h : l.InLine) (hsound : l.Sound) (events : List Event) :
    (l.run events).InLine := by
  induction events generalizing l with
  | nil => exact h
  | cons event events ih => exact ih (h.step hsound event) (hsound.step event)

end Link

end BrokerWire
