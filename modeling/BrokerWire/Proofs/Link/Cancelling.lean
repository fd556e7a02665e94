import BrokerWire.Proofs.Link.Framing
import BrokerWire.Proofs.Link.Running

/-!
# Cancelling reads of frames

A read of a frame can be cancelled, or dropped, at any moment. If it has taken nothing by then, no
other read notices. If it has taken some bytes of a frame, but not all, the next read starts with
the rest of them. The same happens where a read goes on to another connection with a part of a frame
in its hands, because the one that it was waiting on has been replaced. `run_readFrame` says what
holds otherwise, for all courses of events on a link that is new.
-/

namespace BrokerWire

namespace Link

namespace View

variable {v v' : View}

/-! ### Jobs -/

theorem jobs_modify (calls : List Call) (call : CallId) {g : Call → Call}
    (hjob : ∀ c, (g c).job = c.job) : (calls.modify call g).map Call.job = calls.map Call.job := by
  refine List.ext_getElem? fun i => ?_
  rw [List.getElem?_map, List.getElem?_map, List.getElem?_modify]
  cases calls[i]? with
  | none => rfl
  | some c => by_cases hi : call = i <;> simp [hi, hjob]

/-- A move does not change what calls are for. -/
theorem Move.jobs (hmove : Move v v') : v'.calls.map Call.job = v.calls.map Call.job := by
  cases hmove <;> first | rfl | exact jobs_modify _ _ fun _ => rfl

theorem Moves.jobs (hmoves : Moves v v') : v'.calls.map Call.job = v.calls.map Call.job := by
  induction hmoves with
  | refl => rfl
  | tail _ hmove ih => exact hmove.jobs.trans ih

theorem ReadsFrames.of_jobs (h : v.ReadsFrames)
    (hjobs : v'.calls.map Call.job = v.calls.map Call.job) : v'.ReadsFrames := by
  intro c hc n hn
  obtain ⟨c', hc', hsame⟩ := List.mem_map.mp (hjobs ▸ List.mem_map_of_mem hc)
  exact h c' hc' n (hsame.trans hn)

theorem ReadsFrames.job_eq (h : v.ReadsFrames) {call : CallId} {c : Call}
    (hcall : v.calls[call]? = some c) {part : Part} {header : Bytes} {size : Nat}
    (hprogress : Progress c.job part header size) : c.job = .readFrame := by
  have hjob := h c (List.mem_of_getElem? hcall)
  generalize c.job = job at hprogress hjob
  cases hprogress with
  | whole => exact absurd rfl (hjob _)
  | length => rfl
  | body => rfl

/-- What a read of a frame has taken when it has its body. -/
theorem eq_frame_of_progress {header body : Bytes} {part : Part}
    (h : Progress .readFrame part header body.length) (hpart : part ≠ .length) :
    header ++ body = frame body ∧ IsBody body := by
  generalize hsize : body.length = size at h
  cases h with
  | length => contradiction
  | body header hheader hlength =>
    exact ⟨append_eq_frame hsize hlength hheader, isBody_of_isFrameLength hsize hlength⟩

/-! ### Where the connection stands -/

/-- A call that has taken nothing passes, if it finds no connection where it stands. -/
theorem passes_of_emptyHanded {call : CallId} (hempty : v.EmptyHanded call)
    (hreading : ∀ stream, ¬v'.IsReading call stream)
    (hprotocol : ∀ fault, v'.stageOf call ≠ some (.done (.error (.protocol fault)))) :
    v.Passes v' call where
  reads stream htaken := absurd (hempty.takenBy_eq_nil stream) htaken
  starts stream hreads := absurd hreads (hreading stream)
  stops stream _ := .inr (.inl (hempty.takenBy_eq_nil stream))
  failed _ _ := hempty
  cut _ := .inl hempty
  protocol fault hdone := absurd hdone (hprotocol fault)

theorem Framing.begun (h : v.Framing) (hok : v.Ok) (event : Event) : (v.begun event).Framing := by
  cases event with
  | begin job =>
    -- the new call comes behind all others, and it has taken nothing
    have hothers : ∀ call, call ≠ v.calls.length →
        (v.begun (.begin job)).stageOf call = v.stageOf call := by
      intro call hne
      refine congrArg (Option.map Call.stage) ?_
      rcases Nat.lt_or_gt_of_ne hne with hlt | hgt
      · exact List.getElem?_append_left hlt
      · rw [List.getElem?_eq_none (Nat.le_of_lt hgt)]
        exact List.getElem?_eq_none (by simpa [View.begun] using Nat.succ_le_of_lt hgt)
    have hnew : (v.begun (.begin job)).stageOf v.calls.length = some .fresh := by
      simp [stageOf, View.begun]
    refine h.rests ⟨rfl, rfl, fun call => ?_, fun call habandoned => ?_, fun _ => .inl⟩
    · by_cases hcall : call = v.calls.length
      · refine .inr (passes_of_emptyHanded (hok.unbegun call (Nat.le_of_eq hcall.symm)) ?_ ?_)
        · rintro stream ⟨part, f, source, hstage, -⟩
          simp [hcall, hnew] at hstage
        · intro fault hstage
          simp [hcall, hnew] at hstage
      · exact .inl (hothers call hcall)
    · refine (isAbandoned_congr (hothers call ?_)).mpr habandoned
      rintro rfl
      obtain ⟨stage, hstage, -⟩ := habandoned
      simp [stageOf] at hstage
  | _ => exact h

/-- The connection in use changes. -/
theorem Framing.conn (h : v.Framing) {conn : Conn}
    (huse : ∀ stream, conn.InUse stream → v.conn.InUse stream ∨ v.takenFrom stream = []) :
    ({ v with conn } : View).Framing :=
  h.rests (rests_of_stageOf_eq rfl rfl (fun _ => rfl) huse)

/-- A call that has taken nothing goes on to another stage and finds no connection. -/
theorem passes_idle {call : CallId} {c : Call} (hempty : v.EmptyHanded call) (changed : View)
    (htakes : changed.takes = v.takes) (stage : Stage) (hcall : changed.calls[call]? = some c)
    (hsource : ∀ part f stream, stage ≠ .filling part f (some stream))
    (hprotocol : ∀ fault, stage ≠ .done (.error (.protocol fault))) :
    v.Passes (changed.setStage call stage) call := by
  have hstage := stageOf_setStage_self hcall stage
  refine passes_of_emptyHanded hempty ?_ fun fault hfault => ?_
  · rintro stream ⟨part, f, source, hreading, hfound⟩
    obtain rfl := Option.some.inj (hstage.symm.trans hreading)
    rcases hfound with rfl | htaken
    · exact hsource part f stream rfl
    · refine htaken ?_
      rw [show (changed.setStage call _).takenBy call stream = changed.takenBy call stream from rfl,
        takenBy, htakes]
      exact hempty.takenBy_eq_nil stream
  · exact hprotocol fault (Option.some.inj (hstage.symm.trans hfault))

/-- A read that has its turn and no connection goes on. -/
theorem passes_filling (hok : v.Ok) {call : CallId} {c : Call} {part part' : Part} {f f' : Filling}
    (hcall : v.calls[call]? = some c) (hstage : c.stage = .filling part f none)
    {source : Option StreamId} (huse : ∀ stream, source = some stream → v.conn.InUse stream) :
    v.Passes (v.setStage call (.filling part' f' source)) call := by
  have hfilling : c.stage.isFilling := by rw [hstage]; rfl
  have hown := stageOf_setStage_self hcall (.filling part' f' source)
  constructor
  case reads => exact fun stream => isReading_of_taken hcall hstage
  case starts =>
    rintro stream ⟨part₁, f₁, source₁, hstage₁, hfound⟩
    rw [hown] at hstage₁
    cases hstage₁
    by_cases htaken : v.takenBy call stream = []
    · obtain rfl := hfound.resolve_right (not_not_intro htaken)
      refine .inr ⟨htaken, huse stream rfl, fun other hother => ?_⟩
      -- the call has its turn, so no other call reads
      obtain rfl := hok.eq_of_isReading hcall hfilling hother
      obtain ⟨c', part₁, f₁, source₁, hcall', hstage', hfound'⟩ := hother.exists_call
      obtain rfl := Option.some.inj (hcall.symm.trans hcall')
      rw [hstage] at hstage'
      cases hstage'
      exact (hfound'.resolve_left nofun) htaken
    · exact .inl (isReading_of_taken hcall hstage htaken)
  case stops =>
    intro stream _
    by_cases htaken : v.takenBy call stream = []
    · exact .inr (.inl htaken)
    · exact .inl ⟨part', f', source, hown, .inr htaken⟩
  case failed =>
    intro body hdone
    simp [hown] at hdone
  case cut => exact fun habandoned => absurd habandoned (not_isAbandoned_of_filling hown)
  case protocol =>
    intro fault hdone
    simp [hown] at hdone

/-- A read that has its turn fails or is dropped. -/
theorem passes_end {call : CallId} {c : Call} {part : Part} {f : Filling}
    {source : Option StreamId} (hcall : v.calls[call]? = some c)
    (hstage : c.stage = .filling part f source) (changed : View)
    (hcalls : changed.calls = v.calls) (stage : Stage) (hopen : stage.isFilling = false)
    (hfailed : ∀ body, stage ≠ .done (.ok body))
    (hunused : stage.isAbandoned ∨ ∀ stream, v.IsReading call stream → ¬changed.conn.InUse stream)
    (hcut : stage.isAbandoned → IsPartial .readFrame (v.hand call))
    (hprotocol : ∀ fault, stage = .done (.error (.protocol fault)) →
      (v.hand call).length = 4 ∧ isFrameLength (BigEndian.toInt32 (v.hand call)) = false) :
    v.Passes (changed.setStage call stage) call := by
  have hcall' : changed.calls[call]? = some c := hcalls ▸ hcall
  have hown := stageOf_setStage_self hcall' stage
  constructor
  case reads => exact fun stream => isReading_of_taken hcall hstage
  case starts =>
    intro stream hreading
    exact absurd hreading (not_isReading_of_not_isFilling (getElem?_setStage_self hcall') hopen _)
  case stops =>
    intro stream hreading
    rcases hunused with hgone | hunused
    · exact .inr (.inr (.inl ⟨stage, hown, hgone⟩))
    · exact .inr (.inr (.inr (hunused stream hreading)))
  case failed =>
    intro body hdone
    exact absurd (Option.some.inj (hown.symm.trans hdone)) (hfailed body)
  case cut =>
    rintro ⟨stage', hstage', hgone⟩
    obtain rfl := Option.some.inj (hown.symm.trans hstage')
    exact .inr (hcut hgone)
  case protocol =>
    intro fault hdone
    exact hprotocol fault (Option.some.inj (hown.symm.trans hdone))

/-- The connection that a read waits on is given up as lost. Those from which it has taken something
before are out of use. -/
theorem Ok.not_inUse_lose (hok : v.Ok) {call : CallId} {c : Call} {part : Part} {f : Filling}
    {stream target : StreamId} (hcall : v.calls[call]? = some c)
    (hstage : c.stage = .filling part f (some stream)) (hreading : v.IsReading call target) :
    ¬(v.conn.lose stream).InUse target := by
  obtain ⟨-, hstands, -⟩ := (hok.call call c hcall).filling hstage
  obtain ⟨c', part', f', source', hcall', hstage', hfound⟩ := hreading.exists_call
  obtain rfl := Option.some.inj (hcall.symm.trans hcall')
  rw [hstage] at hstage'
  cases hstage'
  by_cases htarget : target = stream
  · subst htarget
    exact Conn.not_inUse_lose hok.conn target
  · obtain ⟨t, ht, hby, rfl⟩ := exists_take_of_takenBy (hfound.resolve_left fun heq =>
      htarget (Option.some.inj heq).symm)
    obtain ⟨hmade, hlast⟩ := hstands stream rfl
    have hlt : t.stream + 1 < v.conn.made :=
      Nat.lt_of_le_of_lt (Nat.lt_of_le_of_ne (hlast t ht hby) htarget) hmade
    exact fun huse => hok.conn.not_inUse_of_lt hlt huse.of_lose

/-- Nothing but its stage tells that a call that fails has not been given up. -/
theorem not_isAbandoned_error {e : WireError} (he : e ≠ .cancelled) :
    ¬(Stage.done (.error e)).isAbandoned := fun habandoned =>
  he (eq_cancelled_of_isAbandoned habandoned)

/-- A read of a frame that misses bytes has taken a part of the frame. -/
theorem Ok.isPartial (hok : v.Ok) (hreads : v.ReadsFrames) {call : CallId} {c : Call} {part : Part}
    {f : Filling} {source : Option StreamId} (hcall : v.calls[call]? = some c)
    (hstage : c.stage = .filling part f source) (hmissing : 0 < f.missing) :
    IsPartial .readFrame (v.hand call) := by
  obtain ⟨-, -, header, size, hprogress, -⟩ := (hok.call _ _ hcall).filling hstage
  exact hreads.job_eq hcall hprogress ▸ (hok.call _ _ hcall).isPartial hstage hmissing

/-- Every move keeps the invariant, as long as only frames are read. -/
theorem Framing.move (h : v.Framing) (hok : v.Ok) (hreads : v.ReadsFrames) (hmove : Move v v') :
    v'.Framing := by
  cases hmove with
  | withdraw call =>
    have hstages : ∀ other, ({ v with
        calls := v.calls.modify call fun c => { c with cancelled := true } } : View).stageOf other =
          v.stageOf other := by
      intro other
      rw [stageOf, stageOf, List.getElem?_modify]
      cases v.calls[other]? with
      | none => rfl
      | some c => by_cases hother : call = other <;> simp [hother]
    exact h.rests (rests_of_stageOf_eq rfl rfl hstages fun _ => .inl)
  | @shift call c stage hcall hjob hopen hfilling hqueued hwinding hprotocol =>
    have hcallOk := hok.call _ _ hcall
    refine h.setStage v stage rfl rfl rfl hcall hopen ?_ fun _ huse => huse
    -- a call that is no read has taken nothing
    refine passes_idle (hcallOk.emptyHanded hopen (hcallOk.not_filling hjob)) v rfl stage hcall ?_
      hprotocol
    rintro part f stream rfl
    contradiction
  | @queue call c hcall hjob hstage hturn =>
    obtain ⟨hopen, hfilling⟩ := stage_waiting hstage
    have hempty := (hok.call _ _ hcall).emptyHanded hopen hfilling
    let joined : View := { v with readers := v.readers.join call }
    exact h.setStage joined .queued rfl rfl rfl hcall hopen
      (passes_idle hempty joined rfl .queued hcall (by simp) (by simp)) fun _ huse => huse
  | @quit call c e hcall hjob hstage herror =>
    obtain ⟨hopen, hfilling⟩ := stage_waiting hstage
    have hempty := (hok.call _ _ hcall).emptyHanded hopen hfilling
    refine h.setStage (v.leave call) (.done (.error e)) rfl rfl rfl hcall hopen ?_
      fun _ huse => huse
    refine passes_idle hempty (v.leave call) rfl (.done (.error e)) hcall (by simp) ?_
    rintro fault heq
    cases heq
    exact herror fault rfl
  | @enter call c part size hcall hjob hstage hturn =>
    obtain ⟨hopen, hfilling⟩ := stage_waiting hstage
    have hempty := (hok.call _ _ hcall).emptyHanded hopen hfilling
    let joined : View := { v with readers := v.readers.join call }
    exact h.setStage joined (.filling part ⟨[], size⟩ none) rfl rfl rfl hcall hopen
      (passes_idle hempty joined rfl (.filling part ⟨[], size⟩ none) hcall (by simp) (by simp))
      fun _ huse => huse
  | @find call c part f stream hcall hstage huse =>
    refine h.setStage v (.filling part f (some stream)) rfl rfl rfl hcall (by rw [hstage]; rfl)
      (passes_filling hok hcall hstage ?_) fun _ huse => huse
    rintro _ ⟨⟩
    exact huse
  | @take call c part f stream chunk rest hcall hstage hincoming hchunk hmissing =>
    obtain ⟨-, -, header, size, hprogress, -⟩ := (hok.call _ _ hcall).filling hstage
    exact h.readsOn hok hcall hstage (readsOn_take hcall part _ stream chunk rest)
      (hreads.job_eq hcall hprogress) hchunk
      (Nat.lt_of_lt_of_le (List.length_pos_iff.mpr hchunk) hmissing)
  | @header call c got hcall hstage hlength =>
    exact h.setStage v _ rfl rfl rfl hcall (by rw [hstage]; rfl)
      (passes_filling hok hcall hstage (by simp)) fun _ huse => huse
  | @finish call c part got source hcall hstage hpart =>
    obtain ⟨-, -, header, size, hprogress, hsize, hhand⟩ := (hok.call _ _ hcall).filling hstage
    obtain rfl : got.length = size := hsize
    rw [hreads.job_eq hcall hprogress] at hprogress
    -- what the call has taken is one whole frame
    obtain ⟨hframe, hbody⟩ := eq_frame_of_progress hprogress hpart
    exact h.returns (returns_deliver hcall got) hok hcall hstage (hhand.trans hframe) hbody
  | @reject call c got fault hcall hstage hlength =>
    obtain ⟨-, -, header, size, hprogress, hsize, hhand⟩ := (hok.call _ _ hcall).filling hstage
    -- it has taken the length and nothing else
    have hgot : v.hand call = got ∧ got.length = 4 := by
      generalize c.job = job at hprogress
      cases hprogress with
      | length => exact ⟨hhand, hsize⟩
    let lost : View := { v with conn := v.conn.forsake v.conn.slot }.leave call
    have hunused := Conn.not_inUse_forsake hok.conn
    refine h.setStage lost (.done (.error (.protocol fault))) rfl rfl rfl hcall
      (by rw [hstage]; rfl) ?_ fun stream huse => absurd huse (hunused stream)
    refine passes_end hcall hstage lost rfl (.done (.error (.protocol fault))) rfl (by simp)
      (.inr fun stream _ => hunused stream)
      (fun habandoned => absurd habandoned Bool.false_ne_true) ?_
    rintro fault' -
    rw [hgot.1]
    exact ⟨hgot.2, hlength⟩
  | @refuse call c part f source e hcall hstage hmissing herror =>
    refine h.setStage (v.leave call) (.done (.error e)) rfl rfl rfl hcall (by rw [hstage]; rfl) ?_
      fun _ huse => huse
    refine passes_end hcall hstage (v.leave call) rfl (.done (.error e)) rfl (by simp) ?_
      (fun _ => hok.isPartial hreads hcall hstage hmissing) ?_
    · rcases herror with rfl | ⟨hdisposed, -⟩
      · exact .inl rfl
      · exact .inr fun _ _ => Conn.not_inUse_of_disposed hdisposed
    · rintro fault heq
      cases heq
      rcases herror with hcancelled | ⟨-, hfault⟩
      · contradiction
      · exact absurd rfl (hfault fault)
  | @lost call c part f stream e hcall hstage herror =>
    let lost : View := { v with conn := v.conn.lose stream }.leave call
    refine h.setStage lost (.done (.error e)) rfl rfl rfl hcall (by rw [hstage]; rfl) ?_
      fun _ huse => huse.of_lose
    refine passes_end hcall hstage lost rfl (.done (.error e)) rfl (by simp)
      (.inr fun target => hok.not_inUse_lose hcall hstage)
      (fun ha => absurd ha (not_isAbandoned_error herror.1)) fun fault heq => ?_
    cases heq
    exact absurd rfl (herror.2 fault)
  | @drop call c hcall hopen hmissing =>
    have hcallOk := hok.call _ _ hcall
    refine h.setStage (v.leave call) .dropped rfl rfl rfl hcall hopen ?_ fun _ huse => huse
    cases hstage : c.stage with
    | filling part f source =>
      exact passes_end hcall hstage (v.leave call) rfl .dropped rfl (by simp) (.inl rfl)
        (fun _ => hok.isPartial hreads hcall hstage (hmissing part f source hstage)) (by simp)
    | _ =>
      have hempty := hcallOk.emptyHanded hopen (by rw [hstage]; rfl)
      exact passes_idle hempty (v.leave call) rfl .dropped hcall (by simp) (by simp)
  | notice haborted => exact h.conn fun _ huse => .inl huse.of_lose
  | openingDisposed hopened hdisposed => exact h.conn fun _ huse => .inl huse
  | opening hopened hdisposed =>
    exact h.conn fun _ huse => absurd huse (Conn.not_inUse_of_gateOpen rfl)
  | dial hepisode hrunning hphase =>
    exact h.conn fun _ huse => absurd huse (Conn.not_inUse_of_slot rfl)
  | retire hepisode hrunning hdisposed =>
    exact h.conn fun _ huse => absurd huse (Conn.not_inUse_of_slot rfl)
  | establish hepisode hrunning =>
    -- from the new connection nothing has been taken yet
    refine h.conn fun stream huse => .inr (hok.takes.takenFrom_eq_nil ?_)
    exact Nat.le_of_eq (Option.some.inj huse.2.2)
  | dispose => exact h.conn fun _ huse => absurd huse (Conn.not_inUse_of_disposed rfl)
  | clear hdisposed => exact h.conn fun _ huse => absurd huse (Conn.not_inUse_of_slot rfl)
  | arrive bytes hmade hended haborted =>
    exact h.rests (rests_of_stageOf_eq rfl rfl (fun _ => rfl) fun _ => .inl)
  | hangUp stream => exact h.rests (rests_of_stageOf_eq rfl rfl (fun _ => rfl) fun _ => .inl)
  | abort stream => exact h.rests (rests_of_stageOf_eq rfl rfl (fun _ => rfl) fun _ => .inl)
  | flush haborted => exact h.rests (rests_of_stageOf_eq rfl rfl (fun _ => rfl) fun _ => .inl)

theorem Framing.moves (h : v.Framing) (hok : v.Ok) (hreads : v.ReadsFrames) (hmoves : Moves v v') :
    v'.Framing := by
  induction hmoves with
  | refl => exact h
  | tail hmoves hmove ih =>
    exact ih.move (hok.moves hmoves) (hreads.of_jobs (Moves.jobs hmoves)) hmove

theorem ReadsFrames.begun (h : v.ReadsFrames) {event : Event}
    (hevent : ∀ n, event ≠ .begin (.read n)) : (v.begun event).ReadsFrames := by
  cases event with
  | begin job =>
    intro c hc n
    rcases List.mem_append.mp hc with hold | hnew
    · exact h c hold n
    · obtain rfl := List.mem_singleton.mp hnew
      rintro rfl
      exact hevent n rfl
  | _ => exact h

end View

/-! ### Runs -/

/-- A link that is used to read frames only. -/
structure Framed (l : Link) (D : StreamId → Bytes) (R : StreamId → List Bytes) : Prop where
  /-- It is in order. -/
  inOrder : l.InOrder D R
  /-- Only frames are read. -/
  reads : (l.view D R).ReadsFrames
  /-- The connections stand where they should in the streams of frames. -/
  framing : (l.view D R).Framing

variable {l : Link} {D : StreamId → Bytes} {R : StreamId → List Bytes}

theorem framed_new (config : Config) (endpoint : String) (window : Nat) :
    Framed { config, endpoint, window } (fun _ => []) fun _ => [] where
  inOrder := inOrder_new config endpoint window
  reads _ h := nomatch h
  framing := by
    constructor
    case whole => exact fun _ _ => List.nil_prefix
    case bodies => exact fun _ _ h => nomatch h
    case held => exact fun _ _ ⟨_, _, _, h, _⟩ => nomatch h
    case clear => exact fun _ _ _ _ => rfl
    case listed => exact fun _ _ _ h => nomatch h
    case protocol => exact fun _ _ h => nomatch h
    case torn => exact fun _ h => absurd (fun _ hspoilt => hspoilt.1 rfl) h

theorem Framed.step (h : l.Framed D R) {event : Event} (hevent : ∀ n, event ≠ .begin (.read n)) :
    (l.step event).Framed (fun stream => D stream ++ l.deliveredBy event stream)
      fun stream => R stream ++ l.returnedBy event stream := by
  obtain ⟨hmoves, -⟩ := moves_step h.inOrder.ok h.inOrder.settled event
  have hreads := h.reads.begun hevent
  exact ⟨h.inOrder.step event, hreads.of_jobs (View.Moves.jobs hmoves),
    (h.framing.begun h.inOrder.ok event).moves (h.inOrder.ok.begun event) hreads hmoves⟩

theorem Framed.run (h : l.Framed D R) {events : List Event}
    (hevents : ∀ n, .begin (.read n) ∉ events) :
    (l.run events).Framed (fun stream => D stream ++ l.delivered stream events)
      fun stream => R stream ++ l.returned stream events := by
  refine run_of_step (P := Framed) (fun l D R event hevent h => ?_) h
  refine h.step ?_
  rintro n rfl
  exact hevents n hevent

/-! ### What is returned -/

/-- A call has been given up by its caller: it was withdrawn, and failed because of that, or it was
dropped. -/
def IsAbandoned (l : Link) (call : CallId) : Prop :=
  ∃ c, l.calls[call]? = some c ∧ c.stage.isAbandoned

/-- A call has taken bytes of a connection, and it has been given up or has taken bytes of another
one too. -/
def Spoils (l : Link) (call : CallId) (stream : StreamId) : Prop :=
  l.takenBy call stream ≠ [] ∧
    (l.IsAbandoned call ∨ ∃ other, other ≠ stream ∧ l.takenBy call other ≠ [])

/-- No call has spoilt a connection. -/
def Intact (l : Link) (stream : StreamId) : Prop := ∀ call, ¬l.Spoils call stream

theorem isAbandoned_view {call : CallId} : (l.view D R).IsAbandoned call ↔ l.IsAbandoned call := by
  constructor
  · rintro ⟨stage, hstage, habandoned⟩
    obtain ⟨c, hcall, rfl⟩ := Option.map_eq_some_iff.mp hstage
    exact ⟨c, hcall, habandoned⟩
  · rintro ⟨c, hcall, habandoned⟩
    exact ⟨c.stage, View.stageOf_of_getElem? hcall, habandoned⟩

theorem spoils_view {call : CallId} {stream : StreamId} :
    (l.view D R).Spoils call stream ↔ l.Spoils call stream :=
  and_congr Iff.rfl (or_congr isAbandoned_view Iff.rfl)

theorem intact_view {stream : StreamId} : (l.view D R).Intact stream ↔ l.Intact stream :=
  forall_congr' fun _ => not_congr spoils_view

theorem exists_of_result? {call : CallId} {result : Result} (h : l.result? call = some result) :
    ∃ c, l.calls[call]? = some c ∧ c.stage = .done result := by
  rw [result?] at h
  cases hcall : l.calls[call]? with
  | none =>
    rw [hcall] at h
    contradiction
  | some c =>
    rw [hcall] at h
    obtain ⟨job, cancelled, stage⟩ := c
    cases stage with
    | done result' => exact ⟨_, rfl, congrArg Stage.done (Option.some.inj h)⟩
    | _ => contradiction

/-- A read of a frame that succeeds has taken that frame. -/
theorem InOrder.frame_of_ok (h : l.InOrder D R) {call : CallId} {c : Call} {body : Bytes}
    (hcall : l.calls[call]? = some c) (hjob : c.job = .readFrame)
    (hstage : c.stage = .done (.ok body)) : l.hand call = frame body := by
  obtain ⟨job, cancelled, stage⟩ := c
  obtain rfl : job = .readFrame := hjob
  obtain rfl : stage = .done (.ok body) := hstage
  rcases h.ok.call call _ hcall with ⟨hnone, -⟩ | ⟨part, header, hpart, hprogress, hhand⟩
  · exact nomatch hnone
  · exact hhand.trans (View.eq_frame_of_progress hprogress hpart).1

/-- A part of a frame, seen from its front. -/
theorem IsPartial.short {bytes : Bytes} (h : IsPartial .readFrame bytes) :
    bytes.length < 4 ∨ ∃ header part, bytes = header ++ part ∧ header.length = 4 ∧
      part.length < (BigEndian.toInt32 header).toNatClampNeg := by
  obtain ⟨part, header, size, got, hprogress, hless, rfl⟩ := h
  cases hprogress with
  | length => exact .inl hless
  | body header hheader hlength => exact .inr ⟨header, got, rfl, hheader, hless⟩

section Sent

variable {sent : StreamId → List Bytes} (h : l.Framed D R)
  (hsent : ∀ stream, ∀ body ∈ sent stream, IsBody body)
  (hdelivered : ∀ stream, D stream <+: frames (sent stream))
include h hsent hdelivered

/-- What stands behind whole frames that have been taken comes from the frames that are sent. -/
theorem Framed.exists_rest {stream : StreamId} {bodies : List Bytes} {tail : Bytes}
    (hbodies : ∀ body ∈ bodies, IsBody body)
    (htaken : frames bodies ++ tail <+: l.takenFrom stream) :
    ∃ rest, sent stream = bodies ++ rest ∧ tail <+: frames rest :=
  eq_append_of_frames_prefix hbodies (hsent stream)
    ((htaken.trans (h.inOrder.flow stream).taken).trans (hdelivered stream))

theorem Framed.returned_prefix {stream : StreamId} (hintact : l.Intact stream) :
    R stream <+: sent stream := by
  have hwhole := h.framing.whole stream (intact_view.mpr hintact)
  rw [← List.append_nil (frames _)] at hwhole
  obtain ⟨rest, hrest, -⟩ := h.exists_rest hsent hdelivered (h.framing.bodies stream) hwhole
  exact ⟨rest, hrest.symm⟩

theorem Framed.not_intact_of_protocol {call : CallId} {fault : ProtocolFault}
    (hresult : l.result? call = some (.error (.protocol fault))) :
    ∃ stream, l.takenBy call stream ≠ [] ∧ ¬l.Intact stream := by
  obtain ⟨c, hcall, hstage⟩ := exists_of_result? hresult
  have hstageOf : (l.view D R).stageOf call = some (.done (.error (.protocol fault))) :=
    hstage ▸ View.stageOf_of_getElem? hcall
  obtain ⟨stream, htaken, hheader⟩ := h.framing.protocol call fault hstageOf
  refine ⟨stream, htaken, fun hintact => ?_⟩
  obtain ⟨bodies, header, hbodies, hlength, himpossible, hbehind⟩ :=
    hheader (intact_view.mpr hintact)
  obtain ⟨rest, hrest, hfront⟩ := h.exists_rest hsent hdelivered hbodies hbehind
  rw [← List.append_nil header] at hfront
  obtain ⟨body, rest, rfl, rfl⟩ := exists_cons_of_header hlength hfront
  -- the four bytes are the length of a frame that was sent
  have hbody := hsent stream body (hrest ▸ List.mem_append_right _ (List.mem_cons_self ..))
  rw [BigEndian.toInt32_ofInt32] at himpossible
  exact nomatch himpossible.symm.trans hbody.isFrameLength

theorem Framed.torn {stream : StreamId} (hintact : ¬l.Intact stream) :
    ∃ call, l.Spoils call stream ∧ ((∃ earlier < stream, l.takenBy call earlier ≠ []) ∨
      ∃ bodies body got left, l.takenBy call stream = got ∧ frame body = got ++ left ∧ got ≠ [] ∧
        left ≠ [] ∧ bodies ++ [body] <+: sent stream ∧ bodies <+: R stream ∧
        frames bodies ++ got <+: l.takenFrom stream) := by
  obtain ⟨call, hspoilt, hreason⟩ :=
    h.framing.torn stream fun hsame => hintact (intact_view.mp hsame)
  refine ⟨call, spoils_view.mp hspoilt, hreason.imp_right ?_⟩
  rintro ⟨bodies, hpartial, hbodies, hbehind⟩
  obtain ⟨rest, hrest, hgot⟩ := h.exists_rest hsent hdelivered
    (fun body hbody => h.framing.bodies stream body (hbodies.subset hbody)) hbehind
  -- the call has stopped inside the first frame behind those returned
  obtain ⟨body, rest, left, rfl, hframe, hleft⟩ := exists_frame_of_short
    (fun body hbody => hsent stream body (hrest ▸ List.mem_append_right _ hbody)) hspoilt.1
    hpartial.short hgot
  refine ⟨bodies, body, _, left, rfl, hframe, hspoilt.1, hleft, ?_, hbodies, hbehind⟩
  exact ⟨rest, by rw [hrest, List.append_assoc, List.singleton_append]⟩

end Sent

/-- Reads of frames on connections on which whole frames are sent, in whatever pieces they arrive
and however calls, tasks and the far side are interleaved. A read that succeeds has taken one whole
frame. As long as no call spoils a connection, that is, no call takes bytes of it and is given up or
goes on to another one with them, what is returned from there are the bodies of the frames that were
sent, in order. A length is found impossible only where that has happened. And where it has, the
call in question has left the connection strictly inside a frame, or it has come to it with bytes of
an earlier one. -/
theorem run_readFrame (config : Config) (endpoint : String) (window : Nat)
    (sent : StreamId → List Bytes) (events : List Event)
    (hreads : ∀ n, .begin (.read n) ∉ events)
    (hsent : ∀ stream, ∀ body ∈ sent stream, IsBody body)
    (hdelivered : ∀ stream, delivered { config, endpoint, window } stream events <+:
      frames (sent stream)) :
    let start : Link := { config, endpoint, window }
    let l := start.run events
    (∀ call c body, l.calls[call]? = some c → c.job = .readFrame → c.stage = .done (.ok body) →
      l.hand call = frame body ∧ (∃ stream, l.takenBy call stream ≠ []) ∧
      ∀ stream, l.takenBy call stream ≠ [] → body ∈ start.returned stream events ∧
        (l.Intact stream → l.takenBy call stream = frame body)) ∧
    (∀ stream, l.Intact stream → start.returned stream events <+: sent stream) ∧
    (∀ call fault, l.result? call = some (.error (.protocol fault)) →
      ∃ stream, l.takenBy call stream ≠ [] ∧ ¬l.Intact stream) ∧
    (∀ stream, ¬l.Intact stream → ∃ call, l.Spoils call stream ∧
      ((∃ earlier < stream, l.takenBy call earlier ≠ []) ∨
        ∃ bodies body got left, l.takenBy call stream = got ∧ frame body = got ++ left ∧
          got ≠ [] ∧ left ≠ [] ∧ bodies ++ [body] <+: sent stream ∧
          bodies <+: start.returned stream events ∧
          frames bodies ++ got <+: l.takenFrom stream)) := by
  intro start l
  have hframed : l.Framed (fun stream => start.delivered stream events)
      fun stream => start.returned stream events :=
    (framed_new config endpoint window).run hreads
  refine ⟨fun call c body hcall hjob hstage => ?_, fun stream => ?_, fun call fault => ?_,
    fun stream => ?_⟩
  · have hhand : l.hand call = frame body := hframed.inOrder.frame_of_ok hcall hjob hstage
    let v := l.view (fun stream => start.delivered stream events)
      fun stream => start.returned stream events
    have hdone : v.stageOf call = some (.done (.ok body)) :=
      hstage ▸ View.stageOf_of_getElem? (v := v) hcall
    have hsome : v.hand call ≠ [] := fun hnone => frame_ne_nil body (hhand.symm.trans hnone)
    refine ⟨hhand, View.exists_takenBy_of_hand hsome, fun stream htaken =>
      ⟨hframed.framing.listed call stream body hdone htaken, fun hintact => ?_⟩⟩
    have hintact : v.Intact stream := intact_view.mpr hintact
    exact (hintact.hand_eq htaken).symm.trans hhand
  · exact hframed.returned_prefix hsent hdelivered
  · exact hframed.not_intact_of_protocol hsent hdelivered
  · exact hframed.torn hsent hdelivered

/-! ### Two runs -/

/-- How a link gets its first connection. -/
def connecting : List Event :=
  [.pollOpening, .pollEpisode 0 .pending false, .pollEpisode 0 .established false]

/-- Where nothing is sent nothing is delivered. -/
theorem delivered_eq_nil (l : Link) {stream : StreamId} {events : List Event}
    (hnone : ∀ bytes, .arrive stream bytes ∉ events) : l.delivered stream events = [] := by
  induction events generalizing l with
  | nil => rfl
  | cons event events ih =>
    rw [delivered, ih _ fun bytes hb => hnone bytes (List.mem_cons_of_mem _ hb), List.append_nil]
    cases event with
    | arrive target bytes =>
      have hne : target ≠ stream := by
        rintro rfl
        exact hnone bytes (List.mem_cons_self ..)
      rw [deliveredBy]
      cases l.streams[stream]? with
      | none => rfl
      | some s => exact if_neg fun h => hne h.1
    | _ => rfl

/-- A read that is cancelled while it waits with empty hands does no harm to the next one, which
gets its frame in two pieces. -/
theorem run_readFrame_apart :
    let start : Link := { config := {}, endpoint := "localhost:9092", window := 0 }
    let events := connecting ++ [.begin .readFrame, .poll 0 false, .cancel 0, .poll 0 false,
      .begin .readFrame, .arrive 0 [0, 0, 0, 1], .poll 1 false, .arrive 0 [7], .poll 1 false]
    (start.run events).result? 0 = some (.error .cancelled) ∧
      (start.run events).result? 1 = some (.ok [7]) ∧ start.returned 0 events <+: [[7]] := by
  intro start events
  have hreads : ∀ n, .begin (.read n) ∉ events := by
    intro n hn
    simp [events, connecting] at hn
  have hsent : ∀ stream : StreamId, ∀ body ∈ if stream = 0 then [[7]] else [], IsBody body := by
    intro stream body hbody
    split_ifs at hbody
    · obtain rfl := List.mem_singleton.mp hbody
      decide
    · exact nomatch hbody
  have hdelivered : ∀ stream, start.delivered stream events <+:
      frames (if stream = 0 then [[7]] else []) := by
    rintro (_ | stream)
    · decide
    · rw [delivered_eq_nil start (by simp [events, connecting])]
      exact List.nil_prefix
  -- the call that was cancelled has taken nothing, so the connection is intact
  have hintact : (start.run events).Intact 0 := by
    have habandoned : (start.run events).calls.map (·.stage.isAbandoned) = [true, false] := by
      decide
    have hnone : (start.run events).takenBy 0 0 = [] := by decide
    have hfrom : ∀ t ∈ (start.run events).takes, t.stream = 0 := by decide
    rintro call ⟨hsome, ⟨c, hcall, hgiven⟩ | ⟨other, hne, hother⟩⟩
    · obtain rfl : call = 0 := by
        have hflag := congrArg (·[call]?) habandoned
        simp only [List.getElem?_map, hcall, Option.map_some, hgiven] at hflag
        rcases call with _ | _ | call
        · rfl
        all_goals exact nomatch hflag
      exact hsome hnone
    · refine hother (bytesOf_eq_nil fun t ht => ?_)
      simp [isOf, hfrom t ht, Ne.symm hne]
  exact ⟨by decide, by decide,
    (run_readFrame {} "localhost:9092" 0 _ events hreads hsent hdelivered).2.1 0 hintact⟩

/-- A read that is cancelled behind the length of a frame leaves the body to the next one, which
takes it for a length. -/
theorem not_forall_run_readFrame :
    ¬∀ (config : Config) (endpoint : String) (window : Nat) (sent : StreamId → List Bytes)
      (events : List Event), (∀ n, .begin (.read n) ∉ events) →
      (∀ stream, ∀ body ∈ sent stream, IsBody body) →
      (∀ stream, delivered { config, endpoint, window } stream events <+: frames (sent stream)) →
      (∀ stream, returned { config, endpoint, window } stream events <+: sent stream) ∧
        ∀ call fault, (run { config, endpoint, window } events).result? call ≠
          some (.error (.protocol fault)) := by
  intro hclaim
  let events := connecting ++ [.begin .readFrame, .arrive 0 [0, 0, 0, 4], .poll 0 false, .cancel 0,
    .poll 0 false, .arrive 0 [255, 255, 255, 255], .begin .readFrame, .poll 1 false]
  let sent : StreamId → List Bytes :=
    fun stream => if stream = 0 then [[255, 255, 255, 255]] else []
  have hreads : ∀ n, .begin (.read n) ∉ events := by
    intro n hn
    simp [events, connecting] at hn
  have hsent : ∀ stream, ∀ body ∈ sent stream, IsBody body := by
    intro stream body hbody
    dsimp only [sent] at hbody
    split_ifs at hbody
    · obtain rfl := List.mem_singleton.mp hbody
      decide
    · exact nomatch hbody
  have hdelivered : ∀ stream, delivered { config := {}, endpoint := "localhost:9092", window := 0 }
      stream events <+: frames (sent stream) := by
    rintro (_ | stream)
    · decide
    · rw [delivered_eq_nil _ (by simp [events, connecting])]
      exact List.nil_prefix
  obtain ⟨-, hprotocol⟩ := hclaim {} "localhost:9092" 0 sent events hreads hsent hdelivered
  exact hprotocol 1 (.frameLength (-1) "localhost:9092") (by decide)

end Link

end BrokerWire
