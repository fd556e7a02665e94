import BrokerWire.Proofs.Link.Losing

/-!
# Reads one after the other

Only the read whose turn it is takes bytes, so what is taken from a connection is made up of one run
for each turn, in the order of the turns (`Serial`).
-/

namespace BrokerWire

namespace Link

variable {l l' : Link} {call id : CallId} {c c' : Call} {stream : StreamId} {event : Event}
  {way : Way}

/-! ### What is taken -/

/-- What a call takes does not change what others have taken. -/
theorem TakesOnly.takenBy_of_ne (h : l.TakesOnly l' call way) (hne : id ≠ call)
    (stream : StreamId) : l'.takenBy id stream = l.takenBy id stream := by
  obtain ⟨new, htakes, hown⟩ := h
  have hnone : ∀ t ∈ new, isOf id stream t = false := fun t ht => by
    simp [isOf, (hown t ht).1, Ne.symm hne]
  rw [takenBy, htakes, bytesOf_append, bytesOf_eq_nil hnone, List.append_nil]
  rfl

/-- What a call takes is all that is taken meanwhile. -/
theorem TakesOnly.exists_new (h : l.TakesOnly l' call way) (stream : StreamId) :
    ∃ new, l'.takenBy call stream = l.takenBy call stream ++ new ∧
      l'.takenFrom stream = l.takenFrom stream ++ new := by
  obtain ⟨new, htakes, hown⟩ := h
  have hsame : bytesOf (isOf call stream) new = bytesOf (isFrom stream) new := by
    have hfilter : new.filter (isOf call stream) = new.filter (isFrom stream) :=
      List.filter_congr fun t ht => by simp [isOf, isFrom, (hown t ht).1]
    rw [bytesOf, bytesOf, hfilter]
  refine ⟨bytesOf (isFrom stream) new, ?_, ?_⟩
  · rw [takenBy, htakes, bytesOf_append, hsame]
    rfl
  · rw [takenFrom, htakes, bytesOf_append]
    rfl

/-- A read at this stage has not had its turn. -/
def Stage.isEarly : Stage → Bool
  | .fresh | .queued => true
  | _ => false

theorem Stage.isOpen_of_isEarly {stage : Stage} (hearly : stage.isEarly) : stage.isOpen := by
  cases stage <;> first | rfl | contradiction

/-- Whether a call is a read that gets its turn when it is advanced. -/
def enters (l : Link) (call : CallId) : Bool :=
  (l.calls[call]?).any (fun c => c.job.start?.isSome && c.stage.isEarly) &&
    !l.disposed && !l.isCancelled call && l.HasTurn call

/-- The read that an event gives its turn. -/
def turnBy (l : Link) : Event → List CallId
  | .poll call _ => if l.enters call then [call] else []
  | _ => []

/-- The reads that get their turn in a course of events, in order. -/
def turns (l : Link) (events : List Event) : List CallId := l.collect turnBy events

theorem hasTurn_of_enters (h : l.enters call) : l.HasTurn call := by
  simp only [enters, Bool.and_eq_true, decide_eq_true_eq] at h
  exact h.2

theorem exists_of_enters (h : l.enters call) :
    ∃ c, l.calls[call]? = some c ∧ c.job.start?.isSome ∧ c.stage.isEarly := by
  simp only [enters, Bool.and_eq_true, Option.any_eq_true] at h
  exact h.1.1.1

theorem enters_of_mem_turnBy (h : call ∈ l.turnBy event) :
    l.enters call ∧ ∃ ioFirst, event = .poll call ioFirst := by
  cases event with
  | poll other ioFirst =>
    rw [turnBy] at h
    split_ifs at h with henters
    · obtain rfl := List.mem_singleton.mp h
      exact ⟨henters, ioFirst, rfl⟩
    · exact nomatch h
  | _ => exact nomatch h

/-- A call that waits for bytes has its turn. -/
theorem Sound.hasTurn (h : l.Sound) (hcall : l.calls[call]? = some c)
    (hfilling : c.stage.isFilling) : l.readers.holder = some call ∧ l.HasTurn call := by
  obtain ⟨D, R, hinOrder⟩ := h.inOrder
  have hholder : l.readers.holder = some call := hinOrder.ok.holder hcall hfilling
  exact ⟨hholder, View.holder_join hholder call⟩

/-- A read that goes on after it has had its turn waits for bytes. -/
theorem Sound.isFilling (h : l.Sound) (hcall : l.calls[call]? = some c) (hopen : c.stage.isOpen)
    (hread : c.job.start?.isSome) (hearly : c.stage.isEarly = false) : c.stage.isFilling := by
  obtain ⟨D, R, hinOrder⟩ := h.inOrder
  have hok := hinOrder.ok.call call c hcall
  obtain ⟨job, cancelled, stage⟩ := c
  have hnot : job.start? ≠ none := Option.isSome_iff_ne_none.mp hread
  cases stage with
  | filling => rfl
  | offering => exact absurd hok.1 hnot
  | lining => exact absurd hok.1 hnot
  | sending => exact absurd hok.1 hnot
  | winding => exact absurd hok.1 hnot
  | _ => contradiction

/-- While a read has its turn no other gets it. -/
theorem Sound.turnBy_eq_nil (h : l.Sound) (hcall : l.calls[call]? = some c)
    (hfilling : c.stage.isFilling) (event : Event) : l.turnBy event = [] := by
  refine List.eq_nil_iff_forall_not_mem.mpr fun other hother => ?_
  have henters := (enters_of_mem_turnBy hother).1
  -- the other would be the holder too, and it cannot have had its turn and still be waiting for it
  have hholder := View.holder_join (h.hasTurn hcall hfilling).1 other
  obtain rfl := Option.some.inj (hholder.symm.trans (hasTurn_of_enters henters))
  obtain ⟨c', hcall', -, hearly⟩ := exists_of_enters henters
  obtain rfl := Option.some.inj (hcall.symm.trans hcall')
  obtain ⟨job, cancelled, stage⟩ := c
  cases stage <;> contradiction

/-! ### Calls that take nothing -/

theorem takes_putOn (l : Link) (call : CallId) (stream : StreamId) (bytes : Bytes) :
    (l.putOn call stream bytes).2.takes = l.takes := by
  rw [putOn]
  split
  · rfl
  · split <;> rfl

theorem takes_send (l : Link) (call : CallId) (stream : StreamId) (rest : Bytes) (ioFirst : Bool) :
    (l.send call stream rest ioFirst).takes = l.takes := by
  have hput := takes_putOn l call stream rest
  rw [send]
  split_ifs
  · rfl
  · generalize l.putOn call stream rest = result at hput
    obtain ⟨outlet, l'⟩ := result
    cases outlet with
    | complete => exact hput
    | partly rest => dsimp only; split_ifs <;> exact hput
    | aborted => exact (takes_lose _ stream).trans hput

theorem takes_lineUp (l : Link) (call : CallId) (stream : StreamId) (frame : Bytes)
    (ioFirst : Bool) : (l.lineUp call stream frame ioFirst).takes = l.takes := by
  rw [lineUp]
  split_ifs
  · rfl
  · rfl
  · dsimp only
    split
    · rfl
    · split_ifs
      · exact takes_send _ call stream frame ioFirst
      · rfl

theorem takes_enterWrite (l : Link) (call : CallId) (frame : Bytes) (ioFirst : Bool) :
    (l.enterWrite call frame ioFirst).takes = l.takes := by
  rw [enterWrite]
  split_ifs
  · rfl
  · rfl
  · split
    · exact takes_lineUp l call _ frame ioFirst
    · rfl
  · rfl

theorem takes_windDown (l : Link) (call : CallId) (task : Task) (deadline : Nat) :
    (l.windDown call task deadline).takes = l.takes := by
  rw [windDown]
  split_ifs <;> rfl

theorem takes_enterDispose (l : Link) (call : CallId) : (l.enterDispose call).takes = l.takes := by
  rw [enterDispose]
  split_ifs
  · rfl
  · dsimp only
    split
    · rfl
    · exact takes_windDown _ call _ _

/-- A call that is no read takes nothing. -/
theorem takes_poll_of_not_read (hcall : l.calls[call]? = some c) (hjob : c.job.start? = none)
    (hfilling : c.stage.isFilling = false) (ioFirst : Bool) :
    (l.poll call ioFirst).takes = l.takes := by
  rw [poll, hcall]
  obtain ⟨job, cancelled, stage⟩ := c
  dsimp only
  cases stage with
  | fresh =>
    cases job with
    | write frame => exact takes_enterWrite l call frame ioFirst
    | dispose => exact takes_enterDispose l call
    | _ => contradiction
  | offering =>
    cases job with
    | write frame => exact takes_enterWrite l call frame ioFirst
    | _ => rfl
  | lining stream =>
    cases job with
    | write frame => exact takes_lineUp l call stream frame ioFirst
    | _ => rfl
  | queued => cases job <;> first | rfl | contradiction
  | filling => contradiction
  | sending stream rest => cases job <;> exact takes_send l call stream rest ioFirst
  | winding task deadline => cases job <;> exact takes_windDown l call task deadline
  | done result => cases job <;> rfl
  | dropped => cases job <;> rfl

/-- A read that does not get its turn takes nothing and does not wait for bytes. -/
theorem enterRead_of_not_enters (hcall : l.calls[call]? = some c) (hread : c.job.start?.isSome)
    (hearly : c.stage.isEarly) (hnot : l.enters call = false) (part : Part) (size : Nat) :
    (l.enterRead call part size).takes = l.takes ∧
      ∃ stage, (stage = .queued ∨ stage = .done (.error l.refusal)) ∧
        (l.enterRead call part size).calls = (l.setStage call stage).calls := by
  rw [enterRead]
  dsimp only
  split_ifs with hdisposed hcancelled hturn
  · exact ⟨rfl, _, .inr (by rw [refusal, if_pos hdisposed]), rfl⟩
  · exact ⟨rfl, _, .inr (by rw [refusal, if_neg hdisposed]), rfl⟩
  · have henters : l.enters call := by
      simp [enters, hcall, hread, hearly, hdisposed, hcancelled, HasTurn, hturn]
    cases henters.symm.trans hnot
  · exact ⟨rfl, .queued, .inl rfl, rfl⟩

/-- A read that is advanced before its turn tries to get it. -/
theorem exists_enterRead (hcall : l.calls[call]? = some c) (hread : c.job.start?.isSome)
    (hearly : c.stage.isEarly) (ioFirst : Bool) :
    ∃ part size, l.poll call ioFirst = l.enterRead call part size := by
  rw [poll, hcall]
  obtain ⟨job, cancelled, stage⟩ := c
  cases job with
  | read n => cases stage <;> first | exact ⟨_, _, rfl⟩ | contradiction
  | readFrame => cases stage <;> first | exact ⟨_, _, rfl⟩ | contradiction
  | _ => contradiction

/-- A call that waits for bytes is a read. -/
theorem Sound.isRead (h : l.Sound) (hcall : l.calls[call]? = some c)
    (hfilling : c.stage.isFilling) : c.job.start?.isSome := by
  obtain ⟨D, R, hinOrder⟩ := h.inOrder
  have hok := hinOrder.ok.call call c hcall
  obtain ⟨job, cancelled, stage⟩ := c
  cases stage with
  | filling =>
    obtain ⟨-, -, header, size, hprogress, -⟩ := hok
    exact hprogress.isSome_start?
  | _ => contradiction

/-- A call that is neither given its turn to read nor has it takes nothing, and does not have it
afterwards. -/
theorem Sound.poll_of_not_enters (h : l.Sound) (hcall : l.calls[call]? = some c)
    (hopen : c.stage.isOpen) (hnot : l.enters call = false) (hfilling : c.stage.isFilling = false)
    (ioFirst : Bool) : (l.poll call ioFirst).takes = l.takes ∧
      ∀ c', (l.poll call ioFirst).calls[call]? = some c' → c'.stage.isFilling = false := by
  by_cases hread : c.job.start?.isSome
  · -- a read that goes on and does not wait for bytes has not had its turn
    have hearly : c.stage.isEarly := by
      by_contra hearly
      exact nomatch (h.isFilling hcall hopen hread (by simpa using hearly)).symm.trans hfilling
    obtain ⟨part, size, hpoll⟩ := exists_enterRead hcall hread hearly ioFirst
    obtain ⟨htakes, stage, hstage, hcalls⟩ :=
      enterRead_of_not_enters hcall hread hearly hnot part size
    rw [hpoll]
    refine ⟨htakes, fun c' hcall' => ?_⟩
    rw [hcalls, getElem?_setStage_self hcall] at hcall'
    obtain rfl := Option.some.inj hcall'
    rcases hstage with rfl | rfl <;> rfl
  · have hjob : c.job.start? = none := Option.not_isSome_iff_eq_none.mp hread
    refine ⟨takes_poll_of_not_read hcall hjob hfilling ioFirst, fun c' hcall' => ?_⟩
    obtain ⟨stage, hcalls, -⟩ := (h.ends hcall hopen ioFirst).outcome
    have hafter := hcall'
    rw [hcalls, getElem?_setStage_self hcall] at hafter
    by_contra hfilling'
    have hread' := (h.step (.poll call ioFirst)).isRead hcall' (by simpa using hfilling')
    rw [← Option.some.inj hafter] at hread'
    exact hread hread'

/-! ### One turn after the other -/

/-- What is true of a link on which reads have had these turns. -/
structure Serial (l : Link) (turns : List CallId) : Prop where
  /-- No read has more than one turn. -/
  nodup : turns.Nodup
  /-- A read that has had its turn does not wait for it. -/
  begun : ∀ call ∈ turns, ∃ c, l.calls[call]? = some c ∧ c.job.start?.isSome ∧
    c.stage.isEarly = false
  /-- A read that waits for bytes has had the last turn. -/
  current : ∀ (call : CallId) (c : Call), l.calls[call]? = some c → c.stage.isFilling →
    ∃ earlier, turns = earlier ++ [call]
  /-- What is taken from a connection is one run for each turn. -/
  taken : ∀ stream, turns.flatMap (l.takenBy · stream) = l.takenFrom stream
  /-- Without a turn nothing is taken. -/
  idle : ∀ call, call ∉ turns → ∀ stream, l.takenBy call stream = []

variable {turns : List CallId}

/-- A read that is about to get its turn has had none. -/
theorem Serial.not_mem (h : l.Serial turns) (henters : l.enters call) : call ∉ turns := by
  intro hmem
  obtain ⟨c, hcall, -, hbegun⟩ := h.begun call hmem
  obtain ⟨c', hcall', -, hearly⟩ := exists_of_enters henters
  obtain rfl := Option.some.inj (hcall.symm.trans hcall')
  exact nomatch hearly.symm.trans hbegun

/-- What the last call takes is taken behind all that has been taken before. -/
theorem TakesOnly.flatMap_takenBy {earlier : List CallId} (h : l.TakesOnly l' call way)
    (hnew : call ∉ earlier)
    (htaken : (earlier ++ [call]).flatMap (l.takenBy · stream) = l.takenFrom stream) :
    (earlier ++ [call]).flatMap (l'.takenBy · stream) = l'.takenFrom stream := by
  obtain ⟨new, hcall, hall⟩ := h.exists_new stream
  have hsame : earlier.flatMap (l'.takenBy · stream) = earlier.flatMap (l.takenBy · stream) :=
    List.flatMap_congr fun id hid => h.takenBy_of_ne (fun heq => hnew (heq ▸ hid)) stream
  rw [hall, ← htaken, List.flatMap_append, List.flatMap_append, hsame, List.append_assoc]
  simp [hcall]

theorem takes_drop (l : Link) (call : CallId) : (l.drop call).takes = l.takes := by
  rw [drop]
  split
  · rfl
  · split <;> rfl

theorem takes_step_of_not_poll (hevent : ∀ call ioFirst, event ≠ .poll call ioFirst) :
    (l.step event).takes = l.takes := by
  cases event with
  | poll call ioFirst => exact absurd rfl (hevent call ioFirst)
  | drop call => exact takes_drop l call
  | pollOpening =>
    exact congrArg View.takes (view_pollOpening (D := fun _ => []) (R := fun _ => []) l)
  | pollEpisode index dial ioFirst =>
    exact congrArg View.takes
      (view_pollEpisode (D := fun _ => []) (R := fun _ => []) l index dial ioFirst)
  | _ => rfl

/-- A read that has its turn after it has been advanced had it before or got it then. -/
theorem Serial.exists_earlier (h : l.Serial turns) (hsound : l.Sound)
    (hcall : l.calls[call]? = some c) (hturn : c.stage.isFilling ∨ l.enters call) (ioFirst : Bool) :
    ∃ earlier, turns ++ l.turnBy (.poll call ioFirst) = earlier ++ [call] := by
  rcases hturn with hfilling | henters
  · rw [hsound.turnBy_eq_nil hcall hfilling, List.append_nil]
    exact h.current call c hcall hfilling
  · exact ⟨turns, congrArg (turns ++ ·) (if_pos henters)⟩

theorem Serial.nodup_step (h : l.Serial turns) (event : Event) :
    (turns ++ l.turnBy event).Nodup := by
  rcases hturns : l.turnBy event with _ | ⟨call, rest⟩
  · rw [List.append_nil]
    exact h.nodup
  · have hmem : call ∈ l.turnBy event := hturns ▸ List.mem_cons_self ..
    obtain ⟨henters, ioFirst, rfl⟩ := enters_of_mem_turnBy hmem
    have hnew := h.not_mem henters
    rw [← hturns, turnBy, if_pos henters]
    exact (List.perm_append_singleton call turns).nodup_iff.mpr
      (List.nodup_cons.mpr ⟨hnew, h.nodup⟩)

/-- The call that takes bytes in an event, if one does, has the last turn. -/
theorem Serial.takes_step (h : l.Serial turns) (hsound : l.Sound) (event : Event) :
    (l.step event).takes = l.takes ∨ ∃ call earlier, turns ++ l.turnBy event = earlier ++ [call] ∧
      call ∉ earlier ∧ l.TakesOnly (l.step event) call (l.wayOf call) := by
  cases event with
  | poll call ioFirst =>
    obtain hover | ⟨c, hcall, hopen⟩ := l.over_or_open call
    · exact .inl (congrArg takes (poll_of_not_isOpen hover ioFirst))
    by_cases hturn : c.stage.isFilling ∨ l.enters call
    · obtain ⟨earlier, hturns⟩ := h.exists_earlier hsound hcall hturn ioFirst
      have hnodup := h.nodup_step (.poll call ioFirst)
      rw [hturns, (List.perm_append_singleton call earlier).nodup_iff] at hnodup
      exact .inr ⟨call, earlier, hturns, (List.nodup_cons.mp hnodup).1,
        (hsound.ends hcall hopen ioFirst).takes⟩
    · obtain ⟨hfilling, henters⟩ : c.stage.isFilling = false ∧ l.enters call = false := by
        simpa using hturn
      exact .inl (hsound.poll_of_not_enters hcall hopen henters hfilling ioFirst).1
  | _ => exact .inl (takes_step_of_not_poll nofun)

/-- A read that gets its turn has taken nothing before. -/
theorem Serial.taken_step (h : l.Serial turns) (event : Event) (stream : StreamId) :
    (turns ++ l.turnBy event).flatMap (l.takenBy · stream) = l.takenFrom stream := by
  have hnothing : (l.turnBy event).flatMap (l.takenBy · stream) = [] :=
    List.flatMap_eq_nil_iff.mpr fun call hmem =>
      h.idle call (h.not_mem (enters_of_mem_turnBy hmem).1) stream
  rw [List.flatMap_append, hnothing, List.append_nil, h.taken]

/-- A call that has its turn does not wait for it when it has been advanced. -/
theorem Outcome.not_isEarly {stage : Stage} {conn : Conn} (h : Outcome l call way stage conn)
    (hturn : l.HasTurn call) : stage.isEarly = false := by
  cases h with
  | queued hnot => exact absurd hturn hnot
  | givesUp hstage => rcases hstage with rfl | ⟨task, deadline, rfl⟩ <;> rfl
  | _ => rfl

theorem Serial.begun_step (h : l.Serial turns) (hsound : l.Sound) (event : Event)
    (hmem : call ∈ turns ++ l.turnBy event) : ∃ c, (l.step event).calls[call]? = some c ∧
      c.job.start?.isSome ∧ c.stage.isEarly = false := by
  rcases List.mem_append.mp hmem with hold | hnew
  · obtain ⟨c, hcall, hread, hearly⟩ := h.begun call hold
    have hchange := hsound.callChange event
    have hlt : call < (l.step event).calls.length :=
      Nat.lt_of_lt_of_le (List.getElem?_eq_some_iff.mp hcall).1 hchange.length_le
    refine ⟨_, List.getElem?_eq_getElem hlt, ?_⟩
    cases hchange.stageChange (List.getElem?_eq_getElem hlt) with
    | same hcall' hjob hstage =>
      obtain rfl := Option.some.inj (hcall.symm.trans hcall')
      exact ⟨hjob ▸ hread, hstage ▸ hearly⟩
    | begin hnone => exact nomatch hcall.symm.trans hnone
    | drop hcall' hopen hjob hevent hstage =>
      obtain rfl := Option.some.inj (hcall.symm.trans hcall')
      exact ⟨hjob ▸ hread, by rw [hstage]; rfl⟩
    | poll hcall' hopen hjob hevent houtcome =>
      obtain rfl := Option.some.inj (hcall.symm.trans hcall')
      have hfilling := hsound.isFilling hcall hopen hread hearly
      exact ⟨hjob ▸ hread, houtcome.not_isEarly (hsound.hasTurn hcall hfilling).2⟩
  · obtain ⟨henters, ioFirst, rfl⟩ := enters_of_mem_turnBy hnew
    obtain ⟨c, hcall, hread, hearly⟩ := exists_of_enters henters
    obtain ⟨stage, hcalls, houtcome⟩ :=
      (hsound.ends hcall (Stage.isOpen_of_isEarly hearly) ioFirst).outcome
    exact ⟨{ c with stage }, hcalls ▸ getElem?_setStage_self hcall stage, hread,
      houtcome.not_isEarly (hasTurn_of_enters henters)⟩

theorem Serial.current_step (h : l.Serial turns) (hsound : l.Sound) (event : Event)
    (hcall' : (l.step event).calls[call]? = some c') (hfilling' : c'.stage.isFilling) :
    ∃ earlier, turns ++ l.turnBy event = earlier ++ [call] := by
  cases (hsound.callChange event).stageChange hcall' with
  | same hcall hjob hstage =>
    have hfilling := hstage ▸ hfilling'
    rw [hsound.turnBy_eq_nil hcall hfilling, List.append_nil]
    exact h.current call _ hcall hfilling
  | begin hnone hstage => exact nomatch hstage ▸ hfilling'
  | drop hcall hopen hjob hevent hstage => exact nomatch hstage ▸ hfilling'
  | @poll c ioFirst hcall hopen hjob hevent houtcome =>
    subst hevent
    refine h.exists_earlier hsound hcall ?_ ioFirst
    by_contra hturn
    obtain ⟨hfilling, henters⟩ : c.stage.isFilling = false ∧ l.enters call = false := by
      simpa using hturn
    have hnot := (hsound.poll_of_not_enters hcall hopen henters hfilling ioFirst).2 c' hcall'
    exact nomatch hfilling'.symm.trans hnot

theorem Serial.step (h : l.Serial turns) (hsound : l.Sound) (event : Event) :
    (l.step event).Serial (turns ++ l.turnBy event) where
  nodup := h.nodup_step event
  begun call hmem := h.begun_step hsound event hmem
  current call c' hcall' hfilling' := h.current_step hsound event hcall' hfilling'
  taken stream := by
    have htaken := h.taken_step event stream
    rcases h.takes_step hsound event with hsame | ⟨call, earlier, hturns, hnew, htakes⟩
    · rw [takenFrom, hsame]
      simp only [takenBy, hsame]
      exact htaken
    · rw [hturns] at htaken ⊢
      exact htakes.flatMap_takenBy hnew htaken
  idle id hid stream := by
    obtain ⟨hold, -⟩ : id ∉ turns ∧ id ∉ l.turnBy event := by simpa using hid
    rcases h.takes_step hsound event with hsame | ⟨call, earlier, hturns, hnew, htakes⟩
    · rw [takenBy, hsame]
      exact h.idle id hold stream
    · have hne : id ≠ call := by
        rintro rfl
        exact hid (hturns ▸ List.mem_append_right _ (List.mem_singleton_self _))
      rw [htakes.takenBy_of_ne hne stream]
      exact h.idle id hold stream

end Link

end BrokerWire
