import BrokerWire.Proofs.Link.Advancing

/-!
# Events as moves

Every event changes the view of a link by moves (`moves_step`), so what every move keeps holds after
every course of events on a link that is new. `Settled` holds between events: a call that waits for
bytes misses some, so a call that is dropped then has not read all it was to read.
-/

namespace BrokerWire

namespace Link

open View

/-- The calls that wait for bytes miss some. -/
def Settled (l : Link) : Prop := ∀ call, l.IsSettled call

variable {l : Link} {D : StreamId → Bytes} {R : StreamId → List Bytes}

/-! ### Calls -/

/-- A call is over, if there is one, or it can go on. -/
theorem over_or_open (l : Link) (call : CallId) :
    (∀ c, l.calls[call]? = some c → c.stage.isOpen = false) ∨
      ∃ c, l.calls[call]? = some c ∧ c.stage.isOpen := by
  cases hcall : l.calls[call]? with
  | none => exact .inl nofun
  | some c => cases hopen : c.stage.isOpen <;> simp [hopen]

/-- A call that is over is not advanced. -/
theorem poll_of_not_isOpen {call : CallId}
    (hover : ∀ c, l.calls[call]? = some c → c.stage.isOpen = false) (ioFirst : Bool) :
    l.poll call ioFirst = l := by
  rw [poll]
  cases hcall : l.calls[call]? with
  | none => rfl
  | some c =>
    have hover := hover c hcall
    obtain ⟨job, cancelled, stage⟩ := c
    cases stage <;> first | rfl | contradiction

theorem returnedBy_of_not_isOpen {call : CallId}
    (hover : ∀ c, l.calls[call]? = some c → c.stage.isOpen = false) (ioFirst : Bool)
    (stream : StreamId) : l.returnedBy (.poll call ioFirst) stream = [] := by
  simp only [returnedBy, step, poll_of_not_isOpen hover ioFirst]
  cases l.result? call <;> rfl

theorem returnedBy_of_isOpen {call : CallId} {c : Call} (hcall : l.calls[call]? = some c)
    (hopen : c.stage.isOpen) (ioFirst : Bool) (stream : StreamId) :
    l.returnedBy (.poll call ioFirst) stream = (l.poll call ioFirst).returns call stream := by
  have hnone : l.result? call = none := by
    rw [result?, hcall]
    obtain ⟨job, cancelled, stage⟩ := c
    cases stage <;> first | rfl | contradiction
  rw [returnedBy, hnone, returns, step]
  cases (l.poll call ioFirst).result? call with
  | none => rfl
  | some result => cases result <;> rfl

theorem moves_poll (hok : (l.view D R).Ok) (hsettled : l.Settled) (call : CallId)
    (ioFirst : Bool) :
    Moves (l.view D R) ((l.poll call ioFirst).view D fun stream =>
        R stream ++ l.returnedBy (.poll call ioFirst) stream) ∧
      (l.poll call ioFirst).Settled := by
  obtain hover | ⟨c, hcall, hopen⟩ := l.over_or_open call
  · simp only [returnedBy_of_not_isOpen hover, List.append_nil, poll_of_not_isOpen hover]
    exact ⟨.refl, hsettled⟩
  -- the call that is advanced is open, so what it returns it returns now
  obtain ⟨hmoves, hothers, hown⟩ := advances_poll hok (hsettled call) hcall hopen ioFirst
  simp only [returnedBy_of_isOpen hcall hopen]
  refine ⟨hmoves, fun other => ?_⟩
  by_cases hother : other = call
  · exact hother ▸ hown
  · intro c' part f source hc'
    rw [hothers other hother] at hc'
    exact hsettled other c' part f source hc'

/-- Calls that come to wait for bytes are what matters. -/
theorem Settled.of_calls {l' : Link} (h : l.Settled)
    (hcalls : ∀ (call : CallId) (c' : Call), l'.calls[call]? = some c' → c'.stage.isFilling →
      ∃ c, l.calls[call]? = some c ∧ c.stage = c'.stage) : l'.Settled := by
  intro call c' part f source hc' hstage
  obtain ⟨c, hc, heq⟩ := hcalls call c' hc' (by rw [hstage]; rfl)
  exact h call c part f source hc (heq.trans hstage)

theorem Settled.of_calls_eq {l' : Link} (h : l.Settled) (hcalls : l'.calls = l.calls) :
    l'.Settled :=
  h.of_calls fun _ c hc _ => ⟨c, hcalls ▸ hc, rfl⟩

theorem settled_begin (hsettled : l.Settled) (job : Job) : (l.step (.begin job)).Settled := by
  refine hsettled.of_calls fun call c hc hfilling => ⟨c, ?_, rfl⟩
  rcases Nat.lt_or_ge call l.calls.length with hlt | hge
  · rw [← hc]
    exact (List.getElem?_append_left hlt).symm
  · have hnew : ([{ job }] : List Call)[call - l.calls.length]? = some c := by
      rw [← hc]
      exact (List.getElem?_append_right hge).symm
    obtain rfl : c = { job } := List.mem_singleton.mp (List.mem_of_getElem? hnew)
    exact nomatch hfilling

theorem settled_cancel (hsettled : l.Settled) (call : CallId) :
    (l.step (.cancel call)).Settled := by
  refine hsettled.of_calls fun other c hc _ => ?_
  have hc : (l.calls.modify call fun c => { c with cancelled := true })[other]? = some c := hc
  rw [List.getElem?_modify] at hc
  obtain ⟨c', hc', rfl⟩ := Option.map_eq_some_iff.mp hc
  refine ⟨c', hc', ?_⟩
  split_ifs <;> rfl

/-- Readers do not see changes of all connections that concern only writers. -/
theorem view_mapStreams (l : Link) {g : Stream → Stream} (hinflow : ∀ s, (g s).inflow = s.inflow) :
    ({ l with streams := l.streams.map g } : Link).view D R = l.view D R := by
  have hsame : ∀ stream, ((l.streams.map g)[stream]?.getD {}).inflow = l.inflow stream := by
    intro stream
    rw [List.getElem?_map, inflow]
    cases l.streams[stream]? with
    | none => rfl
    | some s => exact hinflow s
  simp only [view, conn, List.length_map, View.mk.injEq, true_and, and_true]
  exact ⟨funext hsame, rfl⟩

/-- A call that is over cannot be dropped. -/
theorem drop_of_not_isOpen {call : CallId}
    (hover : ∀ c, l.calls[call]? = some c → c.stage.isOpen = false) : l.drop call = l := by
  rw [drop]
  cases hcall : l.calls[call]? with
  | none => rfl
  | some c =>
    have hover := hover c hcall
    obtain ⟨job, cancelled, stage⟩ := c
    cases stage <;> first | rfl | contradiction

/-- A call that is dropped gives up every turn that it has or waits for. -/
theorem drop_of_isOpen {call : CallId} {c : Call} (hcall : l.calls[call]? = some c)
    (hopen : c.stage.isOpen) :
    l.drop call = ({ l with
      readers := l.readers.leave call
      streams := l.streams.map fun s => { s with writers := s.writers.leave call } } :
        Link).setStage call .dropped := by
  rw [drop, hcall]
  obtain ⟨job, cancelled, stage⟩ := c
  cases stage <;> first | rfl | contradiction

/-- A caller drops a call. -/
theorem moves_drop (hsettled : l.Settled) (call : CallId) :
    Moves (l.view D R) ((l.drop call).view D R) ∧ (l.drop call).Settled := by
  obtain hover | ⟨c, hcall, hopen⟩ := l.over_or_open call
  · rw [drop_of_not_isOpen hover]
    exact ⟨.refl, hsettled⟩
  let left : Link := { l with
    readers := l.readers.leave call
    streams := l.streams.map fun s => { s with writers := s.writers.leave call } }
  -- readers see only that the call is no longer among them
  have hview : left.view D R = (l.view D R).leave call :=
    congrArg (View.leave · call) (view_mapStreams l
      (g := fun s => { s with writers := s.writers.leave call }) fun _ => rfl)
  rw [drop_of_isOpen hcall hopen]
  constructor
  · refine .single ?_
    rw [show (left.setStage call .dropped).view D R =
      (left.view D R).setStage call .dropped from rfl, hview]
    exact .drop hcall hopen fun part f source hstage => hsettled call c part f source hcall hstage
  · refine hsettled.of_calls fun other c' hc' hfilling => ?_
    by_cases hother : other = call
    · subst hother
      have hown : left.calls[other]? = some c := hcall
      rw [getElem?_setStage_self hown] at hc'
      obtain rfl := Option.some.inj hc'
      exact nomatch hfilling
    · rw [getElem?_setStage_of_ne hother] at hc'
      exact ⟨c', hc', rfl⟩

/-! ### The background -/

theorem change_pollOpening (hvalid : l.conn.Valid) :
    Conn.Change none l.conn l.pollOpening.conn := by
  rw [pollOpening]
  split_ifs with hopened hdisposed hdelay
  · exact .stay _
  · exact .openingDisposed (eq_false_of_ne_true hopened) hdisposed
  · have hopened : l.conn.opened = false := eq_false_of_ne_true hopened
    have hdisposed : l.disposed = false := eq_false_of_ne_true hdisposed
    obtain ⟨hepisodes, -, -⟩ := hvalid.unopened hopened
    have hnone : l.reconnecting = 0 := by
      rw [show l.reconnecting = l.conn.running from hvalid.counted, Conn.running, hepisodes]
      rfl
    rw [reconnect, if_neg (by simp [hdisposed]), if_neg (by simp), if_neg (by simp [hnone])]
    exact .opening hopened hdisposed
  · exact .stay _

theorem view_pollOpening (l : Link) :
    l.pollOpening.view D R = { l.view D R with conn := l.pollOpening.conn } := by
  rw [pollOpening, reconnect]
  split_ifs <;> rfl

theorem view_establish (l : Link) (index : Nat) :
    (l.establish index).view D R = { l.view D R with
      conn := { l.conn with slot := some l.conn.made, made := l.conn.made + 1 }.endEpisode
        index } := by
  have hinflow : ∀ stream,
      ((l.streams ++ [({} : Stream)])[stream]?.getD {}).inflow = l.inflow stream := by
    intro stream
    rw [inflow]
    rcases Nat.lt_or_ge stream l.streams.length with hlt | hge
    · rw [List.getElem?_append_left hlt]
    · rw [List.getElem?_append_right hge, List.getElem?_eq_none hge]
      cases stream - l.streams.length <;> rfl
  simp only [view, conn, establish, endEpisode, setPhase, Conn.endEpisode, Conn.setPhase,
    List.length_append, List.length_singleton, View.mk.injEq, true_and, and_true]
  exact ⟨funext hinflow, rfl⟩

theorem conn_establish (l : Link) (index : Nat) : (l.establish index).conn =
    { l.conn with slot := some l.conn.made, made := l.conn.made + 1 }.endEpisode index :=
  congrArg View.conn (view_establish (D := fun _ => []) (R := fun _ => []) l index)

theorem change_pollEpisode (hvalid : l.conn.Valid) (index : Nat) (dial : Dial) (ioFirst : Bool) :
    Conn.Change none l.conn (l.pollEpisode index dial ioFirst).conn := by
  rw [pollEpisode]
  cases hepisode : l.episodes[index]? with
  | none => exact .stay _
  | some episode =>
    obtain ⟨cause, phase⟩ := episode
    have hepisode' : l.conn.episodes[index]? = some ⟨cause, phase⟩ := hepisode
    -- only an episode that has just been spawned finds something in the slot
    have hcleared : phase ≠ .over → phase ≠ .spawned → ({ l with slot := none } : Link) = l := by
      intro hrunning hspawned
      have hslot : l.slot = none := hvalid.cleared _ (List.mem_of_getElem? hepisode)
        (decide_eq_true hrunning) hspawned
      rw [← hslot]
    cases phase with
    | spawned =>
      dsimp only
      rw [attempt]
      split_ifs with hdisposed
      · exact .retire hepisode' rfl hdisposed
      · exact .dial hepisode' rfl nofun
    | dialing number wait =>
      dsimp only
      have hsame := hcleared nofun nofun
      split_ifs with hdisposed
      · rw [← hsame]
        exact .retire hepisode' rfl hdisposed.1
      · cases dial with
        | pending => exact .stay _
        | established =>
          rw [conn_establish]
          exact .establish hepisode' rfl
        | refused =>
          rw [← hsame]
          exact .dial hepisode' rfl nofun
    | waiting number wait deadline =>
      dsimp only
      rw [← hcleared nofun nofun, attempt]
      split_ifs with hdisposed hdeadline
      · exact .retire hepisode' rfl hdisposed
      · exact .dial hepisode' rfl nofun
      · exact .stay _
    | _ => exact .stay _

theorem view_pollEpisode (l : Link) (index : Nat) (dial : Dial) (ioFirst : Bool) :
    (l.pollEpisode index dial ioFirst).view D R =
      { l.view D R with conn := (l.pollEpisode index dial ioFirst).conn } := by
  rw [pollEpisode]
  cases l.episodes[index]? with
  | none => rfl
  | some episode =>
    obtain ⟨cause, phase⟩ := episode
    cases phase with
    | dialing number wait =>
      dsimp only
      split_ifs
      · rfl
      · cases dial with
        | established => rw [view_establish, conn_establish]
        | _ => rfl
    | spawned =>
      dsimp only [attempt]
      split_ifs <;> rfl
    | waiting number wait deadline =>
      dsimp only [attempt]
      split_ifs <;> rfl
    | _ => rfl

/-- A change of which connection is in use is a matter of moves. -/
theorem moves_change {v : View} {c : Conn} (h : Conn.Change none v.conn c) :
    Moves v { v with conn := c } := by
  obtain ⟨conn, readers, calls, inflow, takes, delivered, returned⟩ := v
  dsimp only at h
  cases h with
  | stay => exact .refl
  | openingDisposed hopened hdisposed => exact .single (.openingDisposed hopened hdisposed)
  | opening hopened hdisposed => exact .single (.opening hopened hdisposed)
  | dial he hrunning hphase => exact .single (.dial he (of_decide_eq_true hrunning) hphase)
  | retire he hrunning hdisposed =>
    exact .single (.retire he (of_decide_eq_true hrunning) hdisposed)
  | establish he hrunning => exact .single (.establish he (of_decide_eq_true hrunning))
  | giveUp hslot =>
    rcases hslot with rfl | rfl
    · exact .single (.dispose _)
    · exact .tail (.single (.dispose _)) (.clear rfl)

theorem moves_pollOpening (hvalid : l.conn.Valid) :
    Moves (l.view D R) (l.pollOpening.view D R) ∧ l.pollOpening.calls = l.calls := by
  rw [view_pollOpening]
  exact ⟨moves_change (change_pollOpening hvalid),
    congrArg View.calls (view_pollOpening (D := D) (R := R) l)⟩

theorem moves_pollEpisode (hvalid : l.conn.Valid) (index : Nat) (dial : Dial) (ioFirst : Bool) :
    Moves (l.view D R) ((l.pollEpisode index dial ioFirst).view D R) ∧
      (l.pollEpisode index dial ioFirst).calls = l.calls := by
  have hview := view_pollEpisode (D := D) (R := R) l index dial ioFirst
  rw [hview]
  exact ⟨moves_change (change_pollEpisode hvalid index dial ioFirst), congrArg View.calls hview⟩

/-! ### The far side -/

theorem moves_arrive (stream : StreamId) (bytes : Bytes) :
    Moves (l.view D R) ((l.modifyStream stream (·.arrive bytes)).view
      (fun s => D s ++ l.deliveredBy (.arrive stream bytes) s) R) := by
  -- bytes for a connection that is closed, or for none, are not delivered
  have hnothing : (∀ s, l.streams[stream]? = some s → s.ended ∨ s.aborted) →
      (fun s => D s ++ l.deliveredBy (.arrive stream bytes) s) = D := by
    intro hclosed
    funext target
    rw [deliveredBy]
    cases htarget : l.streams[target]? with
    | none => exact List.append_nil _
    | some s =>
      dsimp only
      rw [if_neg, List.append_nil]
      rintro ⟨rfl, hended, haborted⟩
      rcases hclosed s htarget with h | h
      · exact hended h
      · exact haborted h
  cases hstream : l.streams[stream]? with
  | none =>
    rw [modifyStream_none hstream, hnothing (by simp [hstream])]
  | some s =>
    rw [view_modifyStream hstream, Stream.arrive]
    have hinflow : (l.view D R).inflow stream = s.inflow := inflow_of_getElem? hstream
    split_ifs with hclosed
    · -- nothing arrives on a connection that has ended
      have hsame : (l.view D R).setInflow stream s.inflow = l.view D R := by
        rw [← hinflow, View.setInflow, Function.update_eq_self]
      have hquiet : ∀ s', l.streams[stream]? = some s' → s'.ended ∨ s'.aborted := by
        intro s' hs'
        obtain rfl := Option.some.inj (hstream.symm.trans hs')
        exact hclosed
      rw [hnothing hquiet, hsame]
    · obtain ⟨hended, haborted⟩ : s.ended = false ∧ s.aborted = false := by simpa using hclosed
      have hnew : (fun target => D target ++ l.deliveredBy (.arrive stream bytes) target) =
          Function.update D stream (D stream ++ bytes) := by
        funext target
        by_cases htarget : target = stream
        · subst htarget
          simp [deliveredBy, hstream, hended, haborted]
        · rw [Function.update_of_ne htarget, deliveredBy]
          cases l.streams[target]? <;> simp [Ne.symm htarget]
      have hmade : stream < (l.view D R).conn.made := (List.getElem?_eq_some_iff.mp hstream).1
      have hmove := Move.arrive bytes hmade (hinflow ▸ hended) (hinflow ▸ haborted)
      rw [hinflow] at hmove
      rw [hnew]
      exact .single hmove

/-- Something else that the far side does to a connection. -/
theorem moves_modifyStream (stream : StreamId) {g : Stream → Stream}
    (hmove : ∀ s, l.streams[stream]? = some s →
      Moves (l.view D R) ((l.view D R).setInflow stream (g s).inflow)) :
    Moves (l.view D R) ((l.modifyStream stream g).view D R) := by
  cases hstream : l.streams[stream]? with
  | none =>
    rw [modifyStream_none hstream]
  | some s =>
    rw [view_modifyStream hstream]
    exact hmove s hstream

/-! ### Events -/

/-- Apart from a call that it may begin, every event is a matter of moves. -/
theorem moves_step (hok : (l.view D R).Ok) (hsettled : l.Settled) (event : Event) :
    Moves ((l.view D R).begun event)
        ((l.step event).view (fun stream => D stream ++ l.deliveredBy event stream)
          fun stream => R stream ++ l.returnedBy event stream) ∧
      (l.step event).Settled := by
  cases event with
  | poll call ioFirst =>
    simp only [deliveredBy, List.append_nil]
    exact moves_poll hok hsettled call ioFirst
  | arrive stream bytes =>
    simp only [returnedBy, List.append_nil]
    exact ⟨moves_arrive stream bytes, hsettled⟩
  | begin job =>
    simp only [deliveredBy, returnedBy, List.append_nil]
    exact ⟨.refl, settled_begin hsettled job⟩
  | cancel call =>
    simp only [deliveredBy, returnedBy, List.append_nil]
    exact ⟨.single (.withdraw _ call), settled_cancel hsettled call⟩
  | drop call =>
    simp only [deliveredBy, returnedBy, List.append_nil]
    exact moves_drop hsettled call
  | pollOpening =>
    simp only [deliveredBy, returnedBy, List.append_nil]
    obtain ⟨hmoves, hcalls⟩ := moves_pollOpening (D := D) (R := R) hok.conn
    exact ⟨hmoves, hsettled.of_calls_eq hcalls⟩
  | pollEpisode index dial ioFirst =>
    simp only [deliveredBy, returnedBy, List.append_nil]
    obtain ⟨hmoves, hcalls⟩ := moves_pollEpisode (D := D) (R := R) hok.conn index dial ioFirst
    exact ⟨hmoves, hsettled.of_calls_eq hcalls⟩
  | finish stream =>
    simp only [deliveredBy, returnedBy, List.append_nil]
    refine ⟨moves_modifyStream stream fun s hstream => ?_, hsettled⟩
    have hmove := Move.hangUp (l.view D R) stream
    rw [show (l.view D R).inflow stream = s.inflow from inflow_of_getElem? hstream] at hmove
    exact .single hmove
  | abort stream =>
    simp only [deliveredBy, returnedBy, List.append_nil]
    refine ⟨moves_modifyStream stream fun s hstream => ?_, hsettled⟩
    have hmove := Move.abort (l.view D R) stream
    rw [show (l.view D R).inflow stream = s.inflow from inflow_of_getElem? hstream] at hmove
    exact .single hmove
  | flush stream =>
    simp only [deliveredBy, returnedBy, List.append_nil]
    refine ⟨moves_modifyStream stream fun s hstream => ?_, hsettled⟩
    have hinflow : (l.view D R).inflow stream = s.inflow := inflow_of_getElem? hstream
    rw [Stream.flush]
    split_ifs with haborted
    · have hmove := Move.flush (v := l.view D R) ((congrArg Inflow.aborted hinflow).trans haborted)
      rw [hinflow] at hmove
      exact .single hmove
    · rw [← hinflow, View.setInflow, Function.update_eq_self]
  | drain stream n =>
    simp only [deliveredBy, returnedBy, List.append_nil]
    refine ⟨?_, hsettled⟩
    have hview : (l.modifyStream stream (·.drain n)).view D R = l.view D R :=
      view_modifyStream_self stream fun _ => rfl
    rw [step, hview]
    exact .refl
  | elapse nanos =>
    simp only [deliveredBy, returnedBy, List.append_nil]
    exact ⟨.refl, hsettled⟩
  | release =>
    simp only [deliveredBy, returnedBy, List.append_nil]
    exact ⟨.single (.dispose _), hsettled⟩

end Link

end BrokerWire
