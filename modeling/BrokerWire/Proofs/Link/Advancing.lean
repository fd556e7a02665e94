import BrokerWire.Link.Event
import BrokerWire.Proofs.Link.Filling
import BrokerWire.Proofs.Link.Holding

/-!
# Advancing a call

A call that is advanced changes the view of its link by moves. `View.Advances` says this together
with what the next event can count on: all other calls stand where they stood, and if the call has
to wait for bytes, then some are missing. `advances_poll` says it of every call that is not over.
-/

namespace BrokerWire

namespace Link

/-! ### Views of changed links -/

section View

variable {l : Link} {D : StreamId → Bytes} {R : StreamId → List Bytes}

theorem conn_lose (l : Link) (stream : StreamId) : (l.lose stream).conn = l.conn.lose stream := by
  simp only [lose, reconnect, Conn.lose]
  by_cases hdisposed : l.disposed
  · simp [conn, hdisposed]
  by_cases hslot : l.slot = some stream
  · by_cases hnone : l.reconnecting = 0 <;> simp [conn, hdisposed, hslot, hnone, Conn.launch]
  · simp [conn, hdisposed, hslot]

theorem calls_lose (l : Link) (stream : StreamId) : (l.lose stream).calls = l.calls := by
  simp only [lose, reconnect]
  split_ifs <;> rfl

theorem view_lose (l : Link) (stream : StreamId) :
    (l.lose stream).view D R = { l.view D R with conn := l.conn.lose stream } := by
  rw [← conn_lose]
  simp only [lose, reconnect]
  split_ifs <;> rfl

theorem inflow_of_getElem? {stream : StreamId} {s : Stream}
    (hstream : l.streams[stream]? = some s) : l.inflow stream = s.inflow := by
  rw [inflow, hstream]
  rfl

theorem view_modifyStream {stream : StreamId} {s : Stream} (hstream : l.streams[stream]? = some s)
    (g : Stream → Stream) :
    (l.modifyStream stream g).view D R = (l.view D R).setInflow stream (g s).inflow := by
  have hconn : (l.modifyStream stream g).conn = l.conn := by
    simp [conn, modifyStream]
  have hinflow : (l.modifyStream stream g).inflow =
      Function.update l.inflow stream (g s).inflow := by
    funext target
    by_cases htarget : target = stream
    · subst htarget
      simp [inflow, modifyStream, hstream]
    · simp [inflow, modifyStream, htarget, Ne.symm htarget]
  rw [view, hconn, hinflow]
  rfl

theorem modifyStream_none {stream : StreamId} (hstream : l.streams[stream]? = none)
    (g : Stream → Stream) : l.modifyStream stream g = l := by
  rw [modifyStream, List.modify_eq_self (List.getElem?_eq_none_iff.mp hstream)]

/-- Readers do not see changes that concern only writers. -/
theorem view_modifyStream_self (stream : StreamId) {g : Stream → Stream}
    (hinflow : ∀ s, (g s).inflow = s.inflow) :
    (l.modifyStream stream g).view D R = l.view D R := by
  cases hstream : l.streams[stream]? with
  | none => rw [modifyStream_none hstream]
  | some s =>
    rw [view_modifyStream hstream, hinflow, ← inflow_of_getElem? hstream, View.setInflow]
    rw [show l.inflow stream = (l.view D R).inflow stream from rfl, Function.update_eq_self]

theorem view_afterTake {call : CallId} {stream : StreamId} {s : Stream} {n : Nat}
    (hstream : l.streams[stream]? = some s) :
    (l.afterTake call stream s n).view D R =
      (l.view D R).take call stream (s.incoming.take n) (s.incoming.drop n) := by
  have hinflow : (l.view D R).inflow stream = s.inflow := inflow_of_getElem? hstream
  have hview := view_modifyStream (D := D) (R := R) hstream
    fun _ => { s with incoming := s.incoming.drop n }
  let addTake (v : View) : View :=
    { v with takes := ⟨call, stream, s.incoming.take n⟩ :: (l.view D R).takes }
  rw [View.take, hinflow]
  exact congrArg addTake hview

end View

namespace View

variable {v : View} {call : CallId} {c : Call}

/-- A call that stands at a stage already stays there. -/
theorem setStage_self (hcall : v.calls[call]? = some c) : v.setStage call c.stage = v := by
  have hcalls : v.calls.modify call (fun d => { d with stage := c.stage }) = v.calls := by
    refine List.ext_getElem? fun i => ?_
    rw [List.getElem?_modify]
    by_cases hi : call = i
    · subst hi
      simp [hcall]
    · simp [hi]
  rw [setStage, hcalls]

theorem setStage_setStage (v : View) (call : CallId) (early late : Stage) :
    (v.setStage call early).setStage call late = v.setStage call late := by
  simp [setStage, List.modify_modify_eq, Function.comp_def]

/-- A call that has taken nothing does not count as returning anything. -/
theorem deliver_of_emptyHanded (hempty : v.EmptyHanded call) (bytes : Bytes) :
    v.deliver call bytes = v := by
  have hreturned : (fun stream =>
      v.returned stream ++ if v.takenBy call stream = [] then [] else [bytes]) = v.returned := by
    funext stream
    rw [if_pos (hempty.takenBy_eq_nil stream), List.append_nil]
  rw [deliver, hreturned]

theorem Ok.moves {v v' : View} (h : v.Ok) (hmoves : Moves v v') : v'.Ok := by
  induction hmoves with
  | refl => exact h
  | tail _ hmove ih => exact ih.move hmove

end View

/-! ### Advancing -/

/-- What a call that has ended has returned of a connection. -/
def returns (l : Link) (call : CallId) (stream : StreamId) : List Bytes :=
  match l.result? call with
  | some (.ok bytes) => if l.takenBy call stream = [] then [] else [bytes]
  | _ => []

/-- A call that waits for bytes misses some. -/
def IsSettled (l : Link) (call : CallId) : Prop :=
  ∀ c part f source, l.calls[call]? = some c → c.stage = .filling part f source → 0 < f.missing

open View

/-- Advancing a call has led from a view to a link on which so much had been delivered and returned
before. -/
structure Advances (D : StreamId → Bytes) (R : StreamId → List Bytes) (v : View) (l : Link)
    (call : CallId) : Prop where
  /-- The change is one by moves. -/
  moves : Moves v (l.view D fun stream => R stream ++ l.returns call stream)
  /-- Other calls stand where they stood. -/
  others : ∀ other, other ≠ call → l.calls[other]? = v.calls[other]?
  /-- The call waits for bytes only if some are missing. -/
  settled : l.IsSettled call

section Advances

variable {l : Link} {v : View} {call : CallId} {c : Call} {D : StreamId → Bytes}
  {R : StreamId → List Bytes}

theorem Advances.of_moves {v' : View} (h : Advances D R v' l call) (hmoves : Moves v v')
    (hcalls : ∀ other, other ≠ call → v'.calls[other]? = v.calls[other]?) :
    Advances D R v l call where
  moves := hmoves.trans h.moves
  others other hother := (h.others other hother).trans (hcalls other hother)
  settled := h.settled

theorem getElem?_setStage_self (hcall : l.calls[call]? = some c) (stage : Stage) :
    (l.setStage call stage).calls[call]? = some { c with stage } := by
  simp [setStage, hcall]

theorem getElem?_setStage_of_ne {other : CallId} (hne : other ≠ call) (stage : Stage) :
    (l.setStage call stage).calls[other]? = l.calls[other]? :=
  List.getElem?_modify_ne _ _ (Ne.symm hne)

theorem isSettled_setStage (hcall : l.calls[call]? = some c) {stage : Stage}
    (hmissing : ∀ part f source, stage = .filling part f source → 0 < f.missing) :
    (l.setStage call stage).IsSettled call := by
  intro c' part f source hcall' hstage
  rw [getElem?_setStage_self hcall] at hcall'
  obtain rfl := Option.some.inj hcall'
  exact hmissing part f source hstage

/-- A call that is advanced without success. -/
theorem advances_setStage (hcall : l.calls[call]? = some c) {stage : Stage}
    (hmoves : Moves v ((l.view D R).setStage call stage))
    (hcalls : ∀ other, other ≠ call → l.calls[other]? = v.calls[other]?)
    (hmissing : ∀ part f source, stage = .filling part f source → 0 < f.missing)
    (hfailed : ∀ bytes, stage ≠ .done (.ok bytes)) :
    Advances D R v (l.setStage call stage) call where
  moves := by
    have hnothing : ∀ stream, (l.setStage call stage).returns call stream = [] := by
      intro stream
      rw [returns, result?, getElem?_setStage_self hcall]
      cases stage with
      | done result =>
        cases result with
        | ok bytes => exact absurd rfl (hfailed bytes)
        | error e => rfl
      | _ => rfl
    simp only [hnothing, List.append_nil]
    exact hmoves
  others other hother := (getElem?_setStage_of_ne hother stage).trans (hcalls other hother)
  settled := isSettled_setStage hcall hmissing

/-- A call that is advanced and succeeds. -/
theorem advances_ok (hcall : l.calls[call]? = some c) {bytes : Bytes}
    (hmoves : Moves v (((l.view D R).deliver call bytes).setStage call (.done (.ok bytes))))
    (hcalls : ∀ other, other ≠ call → l.calls[other]? = v.calls[other]?) :
    Advances D R v (l.setStage call (.done (.ok bytes))) call where
  moves := by
    have hreturns : ∀ stream, (l.setStage call (.done (.ok bytes))).returns call stream =
        if l.takenBy call stream = [] then [] else [bytes] := by
      intro stream
      rw [returns, result?, getElem?_setStage_self hcall]
      rfl
    simp only [hreturns]
    exact hmoves
  others other hother := (getElem?_setStage_of_ne hother _).trans (hcalls other hother)
  settled := isSettled_setStage hcall nofun

theorem advances_endRead (hcall : l.calls[call]? = some c) {e : WireError}
    (hmoves : Moves v (((l.view D R).leave call).setStage call (.done (.error e))))
    (hcalls : ∀ other, other ≠ call → l.calls[other]? = v.calls[other]?) :
    Advances D R v (l.endRead call (.error e)) call := by
  have hcall' : ({ l with readers := l.readers.leave call } : Link).calls[call]? = some c := hcall
  exact advances_setStage (D := D) (R := R) hcall' hmoves hcalls nofun nofun

theorem advances_endRead_ok (hcall : l.calls[call]? = some c) {bytes : Bytes}
    (hmoves : Moves v ((((l.view D R).deliver call bytes).leave call).setStage call
      (.done (.ok bytes))))
    (hcalls : ∀ other, other ≠ call → l.calls[other]? = v.calls[other]?) :
    Advances D R v (l.endRead call (.ok bytes)) call := by
  have hcall' : ({ l with readers := l.readers.leave call } : Link).calls[call]? = some c := hcall
  exact advances_ok (D := D) (R := R) hcall' hmoves hcalls

end Advances

/-! ### Reads -/

section Read

variable {l l' : Link} {call : CallId} {c : Call} {part : Part} {f : Filling}
  {source : Option StreamId} {D : StreamId → Bytes} {R : StreamId → List Bytes}

/-- Where reading on leads in terms of moves. A read that had to look for bytes and has them all has
no connection then. -/
def FillMoves (D : StreamId → Bytes) (R : StreamId → List Bytes) (v : View) (l : Link)
    (call : CallId) (part : Part) (f : Filling) (source : Option StreamId) : Filled → Prop
  | .complete bytes =>
    ∃ source', Moves v ((l.view D R).setStage call (.filling part ⟨bytes, 0⟩ source')) ∧
      (source = none ∨ 0 < f.missing → source' = none)
  | .waiting f' source' =>
    Moves v ((l.view D R).setStage call (.filling part f' source')) ∧ 0 < f'.missing
  | .failed e => Moves v (((l.view D R).leave call).setStage call (.done (.error e)))

theorem FillMoves.of_move {v v' : View} {f' : Filling} {source' : Option StreamId}
    {filled : Filled} (h : FillMoves D R v' l call part f' source' filled) (hmove : Move v v')
    (hnone : source' = none ∨ 0 < f'.missing) : FillMoves D R v l call part f source filled := by
  cases filled with
  | complete bytes =>
    obtain ⟨found, hmoves, hfound⟩ := h
    exact ⟨found, .head hmove hmoves, fun _ => hfound hnone⟩
  | waiting f' source' => exact ⟨.head hmove h.1, h.2⟩
  | failed e => exact .head hmove h

/-- That a link has been given up is no fault in the protocol. -/
theorem disposedError_ne_protocol (l : Link) (fault : ProtocolFault) :
    l.disposedError ≠ .protocol fault := nofun

/-- Reading on from where a call stands leads where moves lead. -/
theorem Fills.fillMoves {filled : Filled} (hfills : Fills call l f source l' filled)
    (hcall : l.calls[call]? = some c) :
    l'.calls = l.calls ∧ FillMoves D R ((l.view D R).setStage call (.filling part f source)) l' call
      part f source filled := by
  induction hfills with
  | @full l f source hmissing =>
    obtain ⟨got, missing⟩ := f
    obtain rfl : missing = 0 := hmissing
    exact ⟨rfl, source, .refl, fun h => h.resolve_right (Nat.lt_irrefl 0)⟩
  | @refused l f source hmissing hrefused =>
    refine ⟨rfl, .single ?_⟩
    rw [← setStage_setStage _ call (.filling part f source) (.done (.error l.refusal))]
    refine Move.refuse (View.getElem?_setStage_self hcall) rfl hmissing ?_
    rw [refusal]
    split_ifs with hdisposed
    · exact .inr ⟨hdisposed, l.disposedError_ne_protocol⟩
    · exact .inl rfl
  | unready hmissing hgate => exact ⟨rfl, .refl, hmissing⟩
  | @find l l' f stream filled hmissing huse hrest ih =>
    obtain ⟨hcalls, hfill⟩ := ih hcall
    refine ⟨hcalls, hfill.of_move ?_ (.inr hmissing)⟩
    rw [← setStage_setStage _ call (.filling part f none) (.filling part f (some stream))]
    exact Move.find (View.getElem?_setStage_self hcall) rfl huse
  | idle hmissing => exact ⟨rfl, .refl, hmissing⟩
  | @lost l f stream s e hmissing hdisposed hstream hincoming herror =>
    refine ⟨calls_lose l stream, .single ?_⟩
    rw [view_lose, ← setStage_setStage _ call (.filling part f (some stream)) (.done (.error e))]
    refine Move.lost (View.getElem?_setStage_self hcall) rfl ?_
    rcases herror with rfl | rfl <;> simp [brokenError]
  | @take l l' f stream s filled hmissing hdisposed hstream hsome hrest ih =>
    obtain ⟨hcalls, hfill⟩ := ih hcall
    refine ⟨hcalls, hfill.of_move ?_ (.inl rfl)⟩
    rw [view_afterTake hstream,
      ← setStage_setStage ((l.view D R).take _ _ _ _) call (.filling part f (some stream))]
    refine Move.take (View.getElem?_setStage_self hcall) rfl ?_ ?_ (List.length_take_le _ _)
    · rw [List.take_append_drop]
      exact congrArg Inflow.incoming (inflow_of_getElem? hstream)
    · rw [Ne, List.take_eq_nil_iff, not_or]
      exact ⟨Nat.ne_of_gt hmissing, hsome⟩

theorem fillMoves_fill (hcall : l.calls[call]? = some c)
    (hok : ((l.view D R).setStage call (.filling part f source)).Ok) :
    (l.fill call f source).1.calls = l.calls ∧
      FillMoves D R ((l.view D R).setStage call (.filling part f source)) (l.fill call f source).1
        call part f source (l.fill call f source).2 := by
  have hown := hok.call call _ (View.getElem?_setStage_self hcall)
  obtain ⟨-, hstands, -⟩ := hown.filling rfl
  have hmade : ∀ stream, source = some stream → stream < l.streams.length :=
    fun stream hsource => (hstands stream hsource).1
  exact (fills_fill call f hok.conn hmade).fillMoves hcall

/-- While a call reads on, other calls stand where they stood. -/
theorem getElem?_of_calls_eq {stage : Stage} (hcalls : l'.calls = l.calls) (other : CallId)
    (hother : other ≠ call) :
    l'.calls[other]? = ((l.view D R).setStage call stage).calls[other]? := by
  rw [View.getElem?_setStage_of_ne hother, hcalls]
  rfl

/-- The last run of bytes of a read. -/
theorem advances_readLast (hcall : l.calls[call]? = some c) (hpart : part ≠ .length)
    (hok : ((l.view D R).setStage call (.filling part f source)).Ok) :
    Advances D R ((l.view D R).setStage call (.filling part f source))
      (l.readLast call part f source) call := by
  obtain ⟨hcalls, hfill⟩ := fillMoves_fill hcall hok
  have hothers : ∀ other, other ≠ call → (l.fill call f source).1.calls[other]? =
      ((l.view D R).setStage call (.filling part f source)).calls[other]? :=
    getElem?_of_calls_eq hcalls
  rw [← hcalls] at hcall
  rw [readLast]
  -- what the rounds have come to decides how the read goes on
  generalize l.fill call f source = result at hcall hfill hothers
  obtain ⟨l', filled⟩ := result
  cases filled with
  | complete bytes =>
    obtain ⟨source', hmoves, -⟩ := hfill
    refine advances_endRead_ok hcall (hmoves.tail ?_) hothers
    rw [← setStage_setStage _ call (.filling part ⟨bytes, 0⟩ source') (.done (.ok bytes))]
    exact Move.finish (View.getElem?_setStage_self hcall) rfl hpart
  | waiting f' source' =>
    refine advances_setStage hcall hfill.1 hothers (fun _ _ _ hstage => ?_) nofun
    cases hstage
    exact hfill.2
  | failed e => exact advances_endRead hcall hfill hothers

/-- Behind the length of a frame. -/
theorem advances_readBody {got : Bytes} (hcall : l.calls[call]? = some c)
    (hok : ((l.view D R).setStage call (.filling .length ⟨got, 0⟩ none)).Ok) :
    Advances D R ((l.view D R).setStage call (.filling .length ⟨got, 0⟩ none))
      (l.readBody call (BigEndian.toInt32 got)) call := by
  have hown : ((l.view D R).setStage call (.filling .length ⟨got, 0⟩ none)).calls[call]? =
      some { c with stage := .filling .length ⟨got, 0⟩ none } := View.getElem?_setStage_self hcall
  have hothers : ∀ stage other, other ≠ call → ((l.view D R).setStage call stage).calls[other]? =
      ((l.view D R).setStage call (.filling .length ⟨got, 0⟩ none)).calls[other]? := by
    intro stage other hother
    rw [View.getElem?_setStage_of_ne hother, View.getElem?_setStage_of_ne hother]
  rw [readBody]
  split_ifs with hlength
  · have hmove := Move.header hown rfl hlength
    rw [setStage_setStage] at hmove
    have hbody : Part.body ≠ .length := nofun
    exact (advances_readLast hcall hbody (hok.move hmove)).of_moves (.single hmove) (hothers _)
  · have hend : ∀ (l' : Link) fault, l'.calls = l.calls →
        l'.view D R = { l.view D R with conn := l.conn.forsake l.conn.slot } →
        Advances D R ((l.view D R).setStage call (.filling .length ⟨got, 0⟩ none))
          (l'.endRead call (.error (.protocol fault))) call := by
      intro l' fault hcalls hview
      have hcall' : l'.calls[call]? = some c := hcalls ▸ hcall
      refine advances_endRead hcall' (.single ?_) (getElem?_of_calls_eq hcalls)
      rw [hview, ← setStage_setStage _ call (.filling .length ⟨got, 0⟩ none)
        (.done (.error (.protocol _)))]
      exact Move.reject hown rfl (by simpa using hlength)
    -- whatever is in the slot by now is given up
    cases hslot : l.slot with
    | none =>
      have hnone : l.conn.slot = none := hslot
      exact hend l _ rfl (by rw [hnone]; rfl)
    | some stream =>
      have hsome : l.conn.slot = some stream := hslot
      refine hend (l.lose stream) _ (calls_lose l stream) ?_
      rw [hsome]
      exact view_lose l stream

/-- A read that has its turn. -/
theorem advances_readOn (hcall : l.calls[call]? = some c)
    (hok : ((l.view D R).setStage call (.filling part f source)).Ok)
    (hmissing : part = .length → 0 < f.missing) :
    Advances D R ((l.view D R).setStage call (.filling part f source))
      (l.readOn call part f source) call := by
  by_cases hpart : part = .length
  · subst hpart
    obtain ⟨hcalls, hfill⟩ := fillMoves_fill hcall hok
    have hothers : ∀ other, other ≠ call → (l.fill call f source).1.calls[other]? =
        ((l.view D R).setStage call (.filling .length f source)).calls[other]? :=
      getElem?_of_calls_eq hcalls
    rw [← hcalls] at hcall
    rw [readOn]
    generalize l.fill call f source = result at hcall hfill hothers
    obtain ⟨l', filled⟩ := result
    cases filled with
    | complete bytes =>
      obtain ⟨source', hmoves, hnone⟩ := hfill
      obtain rfl := hnone (.inr (hmissing rfl))
      refine (advances_readBody hcall (hok.moves hmoves)).of_moves hmoves fun other hother => ?_
      rw [View.getElem?_setStage_of_ne hother]
      exact hothers other hother
    | waiting f' source' =>
      refine advances_setStage hcall hfill.1 hothers (fun _ _ _ hstage => ?_) nofun
      cases hstage
      exact hfill.2
    | failed e => exact advances_endRead hcall hfill hothers
  · have hlast : l.readOn call part f source = l.readLast call part f source := by
      cases part with
      | length => contradiction
      | _ => rfl
    rw [hlast]
    exact advances_readLast hcall hpart hok

/-- A read that waits for its turn. -/
theorem advances_enterRead {size : Nat} (hcall : l.calls[call]? = some c)
    (hok : (l.view D R).Ok) (hjob : c.job.start? = some (part, size))
    (hstage : c.stage = .fresh ∨ c.stage = .queued) (hsize : part = .length → 0 < size) :
    Advances D R (l.view D R) (l.enterRead call part size) call := by
  have hsome : c.job.start?.isSome := hjob ▸ rfl
  rw [enterRead]
  dsimp only
  split_ifs with hdisposed hcancelled hturn
  · exact advances_endRead hcall (.single (.quit hcall hsome hstage nofun)) fun _ _ => rfl
  · exact advances_endRead hcall (.single (.quit hcall hsome hstage nofun)) fun _ _ => rfl
  · let joined : Link := { l with readers := l.readers.join call }
    have hmove : Move (l.view D R) ((joined.view D R).setStage call
        (.filling part ⟨[], size⟩ none)) := .enter hcall hjob hstage hturn
    have hcall' : joined.calls[call]? = some c := hcall
    -- the call enters with nothing, and from there it reads on
    exact (advances_readOn hcall' (hok.move hmove) hsize).of_moves (.single hmove)
      fun _ hother => View.getElem?_setStage_of_ne hother
  · let joined : Link := { l with readers := l.readers.join call }
    have hcall' : joined.calls[call]? = some c := hcall
    have hmove : Move (l.view D R) ((joined.view D R).setStage call .queued) :=
      .queue hcall hsome hstage hturn
    exact advances_setStage hcall' (.single hmove) (fun _ _ => rfl) nofun nofun

end Read

/-! ### Writes -/

section Write

variable {l : Link} {call : CallId} {c : Call} {stream : StreamId} {D : StreamId → Bytes}
  {R : StreamId → List Bytes}

/-- A call that is no read goes on to another stage. -/
theorem advances_shift (hcall : l.calls[call]? = some c) (hjob : c.job.start? = none)
    (hopen : c.stage.isOpen) (stage : Stage) (hfilling : stage.isFilling = false)
    (hqueued : stage ≠ .queued) (hfailed : ∀ bytes, stage ≠ .done (.ok bytes))
    (hprotocol : ∀ fault, stage ≠ .done (.error (.protocol fault)))
    (hwinding : ∀ task deadline, stage = .winding task deadline → l.disposed) :
    Advances D R (l.view D R) (l.setStage call stage) call := by
  refine advances_setStage hcall (.single ?_) (fun _ _ => rfl) (fun _ _ _ hstage => ?_) hfailed
  · exact .shift hcall hjob hopen hfilling hqueued hwinding hprotocol
  · rw [hstage] at hfilling
    exact nomatch hfilling

/-- A call that is no read fails. -/
theorem advances_shift_error (hcall : l.calls[call]? = some c) (hjob : c.job.start? = none)
    (hopen : c.stage.isOpen) {e : WireError} (hprotocol : ∀ fault, e ≠ .protocol fault) :
    Advances D R (l.view D R) (l.setStage call (.done (.error e))) call := by
  refine advances_shift hcall hjob hopen (.done (.error e)) rfl nofun nofun (fun fault h => ?_)
    nofun
  cases h
  exact hprotocol fault rfl

/-- A call that is no read succeeds. -/
theorem advances_shift_ok (hcall : l.calls[call]? = some c) (hjob : c.job.start? = none)
    (hopen : c.stage.isOpen) (hempty : (l.view D R).EmptyHanded call) (bytes : Bytes) :
    Advances D R (l.view D R) (l.setStage call (.done (.ok bytes))) call := by
  refine advances_ok hcall (.single ?_) fun _ _ => rfl
  rw [deliver_of_emptyHanded hempty]
  exact .shift hcall hjob hopen rfl nofun nofun nofun

/-- A call that cannot go on. -/
theorem advances_stay (hcall : l.calls[call]? = some c) (hopen : c.stage.isOpen)
    (hfilling : c.stage.isFilling = false) : Advances D R (l.view D R) l call where
  moves := by
    have hnothing : ∀ stream, l.returns call stream = [] := by
      intro stream
      rw [returns, result?, hcall]
      obtain ⟨job, cancelled, stage⟩ := c
      cases stage <;> first | rfl | exact nomatch hopen
    simp only [hnothing, List.append_nil]
    exact .refl
  others _ _ := rfl
  settled := by
    intro c' part f source hcall' hstage
    obtain rfl := Option.some.inj (hcall.symm.trans hcall')
    rw [hstage] at hfilling
    exact nomatch hfilling

theorem lose_of_slot_ne (hslot : l.slot ≠ some stream) : l.lose stream = l := by
  simp [lose, reconnect, hslot]

theorem returns_lose (l : Link) (stream : StreamId) (call : CallId) :
    (l.lose stream).returns call = l.returns call := by
  simp only [lose, reconnect]
  split_ifs <;> rfl

/-- A writer notices that its connection is broken. -/
theorem Advances.lose {v : View} (h : Advances D R v l call)
    (haborted : (l.inflow stream).aborted) : Advances D R v (l.lose stream) call where
  moves := by
    rw [returns_lose, view_lose]
    exact h.moves.tail (.notice haborted)
  others other hother := by
    rw [calls_lose]
    exact h.others other hother
  settled := by
    intro c part f source hcall
    rw [calls_lose] at hcall
    exact h.settled c part f source hcall

theorem view_putOn (l : Link) (call : CallId) (stream : StreamId) (bytes : Bytes) :
    (l.putOn call stream bytes).2.view D R = l.view D R := by
  rw [putOn]
  cases hstream : l.streams[stream]? with
  | none => rfl
  | some s =>
    have hinflow : (s.put l.window bytes).2.2.inflow = s.inflow := by
      rw [Stream.put]
      split_ifs <;> rfl
    dsimp only
    generalize s.put l.window bytes = result at hinflow
    obtain ⟨outlet, accepted, s'⟩ := result
    cases accepted with
    | nil => rfl
    | cons b rest =>
      have hview := view_modifyStream (D := D) (R := R) hstream fun _ => s'
      rw [show s'.inflow = s.inflow from hinflow, ← inflow_of_getElem? hstream] at hview
      refine hview.trans ?_
      rw [View.setInflow, show l.inflow stream = (l.view D R).inflow stream from rfl,
        Function.update_eq_self]

theorem calls_putOn (l : Link) (call : CallId) (stream : StreamId) (bytes : Bytes) :
    (l.putOn call stream bytes).2.calls = l.calls :=
  congrArg View.calls (view_putOn (D := fun _ => []) (R := fun _ => []) l call stream bytes)

/-- Only a broken connection accepts nothing. -/
theorem aborted_of_putOn {bytes : Bytes} (hmade : stream < l.streams.length)
    (h : (l.putOn call stream bytes).1 = .aborted) : (l.inflow stream).aborted := by
  have hstream := List.getElem?_eq_getElem hmade
  rw [inflow_of_getElem? hstream]
  rw [putOn, hstream] at h
  generalize l.streams[stream] = s at h
  by_contra haborted
  have hnot : (s.put l.window bytes).1 ≠ .aborted := by
    rw [Stream.put]
    have hbroken : ¬s.aborted := haborted
    split_ifs <;> simp
    split_ifs <;> simp
  dsimp only at h
  generalize s.put l.window bytes = result at h hnot
  obtain ⟨outlet, accepted, s'⟩ := result
  cases accepted <;> exact hnot h

/-- Readers do not see whose turn it is to write. -/
theorem view_modifyWriters (l : Link) (stream : StreamId) (g : Turns → Turns) :
    (l.modifyStream stream fun s => { s with writers := g s.writers }).view D R = l.view D R :=
  view_modifyStream_self stream fun _ => rfl

/-- A write gives up its turn on a connection and fails. -/
theorem advances_endWrite (hcall : l.calls[call]? = some c) (hjob : c.job.start? = none)
    (hopen : c.stage.isOpen) (stream : StreamId) (e : WireError)
    (hprotocol : ∀ fault, e ≠ .protocol fault) :
    Advances D R (l.view D R) (l.endWrite call stream (.error e)) call := by
  let l' := l.modifyStream stream fun s => { s with writers := s.writers.leave call }
  have hcall' : l'.calls[call]? = some c := hcall
  rw [← view_modifyWriters l stream (·.leave call)]
  exact advances_shift_error hcall' hjob hopen hprotocol

/-- A write gives up its turn on a connection and succeeds. -/
theorem advances_endWrite_ok (hcall : l.calls[call]? = some c) (hjob : c.job.start? = none)
    (hopen : c.stage.isOpen) (hempty : (l.view D R).EmptyHanded call) (stream : StreamId) :
    Advances D R (l.view D R) (l.endWrite call stream (.ok [])) call := by
  let l' := l.modifyStream stream fun s => { s with writers := s.writers.leave call }
  have hcall' : l'.calls[call]? = some c := hcall
  rw [← view_modifyWriters l stream (·.leave call)] at hempty ⊢
  exact advances_shift_ok hcall' hjob hopen hempty []

/-- A write finds its connection broken. -/
theorem advances_lose (hcall : l.calls[call]? = some c) (hjob : c.job.start? = none)
    (hopen : c.stage.isOpen) (stream : StreamId) (e : WireError)
    (hprotocol : ∀ fault, e ≠ .protocol fault)
    (haborted : l.slot = some stream → (l.inflow stream).aborted) :
    Advances D R (l.view D R) ((l.endWrite call stream (.error e)).lose stream) call := by
  have hend := advances_endWrite (D := D) (R := R) hcall hjob hopen stream e hprotocol
  by_cases hslot : l.slot = some stream
  · refine hend.lose ?_
    have hinflow : (l.endWrite call stream (.error e)).inflow = l.inflow :=
      congrArg View.inflow (view_modifyWriters (D := D) (R := R) l stream (·.leave call))
    rw [hinflow]
    exact haborted hslot
  · have hnot : (l.endWrite call stream (.error e)).slot ≠ some stream := hslot
    rw [lose_of_slot_ne hnot]
    exact hend

/-- A write that has its turn sends on. -/
theorem advances_send (hcall : l.calls[call]? = some c) (hjob : c.job.start? = none)
    (hopen : c.stage.isOpen) (hempty : (l.view D R).EmptyHanded call) (hvalid : l.conn.Valid)
    (stream : StreamId) (rest : Bytes) (ioFirst : Bool) :
    Advances D R (l.view D R) (l.send call stream rest ioFirst) call := by
  rw [send]
  split_ifs with hdisposed
  · exact advances_endWrite hcall hjob hopen stream _ nofun
  have hview := view_putOn (D := D) (R := R) l call stream rest
  -- only the connection in the slot can be lost, and that one has been made
  have hslot : l.slot = some stream → (l.putOn call stream rest).1 = .aborted →
      (l.inflow stream).aborted :=
    fun hslot => aborted_of_putOn (hvalid.made stream hslot)
  rw [← calls_putOn l call stream rest] at hcall
  generalize l.putOn call stream rest = result at hview hslot hcall
  obtain ⟨outlet, l'⟩ := result
  dsimp only at hview hslot hcall ⊢
  have hconn : l'.conn = l.conn := congrArg View.conn hview
  have hinflow : l'.inflow = l.inflow := congrArg View.inflow hview
  rw [← hview] at hempty ⊢
  cases outlet with
  | complete => exact advances_endWrite_ok hcall hjob hopen hempty stream
  | partly rest =>
    dsimp only
    split_ifs
    · exact advances_endWrite hcall hjob hopen stream _ nofun
    · exact advances_shift hcall hjob hopen (.sending stream rest) rfl nofun nofun nofun nofun
  | aborted =>
    refine advances_lose hcall hjob hopen stream _ (by split_ifs <;> nofun) fun hin => ?_
    rw [hinflow]
    exact hslot ((congrArg Conn.slot hconn).symm.trans hin) rfl

/-- A write that waits for its turn on a connection. -/
theorem advances_lineUp (hcall : l.calls[call]? = some c) (hjob : c.job.start? = none)
    (hopen : c.stage.isOpen) (hfilling : c.stage.isFilling = false)
    (hempty : (l.view D R).EmptyHanded call) (hvalid : l.conn.Valid)
    (stream : StreamId) (frame : Bytes) (ioFirst : Bool) :
    Advances D R (l.view D R) (l.lineUp call stream frame ioFirst) call := by
  rw [lineUp]
  dsimp only
  split_ifs
  · exact advances_endWrite hcall hjob hopen stream _ nofun
  · exact advances_endWrite hcall hjob hopen stream _ nofun
  have hview := view_modifyWriters (D := D) (R := R) l stream (·.join call)
  have hcalls : (l.modifyStream stream fun s => { s with writers := s.writers.join call }).calls =
      l.calls := rfl
  generalize l.modifyStream stream (fun s => { s with writers := s.writers.join call }) = l'
    at hview hcalls
  rw [← hcalls] at hcall
  have hconn : l'.conn = l.conn := congrArg View.conn hview
  rw [← hview] at hempty ⊢
  rw [← hconn] at hvalid
  split
  · exact advances_stay hcall hopen hfilling
  · split_ifs
    · exact advances_send hcall hjob hopen hempty hvalid stream frame ioFirst
    · exact advances_shift hcall hjob hopen (.lining stream) rfl nofun nofun nofun nofun

/-- A write that waits for a connection. -/
theorem advances_enterWrite (hcall : l.calls[call]? = some c) (hjob : c.job.start? = none)
    (hopen : c.stage.isOpen) (hfilling : c.stage.isFilling = false)
    (hempty : (l.view D R).EmptyHanded call) (hvalid : l.conn.Valid)
    (frame : Bytes) (ioFirst : Bool) :
    Advances D R (l.view D R) (l.enterWrite call frame ioFirst) call := by
  rw [enterWrite]
  split_ifs
  · exact advances_shift_error hcall hjob hopen l.disposedError_ne_protocol
  · exact advances_shift_error hcall hjob hopen nofun
  · split
    · exact advances_lineUp hcall hjob hopen hfilling hempty hvalid _ frame ioFirst
    · exact advances_shift_error hcall hjob hopen nofun
  · exact advances_shift hcall hjob hopen .offering rfl nofun nofun nofun nofun

end Write

/-! ### Disposing -/

section Dispose

variable {l : Link} {call : CallId} {c : Call} {D : StreamId → Bytes} {R : StreamId → List Bytes}

/-- Disposing lets go of the connection. -/
theorem advances_finishDispose (hcall : l.calls[call]? = some c) (hjob : c.job.start? = none)
    (hopen : c.stage.isOpen) (hempty : (l.view D R).EmptyHanded call) (hdisposed : l.disposed) :
    Advances D R (l.view D R) (l.finishDispose call) call := by
  let l' : Link := { l with slot := none }
  have hcall' : l'.calls[call]? = some c := hcall
  have hempty' : (l'.view D R).EmptyHanded call := hempty
  exact (advances_shift_ok hcall' hjob hopen hempty' []).of_moves (.single (.clear hdisposed))
    fun _ _ => rfl

theorem advances_windDown (hcall : l.calls[call]? = some c) (hjob : c.job.start? = none)
    (hopen : c.stage.isOpen) (hempty : (l.view D R).EmptyHanded call) (hdisposed : l.disposed)
    (task : Task) (deadline : Nat) :
    Advances D R (l.view D R) (l.windDown call task deadline) call := by
  rw [windDown]
  split_ifs
  · exact advances_finishDispose hcall hjob hopen hempty hdisposed
  · exact advances_shift hcall hjob hopen (.winding task deadline) rfl nofun nofun nofun
      fun _ _ _ => hdisposed

theorem advances_enterDispose (hcall : l.calls[call]? = some c) (hjob : c.job.start? = none)
    (hopen : c.stage.isOpen) (hempty : (l.view D R).EmptyHanded call) :
    Advances D R (l.view D R) (l.enterDispose call) call := by
  rw [enterDispose]
  dsimp only
  split_ifs
  · let l' : Link := { l with disposals := l.disposals + 1 }
    have hcall' : l'.calls[call]? = some c := hcall
    have hempty' : (l'.view D R).EmptyHanded call := hempty
    exact advances_shift_ok hcall' hjob hopen hempty' []
  · let l' : Link := { l with disposals := l.disposals + 1, disposed := true, tracked := none }
    have hcall' : l'.calls[call]? = some c := hcall
    have hempty' : (l'.view D R).EmptyHanded call := hempty
    have hmove : Move (l.view D R) (l'.view D R) := .dispose _
    cases l.tracked with
    | none =>
      exact (advances_finishDispose hcall' hjob hopen hempty' rfl).of_moves (.single hmove)
        fun _ _ => rfl
    | some task =>
      exact (advances_windDown hcall' hjob hopen hempty' rfl task _).of_moves (.single hmove)
        fun _ _ => rfl

end Dispose

/-! ### Calls -/

section Call

variable {l : Link} {call : CallId} {c : Call} {D : StreamId → Bytes} {R : StreamId → List Bytes}

/-- A call that is not over is advanced. -/
theorem advances_poll (hok : (l.view D R).Ok) (hsettled : l.IsSettled call)
    (hcall : l.calls[call]? = some c) (hopen : c.stage.isOpen) (ioFirst : Bool) :
    Advances D R (l.view D R) (l.poll call ioFirst) call := by
  have hown := hok.call call c hcall
  have hself : (l.view D R).setStage call c.stage = l.view D R := View.setStage_self hcall
  have hvalid : l.conn.Valid := hok.conn
  rw [poll, hcall]
  obtain ⟨job, cancelled, stage⟩ := c
  cases stage with
  | fresh =>
    cases job with
    | read n => exact advances_enterRead hcall hok rfl (.inl rfl) nofun
    | readFrame => exact advances_enterRead hcall hok rfl (.inl rfl) fun _ => Nat.zero_lt_succ _
    | write frame => exact advances_enterWrite hcall rfl hopen rfl hown hvalid frame ioFirst
    | dispose => exact advances_enterDispose hcall rfl hopen hown
  | queued =>
    cases job with
    | read n => exact advances_enterRead hcall hok rfl (.inr rfl) nofun
    | readFrame => exact advances_enterRead hcall hok rfl (.inr rfl) fun _ => Nat.zero_lt_succ _
    | write frame => exact nomatch hown.1
    | dispose => exact nomatch hown.1
  | filling part f source =>
    have hread := advances_readOn (D := D) (R := R) hcall (hself.symm ▸ hok)
      fun _ => hsettled _ part f source hcall rfl
    rw [hself] at hread
    cases job <;> exact hread
  | offering =>
    cases job with
    | write frame => exact advances_enterWrite hcall rfl hopen rfl hown.2 hvalid frame ioFirst
    | _ => exact advances_stay hcall hopen rfl
  | lining stream =>
    cases job with
    | write frame => exact advances_lineUp hcall rfl hopen rfl hown.2 hvalid stream frame ioFirst
    | _ => exact advances_stay hcall hopen rfl
  | sending stream rest =>
    cases job <;> exact advances_send hcall hown.1 hopen hown.2 hvalid stream rest ioFirst
  | winding task deadline =>
    cases job <;> exact advances_windDown hcall hown.1 hopen hown.2.2 hown.2.1 task deadline
  | done result => exact nomatch hopen
  | dropped => exact nomatch hopen

end Call

end Link

end BrokerWire
