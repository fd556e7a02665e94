import BrokerWire.Proofs.Link.Stepping

/-!
# What every run keeps

A link that is new is in order, and every event keeps it so: calls hold what they should, and what
is taken from a connection is what has arrived there, in order, with nothing left out.
-/

namespace BrokerWire

namespace Link

namespace View

variable {v v' : View}

/-! ### What arrives is taken in order -/

/-- How what has arrived on a connection is taken. -/
structure Flow (v : View) (stream : StreamId) : Prop where
  /-- What is taken and what is unread have arrived. -/
  arrived : v.takenFrom stream ++ (v.inflow stream).incoming <+: v.delivered stream
  /-- What has arrived is taken or unread, unless the connection is broken. -/
  unread : (v.inflow stream).aborted = false →
    v.takenFrom stream ++ (v.inflow stream).incoming = v.delivered stream

/-- What is taken has arrived. -/
theorem Flow.taken {stream : StreamId} (h : v.Flow stream) :
    v.takenFrom stream <+: v.delivered stream :=
  (List.prefix_append _ _).trans h.arrived

/-- What holds of one connection that has changed, and held of all others. -/
theorem Flow.update (stream : StreamId) (h : ∀ stream, v.Flow stream) (hchanged : v'.Flow stream)
    (htaken : ∀ other, other ≠ stream → v'.takenFrom other = v.takenFrom other)
    (hinflow : ∀ other, other ≠ stream → v'.inflow other = v.inflow other)
    (hdelivered : ∀ other, other ≠ stream → v'.delivered other = v.delivered other) :
    ∀ other, v'.Flow other := by
  intro other
  by_cases hother : other = stream
  · exact hother ▸ hchanged
  · obtain ⟨arrived, unread⟩ := h other
    rw [← htaken other hother, ← hinflow other hother, ← hdelivered other hother] at arrived unread
    exact ⟨arrived, unread⟩

theorem Flow.move (h : ∀ stream, v.Flow stream) (hmove : Move v v') : ∀ stream, v'.Flow stream := by
  cases hmove with
  | @take call c part f stream chunk rest hcall hstage hincoming hchunk hmissing =>
    obtain ⟨harrived, hunread⟩ := h stream
    -- what is taken is the front of what was unread
    have hself := takenFrom_take_self v call stream chunk rest
    have hinflow : ((v.take call stream chunk rest).inflow stream) =
        { v.inflow stream with incoming := rest } := Function.update_self ..
    rw [hincoming, ← List.append_assoc, ← hself] at harrived hunread
    refine update stream h ⟨?_, fun halive => ?_⟩
      (fun other hne => takenFrom_take_of_ne v hne chunk rest)
      (fun other hne => Function.update_of_ne hne _ _) fun _ _ => rfl
    · exact congrArg (_ ++ Inflow.incoming ·) hinflow ▸ harrived
    · have halive := (congrArg Inflow.aborted hinflow).symm.trans halive
      exact (congrArg (_ ++ Inflow.incoming ·) hinflow).trans (hunread halive)
  | @arrive stream bytes hmade hended haborted =>
    have hall : v.takenFrom stream ++ ((v.inflow stream).incoming ++ bytes) =
        v.delivered stream ++ bytes := by
      rw [← List.append_assoc, (h stream).unread haborted]
    refine update stream h ⟨?_, fun _ => ?_⟩ (fun _ _ => rfl)
      (fun other hne => Function.update_of_ne hne _ _)
      fun other hne => Function.update_of_ne hne _ _
    · simp only [setInflow, Function.update_self]
      exact hall ▸ List.prefix_refl _
    · simp only [setInflow, Function.update_self]
      exact hall
  | hangUp stream =>
    refine update stream h ⟨?_, fun halive => ?_⟩
      (fun _ _ => rfl) (fun other hne => Function.update_of_ne hne _ _) fun _ _ => rfl
    · simp only [setInflow, Function.update_self]
      exact (h stream).arrived
    · simp only [setInflow, Function.update_self] at halive ⊢
      exact (h stream).unread halive
  | abort stream =>
    refine update stream h ⟨?_, fun halive => ?_⟩
      (fun _ _ => rfl) (fun other hne => Function.update_of_ne hne _ _) fun _ _ => rfl
    · simp only [setInflow, Function.update_self]
      exact (h stream).arrived
    · simp only [setInflow, Function.update_self] at halive
      contradiction
  | @flush stream haborted =>
    refine update stream h ⟨?_, fun halive => ?_⟩
      (fun _ _ => rfl) (fun other hne => Function.update_of_ne hne _ _) fun _ _ => rfl
    · simp only [setInflow, Function.update_self, List.append_nil]
      exact (h stream).taken
    · simp only [setInflow, Function.update_self] at halive
      exact absurd (halive.symm.trans haborted) Bool.false_ne_true
  | _ => exact fun stream => ⟨(h stream).arrived, (h stream).unread⟩

theorem Flow.moves (h : ∀ stream, v.Flow stream) (hmoves : Moves v v') :
    ∀ stream, v'.Flow stream := by
  induction hmoves with
  | refl => exact h
  | tail _ hmove ih => exact Flow.move ih hmove

theorem Flow.begun (h : ∀ stream, v.Flow stream) (event : Event) :
    ∀ stream, (v.begun event).Flow stream := by
  cases event <;> exact fun stream => ⟨(h stream).arrived, (h stream).unread⟩

end View

/-! ### Runs -/

/-- A link on which so much has been delivered and returned is in order. -/
structure InOrder (l : Link) (D : StreamId → Bytes) (R : StreamId → List Bytes) : Prop where
  /-- Its calls hold what they should. -/
  ok : (l.view D R).Ok
  /-- What has arrived is taken in order. -/
  flow : ∀ stream, (l.view D R).Flow stream
  /-- The calls that wait for bytes miss some. -/
  settled : l.Settled

variable {l : Link} {D : StreamId → Bytes} {R : StreamId → List Bytes}

theorem inOrder_new (config : Config) (endpoint : String) (window : Nat) :
    InOrder { config, endpoint, window } (fun _ => []) fun _ => [] where
  ok := ⟨Conn.valid_initial, nofun, nofun, nofun, fun _ => List.Pairwise.nil⟩
  flow _ := ⟨List.nil_prefix, fun _ => rfl⟩
  settled _ _ _ _ _ h := nomatch h

theorem InOrder.step (h : l.InOrder D R) (event : Event) :
    (l.step event).InOrder (fun stream => D stream ++ l.deliveredBy event stream)
      fun stream => R stream ++ l.returnedBy event stream := by
  obtain ⟨hmoves, hsettled⟩ := moves_step h.ok h.settled event
  exact ⟨(h.ok.begun event).moves hmoves, View.Flow.moves (View.Flow.begun h.flow event) hmoves,
    hsettled⟩

/-- What every event preserves holds at the end of a course of events. -/
theorem run_of_step {P : Link → (StreamId → Bytes) → (StreamId → List Bytes) → Prop}
    {events : List Event} (hstep : ∀ l D R, ∀ event ∈ events, P l D R →
      P (l.step event) (fun stream => D stream ++ l.deliveredBy event stream)
        fun stream => R stream ++ l.returnedBy event stream) (h : P l D R) :
    P (l.run events) (fun stream => D stream ++ l.delivered stream events)
      fun stream => R stream ++ l.returned stream events := by
  induction events generalizing l D R with
  | nil =>
    simp only [delivered, returned, List.append_nil]
    exact h
  | cons event events ih =>
    -- what the first event adds goes to what there has been before
    simp only [delivered, returned, ← List.append_assoc]
    refine ih (fun l D R event hevent => hstep l D R event (List.mem_cons_of_mem _ hevent)) ?_
    exact hstep l D R event (List.mem_cons_self ..) h

theorem InOrder.run (h : l.InOrder D R) (events : List Event) :
    (l.run events).InOrder (fun stream => D stream ++ l.delivered stream events)
      fun stream => R stream ++ l.returned stream events :=
  run_of_step (P := InOrder) (fun _ _ _ event _ h => h.step event) h

end Link

end BrokerWire
