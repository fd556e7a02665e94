import BrokerWire.Proofs.Link.Changing

/-!
# What calls leave alone

A call that is advanced touches the connections, the turns, the record and its own stage, and at
most has a loss noted. `Touch` is one such change, and `touches_poll` says that advancing a call is
a course of them unless the call disposes the link. What no touch changes, no read and no write
changes, whatever it comes to.
-/

namespace BrokerWire

namespace Link

/-- The changes that a read or a write is made up of, and its end when it is dropped. -/
inductive Touch : Link → Link → Prop where
  /-- A connection holds other bytes, or other calls have their turns there. -/
  | stream (l : Link) (stream : StreamId) (g : Stream → Stream) : Touch l (l.modifyStream stream g)
  /-- All connections do. -/
  | streams (l : Link) (g : Stream → Stream) : Touch l { l with streams := l.streams.map g }
  /-- Bytes are recorded. -/
  | entry (l : Link) {entry : Entry}
    (hentry : ∀ number instant, entry ≠ .announced number instant) : Touch l (l.record entry)
  /-- Other calls have their turns to read. -/
  | turns (l : Link) (readers : Turns) : Touch l { l with readers }
  /-- A call goes on to another stage. -/
  | stage (l : Link) (call : CallId) (stage : Stage) : Touch l (l.setStage call stage)
  /-- A loss is noted. -/
  | lose (l : Link) (stream : StreamId) : Touch l (l.lose stream)

/-- Any number of these changes. -/
abbrev Touches : Link → Link → Prop := Relation.ReflTransGen Touch

/-- What reads and writes leave alone. -/
structure Untouched (l l' : Link) : Prop where
  config : l'.config = l.config
  endpoint : l'.endpoint = l.endpoint
  disposals : l'.disposals = l.disposals
  disposed : l'.disposed = l.disposed
  announcements : l'.announcements = l.announcements

variable {l l' l₁ : Link}

theorem Untouched.trans (h₁ : l.Untouched l₁) (h : l₁.Untouched l') : l.Untouched l' where
  config := h.config.trans h₁.config
  endpoint := h.endpoint.trans h₁.endpoint
  disposals := h.disposals.trans h₁.disposals
  disposed := h.disposed.trans h₁.disposed
  announcements := h.announcements.trans h₁.announcements

theorem untouched_reconnect (l : Link) (lost : Option StreamId) :
    l.Untouched (l.reconnect lost) := by
  rw [reconnect]
  split_ifs <;> exact ⟨rfl, rfl, rfl, rfl, rfl⟩

theorem Touch.untouched (h : Touch l l') : l.Untouched l' := by
  cases h with
  | entry hentry => exact ⟨rfl, rfl, rfl, rfl, announcements_record hentry⟩
  | lose stream => exact untouched_reconnect l (some stream)
  | _ => exact ⟨rfl, rfl, rfl, rfl, rfl⟩

theorem Touches.untouched (h : Touches l l') : l.Untouched l' := by
  induction h with
  | refl => exact ⟨rfl, rfl, rfl, rfl, rfl⟩
  | tail _ htouch ih => exact ih.trans htouch.untouched

/-! ### Reads -/

theorem touches_takeFrom (l : Link) (call : CallId) (stream : StreamId) (n : Nat) :
    Touches l (l.takeFrom call stream n).2 := by
  rw [takeFrom]
  cases l.streams[stream]? with
  | none => exact .refl
  | some s =>
    dsimp only
    generalize s.take n = result
    obtain ⟨intake, s'⟩ := result
    cases intake with
    | bytes chunk =>
      refine .tail (.single (.stream l stream _)) (.entry _ fun number instant h => ?_)
      contradiction
    | nothing => exact .refl
    | ended => exact .single (.lose l stream)
    | aborted => exact .single (.lose l stream)

theorem touches_gather (rounds : Nat) (l : Link) (call : CallId) (f : Filling)
    (source : Option StreamId) : Touches l (gather rounds l call f source).1 := by
  induction rounds generalizing l f source with
  | zero => exact .refl
  | succ rounds ih =>
    cases source with
    | none =>
      rw [gather]
      split_ifs
      · exact .refl
      · exact .refl
      · exact .refl
      · cases l.slot with
        | none => exact .refl
        | some stream => exact ih l f (some stream)
      · exact .refl
    | some stream =>
      rw [gather]
      split_ifs
      · exact .refl
      · exact .refl
      · exact .refl
      · have htake := touches_takeFrom l call stream f.missing
        generalize l.takeFrom call stream f.missing = result at htake
        obtain ⟨intake, l'⟩ := result
        cases intake with
        | bytes chunk => exact htake.trans (ih l' _ none)
        | _ => exact htake

theorem touches_endRead (l : Link) (call : CallId) (result : Result) :
    Touches l (l.endRead call result) :=
  .tail (.single (.turns l _)) (.stage _ call _)

theorem touches_readLast (l : Link) (call : CallId) (part : Part) (f : Filling)
    (source : Option StreamId) : Touches l (l.readLast call part f source) := by
  have hfill : Touches l (l.fill call f source).1 := touches_gather _ l call f source
  rw [readLast]
  generalize l.fill call f source = result at hfill
  obtain ⟨l', filled⟩ := result
  cases filled with
  | complete bytes => exact hfill.trans (touches_endRead l' call _)
  | waiting f' source' => exact hfill.tail (.stage l' call _)
  | failed e => exact hfill.trans (touches_endRead l' call _)

theorem touches_readBody (l : Link) (call : CallId) (length : Int32) :
    Touches l (l.readBody call length) := by
  rw [readBody]
  split_ifs
  · exact touches_readLast l call _ _ _
  · cases l.slot with
    | none => exact touches_endRead l call _
    | some stream => exact .head (.lose l stream) (touches_endRead _ call _)

theorem touches_readOn (l : Link) (call : CallId) (part : Part) (f : Filling)
    (source : Option StreamId) : Touches l (l.readOn call part f source) := by
  have hlast := touches_readLast l call part f source
  cases part with
  | length =>
    have hfill : Touches l (l.fill call f source).1 := touches_gather _ l call f source
    rw [readOn]
    generalize l.fill call f source = result at hfill
    obtain ⟨l', filled⟩ := result
    cases filled with
    | complete bytes => exact hfill.trans (touches_readBody l' call _)
    | waiting f' source' => exact hfill.tail (.stage l' call _)
    | failed e => exact hfill.trans (touches_endRead l' call _)
  | _ => exact hlast

theorem touches_enterRead (l : Link) (call : CallId) (part : Part) (size : Nat) :
    Touches l (l.enterRead call part size) := by
  rw [enterRead]
  dsimp only
  split_ifs
  · exact touches_endRead l call _
  · exact touches_endRead l call _
  · exact .head (.turns l _) (touches_readOn _ call _ _ _)
  · exact .tail (.single (.turns l _)) (.stage _ call _)

/-! ### Writes -/

theorem touches_endWrite (l : Link) (call : CallId) (stream : StreamId) (result : Result) :
    Touches l (l.endWrite call stream result) :=
  .tail (.single (.stream l stream _)) (.stage _ call _)

theorem touches_putOn (l : Link) (call : CallId) (stream : StreamId) (bytes : Bytes) :
    Touches l (l.putOn call stream bytes).2 := by
  rw [putOn]
  cases l.streams[stream]? with
  | none => exact .refl
  | some s =>
    dsimp only
    generalize s.put l.window bytes = result
    obtain ⟨outlet, accepted, s'⟩ := result
    cases accepted with
    | nil => exact .refl
    | cons b rest =>
      refine .tail (.single (.stream l stream _)) (.entry _ fun number instant h => ?_)
      contradiction

theorem touches_send (l : Link) (call : CallId) (stream : StreamId) (rest : Bytes)
    (ioFirst : Bool) : Touches l (l.send call stream rest ioFirst) := by
  rw [send]
  split_ifs
  · exact touches_endWrite l call stream _
  have hput := touches_putOn l call stream rest
  generalize l.putOn call stream rest = result at hput
  obtain ⟨outlet, l'⟩ := result
  cases outlet with
  | complete => exact hput.trans (touches_endWrite l' call stream _)
  | partly rest =>
    dsimp only
    split_ifs
    · exact hput.trans (touches_endWrite l' call stream _)
    · exact hput.tail (.stage l' call _)
  | aborted => exact (hput.trans (touches_endWrite l' call stream _)).tail (.lose _ stream)

theorem touches_lineUp (l : Link) (call : CallId) (stream : StreamId) (frame : Bytes)
    (ioFirst : Bool) : Touches l (l.lineUp call stream frame ioFirst) := by
  rw [lineUp]
  dsimp only
  split_ifs
  · exact touches_endWrite l call stream _
  · exact touches_endWrite l call stream _
  have hjoin := Touch.stream l stream fun s => { s with writers := s.writers.join call }
  generalize (l.modifyStream stream fun s => { s with writers := s.writers.join call }) = l'
    at hjoin
  cases l'.streams[stream]? with
  | none => exact .single hjoin
  | some s =>
    dsimp only
    split_ifs
    · exact .head hjoin (touches_send l' call stream frame ioFirst)
    · exact .tail (.single hjoin) (.stage l' call _)

theorem touches_enterWrite (l : Link) (call : CallId) (frame : Bytes) (ioFirst : Bool) :
    Touches l (l.enterWrite call frame ioFirst) := by
  rw [enterWrite]
  split_ifs
  · exact .single (.stage l call _)
  · exact .single (.stage l call _)
  · cases l.slot with
    | none => exact .single (.stage l call _)
    | some stream => exact touches_lineUp l call stream frame ioFirst
  · exact .single (.stage l call _)

/-! ### Calls -/

theorem touches_drop (l : Link) (call : CallId) : Touches l (l.drop call) := by
  obtain hover | ⟨c, hcall, hopen⟩ := l.over_or_open call
  · rw [drop_of_not_isOpen hover]
  · rw [drop_of_isOpen hcall hopen]
    let l₁ : Link := { l with readers := l.readers.leave call }
    let left : Stream → Stream := fun s => { s with writers := s.writers.leave call }
    have hleft : Touches l { l₁ with streams := l₁.streams.map left } :=
      .tail (.single (.turns l _)) (.streams l₁ left)
    exact hleft.tail (.stage _ call .dropped)

/-- A call that is advanced reads or writes, or it disposes the link. -/
theorem touches_poll (l : Link) (call : CallId) (ioFirst : Bool) :
    Touches l (l.poll call ioFirst) ∨
      (∃ cancelled, l.calls[call]? = some ⟨.dispose, cancelled, .fresh⟩ ∧
        l.poll call ioFirst = l.enterDispose call) ∨
      ∃ job cancelled task deadline,
        l.calls[call]? = some ⟨job, cancelled, .winding task deadline⟩ ∧
          l.poll call ioFirst = l.windDown call task deadline := by
  rw [poll]
  cases hcall : l.calls[call]? with
  | none => exact .inl .refl
  | some c =>
    obtain ⟨job, cancelled, stage⟩ := c
    cases stage with
    | fresh =>
      cases job with
      | read n => exact .inl (touches_enterRead l call _ _)
      | readFrame => exact .inl (touches_enterRead l call _ _)
      | write frame => exact .inl (touches_enterWrite l call frame ioFirst)
      | dispose => exact .inr (.inl ⟨cancelled, rfl, rfl⟩)
    | queued =>
      cases job with
      | read n => exact .inl (touches_enterRead l call _ _)
      | readFrame => exact .inl (touches_enterRead l call _ _)
      | _ => exact .inl .refl
    | filling part f source => cases job <;> exact .inl (touches_readOn l call part f source)
    | offering =>
      cases job with
      | write frame => exact .inl (touches_enterWrite l call frame ioFirst)
      | _ => exact .inl .refl
    | lining stream =>
      cases job with
      | write frame => exact .inl (touches_lineUp l call stream frame ioFirst)
      | _ => exact .inl .refl
    | sending stream rest => cases job <;> exact .inl (touches_send l call stream rest ioFirst)
    | winding task deadline =>
      refine .inr (.inr ⟨job, cancelled, task, deadline, rfl, ?_⟩)
      cases job <;> rfl
    | done result => cases job <;> exact .inl .refl
    | dropped => cases job <;> exact .inl .refl

end Link

end BrokerWire
