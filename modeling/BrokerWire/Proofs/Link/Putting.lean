import BrokerWire.Proofs.Link.Delivering

/-!
# What a write has put

What a write has put on a connection can be told from its stage: nothing before its turn, all but
what is left while it has its turn, and the whole frame when it has succeeded. Unlike the order in
which frames stand on a connection, this does not depend on what becomes of other writes, so it
holds even where writes are dropped (`Told.moves`).
-/

namespace BrokerWire

namespace Link

namespace Outflow

variable {v v' : Outflow} {call id : CallId} {frame : Bytes} {job : Job} {stage stage' : Stage}

/-- What a write at this stage has put; a write that has failed or was dropped may have put
anything. -/
def Tells (v : Outflow) (id : CallId) (frame : Bytes) : Stage → Prop
  | .sending stream rest => ∃ sent, frame = sent ++ rest ∧ v.Holds id stream sent
  | .done (.ok _) => ∃ stream, v.Holds id stream frame
  | .done (.error _) | .dropped => True
  | _ => v.EmptyHanded id

/-- Every write has put what its stage tells. -/
structure Told (v : Outflow) : Prop where
  post : ∀ id frame stage, v.posts id = some (.write frame, stage) → v.Tells id frame stage
  /-- A call that has not begun has put nothing. -/
  unbegun : ∀ id, v.posts id = none → v.EmptyHanded id

theorem tells_of_isAhead (hahead : stage.isAhead) : v.Tells id frame stage ↔ v.EmptyHanded id := by
  cases stage with
  | fresh => rfl
  | offering => rfl
  | lining stream => rfl
  | _ => contradiction

/-- Only what the call itself has put plays a part. -/
theorem Tells.congr (h : v.Tells id frame stage)
    (hput : ∀ stream, v'.putBy id stream = v.putBy id stream) : v'.Tells id frame stage := by
  have hempty : v.EmptyHanded id → v'.EmptyHanded id :=
    fun h stream => (hput stream).trans (h stream)
  have hholds : ∀ {stream bytes}, v.Holds id stream bytes → v'.Holds id stream bytes :=
    fun h => ⟨(hput _).trans h.1, fun other hne => (hput other).trans (h.2 other hne)⟩
  cases stage with
  | sending stream rest =>
    obtain ⟨sent, hframe, hsent⟩ := h
    exact ⟨sent, hframe, hholds hsent⟩
  | done result =>
    cases result with
    | ok bytes =>
      obtain ⟨stream, hall⟩ := h
      exact ⟨stream, hholds hall⟩
    | error e => trivial
  | dropped => trivial
  | _ => exact hempty h

/-- A call goes on, and puts nothing. -/
theorem Told.setStage (h : v.Told) {writers : StreamId → Turns}
    (hpost : v.posts call = some (job, stage))
    (htells : ∀ frame, job = .write frame → v.Tells call frame stage') :
    ({ v with writers }.setStage call stage').Told where
  post id frame stage₀ hpost' := by
    by_cases hid : id = call
    · subst hid
      rw [posts_setStage_self (v := { v with writers }) hpost] at hpost'
      obtain ⟨rfl, rfl⟩ := Prod.mk.inj (Option.some.inj hpost')
      exact (htells frame rfl).congr fun _ => rfl
    · exact (h.post id frame stage₀ (posts_setStage_of_ne hid stage' ▸ hpost')).congr fun _ => rfl
  unbegun id hnone := by
    by_cases hid : id = call
    · subst hid
      rw [posts_setStage_self (v := { v with writers }) hpost] at hnone
      contradiction
    · exact h.unbegun id (posts_setStage_of_ne hid stage' ▸ hnone)

/-- A write puts a piece of its frame. -/
theorem Told.put (h : v.Told) {chunk rest : Bytes} {stream : StreamId}
    (hpost : v.posts call = some (.write frame, .sending stream (chunk ++ rest))) :
    ((v.put call stream chunk).setStage call (.sending stream rest)).Told where
  post id frame' stage₀ hpost' := by
    by_cases hid : id = call
    · subst hid
      rw [posts_setStage_self (v := v.put id stream chunk) hpost] at hpost'
      obtain ⟨hjob, rfl⟩ := Prod.mk.inj (Option.some.inj hpost')
      obtain rfl := Job.write.inj hjob
      obtain ⟨sent, rfl, hsent, hothers⟩ := h.post id frame _ hpost
      refine ⟨sent ++ chunk, (List.append_assoc ..).symm, ?_, fun other hne => ?_⟩
      · exact (putBy_put_self v id stream chunk).trans (congrArg (· ++ chunk) hsent)
      · exact (putBy_put_of_ne v (.inr hne) chunk).trans (hothers other hne)
    · have hbefore := posts_setStage_of_ne (v := v.put call stream chunk) hid _ ▸ hpost'
      exact (h.post id frame' stage₀ hbefore).congr fun _ => putBy_put_of_ne v (.inl hid) chunk
  unbegun id hnone := by
    by_cases hid : id = call
    · subst hid
      rw [posts_setStage_self (v := v.put id stream chunk) hpost] at hnone
      contradiction
    · have hbefore := posts_setStage_of_ne (v := v.put call stream chunk) hid _ ▸ hnone
      exact fun target => (putBy_put_of_ne v (.inl hid) chunk).trans (h.unbegun id hbefore target)

theorem Told.move (h : v.Told) (hmove : Move v v') : v'.Told := by
  cases hmove with
  | @begin call job hnone =>
    constructor
    · intro id frame stage hpost
      simp only [Function.update_apply] at hpost
      split_ifs at hpost with hid
      · obtain ⟨rfl, rfl⟩ := Prod.mk.inj (Option.some.inj hpost)
        exact hid ▸ h.unbegun call hnone
      · exact (h.post id frame stage hpost).congr fun _ => rfl
    · intro id hnone'
      simp only [Function.update_apply] at hnone'
      split_ifs at hnone'
      exact h.unbegun id hnone'
  | @shift call job stage stage' writers hpost hopen hjob =>
    exact h.setStage hpost fun frame hwrite => absurd hwrite (hjob frame)
  | @wait call frame stage stage' writers hpost hahead hahead' =>
    refine h.setStage hpost ?_
    rintro _ ⟨⟩
    rw [tells_of_isAhead hahead', ← tells_of_isAhead hahead]
    exact h.post call frame stage hpost
  | @start call frame stage stream writers hpost hahead =>
    refine h.setStage hpost ?_
    rintro _ ⟨⟩
    have hempty := (tells_of_isAhead hahead).mp (h.post call frame stage hpost)
    exact ⟨[], rfl, hempty stream, fun other _ => hempty other⟩
  | put hpost => exact h.put hpost
  | @finish call frame stream writers bytes hpost =>
    refine h.setStage hpost ?_
    rintro _ ⟨⟩
    obtain ⟨sent, hframe, hsent⟩ := h.post call frame _ hpost
    rw [List.append_nil] at hframe
    exact ⟨stream, hframe ▸ hsent⟩
  | refuse hpost => exact h.setStage hpost fun _ _ => trivial
  | fail hpost => exact h.setStage hpost fun _ _ => trivial
  | drop hpost => exact h.setStage hpost fun _ _ => trivial
  | _ => exact ⟨fun id frame stage hpost => (h.post id frame stage hpost).congr fun _ => rfl,
      h.unbegun⟩

theorem Told.moves (h : v.Told) (hmoves : Moves v v') : v'.Told := by
  induction hmoves with
  | refl => exact h
  | tail _ hmove ih => exact ih.move hmove

end Outflow

theorem told_new (config : Config) (endpoint : String) (window : Nat) :
    (outflow { config, endpoint, window } fun _ => []).Told where
  post _ _ _ hpost := nomatch hpost
  unbegun _ _ _ := rfl

/-- A write that has succeeded has put its frame on one connection. -/
theorem exists_putBy_of_ok {l : Link} {d : StreamId → Bytes} (h : (l.outflow d).Told)
    {call : CallId} {c : Call} {frame bytes : Bytes} (hcall : l.calls[call]? = some c)
    (hjob : c.job = .write frame) (hstage : c.stage = .done (.ok bytes)) :
    ∃ stream, l.putBy call stream = frame := by
  have hpost := posts_outflow (d := d) hcall
  rw [hjob, hstage] at hpost
  obtain ⟨stream, hput, -⟩ := h.post call frame _ hpost
  exact ⟨stream, hput⟩

end Link

end BrokerWire
