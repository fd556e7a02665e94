import BrokerWire.Proofs.FrameSequence
import BrokerWire.Proofs.Link.Stepping

/-!
# Reads of frames

When a link is used to read frames only, what its reads return from a connection are the bodies of
the frames that stand there, one after the other, as long as no call spoils the connection
(`View.Spoils`): a call does so that has taken bytes of it and is given up, or that has taken bytes
of another connection as well. `View.Framing` is the invariant. It says where in the stream of
frames a connection stands: behind the bodies that have been returned and what the call that reads
from it has taken. A call that is given up takes its bytes along, and from then on the connection
stands inside a frame; so does a connection that a call has left for another one, and that other one
too.
-/

namespace BrokerWire

namespace Link

namespace View

/-! ### Where calls stand -/

/-- Where a call stands. -/
def stageOf (v : View) (call : CallId) : Option Stage := v.calls[call]?.map Call.stage

/-- A call that has its turn has found a connection to read from, or has read from it. -/
def IsReading (v : View) (call : CallId) (stream : StreamId) : Prop :=
  ∃ part f source, v.stageOf call = some (.filling part f source) ∧
    (source = some stream ∨ v.takenBy call stream ≠ [])

/-- A call has been given up by its caller. -/
def IsAbandoned (v : View) (call : CallId) : Prop :=
  ∃ stage, v.stageOf call = some stage ∧ stage.isAbandoned

/-- A call has taken bytes of a connection, and it has been given up or has taken bytes of another
one too. -/
def Spoils (v : View) (call : CallId) (stream : StreamId) : Prop :=
  v.takenBy call stream ≠ [] ∧
    (v.IsAbandoned call ∨ ∃ other, other ≠ stream ∧ v.takenBy call other ≠ [])

/-- No call has spoilt a connection. -/
def Intact (v : View) (stream : StreamId) : Prop := ∀ call, ¬v.Spoils call stream

/-- Only frames are read. -/
def ReadsFrames (v : View) : Prop := ∀ c ∈ v.calls, ∀ n, c.job ≠ .read n

variable {v v' : View} {call other : CallId} {c : Call} {stream : StreamId}

theorem stageOf_of_getElem? (hcall : v.calls[call]? = some c) : v.stageOf call = some c.stage := by
  rw [stageOf, hcall]
  rfl

theorem stageOf_setStage_self (hcall : v.calls[call]? = some c) (stage : Stage) :
    (v.setStage call stage).stageOf call = some stage :=
  stageOf_of_getElem? (getElem?_setStage_self hcall)

theorem stageOf_setStage_of_ne (hne : other ≠ call) (stage : Stage) :
    (v.setStage call stage).stageOf other = v.stageOf other :=
  congrArg (Option.map Call.stage) (getElem?_setStage_of_ne hne)

theorem isReading_congr (h : v'.stageOf call = v.stageOf call)
    (htaken : v'.takenBy call stream = v.takenBy call stream) :
    v'.IsReading call stream ↔ v.IsReading call stream := by
  rw [IsReading, IsReading, h, htaken]

theorem isAbandoned_congr (h : v'.stageOf call = v.stageOf call) :
    v'.IsAbandoned call ↔ v.IsAbandoned call := by
  rw [IsAbandoned, IsAbandoned, h]

/-- A call that has its turn reads from where it has taken something. -/
theorem isReading_of_taken {part : Part} {f : Filling} {source : Option StreamId}
    (hcall : v.calls[call]? = some c) (hstage : c.stage = .filling part f source)
    (htaken : v.takenBy call stream ≠ []) : v.IsReading call stream :=
  ⟨part, f, source, hstage ▸ stageOf_of_getElem? hcall, .inr htaken⟩

theorem isReading_of_source {part : Part} {f : Filling} (hcall : v.calls[call]? = some c)
    (hstage : c.stage = .filling part f (some stream)) : v.IsReading call stream :=
  ⟨part, f, some stream, hstage ▸ stageOf_of_getElem? hcall, .inl rfl⟩

theorem IsReading.exists_call (h : v.IsReading call stream) :
    ∃ c part f source, v.calls[call]? = some c ∧ c.stage = .filling part f source ∧
      (source = some stream ∨ v.takenBy call stream ≠ []) := by
  obtain ⟨part, f, source, hstage, hfound⟩ := h
  obtain ⟨c, hcall, hc⟩ := Option.map_eq_some_iff.mp hstage
  exact ⟨c, part, f, source, hcall, hc, hfound⟩

theorem not_isReading_of_not_isFilling (hcall : v.calls[call]? = some c)
    (hfilling : c.stage.isFilling = false) (stream : StreamId) : ¬v.IsReading call stream := by
  intro h
  obtain ⟨c', part, f, source, hcall', hstage, -⟩ := h.exists_call
  obtain rfl := Option.some.inj (hcall.symm.trans hcall')
  rw [hstage] at hfilling
  contradiction

/-- A call that has its turn has not been given up. -/
theorem not_isAbandoned_of_filling {part : Part} {f : Filling} {source : Option StreamId}
    (hstage : v.stageOf call = some (.filling part f source)) : ¬v.IsAbandoned call := by
  rintro ⟨stage, hstage', habandoned⟩
  obtain rfl := Option.some.inj (hstage.symm.trans hstage')
  exact Stage.not_isAbandoned_of_isOpen rfl habandoned

/-- A read that has its turn is the only one that reads. -/
theorem Ok.eq_of_isReading (hok : v.Ok) (hcall : v.calls[call]? = some c)
    (hfilling : c.stage.isFilling) (h : v.IsReading other stream) : other = call := by
  obtain ⟨c', part', f', source', hcall', hstage', -⟩ := h.exists_call
  have hholder := hok.holder hcall hfilling
  have hholder' := hok.holder hcall' (by rw [hstage']; rfl)
  exact Option.some.inj (hholder'.symm.trans hholder)

/-- What a call has in its hands it has taken from somewhere. -/
theorem exists_takenBy_of_hand (h : v.hand call ≠ []) : ∃ stream, v.takenBy call stream ≠ [] := by
  by_contra hnone
  have hnone : ∀ stream, v.takenBy call stream = [] := by simpa using hnone
  have hall : v.hand call = v.takenBy call 0 := bytesOf_isBy fun other _ => hnone other
  exact h (hall.trans (hnone 0))

/-- What a call has taken from a connection that is intact is all that it has in its hands. -/
theorem Intact.hand_eq (h : v.Intact stream) (htaken : v.takenBy call stream ≠ []) :
    v.hand call = v.takenBy call stream := by
  refine bytesOf_isBy fun other hne => ?_
  by_contra hother
  exact h call ⟨htaken, .inr ⟨other, hne, hother⟩⟩

/-! ### The invariant -/

/-- Why a connection is not intact. The call that has spoilt it came to it with bytes of an earlier
one, or it stopped reading from it inside a frame, behind the frames that had been returned. -/
def Torn (v : View) (stream : StreamId) : Prop :=
  ∃ call, v.Spoils call stream ∧ ((∃ earlier < stream, v.takenBy call earlier ≠ []) ∨
    ∃ bodies, IsPartial .readFrame (v.takenBy call stream) ∧ bodies <+: v.returned stream ∧
      frames bodies ++ v.takenBy call stream <+: v.takenFrom stream)

/-- Where a connection stands in the stream of frames. -/
structure Framing (v : View) : Prop where
  /-- What has been returned has been taken, and nothing else before it. -/
  whole : ∀ stream, v.Intact stream → frames (v.returned stream) <+: v.takenFrom stream
  /-- What has been returned are bodies of frames. -/
  bodies : ∀ stream, ∀ body ∈ v.returned stream, IsBody body
  /-- A call that reads has all in its hands that has been taken and not been returned. -/
  held : ∀ call stream, v.IsReading call stream → v.Intact stream →
    v.takenFrom stream = frames (v.returned stream) ++ v.takenBy call stream
  /-- If no call reads from a connection in use, there is no such thing. -/
  clear : ∀ stream, v.conn.InUse stream → (∀ call, ¬v.IsReading call stream) → v.Intact stream →
    v.takenFrom stream = frames (v.returned stream)
  /-- What a call has returned is among what has been returned from its connections. -/
  listed : ∀ call stream body, v.stageOf call = some (.done (.ok body)) →
    v.takenBy call stream ≠ [] → body ∈ v.returned stream
  /-- A read that has failed because of an impossible length has found it behind whole frames. -/
  protocol : ∀ call fault, v.stageOf call = some (.done (.error (.protocol fault))) →
    ∃ stream, v.takenBy call stream ≠ [] ∧ (v.Intact stream →
      ∃ bodies header, (∀ body ∈ bodies, IsBody body) ∧ header.length = 4 ∧
        isFrameLength (BigEndian.toInt32 header) = false ∧
        frames bodies ++ header <+: v.takenFrom stream)
  /-- Where a connection is not intact there is a reason. -/
  torn : ∀ stream, ¬v.Intact stream → v.Torn stream

/-- What a call does that takes and returns nothing. -/
structure Passes (v v' : View) (call : CallId) : Prop where
  /-- It reads from where it has taken something. -/
  reads : ∀ stream, v.takenBy call stream ≠ [] → v.IsReading call stream
  /-- It comes to read only from a connection in use from which nobody reads. -/
  starts : ∀ stream, v'.IsReading call stream → v.IsReading call stream ∨
    v.takenBy call stream = [] ∧ v.conn.InUse stream ∧ ∀ other, ¬v.IsReading other stream
  /-- It stops reading from where it has taken something only if it is given up or the connection is
  out of use. -/
  stops : ∀ stream, v.IsReading call stream → v'.IsReading call stream ∨
    v.takenBy call stream = [] ∨ v'.IsAbandoned call ∨ ¬v'.conn.InUse stream
  /-- It does not succeed in reading anything. -/
  failed : ∀ body, v'.stageOf call = some (.done (.ok body)) → v.EmptyHanded call
  /-- If it is given up, it has a part of a frame in its hands. -/
  cut : v'.IsAbandoned call → v.EmptyHanded call ∨ IsPartial .readFrame (v.hand call)
  /-- If it finds a length impossible, that is what it has in its hands. -/
  protocol : ∀ fault, v'.stageOf call = some (.done (.error (.protocol fault))) →
    (v.hand call).length = 4 ∧ isFrameLength (BigEndian.toInt32 (v.hand call)) = false

/-- No call takes or returns anything. -/
structure Rests (v v' : View) : Prop where
  takes : v'.takes = v.takes
  returned : v'.returned = v.returned
  calls : ∀ call, v'.stageOf call = v.stageOf call ∨ v.Passes v' call
  /-- What has been given up stays given up. -/
  abandoned : ∀ call, v.IsAbandoned call → v'.IsAbandoned call
  /-- From a connection that comes into use nothing has been taken. -/
  use : ∀ stream, v'.conn.InUse stream → v.conn.InUse stream ∨ v.takenFrom stream = []

/-- No call goes on. -/
theorem rests_of_stageOf_eq (htakes : v'.takes = v.takes) (hreturned : v'.returned = v.returned)
    (hstages : ∀ call, v'.stageOf call = v.stageOf call)
    (huse : ∀ stream, v'.conn.InUse stream → v.conn.InUse stream ∨ v.takenFrom stream = []) :
    v.Rests v' :=
  ⟨htakes, hreturned, fun call => .inl (hstages call),
    fun call => (isAbandoned_congr (hstages call)).mpr, huse⟩

section Rests

variable (hrests : v.Rests v')
include hrests

theorem Rests.takenBy_eq (call : CallId) (stream : StreamId) :
    v'.takenBy call stream = v.takenBy call stream := by
  rw [takenBy, takenBy, hrests.takes]

theorem Rests.takenFrom_eq (stream : StreamId) : v'.takenFrom stream = v.takenFrom stream := by
  rw [takenFrom, takenFrom, hrests.takes]

theorem Rests.spoils (hspoilt : v.Spoils call stream) : v'.Spoils call stream := by
  simp only [Spoils, hrests.takenBy_eq]
  exact hspoilt.imp_right (Or.imp_left (hrests.abandoned call))

theorem Rests.intact (hintact : v'.Intact stream) : v.Intact stream :=
  fun call hspoilt => hintact call (hrests.spoils hspoilt)

variable (h : v.Framing)
include h

/-- From a connection from which nobody reads any more nothing but whole frames has been taken. -/
theorem Rests.takenFrom_eq_frames (hinUse : v'.conn.InUse stream)
    (hnone : ∀ call, ¬v'.IsReading call stream) (hintact : v'.Intact stream) :
    v.takenFrom stream = frames (v.returned stream) := by
  have hbefore := hrests.intact hintact
  rcases hrests.use stream hinUse with hinUse' | hempty
  · by_cases hreader : ∃ call, v.IsReading call stream
    · obtain ⟨call, hreading⟩ := hreader
      -- the call that has read from there stops, so it has taken nothing
      suffices htaken : v.takenBy call stream = [] by
        have hheld := h.held call stream hreading hbefore
        rwa [htaken, List.append_nil] at hheld
      rcases hrests.calls call with hsame | hpass
      · have hafter := (isReading_congr hsame (hrests.takenBy_eq call stream)).mpr hreading
        exact absurd hafter (hnone call)
      · by_contra htaken
        rcases hpass.stops stream hreading with hafter | hnothing | hgone | hunused
        · exact hnone call hafter
        · exact htaken hnothing
        · exact hintact call ⟨hrests.takenBy_eq call stream ▸ htaken, .inl hgone⟩
        · exact hunused hinUse
    · exact h.clear stream hinUse' (not_exists.mp hreader) hbefore
  · have hwhole := h.whole stream hbefore
    rw [hempty] at hwhole ⊢
    exact (List.prefix_nil.mp hwhole).symm

/-- A read that finds a length impossible finds it behind whole frames. -/
theorem Rests.exists_header {fault : ProtocolFault} (hpass : v.Passes v' call)
    (hdone : v'.stageOf call = some (.done (.error (.protocol fault)))) :
    ∃ stream, v.takenBy call stream ≠ [] ∧ (v'.Intact stream →
      ∃ bodies header, (∀ body ∈ bodies, IsBody body) ∧ header.length = 4 ∧
        isFrameLength (BigEndian.toInt32 header) = false ∧
        frames bodies ++ header <+: v.takenFrom stream) := by
  obtain ⟨hlength, himpossible⟩ := hpass.protocol fault hdone
  obtain ⟨stream, htaken⟩ :=
    exists_takenBy_of_hand (List.ne_nil_of_length_pos (by rw [hlength]; decide))
  refine ⟨stream, htaken, fun hintact => ?_⟩
  have hbefore := hrests.intact hintact
  have hheld := h.held call stream (hpass.reads stream htaken) hbefore
  rw [← hbefore.hand_eq htaken] at hheld
  exact ⟨v.returned stream, _, h.bodies stream, hlength, himpossible, hheld ▸ List.prefix_refl _⟩

/-- A connection that a call spoils because it is given up. -/
theorem Rests.torn_of_intact (hbefore : v.Intact stream) (hspoilt : v'.Spoils call stream) :
    v'.Torn stream := by
  refine ⟨call, hspoilt, .inr ?_⟩
  simp only [Spoils, hrests.takenBy_eq] at hspoilt
  obtain ⟨htaken, hreason⟩ := hspoilt
  -- no call has taken from two connections, so this one has just been given up
  have hgone := hreason.resolve_right fun hother => hbefore call ⟨htaken, .inr hother⟩
  rcases hrests.calls call with hsame | hpass
  · exact absurd ⟨htaken, .inl ((isAbandoned_congr hsame).mp hgone)⟩ (hbefore call)
  have hpartial : IsPartial .readFrame (v.takenBy call stream) := by
    rcases hpass.cut hgone with hempty | hpartial
    · exact absurd (hempty.takenBy_eq_nil stream) htaken
    · exact hbefore.hand_eq htaken ▸ hpartial
  have hheld := h.held call stream (hpass.reads stream htaken) hbefore
  rw [hrests.takenBy_eq, hrests.takenFrom_eq, hrests.returned]
  exact ⟨v.returned stream, hpartial, List.prefix_refl _, hheld ▸ List.prefix_refl _⟩

end Rests

/-- A connection that has been spoilt before. -/
theorem Torn.rests (htorn : v.Torn stream) (hrests : v.Rests v') : v'.Torn stream := by
  obtain ⟨call, hspoilt, hreason⟩ := htorn
  refine ⟨call, hrests.spoils hspoilt, ?_⟩
  simp only [hrests.takenBy_eq, hrests.takenFrom_eq, hrests.returned]
  exact hreason

/-- As long as no call takes or returns anything the invariant is kept. -/
theorem Framing.rests (h : v.Framing) (hrests : v.Rests v') : v'.Framing := by
  constructor
  case whole =>
    intro stream hintact
    rw [hrests.takenFrom_eq, hrests.returned]
    exact h.whole stream (hrests.intact hintact)
  case bodies => exact hrests.returned ▸ h.bodies
  case held =>
    intro call stream hreading hintact
    rw [hrests.takenFrom_eq, hrests.takenBy_eq, hrests.returned]
    have hbefore := hrests.intact hintact
    rcases hrests.calls call with hsame | hpass
    · have hreading := (isReading_congr hsame (hrests.takenBy_eq call stream)).mp hreading
      exact h.held call stream hreading hbefore
    · rcases hpass.starts stream hreading with hreading | ⟨hempty, hinUse, hnone⟩
      · exact h.held call stream hreading hbefore
      · rw [hempty, List.append_nil]
        exact h.clear stream hinUse hnone hbefore
  case clear =>
    intro stream hinUse hnone hintact
    rw [hrests.takenFrom_eq, hrests.returned]
    exact hrests.takenFrom_eq_frames h hinUse hnone hintact
  case listed =>
    intro call stream body hdone htaken
    rw [hrests.takenBy_eq] at htaken
    rw [hrests.returned]
    rcases hrests.calls call with hsame | hpass
    · exact h.listed call stream body (hsame ▸ hdone) htaken
    · exact absurd ((hpass.failed body hdone).takenBy_eq_nil stream) htaken
  case protocol =>
    intro call fault hdone
    simp only [hrests.takenBy_eq, hrests.takenFrom_eq]
    rcases hrests.calls call with hsame | hpass
    · obtain ⟨stream, htaken, hheader⟩ := h.protocol call fault (hsame ▸ hdone)
      exact ⟨stream, htaken, fun hintact => hheader (hrests.intact hintact)⟩
    · exact hrests.exists_header h hpass hdone
  case torn =>
    intro stream hintact
    by_cases hbefore : v.Intact stream
    · obtain ⟨call, hspoilt⟩ : ∃ call, v'.Spoils call stream := by simpa [Intact] using hintact
      exact hrests.torn_of_intact h hbefore hspoilt
    · exact (h.torn stream hbefore).rests hrests

/-- A call goes on to another stage and takes and returns nothing. -/
theorem Framing.setStage (h : v.Framing) (changed : View) (stage : Stage)
    (htakes : changed.takes = v.takes) (hreturned : changed.returned = v.returned)
    (hcalls : changed.calls = v.calls) (hcall : v.calls[call]? = some c) (hopen : c.stage.isOpen)
    (hpass : v.Passes (changed.setStage call stage) call)
    (huse : ∀ stream, changed.conn.InUse stream → v.conn.InUse stream) :
    (changed.setStage call stage).Framing := by
  have hothers : ∀ other, other ≠ call →
      (changed.setStage call stage).stageOf other = v.stageOf other := by
    intro other hne
    rw [stageOf_setStage_of_ne hne, stageOf, stageOf, hcalls]
  refine h.rests ⟨htakes, hreturned, fun other => ?_, fun other habandoned => ?_,
    fun stream hinUse => .inl (huse stream hinUse)⟩
  · by_cases hother : other = call
    · exact .inr (hother ▸ hpass)
    · exact .inl (hothers other hother)
  · by_cases hother : other = call
    · subst hother
      obtain ⟨stage', hstage', habandoned⟩ := habandoned
      obtain rfl := Option.some.inj ((stageOf_of_getElem? hcall).symm.trans hstage')
      exact absurd habandoned (Stage.not_isAbandoned_of_isOpen hopen)
    · exact (isAbandoned_congr (hothers other hother)).mpr habandoned

/-! ### Reading on -/

/-- A call that reads has taken bytes from a connection, and reads on. -/
structure ReadsOn (v v' : View) (call : CallId) (stream : StreamId) (chunk : Bytes) : Prop where
  /-- It still has its turn, and looks for a connection anew. -/
  own : ∃ part f, v'.stageOf call = some (.filling part f none)
  /-- All other calls stand where they stood. -/
  others : ∀ other, other ≠ call → v'.stageOf other = v.stageOf other
  conn : v'.conn = v.conn
  returned : v'.returned = v.returned
  taken : v'.takenFrom stream = v.takenFrom stream ++ chunk
  takenFrom : ∀ target, target ≠ stream → v'.takenFrom target = v.takenFrom target
  mine : v'.takenBy call stream = v.takenBy call stream ++ chunk
  takenBy : ∀ other target, other ≠ call ∨ target ≠ stream →
    v'.takenBy other target = v.takenBy other target

theorem readsOn_take (hcall : v.calls[call]? = some c) (part : Part) (f : Filling)
    (stream : StreamId) (chunk rest : Bytes) :
    v.ReadsOn ((v.take call stream chunk rest).setStage call (.filling part f none)) call stream
      chunk where
  own := ⟨part, f, stageOf_setStage_self (v := v.take call stream chunk rest) hcall _⟩
  others _ hne := stageOf_setStage_of_ne (v := v.take call stream chunk rest) hne _
  conn := rfl
  returned := rfl
  taken := takenFrom_take_self v call stream chunk rest
  takenFrom _ hne := takenFrom_take_of_ne v hne chunk rest
  mine := takenBy_take_self v call stream chunk rest
  takenBy _ _ hne := takenBy_take_of_ne v hne chunk rest

section ReadsOn

variable {chunk : Bytes} {target : StreamId} (h : v.ReadsOn v' call stream chunk)
include h

/-- What has been taken stays taken. -/
theorem ReadsOn.takenBy_ne_nil (htaken : v.takenBy other target ≠ []) :
    v'.takenBy other target ≠ [] := by
  by_cases hsame : other = call ∧ target = stream
  · obtain ⟨rfl, rfl⟩ := hsame
    rw [h.mine]
    exact List.append_ne_nil_of_left_ne_nil htaken _
  · rwa [h.takenBy other target (not_and_or.mp hsame)]

theorem ReadsOn.takenFrom_prefix (target : StreamId) :
    v.takenFrom target <+: v'.takenFrom target := by
  by_cases htarget : target = stream
  · subst htarget
    exact h.taken ▸ List.prefix_append _ _
  · exact h.takenFrom target htarget ▸ List.prefix_refl _

theorem ReadsOn.not_isAbandoned : ¬v'.IsAbandoned call := by
  obtain ⟨part, f, hown⟩ := h.own
  exact not_isAbandoned_of_filling hown

theorem ReadsOn.spoils (hopen : ¬v.IsAbandoned call) (hspoilt : v.Spoils other target) :
    v'.Spoils other target := by
  obtain ⟨hfirst, hreason⟩ := hspoilt
  refine ⟨h.takenBy_ne_nil hfirst, ?_⟩
  rcases hreason with hgone | ⟨second, hne, hsecond⟩
  · have hother : other ≠ call := fun heq => hopen (heq ▸ hgone)
    exact .inl ((isAbandoned_congr (h.others other hother)).mpr hgone)
  · exact .inr ⟨second, hne, h.takenBy_ne_nil hsecond⟩

theorem ReadsOn.intact (hopen : ¬v.IsAbandoned call) (hintact : v'.Intact target) :
    v.Intact target :=
  fun other hspoilt => hintact other (h.spoils hopen hspoilt)

/-- Only the call that takes bytes can come to spoil a connection. -/
theorem ReadsOn.eq_of_spoils (hintact : v.Intact target) (hspoilt : v'.Spoils other target) :
    other = call := by
  by_contra hne
  refine hintact other ?_
  simpa only [Spoils, h.takenBy other _ (.inl hne), isAbandoned_congr (h.others other hne)]
    using hspoilt

/-- A call that has taken bytes from elsewhere before spoils that connection. -/
theorem ReadsOn.eq_of_intact (hchunk : chunk ≠ []) (hintact : v'.Intact target)
    (htaken : v'.takenBy call target ≠ []) : target = stream := by
  by_contra hne
  refine hintact call ⟨htaken, .inr ⟨stream, Ne.symm hne, ?_⟩⟩
  rw [h.mine]
  exact List.append_ne_nil_of_right_ne_nil _ hchunk

/-- No other call reads meanwhile. -/
theorem ReadsOn.of_isReading (hok : v.Ok) (hcall : v.calls[call]? = some c)
    (hfilling : c.stage.isFilling) (hreads : v'.IsReading other target) :
    other = call ∧ v'.takenBy call target ≠ [] := by
  obtain ⟨part, f, source, hstage, hfound⟩ := hreads
  obtain rfl : other = call := by
    by_contra hne
    rw [h.others other hne] at hstage
    rw [h.takenBy other target (.inl hne)] at hfound
    exact hne (hok.eq_of_isReading hcall hfilling ⟨part, f, source, hstage, hfound⟩)
  obtain ⟨part', f', hown⟩ := h.own
  rw [hown] at hstage
  cases hstage
  exact ⟨rfl, hfound.resolve_left (Option.some_ne_none _ ·.symm)⟩

end ReadsOn

section Reading

variable {part : Part} {f : Filling} {chunk : Bytes} {target : StreamId} (hok : v.Ok)
  (hcall : v.calls[call]? = some c) (hstage : c.stage = .filling part f (some stream))
include hok hcall hstage

/-- A call does not go back to a connection that it has read from before. -/
theorem Ok.le_of_takenBy (htaken : v.takenBy call target ≠ []) : target ≤ stream := by
  obtain ⟨-, hstands, -⟩ := (hok.call call c hcall).filling hstage
  obtain ⟨t, ht, hby, rfl⟩ := exists_take_of_takenBy htaken
  exact (hstands stream rfl).2 t ht hby

/-- A connection that a call comes to spoil by reading on. -/
theorem ReadsOn.torn_of_intact (h : v.ReadsOn v' call stream chunk) (hframing : v.Framing)
    (hjob : c.job = .readFrame) (hmissing : 0 < f.missing) (hintact : v.Intact target)
    (hspoilt : v'.Spoils call target) : v'.Torn target := by
  refine ⟨call, hspoilt, ?_⟩
  by_cases hearlier : ∃ earlier < target, v'.takenBy call earlier ≠ []
  · exact .inl hearlier
  obtain ⟨hfirst, hreason⟩ := hspoilt
  obtain ⟨second, hne, hsecond⟩ := hreason.resolve_left h.not_isAbandoned
  -- the call has gone on from there to the connection that it reads from now
  have hlater : target < second := by
    by_contra hnot
    exact hearlier ⟨second, Nat.lt_of_le_of_ne (Nat.le_of_not_lt hnot) hne, hsecond⟩
  have hmoved : target ≠ stream := by
    rintro rfl
    rw [h.takenBy call second (.inr hne)] at hsecond
    exact Nat.not_lt_of_le (hok.le_of_takenBy hcall hstage hsecond) hlater
  rw [h.takenBy call target (.inr hmoved)] at hfirst ⊢
  rw [h.takenFrom target hmoved, h.returned]
  have hpartial := (hok.call call c hcall).isPartial hstage hmissing
  rw [hintact.hand_eq hfirst, hjob] at hpartial
  have hheld := hframing.held call target (isReading_of_taken hcall hstage hfirst) hintact
  exact .inr ⟨v.returned target, hpartial, List.prefix_refl _, hheld ▸ List.prefix_refl _⟩

/-- A connection that has been spoilt before. -/
theorem Torn.readsOn (htorn : v.Torn target) (h : v.ReadsOn v' call stream chunk) :
    v'.Torn target := by
  have hopen : ¬v.IsAbandoned call :=
    not_isAbandoned_of_filling (hstage ▸ stageOf_of_getElem? hcall)
  obtain ⟨other, hspoilt, hreason⟩ := htorn
  refine ⟨other, h.spoils hopen hspoilt, ?_⟩
  rcases hreason with ⟨earlier, hlt, hearlier⟩ | ⟨bodies, hpartial, hbodies, hbehind⟩
  · exact .inl ⟨earlier, hlt, h.takenBy_ne_nil hearlier⟩
  by_cases hsame : other = call ∧ target = stream
  · -- the call has come from an earlier connection
    obtain ⟨rfl, rfl⟩ := hsame
    obtain ⟨second, hne, hsecond⟩ := hspoilt.2.resolve_left hopen
    have hle := hok.le_of_takenBy hcall hstage hsecond
    exact .inl ⟨second, Nat.lt_of_le_of_ne hle hne, h.takenBy_ne_nil hsecond⟩
  · rw [h.takenBy other target (not_and_or.mp hsame), h.returned]
    exact .inr ⟨bodies, hpartial, hbodies, hbehind.trans (h.takenFrom_prefix target)⟩

/-- A call that reads takes bytes. -/
theorem Framing.readsOn (hframing : v.Framing) (h : v.ReadsOn v' call stream chunk)
    (hjob : c.job = .readFrame) (hchunk : chunk ≠ []) (hmissing : 0 < f.missing) :
    v'.Framing := by
  have hfilling : c.stage.isFilling := by rw [hstage]; rfl
  have hreading : v.IsReading call stream := isReading_of_source hcall hstage
  have hopen : ¬v.IsAbandoned call :=
    not_isAbandoned_of_filling (hstage ▸ stageOf_of_getElem? hcall)
  obtain ⟨part', f', hown⟩ := h.own
  have hsome : v'.takenBy call stream ≠ [] := by
    rw [h.mine]
    exact List.append_ne_nil_of_right_ne_nil _ hchunk
  constructor
  case whole =>
    intro target htarget
    rw [h.returned]
    exact (hframing.whole target (h.intact hopen htarget)).trans (h.takenFrom_prefix target)
  case bodies => exact h.returned ▸ hframing.bodies
  case held =>
    intro other target hreads htarget
    obtain ⟨rfl, htaken⟩ := h.of_isReading hok hcall hfilling hreads
    obtain rfl := h.eq_of_intact hchunk htarget htaken
    rw [h.taken, h.mine, h.returned, hframing.held other target hreading (h.intact hopen htarget),
      List.append_assoc]
  case clear =>
    intro target hinUse hnone htarget
    have hne : target ≠ stream := by
      rintro rfl
      exact hnone call ⟨part', f', none, hown, .inr hsome⟩
    rw [h.takenFrom target hne, h.returned]
    refine hframing.clear target (h.conn ▸ hinUse) (fun other hreads => ?_) (h.intact hopen htarget)
    -- the one call that reads has taken nothing from there
    obtain rfl := hok.eq_of_isReading hcall hfilling hreads
    obtain ⟨c', part, f, source, hcall', hstage', hfound⟩ := hreads.exists_call
    obtain rfl := Option.some.inj (hcall.symm.trans hcall')
    rw [hstage] at hstage'
    cases hstage'
    rcases hfound with hfound | hfound
    · exact hne (Option.some.inj hfound).symm
    · exact hnone other ⟨part', f', none, hown, .inr (h.takenBy_ne_nil hfound)⟩
  case listed =>
    intro other target body hdone htaken
    have hne : other ≠ call := by
      rintro rfl
      simp [hown] at hdone
    rw [h.takenBy other target (.inl hne)] at htaken
    rw [h.returned]
    exact hframing.listed other target body (h.others other hne ▸ hdone) htaken
  case protocol =>
    intro other fault hdone
    have hne : other ≠ call := by
      rintro rfl
      simp [hown] at hdone
    obtain ⟨target, htaken, hheader⟩ := hframing.protocol other fault (h.others other hne ▸ hdone)
    refine ⟨target, h.takenBy_ne_nil htaken, fun htarget => ?_⟩
    obtain ⟨bodies, header, hbodies, hlength, himpossible, hbehind⟩ :=
      hheader (h.intact hopen htarget)
    exact ⟨bodies, header, hbodies, hlength, himpossible, hbehind.trans (h.takenFrom_prefix target)⟩
  case torn =>
    intro target htarget
    by_cases hbefore : v.Intact target
    · obtain ⟨other, hspoilt⟩ : ∃ other, v'.Spoils other target := by
        simpa [Intact] using htarget
      obtain rfl := h.eq_of_spoils hbefore hspoilt
      exact h.torn_of_intact hok hcall hstage hframing hjob hmissing hbefore hspoilt
    · exact (hframing.torn target hbefore).readsOn hok hcall hstage h

end Reading

/-! ### Returning a body -/

/-- A call that reads has all its bytes, and returns them as a body. -/
structure Returns (v v' : View) (call : CallId) (body : Bytes) : Prop where
  /-- It is over. -/
  own : v'.stageOf call = some (.done (.ok body))
  /-- All other calls stand where they stood. -/
  others : ∀ other, other ≠ call → v'.stageOf other = v.stageOf other
  conn : v'.conn = v.conn
  takes : v'.takes = v.takes
  /-- The body is returned from where the call has taken something. -/
  returned : ∀ stream, v'.returned stream =
    v.returned stream ++ if v.takenBy call stream = [] then [] else [body]

theorem returns_deliver (hcall : v.calls[call]? = some c) (body : Bytes) :
    v.Returns (((v.deliver call body).leave call).setStage call (.done (.ok body))) call body where
  own := stageOf_setStage_self (v := (v.deliver call body).leave call) hcall _
  others _ hne := stageOf_setStage_of_ne (v := (v.deliver call body).leave call) hne _
  conn := rfl
  takes := rfl
  returned _ := rfl

section Returns

variable {body : Bytes} (h : v.Returns v' call body)
include h

theorem Returns.takenBy_eq (other : CallId) (stream : StreamId) :
    v'.takenBy other stream = v.takenBy other stream := by
  rw [takenBy, takenBy, h.takes]

theorem Returns.takenFrom_eq (stream : StreamId) : v'.takenFrom stream = v.takenFrom stream := by
  rw [takenFrom, takenFrom, h.takes]

theorem Returns.returned_prefix (stream : StreamId) : v.returned stream <+: v'.returned stream :=
  h.returned stream ▸ List.prefix_append _ _

theorem Returns.isAbandoned_iff (hopen : ¬v.IsAbandoned call) (other : CallId) :
    v'.IsAbandoned other ↔ v.IsAbandoned other := by
  by_cases hother : other = call
  · subst hother
    refine iff_of_false ?_ hopen
    rintro ⟨stage, hstage, hgone⟩
    obtain rfl := Option.some.inj (h.own.symm.trans hstage)
    contradiction
  · exact isAbandoned_congr (h.others other hother)

theorem Returns.spoils_iff (hopen : ¬v.IsAbandoned call) :
    v'.Spoils other stream ↔ v.Spoils other stream := by
  simp only [Spoils, h.takenBy_eq, h.isAbandoned_iff hopen]

theorem Returns.intact_iff (hopen : ¬v.IsAbandoned call) : v'.Intact stream ↔ v.Intact stream :=
  forall_congr' fun _ => not_congr (h.spoils_iff hopen)

/-- Then no call reads. -/
theorem Returns.not_isReading (hok : v.Ok) (hcall : v.calls[call]? = some c)
    (hfilling : c.stage.isFilling) (other : CallId) (stream : StreamId) :
    ¬v'.IsReading other stream := by
  rintro ⟨part, f, source, hstage, hfound⟩
  have hne : other ≠ call := by
    rintro rfl
    simp [h.own] at hstage
  rw [h.others other hne] at hstage
  rw [h.takenBy_eq] at hfound
  exact hne (hok.eq_of_isReading hcall hfilling ⟨part, f, source, hstage, hfound⟩)

/-- A connection from which the call has read stands behind its frame. -/
theorem Returns.takenFrom_eq_frames (hframing : v.Framing) (hhand : v.hand call = frame body)
    (hintact : v.Intact stream) (hreading : v.IsReading call stream) :
    v.takenFrom stream = frames (v'.returned stream) := by
  have hheld := hframing.held call stream hreading hintact
  rw [h.returned]
  split_ifs with hnothing
  · rw [List.append_nil]
    rwa [hnothing, List.append_nil] at hheld
  · rw [frames_concat, ← hhand, hintact.hand_eq hnothing]
    exact hheld

/-- A call that reads returns the body of a frame. -/
theorem Framing.returns (hframing : v.Framing) (hok : v.Ok) (hcall : v.calls[call]? = some c)
    {part : Part} {f : Filling} {source : Option StreamId}
    (hstage : c.stage = .filling part f source) (hhand : v.hand call = frame body)
    (hbody : IsBody body) : v'.Framing := by
  have hfilling : c.stage.isFilling := by rw [hstage]; rfl
  have hopen : ¬v.IsAbandoned call :=
    not_isAbandoned_of_filling (hstage ▸ stageOf_of_getElem? hcall)
  constructor
  case whole =>
    intro target htarget
    have htarget := (h.intact_iff hopen).mp htarget
    rw [h.takenFrom_eq]
    by_cases hnothing : v.takenBy call target = []
    · rw [h.returned, if_pos hnothing, List.append_nil]
      exact hframing.whole target htarget
    · have hreading := isReading_of_taken hcall hstage hnothing
      exact h.takenFrom_eq_frames hframing hhand htarget hreading ▸ List.prefix_refl _
  case bodies =>
    intro target body' hmem
    rw [h.returned] at hmem
    rcases List.mem_append.mp hmem with hmem | hmem
    · exact hframing.bodies target body' hmem
    · split_ifs at hmem
      · contradiction
      · exact List.mem_singleton.mp hmem ▸ hbody
  case held =>
    exact fun other target hreading =>
      absurd hreading (h.not_isReading hok hcall hfilling other target)
  case clear =>
    intro target hinUse _ htarget
    have htarget := (h.intact_iff hopen).mp htarget
    rw [h.takenFrom_eq]
    by_cases hreading : v.IsReading call target
    · exact h.takenFrom_eq_frames hframing hhand htarget hreading
    · have hnothing : v.takenBy call target = [] := by
        by_contra htaken
        exact hreading (isReading_of_taken hcall hstage htaken)
      rw [h.returned, if_pos hnothing, List.append_nil]
      refine hframing.clear target (h.conn ▸ hinUse) (fun other hother => hreading ?_) htarget
      exact hok.eq_of_isReading hcall hfilling hother ▸ hother
  case listed =>
    intro other target body' hdone hsome
    rw [h.takenBy_eq] at hsome
    by_cases hother : other = call
    · subst hother
      obtain rfl : body = body' := by
        rw [h.own] at hdone
        cases hdone
        rfl
      rw [h.returned, if_neg hsome]
      exact List.mem_append_right _ (List.mem_singleton_self _)
    · have hdone := h.others other hother ▸ hdone
      exact (h.returned_prefix target).subset (hframing.listed other target body' hdone hsome)
  case protocol =>
    intro other fault hdone
    have hne : other ≠ call := by
      rintro rfl
      simp [h.own] at hdone
    obtain ⟨target, htaken, hheader⟩ := hframing.protocol other fault (h.others other hne ▸ hdone)
    refine ⟨target, h.takenBy_eq other target ▸ htaken, fun htarget => ?_⟩
    rw [h.takenFrom_eq]
    exact hheader ((h.intact_iff hopen).mp htarget)
  case torn =>
    intro target htarget
    obtain ⟨other, hspoilt, hreason⟩ :=
      hframing.torn target fun hsame => htarget ((h.intact_iff hopen).mpr hsame)
    refine ⟨other, (h.spoils_iff hopen).mpr hspoilt, ?_⟩
    simp only [h.takenBy_eq, h.takenFrom_eq]
    refine hreason.imp_right ?_
    rintro ⟨bodies, hpartial, hbodies, hafter⟩
    exact ⟨bodies, hpartial, hbodies.trans (h.returned_prefix target), hafter⟩

end Returns

end View

end Link

end BrokerWire
