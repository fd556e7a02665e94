import BrokerWire.Proofs.Link.Holding
import Mathlib.Data.List.Basic

/-!
# A link as its writers see it

What matters for writing is another part of a link's state: which connections are broken, what they
have accepted, whose turn it is on each of them, where the calls stand and what has been put.
`Link.Outflow` is that part, together with what the far side has taken, which a link does not keep.

`Link.Outflow.Move` lists the moves by which it changes. A write that has its turn puts its frame
piece by piece, and the turn is its own until it ends, so frames stay whole (`Outflow.Ok`). It can
only stop short of its end where the connection is broken or the link has been given up, and then
nothing more is put on the connection (`Outflow.Sealed`).
-/

namespace BrokerWire

namespace Link

/-! ### What is put -/

/-- What an entry of the record says about putting. -/
def Entry.put? : Entry → Option Take
  | .put call stream bytes => some ⟨call, stream, bytes⟩
  | _ => none

/-- All that has been put, newest first. -/
def puts (l : Link) : List Take := l.journal.filterMap Entry.put?

/-- What a call has put on a connection. -/
def putBy (l : Link) (call : CallId) (stream : StreamId) : Bytes :=
  bytesOf (isOf call stream) l.puts

/-- What has been put on a connection. -/
def putOnto (l : Link) (stream : StreamId) : Bytes := bytesOf (isFrom stream) l.puts

/-- A write at this stage has not had its turn on a connection. -/
def Stage.isAhead : Stage → Bool
  | .fresh | .offering | .lining _ => true
  | _ => false

/-- A write at this stage has its turn on a connection. -/
def Stage.isSending : Stage → Bool
  | .sending .. => true
  | _ => false

theorem Stage.isOpen_of_isAhead {stage : Stage} (hahead : stage.isAhead) : stage.isOpen := by
  cases stage <;> first | rfl | contradiction

theorem Stage.isSending_of_isAhead {stage : Stage} (hahead : stage.isAhead) :
    stage.isSending = false := by
  cases stage <;> first | rfl | contradiction

/-- A job is a write or another. -/
theorem Job.other_or_write (job : Job) :
    (∀ frame, job ≠ .write frame) ∨ ∃ frame, job = .write frame := by
  cases job <;> simp

/-- Where a call for a job can stand. -/
def Stage.Suits (stage : Stage) : Job → Prop
  | .write _ => stage.isOpen → stage.isAhead ∨ stage.isSending
  | _ => stage.isSending = false

/-- A link as its writers see it. -/
@[ext]
structure Outflow where
  /-- Whether the link has been given up. -/
  disposed : Bool
  /-- Whether the far side has aborted a connection. -/
  aborted : StreamId → Bool
  /-- What each connection has accepted and the far side has not taken. -/
  outgoing : StreamId → Bytes
  /-- Whose turn it is to write on each connection. -/
  writers : StreamId → Turns
  /-- What has been put, newest first. -/
  puts : List Take
  /-- What the far side has taken from each connection. -/
  drained : StreamId → Bytes
  /-- What each call is for and where it stands. -/
  posts : CallId → Option (Job × Stage)

namespace Outflow

/-- What a call has put on a connection. -/
def putBy (v : Outflow) (call : CallId) (stream : StreamId) : Bytes :=
  bytesOf (isOf call stream) v.puts

/-- What has been put on a connection. -/
def putOnto (v : Outflow) (stream : StreamId) : Bytes := bytesOf (isFrom stream) v.puts

/-- The view with a call at another stage. -/
def setStage (v : Outflow) (call : CallId) (stage : Stage) : Outflow :=
  { v with posts := Function.update v.posts call ((v.posts call).map fun p => (p.1, stage)) }

/-- The view after a call has put bytes on a connection. -/
def put (v : Outflow) (call : CallId) (stream : StreamId) (bytes : Bytes) : Outflow :=
  { v with
    outgoing := Function.update v.outgoing stream (v.outgoing stream ++ bytes)
    puts := ⟨call, stream, bytes⟩ :: v.puts }

/-- Turns that change without a loss for any call but one. -/
def Yields (v : Outflow) (call : CallId) (writers : StreamId → Turns) : Prop :=
  ∀ stream other, other ≠ call → (v.writers stream).holder = some other →
    (writers stream).holder = some other

theorem yields_refl (v : Outflow) (call : CallId) : v.Yields call v.writers :=
  fun _ _ _ hturn => hturn

/-- The moves by which a view changes. -/
inductive Move : Outflow → Outflow → Prop where
  /-- A call begins. -/
  | begin {v : Outflow} {call : CallId} (job : Job) (hnone : v.posts call = none) :
    Move v { v with posts := Function.update v.posts call (some (job, .fresh)) }
  /-- A call that is no write goes on or ends. -/
  | shift {v : Outflow} {call : CallId} {job : Job} {stage stage' : Stage}
    {writers : StreamId → Turns} (hpost : v.posts call = some (job, stage))
    (hopen : stage.isOpen) (hjob : ∀ frame, job ≠ .write frame)
    (hsending : stage'.isSending = false) (hyields : v.Yields call writers) :
    Move v ({ v with writers }.setStage call stage')
  /-- A write waits for a connection or for its turn. -/
  | wait {v : Outflow} {call : CallId} {frame : Bytes} {stage stage' : Stage}
    {writers : StreamId → Turns} (hpost : v.posts call = some (.write frame, stage))
    (hahead : stage.isAhead) (hahead' : stage'.isAhead) (hyields : v.Yields call writers) :
    Move v ({ v with writers }.setStage call stage')
  /-- A write ends before it has its turn. -/
  | refuse {v : Outflow} {call : CallId} {frame : Bytes} {stage : Stage} {e : WireError}
    {writers : StreamId → Turns} (hpost : v.posts call = some (.write frame, stage))
    (hahead : stage.isAhead) (hyields : v.Yields call writers) :
    Move v ({ v with writers }.setStage call (.done (.error e)))
  /-- A write has its turn. -/
  | start {v : Outflow} {call : CallId} {frame : Bytes} {stage : Stage} {stream : StreamId}
    {writers : StreamId → Turns} (hpost : v.posts call = some (.write frame, stage))
    (hahead : stage.isAhead) (hdisposed : v.disposed = false) (hyields : v.Yields call writers)
    (hturn : (writers stream).holder = some call) :
    Move v ({ v with writers }.setStage call (.sending stream frame))
  /-- A write puts bytes on its connection. -/
  | put {v : Outflow} {call : CallId} {frame chunk rest : Bytes} {stream : StreamId}
    (hpost : v.posts call = some (.write frame, .sending stream (chunk ++ rest)))
    (haborted : v.aborted stream = false) (hchunk : chunk ≠ []) :
    Move v ((v.put call stream chunk).setStage call (.sending stream rest))
  /-- A write has put its whole frame. -/
  | finish {v : Outflow} {call : CallId} {frame : Bytes} {stream : StreamId}
    {writers : StreamId → Turns} (bytes : Bytes)
    (hpost : v.posts call = some (.write frame, .sending stream []))
    (hyields : v.Yields call writers) :
    Move v ({ v with writers }.setStage call (.done (.ok bytes)))
  /-- A write that has its turn ends with its connection or with the link. -/
  | fail {v : Outflow} {call : CallId} {frame rest : Bytes} {stream : StreamId} {e : WireError}
    {writers : StreamId → Turns} (hpost : v.posts call = some (.write frame, .sending stream rest))
    (hgone : v.aborted stream ∨ v.disposed) (herror : e ≠ .cancelled)
    (hyields : v.Yields call writers) :
    Move v ({ v with writers }.setStage call (.done (.error e)))
  /-- A write is dropped. -/
  | drop {v : Outflow} {call : CallId} {frame : Bytes} {stage : Stage} {writers : StreamId → Turns}
    (hpost : v.posts call = some (.write frame, stage)) (hopen : stage.isOpen)
    (hyields : v.Yields call writers) : Move v ({ v with writers }.setStage call .dropped)
  /-- The link is given up. -/
  | dispose (v : Outflow) : Move v { v with disposed := true }
  /-- The far side aborts a connection. -/
  | abort (v : Outflow) (stream : StreamId) :
    Move v { v with aborted := Function.update v.aborted stream true }
  /-- The far side takes bytes. -/
  | drain (v : Outflow) (stream : StreamId) (n : Nat) :
    Move v { v with
      outgoing := Function.update v.outgoing stream ((v.outgoing stream).drop n)
      drained := Function.update v.drained stream
        (v.drained stream ++ (v.outgoing stream).take n) }

/-- Any number of moves. -/
abbrev Moves : Outflow → Outflow → Prop := Relation.ReflTransGen Move

variable {v v' : Outflow} {call id : CallId} {stream : StreamId} {frame : Bytes} {job : Job}
  {stage : Stage}

theorem posts_setStage_self (hpost : v.posts call = some (job, stage)) (stage' : Stage) :
    (v.setStage call stage').posts call = some (job, stage') := by
  simp [setStage, hpost]

theorem setStage_setStage (v : Outflow) (writers : StreamId → Turns) (call : CallId)
    (stage stage' : Stage) : (setStage { v.setStage call stage with writers } call stage') =
      setStage { v with writers } call stage' := by
  simp [setStage, Function.comp_def]

theorem setStage_self (hpost : v.posts call = some (job, stage)) : v.setStage call stage = v := by
  have hsame : (v.posts call).map (fun p => (p.1, stage)) = v.posts call := by rw [hpost]; rfl
  rw [setStage, hsame, Function.update_eq_self]

theorem setStage_put_setStage (v : Outflow) (call : CallId) (stream : StreamId) (bytes : Bytes)
    (stage stage' : Stage) : ((v.setStage call stage).put call stream bytes).setStage call stage' =
      (v.put call stream bytes).setStage call stage' := by
  simp [setStage, Outflow.put, Function.comp_def]

theorem posts_setStage_of_ne (hne : id ≠ call) (stage : Stage) :
    (v.setStage call stage).posts id = v.posts id :=
  Function.update_of_ne hne _ _

/-! ### What is put -/

theorem putBy_put_self (v : Outflow) (call : CallId) (stream : StreamId) (bytes : Bytes) :
    (v.put call stream bytes).putBy call stream = v.putBy call stream ++ bytes := by
  simp [putBy, Outflow.put, bytesOf_cons, isOf]

theorem putBy_put_of_ne (v : Outflow) {target : StreamId} (hne : id ≠ call ∨ target ≠ stream)
    (bytes : Bytes) : (v.put call stream bytes).putBy id target = v.putBy id target := by
  have hnot : isOf id target ⟨call, stream, bytes⟩ = false := by
    rcases hne with hne | hne <;> simp [isOf, Ne.symm hne]
  simp [putBy, Outflow.put, bytesOf_cons, hnot]

theorem putOnto_put_self (v : Outflow) (call : CallId) (stream : StreamId) (bytes : Bytes) :
    (v.put call stream bytes).putOnto stream = v.putOnto stream ++ bytes := by
  simp [putOnto, Outflow.put, bytesOf_cons, isFrom]

theorem putOnto_put_of_ne (v : Outflow) {target : StreamId} (hne : target ≠ stream)
    (call : CallId) (bytes : Bytes) :
    (v.put call stream bytes).putOnto target = v.putOnto target := by
  simp [putOnto, Outflow.put, bytesOf_cons, isFrom, Ne.symm hne]

/-- What the far side has taken, and then what it has not, is what has been put. -/
theorem Move.flow (hmove : Move v v')
    (h : v.drained stream ++ v.outgoing stream = v.putOnto stream) :
    v'.drained stream ++ v'.outgoing stream = v'.putOnto stream := by
  cases hmove with
  | @put call frame chunk rest target =>
    show v.drained stream ++ (v.put call target chunk).outgoing stream =
      (v.put call target chunk).putOnto stream
    by_cases hstream : stream = target
    · subst hstream
      rw [putOnto_put_self, ← h, List.append_assoc]
      simp [Outflow.put]
    · rw [putOnto_put_of_ne v hstream, ← h]
      simp [Outflow.put, hstream]
  | drain target n =>
    by_cases hstream : stream = target
    · subst hstream
      simp only [Function.update_self, List.append_assoc, List.take_append_drop]
      exact h
    · simp only [Function.update_of_ne hstream]
      exact h
  | _ => exact h

theorem Moves.flow (hmoves : Moves v v') (stream : StreamId)
    (h : v.drained stream ++ v.outgoing stream = v.putOnto stream) :
    v'.drained stream ++ v'.outgoing stream = v'.putOnto stream := by
  induction hmoves with
  | refl => exact h
  | tail _ hmove ih => exact hmove.flow ih

/-! ### Where nothing more is put -/

/-- A connection is broken, or the link has been given up and no write has its turn there. -/
def Sealed (v : Outflow) (stream : StreamId) : Prop :=
  v.aborted stream ∨
    v.disposed ∧ ∀ call frame rest, v.posts call ≠ some (.write frame, .sending stream rest)

/-- The stage of a call after another, or the same, has gone on. -/
theorem posts_setStage_eq {p : Job × Stage} (h : (v.setStage call stage).posts id = some p) :
    v.posts id = some p ∨ id = call ∧ p.2 = stage := by
  by_cases hid : id = call
  · subst hid
    simp only [setStage, Function.update_self] at h
    obtain ⟨p₀, -, rfl⟩ := Option.map_eq_some_iff.mp h
    exact .inr ⟨rfl, rfl⟩
  · exact .inl (posts_setStage_of_ne hid stage ▸ h)

/-- No call comes to have its turn on a connection. -/
theorem Sealed.setStage (h : v.Sealed stream) {writers : StreamId → Turns}
    (hstage : ∀ rest, stage ≠ .sending stream rest) :
    ({ v with writers }.setStage call stage).Sealed stream := by
  refine h.imp_right fun ⟨hdisposed, hnone⟩ => ⟨hdisposed, fun id frame rest hpost => ?_⟩
  rcases posts_setStage_eq hpost with hold | ⟨-, hsame⟩
  · exact hnone id frame rest hold
  · exact hstage rest hsame.symm

theorem not_sending_of_isSending (h : stage.isSending = false) (stream : StreamId) (rest : Bytes) :
    stage ≠ .sending stream rest := by
  rintro rfl
  exact nomatch h

theorem Sealed.move (h : v.Sealed stream) (hmove : Move v v') :
    v'.Sealed stream ∧ v'.putOnto stream = v.putOnto stream := by
  cases hmove with
  | begin job hnone =>
    refine ⟨h.imp_right fun ⟨hdisposed, hnot⟩ => ⟨hdisposed, fun id frame rest hpost => ?_⟩, rfl⟩
    simp only [Function.update_apply] at hpost
    split_ifs at hpost
    · exact nomatch hpost
    · exact hnot id frame rest hpost
  | shift hpost hopen hjob hsending =>
    exact ⟨h.setStage (not_sending_of_isSending hsending stream), rfl⟩
  | wait hpost hahead hahead' =>
    have hsending := Stage.isSending_of_isAhead hahead'
    exact ⟨h.setStage (not_sending_of_isSending hsending stream), rfl⟩
  | start hpost hahead hdisposed hyields hturn =>
    refine ⟨.inl (h.resolve_right fun hgone => ?_), rfl⟩
    exact nomatch hdisposed.symm.trans hgone.1
  | @put call frame chunk rest target hpost haborted hchunk =>
    have hne : stream ≠ target := by
      rintro rfl
      rcases h with hbroken | ⟨-, hnone⟩
      · exact nomatch haborted.symm.trans hbroken
      · exact hnone call _ _ hpost
    refine ⟨h.setStage (v := v.put call target chunk) fun rest' hsame => ?_,
      putOnto_put_of_ne v hne call chunk⟩
    obtain ⟨rfl, -⟩ := Stage.sending.inj hsame
    exact hne rfl
  | dispose => exact ⟨h.imp_right fun hgone => ⟨rfl, hgone.2⟩, rfl⟩
  | abort target =>
    refine ⟨h.imp_left fun hbroken => ?_, rfl⟩
    simp only [Function.update_apply]
    split_ifs
    · rfl
    · exact hbroken
  | drain => exact ⟨h, rfl⟩
  | _ => exact ⟨h.setStage nofun, rfl⟩

/-- Once nothing more is put on a connection, nothing ever is. -/
theorem Sealed.moves (h : v.Sealed stream) (hmoves : Moves v v') :
    v'.Sealed stream ∧ v'.putOnto stream = v.putOnto stream := by
  induction hmoves with
  | refl => exact ⟨h, rfl⟩
  | tail _ hmove ih =>
    obtain ⟨hsealed, hsame⟩ := ih.1.move hmove
    exact ⟨hsealed, hsame.trans ih.2⟩

/-! ### What calls have put -/

/-- A call has put nothing. -/
def EmptyHanded (v : Outflow) (call : CallId) : Prop := ∀ stream, v.putBy call stream = []

/-- A call has put these bytes, all on one connection. -/
def Holds (v : Outflow) (call : CallId) (stream : StreamId) (bytes : Bytes) : Prop :=
  v.putBy call stream = bytes ∧ ∀ other, other ≠ stream → v.putBy call other = []

/-- What a write has put, given where it stands. -/
def WriteOk (v : Outflow) (id : CallId) (frame : Bytes) : Stage → Prop
  | .sending stream rest =>
    (v.writers stream).holder = some id ∧ ∃ sent, frame = sent ++ rest ∧ v.Holds id stream sent
  | .done (.ok _) => ∃ stream, v.Holds id stream frame
  | .done (.error e) => v.EmptyHanded id ∨ ∃ stream sent rest, frame = sent ++ rest ∧
    v.Holds id stream sent ∧ v.Sealed stream ∧ e ≠ .cancelled
  | .dropped => False
  | _ => v.EmptyHanded id

/-- What a call has put, given what it is for and where it stands. -/
def PostOk (v : Outflow) (id : CallId) : Option (Job × Stage) → Prop
  | some (.write frame, stage) => v.WriteOk id frame stage
  | some (_, _) => v.EmptyHanded id
  | none => v.EmptyHanded id

/-- A call has put its whole frame on a connection. -/
def Whole (v : Outflow) (call : CallId) (stream : StreamId) : Prop :=
  ∃ stage, v.posts call = some (.write (v.putBy call stream), stage)

/-- The calls that have put something on a connection, one after the other. All but the last have
put their whole frame. -/
structure Order (v : Outflow) (stream : StreamId) (order : List CallId) : Prop where
  nodup : order.Nodup
  put : order.flatMap (v.putBy · stream) = v.putOnto stream
  mem : ∀ id, id ∈ order ↔ v.putBy id stream ≠ []
  whole : ∀ id ∈ order.dropLast, v.Whole id stream

/-- What holds of a view at any time. -/
structure Ok (v : Outflow) : Prop where
  /-- Every call has put what it should have. -/
  post : ∀ id, v.PostOk id (v.posts id)
  /-- What has been put on a connection was put there by one call after the other. -/
  order : ∀ stream, ∃ order, v.Order stream order

/-- No write has been dropped. -/
def Undropped (v : Outflow) : Prop := ∀ id frame, v.posts id ≠ some (.write frame, .dropped)

/-- A change that puts nothing for a call, takes no turn from it and unseals no connection. -/
structure Spares (v v' : Outflow) (id : CallId) : Prop where
  put : ∀ stream, v'.putBy id stream = v.putBy id stream
  holder : ∀ stream, (v.writers stream).holder = some id → (v'.writers stream).holder = some id
  sealed : ∀ stream, v.Sealed stream → v'.Sealed stream

theorem Spares.emptyHanded (hspares : v.Spares v' id) (h : v.EmptyHanded id) : v'.EmptyHanded id :=
  fun stream => (hspares.put stream).trans (h stream)

theorem Spares.holds (hspares : v.Spares v' id) {bytes : Bytes} (h : v.Holds id stream bytes) :
    v'.Holds id stream bytes :=
  ⟨(hspares.put stream).trans h.1, fun other hne => (hspares.put other).trans (h.2 other hne)⟩

theorem Spares.writeOk (hspares : v.Spares v' id) (h : v.WriteOk id frame stage) :
    v'.WriteOk id frame stage := by
  cases stage with
  | sending stream rest =>
    obtain ⟨hturn, sent, hframe, hsent⟩ := h
    exact ⟨hspares.holder stream hturn, sent, hframe, hspares.holds hsent⟩
  | done result =>
    cases result with
    | ok bytes =>
      obtain ⟨stream, hall⟩ := h
      exact ⟨stream, hspares.holds hall⟩
    | error e =>
      rcases h with hnone | ⟨stream, sent, rest, hframe, hsent, hsealed, herror⟩
      · exact .inl (hspares.emptyHanded hnone)
      · exact .inr ⟨stream, sent, rest, hframe, hspares.holds hsent, hspares.sealed stream hsealed,
          herror⟩
  | dropped => exact h
  | _ => exact hspares.emptyHanded h

theorem Spares.postOk (hspares : v.Spares v' id) {post : Option (Job × Stage)}
    (h : v.PostOk id post) : v'.PostOk id post := by
  match post with
  | none => exact hspares.emptyHanded h
  | some (job, stage) =>
    cases job with
    | write frame => exact hspares.writeOk h
    | _ => exact hspares.emptyHanded h

/-- A write that has not had its turn has put nothing. -/
theorem writeOk_of_isAhead (hahead : stage.isAhead) :
    v.WriteOk id frame stage ↔ v.EmptyHanded id := by
  cases stage with
  | fresh => rfl
  | offering => rfl
  | lining stream => rfl
  | _ => contradiction

theorem postOk_of_not_write (hjob : ∀ frame, job ≠ .write frame) :
    v.PostOk id (some (job, stage)) ↔ v.EmptyHanded id := by
  cases job with
  | write frame => exact absurd rfl (hjob frame)
  | _ => rfl

/-! ### One move at a time -/

/-- What a call is for never changes. -/
def KeepsJobs (v v' : Outflow) : Prop :=
  ∀ id job stage, v.posts id = some (job, stage) → ∃ stage', v'.posts id = some (job, stage')

theorem keepsJobs_setStage (v : Outflow) (writers : StreamId → Turns) (call : CallId)
    (stage : Stage) : v.KeepsJobs ({ v with writers }.setStage call stage) := by
  intro id job stage₀ hpost
  by_cases hid : id = call
  · subst hid
    exact ⟨stage, posts_setStage_self (v := { v with writers }) hpost stage⟩
  · exact ⟨stage₀, (posts_setStage_of_ne hid stage).trans hpost⟩

theorem Order.keep {order : List CallId} (h : v.Order stream order)
    (hput : ∀ id, v'.putBy id stream = v.putBy id stream)
    (honto : v'.putOnto stream = v.putOnto stream) (hjobs : v.KeepsJobs v') :
    v'.Order stream order where
  nodup := h.nodup
  put := by
    rw [honto, ← h.put]
    exact List.flatMap_congr fun id _ => hput id
  mem id := by rw [hput, h.mem]
  whole id hid := by
    obtain ⟨stage, hpost⟩ := h.whole id hid
    rw [Whole, hput]
    exact hjobs id _ stage hpost

theorem Ok.writeOk (h : v.Ok) (hpost : v.posts id = some (.write frame, stage)) :
    v.WriteOk id frame stage := by
  have hok := h.post id
  rw [hpost] at hok
  exact hok

theorem Ok.emptyHanded (h : v.Ok) (hpost : v.posts id = some (.write frame, stage))
    (hahead : stage.isAhead) : v.EmptyHanded id :=
  (writeOk_of_isAhead hahead).mp (h.writeOk hpost)

/-- A change that spares every call. -/
theorem Ok.keep (h : v.Ok) (hspares : ∀ id, v.Spares v' id) (hposts : v'.posts = v.posts)
    (hputs : v'.puts = v.puts) : v'.Ok where
  post id := by
    rw [hposts]
    exact (hspares id).postOk (h.post id)
  order stream := by
    obtain ⟨order, horder⟩ := h.order stream
    refine ⟨order, horder.keep (fun id => (hspares id).put stream) (congrArg _ hputs) ?_⟩
    exact fun id job stage hpost => ⟨stage, hposts ▸ hpost⟩

/-- A call goes on to another stage and puts nothing. -/
theorem Ok.go (h : v.Ok) {writers : StreamId → Turns} {stage' : Stage}
    (hpost : v.posts call = some (job, stage))
    (hmove : Move v ({ v with writers }.setStage call stage')) (hyields : v.Yields call writers)
    (hown : ({ v with writers }.setStage call stage').PostOk call (some (job, stage'))) :
    ({ v with writers }.setStage call stage').Ok where
  post id := by
    by_cases hid : id = call
    · subst hid
      rw [posts_setStage_self (v := { v with writers }) hpost]
      exact hown
    · rw [posts_setStage_of_ne hid]
      have hspares : v.Spares ({ v with writers }.setStage call stage') id :=
        ⟨fun _ => rfl, fun stream => hyields stream id hid, fun _ hsealed => (hsealed.move hmove).1⟩
      exact hspares.postOk (h.post id)
  order stream := by
    obtain ⟨order, horder⟩ := h.order stream
    exact ⟨order, horder.keep (fun _ => rfl) rfl (keepsJobs_setStage v writers call stage')⟩

/-- A call begins. -/
theorem Ok.begin (h : v.Ok) (job : Job) (hnone : v.posts call = none) :
    ({ v with posts := Function.update v.posts call (some (job, .fresh)) } : Outflow).Ok where
  post id := by
    have hspares :
        v.Spares { v with posts := Function.update v.posts call (some (job, .fresh)) } id :=
      ⟨fun _ => rfl, fun _ hturn => hturn, fun _ hsealed => (hsealed.move (.begin job hnone)).1⟩
    have hok := hspares.postOk (h.post id)
    by_cases hid : id = call
    · subst hid
      rw [hnone] at hok
      simp only [Function.update_self]
      cases job with
      | write frame => exact hok
      | _ => exact hok
    · simp only [Function.update_of_ne hid]
      exact hok
  order stream := by
    obtain ⟨order, horder⟩ := h.order stream
    refine ⟨order, horder.keep (fun _ => rfl) rfl fun id job' stage hpost => ⟨stage, ?_⟩⟩
    have hid : id ≠ call := by
      rintro rfl
      exact nomatch hnone.symm.trans hpost
    exact (Function.update_of_ne hid _ _).trans hpost

theorem Holds.eq_of_ne_nil {bytes : Bytes} {target : StreamId} (h : v.Holds id target bytes)
    (hput : v.putBy id stream ≠ []) : stream = target := by
  by_contra hne
  exact hput (h.2 stream hne)

/-- A call that has put something on a connection is a write and has put nothing elsewhere. What it
has not put of its frame is nothing, or it has its turn there and is to put it, or nothing more is
put there. -/
theorem Ok.exists_rest (h : v.Ok) (hput : v.putBy id stream ≠ []) : ∃ stage rest,
    v.posts id = some (.write (v.putBy id stream ++ rest), stage) ∧
      v.Holds id stream (v.putBy id stream) ∧ (rest = [] ∨
        stage = .sending stream rest ∧ (v.writers stream).holder = some id ∨ v.Sealed stream) := by
  have hnot : ¬v.EmptyHanded id := fun hnone => hput (hnone stream)
  have hok := h.post id
  match hid : v.posts id with
  | none =>
    rw [hid] at hok
    exact absurd hok hnot
  | some (job, stage) =>
    rw [hid] at hok
    obtain hjob | ⟨frame, rfl⟩ := job.other_or_write
    · exact absurd ((postOk_of_not_write hjob).mp hok) hnot
    cases stage with
    | sending target rest =>
      obtain ⟨hturn, sent, rfl, hsent⟩ := hok
      obtain rfl := hsent.eq_of_ne_nil hput
      exact ⟨_, rest, by rw [hsent.1], ⟨rfl, hsent.2⟩, .inr (.inl ⟨rfl, hturn⟩)⟩
    | done result =>
      cases result with
      | ok bytes =>
        obtain ⟨target, hall⟩ := hok
        obtain rfl := hall.eq_of_ne_nil hput
        exact ⟨_, [], by rw [hall.1, List.append_nil], ⟨rfl, hall.2⟩, .inl rfl⟩
      | error e =>
        rcases hok with hnone | ⟨target, sent, rest, rfl, hsent, hsealed, -⟩
        · exact absurd hnone hnot
        · obtain rfl := hsent.eq_of_ne_nil hput
          exact ⟨_, rest, by rw [hsent.1], ⟨rfl, hsent.2⟩, .inr (.inr hsealed)⟩
    | dropped => exact nomatch hok
    | _ => exact absurd hok hnot

/-- A call that has not put its whole frame can only be the last. -/
theorem Order.eq_concat {order : List CallId} (h : v.Order stream order) (hmem : id ∈ order)
    (hpart : ¬v.Whole id stream) : order = order.dropLast ++ [id] := by
  have hne : order ≠ [] := List.ne_nil_of_mem hmem
  have hlast : id = order.getLast hne := by
    by_contra hearlier
    exact hpart (h.whole id (List.mem_dropLast_of_mem_of_ne_getLast hmem hearlier))
  rw [hlast]
  exact (List.dropLast_append_getLast hne).symm

section Put

variable {chunk rest : Bytes}
  (hpost : v.posts call = some (.write frame, .sending stream (chunk ++ rest)))
include hpost

/-- Where a write has its turn and can go on, all others that have put something have put their
whole frame. -/
theorem Ok.whole (h : v.Ok) (haborted : v.aborted stream = false) (hne : id ≠ call)
    (hput : v.putBy id stream ≠ []) : v.Whole id stream := by
  obtain ⟨stage, rest', hid, -, hrest⟩ := h.exists_rest hput
  rcases hrest with rfl | ⟨-, hturn⟩ | hsealed
  · exact ⟨stage, by rw [hid, List.append_nil]⟩
  · -- the turn would be that of both
    exact absurd (Option.some.inj (hturn.symm.trans (h.writeOk hpost).1)) hne
  · rcases hsealed with hbroken | ⟨-, hnot⟩
    · exact nomatch haborted.symm.trans hbroken
    · exact absurd hpost (hnot call _ _)

/-- A write that has not put its whole frame comes behind all others. -/
theorem Ok.exists_earlier (h : v.Ok) (hchunk : chunk ≠ []) {order : List CallId}
    (horder : v.Order stream order) : ∃ earlier : List CallId, earlier.Nodup ∧ call ∉ earlier ∧
      (earlier ++ [call]).flatMap (v.putBy · stream) = v.putOnto stream ∧
      ∀ id, id ≠ call → (id ∈ earlier ↔ v.putBy id stream ≠ []) := by
  obtain ⟨-, sent, hframe, hsent⟩ := h.writeOk hpost
  by_cases hmem : call ∈ order
  · have hpart : ¬v.Whole call stream := by
      rintro ⟨stage, hwhole⟩
      rw [hpost, hsent.1, hframe] at hwhole
      simp [hchunk] at hwhole
    have hall := horder.eq_concat hmem hpart
    have hlast : call ∉ order.dropLast := fun hearlier => hpart (horder.whole call hearlier)
    refine ⟨order.dropLast, horder.nodup.sublist (List.dropLast_sublist _), hlast, ?_, ?_⟩
    · rw [← hall, horder.put]
    · intro id hid
      rw [← horder.mem, hall]
      simp [hid]
  · have hnone : v.putBy call stream = [] := by
      by_contra hput
      exact hmem ((horder.mem call).mpr hput)
    refine ⟨order, horder.nodup, hmem, ?_, fun id _ => horder.mem id⟩
    rw [List.flatMap_append, horder.put]
    simp [hnone]

/-- A write puts more of its frame. -/
theorem Ok.put (h : v.Ok) (haborted : v.aborted stream = false) (hchunk : chunk ≠ []) :
    ((v.put call stream chunk).setStage call (.sending stream rest)).Ok := by
  have hothers : ∀ id, id ≠ call → ∀ target,
      ((v.put call stream chunk).setStage call (.sending stream rest)).putBy id target =
        v.putBy id target := fun id hid target => putBy_put_of_ne v (.inl hid) chunk
  have hown : ((v.put call stream chunk).setStage call (.sending stream rest)).putBy call stream =
      v.putBy call stream ++ chunk := putBy_put_self v call stream chunk
  have hjobs := keepsJobs_setStage (v.put call stream chunk) v.writers call (.sending stream rest)
  refine ⟨fun id => ?_, fun target => ?_⟩
  · by_cases hid : id = call
    · subst hid
      obtain ⟨hturn, sent, hframe, hsent⟩ := h.writeOk hpost
      rw [posts_setStage_self (v := v.put id stream chunk) hpost]
      refine ⟨hturn, sent ++ chunk, by rw [hframe, List.append_assoc], ?_, fun other hne => ?_⟩
      · rw [hown, hsent.1]
      · exact (putBy_put_of_ne v (.inr hne) chunk).trans (hsent.2 other hne)
    · rw [posts_setStage_of_ne hid]
      have hspares : v.Spares ((v.put call stream chunk).setStage call (.sending stream rest)) id :=
        ⟨hothers id hid, fun _ hturn => hturn,
          fun _ hsealed => (hsealed.move (.put hpost haborted hchunk)).1⟩
      exact hspares.postOk (h.post id)
  · obtain ⟨order, horder⟩ := h.order target
    by_cases htarget : target = stream
    · subst htarget
      obtain ⟨earlier, hnodup, hnew, hput, hmem⟩ := h.exists_earlier hpost hchunk horder
      have hne : ∀ id ∈ earlier, id ≠ call := fun id hid heq => hnew (heq ▸ hid)
      refine ⟨earlier ++ [call], ?_, ?_, fun id => ?_, fun id hid => ?_⟩
      · exact (List.perm_append_singleton call earlier).nodup_iff.mpr
          (List.nodup_cons.mpr ⟨hnew, hnodup⟩)
      · have hsame := List.flatMap_congr fun id hid => hothers id (hne id hid) target
        have honto := putOnto_put_self v call target chunk
        rw [List.flatMap_append, hsame, List.flatMap_singleton, hown, ← List.append_assoc]
        rw [List.flatMap_append, List.flatMap_singleton] at hput
        exact (congrArg (· ++ chunk) hput).trans honto.symm
      · by_cases hid : id = call
        · subst hid
          simp [hown, hchunk]
        · rw [hothers id hid, ← hmem id hid]
          simp [hid]
      · rw [List.dropLast_concat] at hid
        have hput' : v.putBy id target ≠ [] := (hmem id (hne id hid)).mp hid
        obtain ⟨stage, hwhole⟩ := h.whole hpost haborted (hne id hid) hput'
        rw [Whole, hothers id (hne id hid)]
        exact hjobs id _ stage hwhole
    · exact ⟨order, horder.keep (fun id => putBy_put_of_ne v (.inr htarget) chunk)
        (putOnto_put_of_ne v htarget call chunk) hjobs⟩

end Put

/-- On a connection whose writer ends with it, or with the link, nothing more is put. -/
theorem Ok.sealed_fail (h : v.Ok) {rest : Bytes} {writers : StreamId → Turns} {result : Result}
    (hpost : v.posts call = some (.write frame, .sending stream rest))
    (hgone : v.aborted stream ∨ v.disposed) :
    ({ v with writers }.setStage call (.done result)).Sealed stream := by
  refine hgone.imp_right fun hdisposed => ⟨hdisposed, fun id frame' rest' hsame => ?_⟩
  by_cases hid : id = call
  · subst hid
    rw [posts_setStage_self (v := { v with writers }) hpost] at hsame
    exact nomatch hsame
  · rw [posts_setStage_of_ne hid] at hsame
    exact hid (Option.some.inj ((h.writeOk hsame).1.symm.trans (h.writeOk hpost).1))

theorem Ok.move (h : v.Ok) (hmove : Move v v') (hundropped : v'.Undropped) : v'.Ok := by
  have hsealed : ∀ stream, v.Sealed stream → v'.Sealed stream := fun _ h => (h.move hmove).1
  cases hmove with
  | begin job hnone => exact h.begin job hnone
  | shift hpost hopen hjob hsending hyields =>
    have hnone := (postOk_of_not_write hjob).mp (hpost ▸ h.post _)
    exact h.go hpost (.shift hpost hopen hjob hsending hyields) hyields
      ((postOk_of_not_write hjob).mpr hnone)
  | wait hpost hahead hahead' hyields =>
    exact h.go hpost (.wait hpost hahead hahead' hyields) hyields
      ((writeOk_of_isAhead hahead').mpr (h.emptyHanded hpost hahead))
  | refuse hpost hahead hyields =>
    exact h.go hpost (.refuse hpost hahead hyields) hyields
      (.inl (h.emptyHanded hpost hahead))
  | start hpost hahead hdisposed hyields hturn =>
    have hnone := h.emptyHanded hpost hahead
    exact h.go hpost (.start hpost hahead hdisposed hyields hturn) hyields
      ⟨hturn, [], rfl, hnone _, fun other _ => hnone other⟩
  | put hpost haborted hchunk => exact h.put hpost haborted hchunk
  | finish bytes hpost hyields =>
    obtain ⟨-, sent, hframe, hsent⟩ := h.writeOk hpost
    rw [List.append_nil] at hframe
    exact h.go hpost (.finish bytes hpost hyields) hyields ⟨_, hframe ▸ hsent⟩
  | fail hpost hgone herror hyields =>
    obtain ⟨-, sent, hframe, hsent⟩ := h.writeOk hpost
    exact h.go hpost (.fail hpost hgone herror hyields) hyields
      (.inr ⟨_, sent, _, hframe, hsent, h.sealed_fail hpost hgone, herror⟩)
  | drop hpost =>
    exact absurd (posts_setStage_self (v := { v with writers := _ }) hpost .dropped)
      (hundropped _ _)
  | dispose => exact h.keep (fun _ => ⟨fun _ => rfl, fun _ hturn => hturn, hsealed⟩) rfl rfl
  | abort => exact h.keep (fun _ => ⟨fun _ => rfl, fun _ hturn => hturn, hsealed⟩) rfl rfl
  | drain => exact h.keep (fun _ => ⟨fun _ => rfl, fun _ hturn => hturn, hsealed⟩) rfl rfl

/-- A call that is over stays where it stands. -/
theorem Move.posts_eq (hmove : Move v v') (hpost : v.posts id = some (job, stage))
    (hover : stage.isOpen = false) : v'.posts id = some (job, stage) := by
  have hother : ∀ {call stage' p}, v.posts call = some p → p.2.isOpen →
      (v.setStage call stage').posts id = some (job, stage) := by
    intro call stage' p hcall hopen
    have hid : id ≠ call := by
      rintro rfl
      obtain rfl := Option.some.inj (hcall.symm.trans hpost)
      exact nomatch hopen.symm.trans hover
    exact (posts_setStage_of_ne hid stage').trans hpost
  cases hmove with
  | @begin call job' hnone =>
    have hid : id ≠ call := by
      rintro rfl
      exact nomatch hnone.symm.trans hpost
    exact (Function.update_of_ne hid _ _).trans hpost
  | shift hcall hopen => exact hother hcall hopen
  | wait hcall hahead => exact hother hcall (Stage.isOpen_of_isAhead hahead)
  | refuse hcall hahead => exact hother hcall (Stage.isOpen_of_isAhead hahead)
  | start hcall hahead => exact hother hcall (Stage.isOpen_of_isAhead hahead)
  | put hcall => exact hother hcall rfl
  | finish _ hcall => exact hother hcall rfl
  | fail hcall => exact hother hcall rfl
  | drop hcall hopen => exact hother hcall hopen
  | _ => exact hpost

theorem Ok.moves (h : v.Ok) (hmoves : Moves v v') (hundropped : v'.Undropped) : v'.Ok := by
  induction hmoves with
  | refl => exact h
  | tail _ hmove ih =>
    refine (ih fun id frame hdropped => ?_).move hmove hundropped
    exact hundropped id frame (hmove.posts_eq hdropped rfl)

/-! ### Where calls stand -/

/-- Every call stands where it can. -/
def Posted (v : Outflow) : Prop := ∀ id job stage, v.posts id = some (job, stage) → stage.Suits job

theorem Posted.setStage (h : v.Posted) {stage' : Stage} (hpost : v.posts call = some (job, stage))
    (hsuits : stage'.Suits job) : (v.setStage call stage').Posted := by
  intro id job' stage₀ hpost'
  by_cases hid : id = call
  · subst hid
    rw [posts_setStage_self hpost] at hpost'
    obtain ⟨rfl, rfl⟩ := Prod.mk.inj (Option.some.inj hpost')
    exact hsuits
  · exact h id job' stage₀ (posts_setStage_of_ne hid stage' ▸ hpost')

theorem Posted.move (h : v.Posted) (hmove : Move v v') : v'.Posted := by
  cases hmove with
  | begin job hnone =>
    intro id job' stage hpost
    simp only [Function.update_apply] at hpost
    split_ifs at hpost
    · obtain ⟨rfl, rfl⟩ := Prod.mk.inj (Option.some.inj hpost)
      cases job with
      | write frame => exact fun _ => .inl rfl
      | _ => rfl
    · exact h id job' stage hpost
  | @shift call job stage stage' writers hpost hopen hjob hsending =>
    refine h.setStage hpost ?_
    cases job with
    | write frame => exact absurd rfl (hjob frame)
    | _ => exact hsending
  | wait hpost _ hahead' => exact h.setStage hpost fun _ => .inl hahead'
  | refuse hpost => exact h.setStage hpost nofun
  | start hpost => exact h.setStage hpost fun _ => .inr rfl
  | put hpost => exact h.setStage hpost fun _ => .inr rfl
  | finish _ hpost => exact h.setStage hpost nofun
  | fail hpost => exact h.setStage hpost nofun
  | drop hpost => exact h.setStage hpost nofun
  | _ => exact h

theorem Posted.moves (h : v.Posted) (hmoves : Moves v v') : v'.Posted := by
  induction hmoves with
  | refl => exact h
  | tail _ hmove ih => exact ih.move hmove

end Outflow

end Link

end BrokerWire
