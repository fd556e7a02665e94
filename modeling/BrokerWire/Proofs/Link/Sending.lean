import BrokerWire.Proofs.Link.Changing
import BrokerWire.Proofs.Link.Outflow

/-!
# What events make of a link for its writers

Every event is a course of moves of a link as its writers see it (`moves_step_outflow`). Of reads
they see only that these go on or end (`Passes`). A write that has its turn puts what its connection
accepts, and then waits on, or ends and gives up its turn (`moves_send`). What the far side takes in
an event (`drainedBy`) is part of the view, though a link does not keep it.
-/

namespace BrokerWire

namespace Link

variable {l l' : Link} {d : StreamId → Bytes} {call : CallId} {c : Call} {stream : StreamId}
  {bytes frame : Bytes} {stage : Stage}

/-! ### The view -/

/-- A connection of a link; one that has not been made holds nothing. -/
def streamAt (l : Link) (stream : StreamId) : Stream := l.streams[stream]?.getD {}

theorem getElem?_streams (hmade : stream < l.streams.length) :
    l.streams[stream]? = some (l.streamAt stream) := by
  simp [streamAt, hmade]

/-- What a stream holds for writers. -/
def Stream.port (s : Stream) : Bool × Bytes × Turns := (s.aborted, s.outgoing, s.writers)

/-- The view of a link from which the far side has taken so much. -/
def outflow (l : Link) (drained : StreamId → Bytes) : Outflow where
  disposed := l.disposed
  aborted stream := (l.streamAt stream).aborted
  outgoing stream := (l.streamAt stream).outgoing
  writers stream := (l.streamAt stream).writers
  puts := l.puts
  drained
  posts call := l.calls[call]?.map fun c => (c.job, c.stage)

theorem posts_outflow (hcall : l.calls[call]? = some c) :
    (l.outflow d).posts call = some (c.job, c.stage) :=
  congrArg (Option.map fun c : Call => (c.job, c.stage)) hcall

theorem outflow_setStage (l : Link) (d : StreamId → Bytes) (call : CallId) (stage : Stage) :
    (l.setStage call stage).outflow d = (l.outflow d).setStage call stage := by
  have hposts : ((l.setStage call stage).outflow d).posts =
      ((l.outflow d).setStage call stage).posts := by
    funext id
    by_cases hid : id = call
    · subst hid
      simp [outflow, Link.setStage, Outflow.setStage, Function.comp_def]
    · rw [Outflow.posts_setStage_of_ne hid]
      exact congrArg (Option.map fun c => (c.job, c.stage)) (getElem?_setStage_of_ne hid stage)
  exact congrArg (fun posts => { l.outflow d with posts }) hposts

/-- Writers see nothing else. -/
theorem outflow_congr (hdisposed : l'.disposed = l.disposed)
    (hport : ∀ stream, (l'.streamAt stream).port = (l.streamAt stream).port)
    (hputs : l'.puts = l.puts) (hcalls : l'.calls = l.calls) : l'.outflow d = l.outflow d :=
  Outflow.ext hdisposed (funext fun stream => congrArg (·.1) (hport stream))
    (funext fun stream => congrArg (·.2.1) (hport stream))
    (funext fun stream => congrArg (·.2.2) (hport stream)) hputs rfl
    (congrArg (fun calls id => (calls[id]?).map fun c : Call => (c.job, c.stage)) hcalls)

theorem streamAt_modifyStream (hmade : stream < l.streams.length) (g : Stream → Stream) :
    (l.modifyStream stream g).streamAt =
      Function.update l.streamAt stream (g (l.streamAt stream)) := by
  funext target
  rw [streamAt, modifyStream, List.getElem?_modify, Function.update_apply, streamAt, streamAt]
  by_cases htarget : target = stream
  · subst htarget
    simp [hmade]
  · simp [htarget, Ne.symm htarget]

/-- What writers see of a change of a connection. -/
theorem outflow_modifyStream (hmade : stream < l.streams.length) (d : StreamId → Bytes)
    (g : Stream → Stream) : (l.modifyStream stream g).outflow d = { l.outflow d with
      aborted := Function.update (l.outflow d).aborted stream (g (l.streamAt stream)).aborted
      outgoing := Function.update (l.outflow d).outgoing stream (g (l.streamAt stream)).outgoing
      writers :=
        Function.update (l.outflow d).writers stream (g (l.streamAt stream)).writers } := by
  have hat := streamAt_modifyStream hmade g
  refine Outflow.ext rfl ?_ ?_ ?_ rfl rfl rfl
  · exact (congrArg (Stream.aborted ∘ ·) hat).trans (Function.comp_update ..)
  · exact (congrArg (Stream.outgoing ∘ ·) hat).trans (Function.comp_update ..)
  · exact (congrArg (Stream.writers ∘ ·) hat).trans (Function.comp_update ..)

/-- Changes of a connection that writers do not see. -/
theorem outflow_modifyStream_self (l : Link) (d : StreamId → Bytes) (stream : StreamId)
    {g : Stream → Stream} (hport : (g (l.streamAt stream)).port = (l.streamAt stream).port) :
    (l.modifyStream stream g).outflow d = l.outflow d := by
  by_cases hmade : stream < l.streams.length
  · refine outflow_congr rfl (fun target => ?_) rfl rfl
    rw [streamAt_modifyStream hmade, Function.update_apply]
    split_ifs with htarget
    · rw [hport, htarget]
    · rfl
  · rw [modifyStream_none (List.getElem?_eq_none (Nat.le_of_not_lt hmade))]

/-- What writers see of a turn on a connection that a call asks for or gives up. -/
theorem outflow_modifyWriters (hmade : stream < l.streams.length) (d : StreamId → Bytes)
    (g : Turns → Turns) :
    (l.modifyStream stream fun s => { s with writers := g s.writers }).outflow d =
      { l.outflow d with
        writers :=
          Function.update (l.outflow d).writers stream (g (l.streamAt stream).writers) } := by
  rw [outflow_modifyStream hmade]
  exact Outflow.ext rfl (Function.update_eq_self ..) (Function.update_eq_self ..) rfl rfl rfl rfl

theorem yields_update (l : Link) (d : StreamId → Bytes) (stream : StreamId) {g : Turns → Turns}
    (hyields : ∀ turns other, other ≠ call → turns.holder = some other →
      (g turns).holder = some other) : (l.outflow d).Yields call
        (Function.update (l.outflow d).writers stream (g (l.streamAt stream).writers)) := by
  intro target other hne hturn
  rw [Function.update_apply]
  split_ifs with htarget
  · exact hyields _ other hne (htarget ▸ hturn)
  · exact hturn

theorem outflow_lose (l : Link) (d : StreamId → Bytes) (stream : StreamId) :
    (l.lose stream).outflow d = l.outflow d := by
  rw [lose, reconnect]
  split_ifs <;> rfl

/-! ### Reads -/

theorem outflow_takeFrom (l : Link) (d : StreamId → Bytes) (call : CallId) (stream : StreamId)
    (n : Nat) : (l.takeFrom call stream n).2.outflow d = l.outflow d := by
  rw [takeFrom]
  cases hs : l.streams[stream]? with
  | none => rfl
  | some s =>
    have hat : l.streamAt stream = s := by rw [streamAt, hs, Option.getD_some]
    dsimp only
    rw [Stream.take]
    split_ifs
    · exact outflow_modifyStream_self l d stream (hat.symm ▸ rfl)
    · exact outflow_lose l d stream
    · exact outflow_lose l d stream
    · rfl

theorem outflow_gather (rounds : Nat) (l : Link) (d : StreamId → Bytes) (call : CallId)
    (f : Filling) (source : Option StreamId) :
    (gather rounds l call f source).1.outflow d = l.outflow d := by
  induction rounds generalizing l f source with
  | zero => rfl
  | succ rounds ih =>
    cases source with
    | none =>
      rw [gather]
      split_ifs
      · rfl
      · rfl
      · rfl
      · split
        · exact ih l f _
        · rfl
      · rfl
    | some stream =>
      have htake := outflow_takeFrom l d call stream f.missing
      rw [gather]
      split_ifs
      · rfl
      · rfl
      · rfl
      · generalize l.takeFrom call stream f.missing = result at htake
        obtain ⟨intake, l'⟩ := result
        cases intake with
        | bytes chunk => exact (ih l' _ none).trans htake
        | _ => exact htake

/-- A call goes on or ends, and writers see nothing else of it. -/
def Passes (l l' : Link) (d : StreamId → Bytes) (call : CallId) : Prop :=
  ∃ stage, stage.isSending = false ∧ l'.outflow d = (l.outflow d).setStage call stage

theorem passes_setStage (l' : Link) (stage : Stage) (hsending : stage.isSending = false)
    (h : l'.outflow d = l.outflow d) : l.Passes (l'.setStage call stage) d call :=
  ⟨stage, hsending, h ▸ outflow_setStage l' d call stage⟩

theorem passes_endRead (result : Result) (h : l'.outflow d = l.outflow d) :
    l.Passes (l'.endRead call result) d call :=
  passes_setStage { l' with readers := l'.readers.leave call } (.done result) rfl h

theorem passes_readLast (l : Link) (d : StreamId → Bytes) (call : CallId) (part : Part)
    (f : Filling) (source : Option StreamId) :
    l.Passes (l.readLast call part f source) d call := by
  have hfill : (l.fill call f source).1.outflow d = l.outflow d :=
    outflow_gather _ l d call f source
  rw [readLast]
  generalize l.fill call f source = result at hfill
  obtain ⟨l', filled⟩ := result
  cases filled with
  | complete bytes => exact passes_endRead _ hfill
  | waiting f' source' => exact passes_setStage l' _ rfl hfill
  | failed e => exact passes_endRead _ hfill

theorem Passes.of_outflow {l₁ : Link} (h : l₁.Passes l' d call)
    (hsame : l₁.outflow d = l.outflow d) : l.Passes l' d call := by
  obtain ⟨stage, hsending, hpasses⟩ := h
  exact ⟨stage, hsending, hsame ▸ hpasses⟩

theorem passes_readBody (l : Link) (d : StreamId → Bytes) (call : CallId) (length : Int32) :
    l.Passes (l.readBody call length) d call := by
  rw [readBody]
  split_ifs
  · exact passes_readLast l d call .body _ none
  · dsimp only
    split
    · exact passes_endRead _ (outflow_lose l d _)
    · exact passes_endRead _ rfl

theorem passes_readOn (l : Link) (d : StreamId → Bytes) (call : CallId) (part : Part)
    (f : Filling) (source : Option StreamId) : l.Passes (l.readOn call part f source) d call := by
  cases part with
  | length =>
    have hfill : (l.fill call f source).1.outflow d = l.outflow d :=
      outflow_gather _ l d call f source
    rw [readOn]
    generalize l.fill call f source = result at hfill
    obtain ⟨l', filled⟩ := result
    cases filled with
    | complete bytes => exact (passes_readBody l' d call _).of_outflow hfill
    | waiting f' source' => exact passes_setStage l' _ rfl hfill
    | failed e => exact passes_endRead _ hfill
  | _ => exact passes_readLast l d call _ f source

theorem passes_enterRead (l : Link) (d : StreamId → Bytes) (call : CallId) (part : Part)
    (size : Nat) : l.Passes (l.enterRead call part size) d call := by
  rw [enterRead]
  split_ifs
  · exact passes_endRead _ rfl
  · exact passes_endRead _ rfl
  · dsimp only
    split_ifs
    · exact (passes_readOn _ d call part ⟨[], size⟩ none).of_outflow rfl
    · exact ⟨.queued, rfl, outflow_setStage _ d call .queued⟩

/-! ### Writes -/

open Outflow (Moves Move)

/-- A write ends, which gives up its turn. -/
theorem exists_outflow_endWrite (hmade : stream < l.streams.length) (d : StreamId → Bytes)
    (call : CallId) (result : Result) :
    ∃ writers, (l.outflow d).Yields call writers ∧ (l.endWrite call stream result).outflow d =
      ({ l.outflow d with writers } : Outflow).setStage call (.done result) := by
  refine ⟨_, yields_update (g := (·.leave call)) l d stream
    fun turns other hne hturn => View.holder_leave hturn hne, ?_⟩
  rw [endWrite, outflow_setStage, outflow_modifyWriters hmade d (·.leave call)]

/-- The view with a call at work on a connection. -/
def sendingView (l : Link) (d : StreamId → Bytes) (call : CallId) (stream : StreamId)
    (rest : Bytes) : Outflow :=
  (l.outflow d).setStage call (.sending stream rest)

/-- What writers see of bytes that a connection has accepted. -/
theorem outflow_record_put (hmade : stream < l.streams.length) (call : CallId) (bytes : Bytes) :
    ((l.modifyStream stream fun _ => { l.streamAt stream with
      outgoing := (l.streamAt stream).outgoing ++ bytes }).record
        (.put call stream bytes)).outflow d = (l.outflow d).put call stream bytes := by
  have hmodify := outflow_modifyStream hmade d fun _ => { l.streamAt stream with
    outgoing := (l.streamAt stream).outgoing ++ bytes }
  exact Outflow.ext rfl ((congrArg Outflow.aborted hmodify).trans (Function.update_eq_self ..))
    ((congrArg Outflow.outgoing hmodify).trans rfl)
    ((congrArg Outflow.writers hmodify).trans (Function.update_eq_self ..)) rfl rfl rfl

section Sending

variable (hcall : l.calls[call]? = some c) (hjob : c.job = .write frame)
include hcall hjob

theorem posts_sendingView (stream : StreamId) (rest : Bytes) :
    (l.sendingView d call stream rest).posts call = some (.write frame, .sending stream rest) :=
  Outflow.posts_setStage_self (hjob ▸ posts_outflow hcall) _

theorem moves_finish (hmade : stream < l.streams.length) (result : Bytes) :
    Moves (l.sendingView d call stream [])
      ((l.endWrite call stream (.ok result)).outflow d) := by
  obtain ⟨writers, hyields, hafter⟩ := exists_outflow_endWrite hmade d call (.ok result)
  have hmove := Move.finish result (posts_sendingView (d := d) hcall hjob stream []) hyields
  rw [hafter, ← Outflow.setStage_setStage]
  exact .single hmove

theorem moves_fail (hmade : stream < l.streams.length) {rest : Bytes} {e : WireError}
    (hgone : (l.streamAt stream).aborted ∨ l.disposed) (herror : e ≠ .cancelled) :
    Moves (l.sendingView d call stream rest)
      ((l.endWrite call stream (.error e)).outflow d) := by
  obtain ⟨writers, hyields, hafter⟩ := exists_outflow_endWrite hmade d call (.error e)
  have hmove := Move.fail (posts_sendingView (d := d) hcall hjob stream rest) hgone herror hyields
  rw [hafter, ← Outflow.setStage_setStage]
  exact .single hmove

/-- A connection that is not broken accepts the front of what it is given. -/
theorem moves_accept (hmade : stream < l.streams.length)
    (haborted : (l.streamAt stream).aborted = false) (hsome : bytes ≠ []) :
    ∃ rest l', l.putOn call stream bytes =
        (if rest = [] then .complete else .partly rest, l') ∧
      Moves (l.sendingView d call stream bytes) (l'.sendingView d call stream rest) := by
  have hbroken : ¬(l.streamAt stream).aborted := (Bool.eq_false_iff.mp haborted :)
  rw [putOn, getElem?_streams hmade]
  dsimp only
  rw [Stream.put, if_neg hsome, if_neg hbroken]
  generalize l.window - (l.streamAt stream).outgoing.length = room
  dsimp only
  have hbytes := List.take_append_drop room bytes
  generalize bytes.take room = chunk, bytes.drop room = rest at hbytes
  subst hbytes
  refine ⟨rest, ?_⟩
  cases chunk with
  | nil => exact ⟨l, rfl, .refl⟩
  | cons b chunk =>
    refine ⟨_, rfl, .single ?_⟩
    have hafter := outflow_record_put (d := d) hmade call (b :: chunk)
    have hmove := Move.put (posts_sendingView (d := d) hcall hjob stream (b :: chunk ++ rest))
      haborted (List.cons_ne_nil b chunk)
    rw [sendingView, Outflow.setStage_put_setStage, ← hafter] at hmove
    exact hmove

/-- A write puts what its connection accepts. -/
theorem moves_putOn (hmade : stream < l.streams.length) (bytes : Bytes) :
    match l.putOn call stream bytes with
    | (.complete, l') =>
      Moves (l.sendingView d call stream bytes) (l'.sendingView d call stream [])
    | (.partly rest, l') =>
      Moves (l.sendingView d call stream bytes) (l'.sendingView d call stream rest)
    | (.aborted, l') => l' = l ∧ (l.streamAt stream).aborted := by
  by_cases hnil : bytes = []
  · subst hnil
    rw [putOn, getElem?_streams hmade]
    exact .refl
  by_cases haborted : (l.streamAt stream).aborted
  · have hput : (l.streamAt stream).put l.window bytes = (.aborted, [], l.streamAt stream) := by
      rw [Stream.put, if_neg hnil, if_pos haborted]
    rw [putOn, getElem?_streams hmade]
    dsimp only
    rw [hput]
    exact ⟨rfl, haborted⟩
  obtain ⟨rest, l', hput, hmoves⟩ := moves_accept (d := d) hcall hjob hmade
    (eq_false_of_ne_true haborted) hnil
  rw [hput]
  by_cases hrest : rest = []
  · rw [if_pos hrest]
    exact hrest ▸ hmoves
  · rw [if_neg hrest]
    exact hmoves

theorem moves_send (hmade : stream < l.streams.length) (rest : Bytes) (ioFirst : Bool) :
    Moves (l.sendingView d call stream rest)
      ((l.send call stream rest ioFirst).outflow d) := by
  have hput := moves_putOn (d := d) hcall hjob hmade rest
  have hkeeps := keeps_putOn l call ⟨none, some stream⟩ stream rest
  rw [send]
  split_ifs with hdisposed
  · exact moves_fail hcall hjob hmade (.inr hdisposed.1) fun _ => by contradiction
  generalize l.putOn call stream rest = result at hput hkeeps
  obtain ⟨outlet, l'⟩ := result
  have hcall' : l'.calls[call]? = some c := hkeeps.calls ▸ hcall
  have hmade' : stream < l'.streams.length := by
    have hsame : l'.streams.length = l.streams.length := congrArg Conn.made hkeeps.conn
    exact hsame.symm ▸ hmade
  cases outlet with
  | complete => exact hput.trans (moves_finish hcall' hjob hmade' [])
  | partly rest' =>
    dsimp only
    split_ifs with hgone
    · exact hput.trans (moves_fail hcall' hjob hmade' (.inr hgone) fun _ => by contradiction)
    · rw [outflow_setStage]
      exact hput
  | aborted =>
    obtain ⟨rfl, haborted⟩ := hput
    dsimp only
    rw [outflow_lose]
    split_ifs
    · exact moves_fail hcall hjob hmade (.inl haborted) fun _ => by contradiction
    · exact moves_fail hcall hjob hmade (.inl haborted) fun _ => by contradiction

/-- A write that waits for its turn ends. -/
theorem moves_refuse (hmade : stream < l.streams.length) (hahead : c.stage.isAhead)
    (e : WireError) : Moves (l.outflow d) ((l.endWrite call stream (.error e)).outflow d) := by
  obtain ⟨writers, hyields, hafter⟩ := exists_outflow_endWrite hmade d call (.error e)
  rw [hafter]
  exact .single (.refuse (hjob ▸ posts_outflow hcall) hahead hyields)

theorem moves_lineUp (hmade : stream < l.streams.length) (hahead : c.stage.isAhead)
    (ioFirst : Bool) : Moves (l.outflow d) ((l.lineUp call stream frame ioFirst).outflow d) := by
  have hpost : (l.outflow d).posts call = some (.write frame, c.stage) := hjob ▸ posts_outflow hcall
  have hjoin := outflow_modifyWriters hmade d (·.join call)
  have hyields : (l.outflow d).Yields call _ := yields_update (g := (·.join call)) l d stream
    fun turns other _ hturn => View.holder_join hturn call
  have hstream : (l.modifyStream stream fun s =>
      { s with writers := s.writers.join call }).streams[stream]? =
        some { l.streamAt stream with writers := (l.streamAt stream).writers.join call } := by
    simp [modifyStream, streamAt, hmade]
  rw [lineUp]
  dsimp only
  split_ifs with hdisposed
  · exact moves_refuse hcall hjob hmade hahead _
  · exact moves_refuse hcall hjob hmade hahead _
  rw [hstream]
  have hcall' : (l.modifyStream stream fun s =>
    { s with writers := s.writers.join call }).calls[call]? = some c := hcall
  have hmade' : stream < (l.modifyStream stream fun s =>
      { s with writers := s.writers.join call }).streams.length := by
    simpa [modifyStream] using hmade
  generalize (l.modifyStream stream fun s => { s with writers := s.writers.join call }) = l'
    at hjoin hcall' hmade'
  dsimp only
  split_ifs with hturn
  · have hturn' : (Function.update (l.outflow d).writers stream
        ((l.streamAt stream).writers.join call) stream).holder = some call := by
      rw [Function.update_self]
      exact hturn
    have hstart := Move.start hpost hahead (eq_false_of_ne_true hdisposed) hyields hturn'
    rw [← hjoin] at hstart
    exact .head hstart (moves_send hcall' hjob hmade' frame ioFirst)
  · rw [outflow_setStage, hjoin]
    exact .single (.wait hpost hahead rfl hyields)

theorem moves_enterWrite (hvalid : l.conn.Valid) (hahead : c.stage.isAhead) (ioFirst : Bool) :
    Moves (l.outflow d) ((l.enterWrite call frame ioFirst).outflow d) := by
  have hpost : (l.outflow d).posts call = some (.write frame, c.stage) := hjob ▸ posts_outflow hcall
  have hrefuse : ∀ e, Moves (l.outflow d) ((l.setStage call (.done (.error e))).outflow d) := by
    intro e
    rw [outflow_setStage]
    exact .single (.refuse hpost hahead (Outflow.yields_refl _ call))
  rw [enterWrite]
  split_ifs
  · exact hrefuse _
  · exact hrefuse _
  · cases hslot : l.slot with
    | none => exact hrefuse _
    | some stream => exact moves_lineUp hcall hjob (hvalid.made stream hslot) hahead ioFirst
  · rw [outflow_setStage]
    exact .single (.wait hpost hahead rfl (Outflow.yields_refl _ call))

end Sending

/-! ### Events -/

/-- A call that is no write goes on or ends. -/
theorem Passes.moves (h : l.Passes l' d call) (hcall : l.calls[call]? = some c)
    (hopen : c.stage.isOpen) (hjob : ∀ frame, c.job ≠ .write frame) :
    Moves (l.outflow d) (l'.outflow d) := by
  obtain ⟨stage, hsending, hpasses⟩ := h
  rw [hpasses]
  exact .single (.shift (posts_outflow hcall) hopen hjob hsending (Outflow.yields_refl _ call))

theorem passes_windDown (l : Link) (d : StreamId → Bytes) (call : CallId) (task : Task)
    (deadline : Nat) : l.Passes (l.windDown call task deadline) d call := by
  rw [windDown]
  split_ifs
  · exact passes_setStage { l with slot := none } _ rfl rfl
  · exact passes_setStage l _ rfl rfl

theorem moves_enterDispose (hcall : l.calls[call]? = some c) (hopen : c.stage.isOpen)
    (hjob : ∀ frame, c.job ≠ .write frame) :
    Moves (l.outflow d) ((l.enterDispose call).outflow d) := by
  rw [enterDispose]
  dsimp only
  split_ifs
  · exact (passes_setStage { l with disposals := l.disposals + 1 } _ rfl rfl).moves hcall hopen
      hjob
  · let l₁ : Link := { l with disposals := l.disposals + 1, disposed := true, tracked := none }
    have hdispose : Move (l.outflow d) (l₁.outflow d) := .dispose _
    have hgone : ∀ l', l₁.Passes l' d call → Moves (l.outflow d) (l'.outflow d) := fun l' hpasses =>
      .head hdispose (hpasses.moves (l := l₁) hcall hopen hjob)
    cases l.tracked with
    | none => exact hgone _ (passes_setStage { l₁ with slot := none } _ rfl rfl)
    | some task => exact hgone _ (passes_windDown l₁ d call task _)

theorem moves_poll_of_not_write (hcall : l.calls[call]? = some c) (hopen : c.stage.isOpen)
    (hjob : ∀ frame, c.job ≠ .write frame) (hsending : c.stage.isSending = false) (ioFirst : Bool) :
    Moves (l.outflow d) ((l.poll call ioFirst).outflow d) := by
  have hpasses : ∀ l', l.Passes l' d call → Moves (l.outflow d) (l'.outflow d) :=
    fun l' hpasses => hpasses.moves hcall hopen hjob
  have hdispose := moves_enterDispose (d := d) hcall hopen hjob
  rw [poll, hcall]
  obtain ⟨job, cancelled, stage⟩ := c
  dsimp only
  cases stage with
  | fresh =>
    cases job with
    | read n => exact hpasses _ (passes_enterRead l d call .whole n)
    | readFrame => exact hpasses _ (passes_enterRead l d call .length lengthSize)
    | write frame => exact absurd rfl (hjob frame)
    | dispose => exact hdispose
  | queued =>
    cases job with
    | read n => exact hpasses _ (passes_enterRead l d call .whole n)
    | readFrame => exact hpasses _ (passes_enterRead l d call .length lengthSize)
    | _ => exact .refl
  | filling part f source => cases job <;> exact hpasses _ (passes_readOn l d call part f source)
  | offering =>
    cases job with
    | write frame => exact absurd rfl (hjob frame)
    | _ => exact .refl
  | lining stream =>
    cases job with
    | write frame => exact absurd rfl (hjob frame)
    | _ => exact .refl
  | sending stream rest => contradiction
  | winding task deadline => cases job <;> exact hpasses _ (passes_windDown l d call task deadline)
  | done result => contradiction
  | dropped => contradiction

theorem moves_poll_of_write (h : l.Sound) (hcall : l.calls[call]? = some c)
    (hjob : c.job = .write frame) (hstage : c.stage.isAhead ∨ c.stage.isSending) (ioFirst : Bool) :
    Moves (l.outflow d) ((l.poll call ioFirst).outflow d) := by
  have hheld : ∀ stream, c.stage.stream? = some stream → stream < l.streams.length :=
    fun stream => h.held call c stream hcall
  have hpost := posts_outflow (d := d) hcall
  have henter := moves_enterWrite (d := d) hcall hjob h.valid
  have hline := fun stream (hmade : stream < l.streams.length) =>
    moves_lineUp (d := d) hcall hjob hmade
  have hsend := fun stream (hmade : stream < l.streams.length) =>
    moves_send (d := d) hcall hjob hmade
  rw [poll, hcall]
  obtain ⟨job, cancelled, stage⟩ := c
  obtain rfl : job = .write frame := hjob
  dsimp only at hheld hpost
  cases stage with
  | fresh => exact henter rfl ioFirst
  | offering => exact henter rfl ioFirst
  | lining stream => exact hline stream (hheld stream rfl) rfl ioFirst
  | sending stream rest =>
    have hview : l.sendingView d call stream rest = l.outflow d := Outflow.setStage_self hpost
    exact hview ▸ hsend stream (hheld stream rfl) rest ioFirst
  | _ => simp [Stage.isAhead, Stage.isSending] at hstage

/-- A call is advanced. -/
theorem moves_poll_outflow (h : l.Sound) (hposted : (l.outflow d).Posted) (call : CallId)
    (ioFirst : Bool) : Moves (l.outflow d) ((l.poll call ioFirst).outflow d) := by
  obtain hover | ⟨c, hcall, hopen⟩ := l.over_or_open call
  · rw [poll_of_not_isOpen hover]
  have hsuits := hposted call c.job c.stage (posts_outflow hcall)
  obtain hjob | ⟨frame, hwrite⟩ := c.job.other_or_write
  · refine moves_poll_of_not_write hcall hopen hjob ?_ ioFirst
    cases hc : c.job with
    | write frame => exact absurd hc (hjob frame)
    | _ =>
      rw [hc] at hsuits
      exact hsuits
  · rw [hwrite] at hsuits
    exact moves_poll_of_write h hcall hwrite (hsuits hopen) ioFirst

/-- A call leaves the turns on every connection. -/
theorem streamAt_leave (l : Link) (call : CallId) (stream : StreamId) :
    (l.streams.map fun s => { s with writers := s.writers.leave call })[stream]?.getD {} =
      { l.streamAt stream with writers := (l.streamAt stream).writers.leave call } := by
  rw [streamAt, List.getElem?_map]
  cases l.streams[stream]? <;> rfl

/-- A call is dropped. -/
theorem moves_drop_outflow (l : Link) (d : StreamId → Bytes) (call : CallId) :
    Moves (l.outflow d) ((l.drop call).outflow d) := by
  obtain hover | ⟨c, hcall, hopen⟩ := l.over_or_open call
  · rw [drop_of_not_isOpen hover]
  let left : Link := { l with
    readers := l.readers.leave call
    streams := l.streams.map fun s => { s with writers := s.writers.leave call } }
  let writers : StreamId → Turns := fun stream => (l.streamAt stream).writers.leave call
  have hleft : left.outflow d = { l.outflow d with writers } := by
    have hat : left.streamAt = fun stream => { l.streamAt stream with writers := writers stream } :=
      funext (streamAt_leave l call)
    simp only [outflow, hat]
    rfl
  have hyields : (l.outflow d).Yields call writers := fun stream other hne hturn =>
    View.holder_leave hturn hne
  rw [drop_of_isOpen hcall hopen, outflow_setStage, hleft]
  have hpost := posts_outflow (d := d) hcall
  cases hjob : c.job with
  | write frame =>
    rw [hjob] at hpost
    exact .single (.drop hpost hopen hyields)
  | _ => exact .single (.shift hpost hopen (by simp [hjob]) rfl hyields)

theorem outflow_begin (l : Link) (d : StreamId → Bytes) (job : Job) :
    (l.step (.begin job)).outflow d = { l.outflow d with
      posts := Function.update (l.outflow d).posts l.calls.length (some (job, .fresh)) } := by
  have hposts : ((l.step (.begin job)).outflow d).posts =
      Function.update (l.outflow d).posts l.calls.length (some (job, .fresh)) := by
    funext id
    simp only [outflow, step, Function.update_apply, List.getElem?_append]
    rcases Nat.lt_trichotomy id l.calls.length with hlt | rfl | hgt
    · simp [hlt, Nat.ne_of_lt hlt]
    · simp
    · have hnew : ([{ job }] : List Call)[id - l.calls.length]? = none :=
        List.getElem?_eq_none (Nat.sub_pos_of_lt hgt)
      simp [Nat.ne_of_gt hgt, Nat.not_lt_of_gt hgt, hnew]
  exact Outflow.ext rfl rfl rfl rfl rfl rfl hposts

theorem outflow_cancel (l : Link) (d : StreamId → Bytes) (call : CallId) :
    (l.step (.cancel call)).outflow d = l.outflow d := by
  refine Outflow.ext rfl rfl rfl rfl rfl rfl (funext fun id => ?_)
  simp only [outflow, step, List.getElem?_modify]
  cases l.calls[id]? with
  | none => rfl
  | some c =>
    simp only [Option.map_some]
    split_ifs <;> rfl

theorem outflow_pollOpening (l : Link) (d : StreamId → Bytes) :
    l.pollOpening.outflow d = l.outflow d := by
  rw [pollOpening, reconnect]
  split_ifs <;> rfl

/-- A connection that is made holds nothing. -/
theorem outflow_establish (l : Link) (d : StreamId → Bytes) (index : Nat) :
    (l.establish index).outflow d = l.outflow d := by
  refine outflow_congr rfl (fun stream => congrArg Stream.port ?_) rfl rfl
  show (l.streams ++ [({} : Stream)])[stream]?.getD {} = l.streamAt stream
  rcases Nat.lt_or_ge stream l.streams.length with hlt | hge
  · rw [List.getElem?_append_left hlt, streamAt]
  · rw [List.getElem?_append_right hge, streamAt, List.getElem?_eq_none hge]
    cases stream - l.streams.length <;> rfl

theorem outflow_pollEpisode (l : Link) (d : StreamId → Bytes) (index : Nat) (dial : Dial)
    (ioFirst : Bool) : (l.pollEpisode index dial ioFirst).outflow d = l.outflow d := by
  rw [pollEpisode]
  cases l.episodes[index]? with
  | none => rfl
  | some episode =>
    obtain ⟨cause, phase⟩ := episode
    cases phase with
    | dialing number wait =>
      dsimp only
      split_ifs
      · rfl
      · cases dial with
        | established => exact outflow_establish l d index
        | _ => rfl
    | spawned =>
      dsimp only [attempt]
      split_ifs <;> rfl
    | waiting number wait deadline =>
      dsimp only [attempt]
      split_ifs <;> rfl
    | _ => rfl

/-- The bytes that the far side takes from a connection in an event. -/
def drainedBy (l : Link) (event : Event) (stream : StreamId) : Bytes :=
  match event with
  | .drain target n => if target = stream then (l.streamAt stream).outgoing.take n else []
  | _ => []

theorem moves_abort (l : Link) (d : StreamId → Bytes) (stream : StreamId) :
    Moves (l.outflow d) ((l.step (.abort stream)).outflow d) := by
  by_cases hmade : stream < l.streams.length
  · have hafter : (l.step (.abort stream)).outflow d = { l.outflow d with
        aborted := Function.update (l.outflow d).aborted stream true } := by
      rw [step, outflow_modifyStream hmade]
      exact Outflow.ext rfl rfl (Function.update_eq_self ..) (Function.update_eq_self ..)
        rfl rfl rfl
    exact hafter ▸ .single (.abort _ stream)
  · rw [step, modifyStream_none (List.getElem?_eq_none (Nat.le_of_not_lt hmade))]

theorem moves_drain (l : Link) (d : StreamId → Bytes) (stream : StreamId) (n : Nat) :
    Moves (l.outflow d) ((l.step (.drain stream n)).outflow fun target =>
      d target ++ l.drainedBy (.drain stream n) target) := by
  have hdrained : (fun target => d target ++ l.drainedBy (.drain stream n) target) =
      Function.update d stream (d stream ++ (l.streamAt stream).outgoing.take n) := by
    funext target
    rw [drainedBy, Function.update_apply]
    split_ifs <;> simp_all
  rw [hdrained]
  by_cases hmade : stream < l.streams.length
  · have hafter : ∀ d', (l.step (.drain stream n)).outflow d' = { l.outflow d with
        outgoing := Function.update (l.outflow d).outgoing stream
          ((l.outflow d).outgoing stream |>.drop n)
        drained := d' } := by
      intro d'
      rw [step, outflow_modifyStream hmade]
      exact Outflow.ext rfl (Function.update_eq_self ..) rfl (Function.update_eq_self ..)
        rfl rfl rfl
    rw [hafter]
    exact .single (.drain _ stream n)
  · have hnone : l.streams[stream]? = none := List.getElem?_eq_none (Nat.le_of_not_lt hmade)
    rw [step, modifyStream_none hnone]
    simp only [streamAt, hnone, Option.getD_none, List.take_nil, List.append_nil,
      Function.update_eq_self]
    exact .refl

/-- Whatever happens but that the far side takes bytes is a course of moves. -/
theorem moves_step_of_not_drain (h : l.Sound) (hposted : (l.outflow d).Posted) {event : Event}
    (hevent : ∀ stream n, event ≠ .drain stream n) :
    Moves (l.outflow d) ((l.step event).outflow d) := by
  cases event with
  | begin job =>
    have hnone : l.calls[l.calls.length]? = none := List.getElem?_eq_none (Nat.le_refl _)
    rw [outflow_begin]
    exact .single (.begin job (congrArg (Option.map fun c : Call => (c.job, c.stage)) hnone))
  | cancel call => rw [outflow_cancel]
  | drop call => exact moves_drop_outflow l d call
  | poll call ioFirst => exact moves_poll_outflow h hposted call ioFirst
  | pollOpening => rw [step, outflow_pollOpening]
  | pollEpisode index dial ioFirst => rw [step, outflow_pollEpisode]
  | arrive stream bytes =>
    rw [step, outflow_modifyStream_self]
    rw [Stream.arrive]
    split_ifs <;> rfl
  | finish stream =>
    rw [step, outflow_modifyStream_self]
    rfl
  | abort stream => exact moves_abort l d stream
  | flush stream =>
    rw [step, outflow_modifyStream_self]
    rw [Stream.flush]
    split_ifs <;> rfl
  | drain stream n => exact absurd rfl (hevent stream n)
  | elapse nanos => exact .refl
  | release => exact .single (.dispose _)

/-- Every event is a course of moves. -/
theorem moves_step_outflow (h : l.Sound) (hposted : (l.outflow d).Posted) (event : Event) :
    Moves (l.outflow d)
      ((l.step event).outflow fun stream => d stream ++ l.drainedBy event stream) := by
  cases event with
  | drain stream n => exact moves_drain l d stream n
  | _ =>
    simp only [drainedBy, List.append_nil]
    exact moves_step_of_not_drain h hposted nofun

end Link

end BrokerWire
