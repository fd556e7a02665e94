import BrokerWire.Proofs.Link.Running

/-!
# How calls end

A call that is advanced waits on, succeeds, is refused, ends with the loss of a connection, or gives
up the link. `Outcome` lists these together with what each makes of the connection in use, and
`ends_poll` says that there is nothing else: a call finds a connection whenever it may use one, and
the only connection that it gives up is the one at which it stops (`Link.Way`). For a read that
still takes from a connection that has been replaced, that is another connection than the one it
takes from.
-/

namespace BrokerWire

/-- Failures in which the loss of a connection comes to light. -/
def WireError.isLoss : WireError → Bool
  | .io _ | .serverDisconnected _ | .protocol _ => true
  | _ => false

namespace Link

/-- The connection that a call at this stage stands by. -/
def Stage.stream? : Stage → Option StreamId
  | .filling _ _ source => source
  | .lining stream => some stream
  | .sending stream _ => some stream
  | _ => none

/-- The way of a call at this stage. -/
def Stage.way (l : Link) : Stage → Way
  | .filling _ _ source => l.way source
  | .lining stream => ⟨none, some stream⟩
  | .sending stream _ => ⟨none, some stream⟩
  | _ => ⟨none, l.current⟩

/-- The way of a call if it is advanced. -/
def wayOf (l : Link) (call : CallId) : Way :=
  (l.calls[call]?).elim ⟨none, l.current⟩ fun c => c.stage.way l

/-- The connection at which a call stops if it is advanced: the one that it stands by, or else the
one that calls may use. -/
def reached (l : Link) (call : CallId) : Option StreamId := (l.wayOf call).stop

/-- The connection that a call stands by, or else the one that calls may use. -/
def facing (l : Link) (call : CallId) : Option StreamId :=
  (l.calls[call]?.bind fun c => c.stage.stream?).or l.current

/-- Whether a call that is advanced takes bytes from a connection that is not in use. It waits on
one that has been replaced or is about to be, and there are bytes unread. -/
def isLate (l : Link) (call : CallId) : Bool := (l.wayOf call).stray.isSome

/-- Whether it is a call's turn to read if it asks for it. -/
def HasTurn (l : Link) (call : CallId) : Prop := (l.readers.join call).holder = some call

instance (l : Link) (call : CallId) : Decidable (l.HasTurn call) :=
  inferInstanceAs (Decidable (_ = _))

/-- What has been taken in addition the call has taken on its way: in passing, or from the
connection in use at which it stops. -/
def TakesOnly (l l' : Link) (call : CallId) (way : Way) : Prop :=
  ∃ new, l'.takes = new ++ l.takes ∧ ∀ t ∈ new, t.call = call ∧
    (way.stray = some t.stream ∨ l.conn.InUse t.stream ∧ way.stop = some t.stream)

theorem TakesOnly.of_eq {l l' : Link} {call : CallId} {way : Way} (h : l'.takes = l.takes) :
    l.TakesOnly l' call way :=
  ⟨[], h, fun _ ht => nomatch ht⟩

/-- What a call keeps of a link while it goes on: all but what the connections hold, whose turn it
is, and the record of what it has taken and put. -/
structure Keeps (l l' : Link) (call : CallId) (way : Way) : Prop where
  conn : l'.conn = l.conn
  calls : l'.calls = l.calls
  endpoint : l'.endpoint = l.endpoint
  announcements : l'.announcements = l.announcements
  turn : l'.HasTurn call ↔ l.HasTurn call
  takes : l.TakesOnly l' call way

/-- What advancing a call can come to: the stage at which it stands then, and the connection in use
then. -/
inductive Outcome (l : Link) (call : CallId) (way : Way) : Stage → Conn → Prop where
  /-- It waits for its turn to read. -/
  | queued (hturn : ¬l.HasTurn call) : Outcome l call way .queued l.conn
  /-- It has its turn and waits for bytes. -/
  | filling (part : Part) (f : Filling) : Outcome l call way (.filling part f way.stop) l.conn
  /-- It waits for a connection to write to. -/
  | offering : Outcome l call way .offering l.conn
  /-- It waits for its turn to write. -/
  | lining {stream : StreamId} (hstop : way.stop = some stream) :
    Outcome l call way (.lining stream) l.conn
  /-- It waits until it can write more. -/
  | sending {stream : StreamId} (rest : Bytes) (hstop : way.stop = some stream) :
    Outcome l call way (.sending stream rest) l.conn
  /-- It succeeds. -/
  | succeeds (bytes : Bytes) : Outcome l call way (.done (.ok bytes)) l.conn
  /-- It is withdrawn, or the link has been given up. -/
  | refused (hrefused : l.disposed ∨ l.isCancelled call) :
    Outcome l call way (.done (.error l.refusal)) l.conn
  /-- It finds that a connection is lost, and gives up the one at which it stops. -/
  | loses {e : WireError} (hdisposed : l.disposed = false) (hloss : e.isLoss)
    (hfound : way.stop.isSome ∨ way.stray.isSome) :
    Outcome l call way (.done (.error e)) (l.conn.forsake way.stop)
  /-- It gives up the link. -/
  | givesUp {stage : Stage} {slot : Option StreamId} (hstage : stage = .done (.ok []) ∨
      ∃ task deadline, stage = .winding task deadline) (hslot : slot = l.slot ∨ slot = none) :
    Outcome l call way stage { l.conn with disposed := true, slot }

/-- Advancing a call has come to an outcome, and has changed nothing else of note. -/
structure Ends (l : Link) (call : CallId) (way : Way) (l' : Link) : Prop where
  outcome : ∃ stage, l'.calls = (l.setStage call stage).calls ∧ Outcome l call way stage l'.conn
  announcements : l'.announcements = l.announcements
  takes : l.TakesOnly l' call way

/-- A way that stops where another does, and is the rest of it. -/
structure Way.Ends (way whole : Way) : Prop where
  stop : way.stop = whole.stop
  stray : ∀ stream, way.stray = some stream → whole.stray = some stream

theorem Way.Ends.refl (way : Way) : way.Ends way := ⟨rfl, fun _ h => h⟩

variable {l l' l₁ : Link} {call : CallId} {way rest : Way} {source : Option StreamId}
  {stream : StreamId}

/-! ### Where a call stops -/

/-- The one exception to a call's stopping at the connection that it faces is a read that is late.
It stops at the connection that calls may use. -/
theorem reached_eq (l : Link) (call : CallId) :
    l.reached call = if l.isLate call then l.current else l.facing call := by
  rw [reached, isLate, wayOf, facing]
  cases hcall : l.calls[call]? with
  | none => rfl
  | some c =>
    obtain ⟨job, cancelled, stage⟩ := c
    cases stage with
    | filling part f source =>
      cases source with
      | none => rfl
      | some stream =>
        by_cases hunread : l.hasUnread stream <;> by_cases hcurrent : l.current = some stream <;>
          simp [Stage.way, Link.way, Stage.stream?, hunread, hcurrent]
    | _ => rfl

/-- A call that waits on, as a read or on a connection, stands by the one at which it stops. -/
theorem Outcome.stream?_eq {stage : Stage} {c : Conn} (h : Outcome l call way stage c)
    (hwaits : stage.isFilling ∨ stage.stream?.isSome) : stage.stream? = way.stop := by
  cases h with
  | filling part f => rfl
  | lining hstop => exact hstop.symm
  | sending rest hstop => exact hstop.symm
  | givesUp hstage =>
    rcases hstage with rfl | ⟨task, deadline, rfl⟩ <;>
      simp [Stage.isFilling, Stage.stream?] at hwaits
  | _ => simp [Stage.isFilling, Stage.stream?] at hwaits

/-! ### What is kept -/

theorem Keeps.refl (l : Link) (call : CallId) (way : Way) : l.Keeps l call way :=
  ⟨rfl, rfl, rfl, rfl, .rfl, .of_eq rfl⟩

theorem TakesOnly.trans (h₁ : l.TakesOnly l₁ call way) (hconn : l₁.conn = l.conn)
    (hrest : rest.Ends way) (h : l₁.TakesOnly l' call rest) : l.TakesOnly l' call way := by
  obtain ⟨new₁, htakes₁, hown₁⟩ := h₁
  obtain ⟨new, htakes, hown⟩ := h
  refine ⟨new ++ new₁, by rw [htakes, htakes₁, List.append_assoc], fun t ht => ?_⟩
  rcases List.mem_append.mp ht with ht | ht
  · obtain ⟨hcall, hfrom⟩ := hown t ht
    rw [hconn, hrest.stop] at hfrom
    exact ⟨hcall, hfrom.imp_left (hrest.stray t.stream)⟩
  · exact hown₁ t ht

/-- Entries about bytes announce nothing. -/
theorem announcements_record {entry : Entry}
    (hentry : ∀ number instant, entry ≠ .announced number instant) :
    (l.record entry).announcements = l.announcements := by
  cases entry with
  | announced number instant => exact absurd rfl (hentry number instant)
  | took call stream bytes => simp [announcements, record]
  | put call stream bytes => simp [announcements, record]

theorem keeps_modifyStream (l : Link) (call : CallId) (way : Way) (stream : StreamId)
    (g : Stream → Stream) : l.Keeps (l.modifyStream stream g) call way :=
  ⟨conn_modifyStream l stream g, rfl, rfl, rfl, .rfl, .of_eq rfl⟩

theorem keeps_afterTake {s : Stream} (n : Nat)
    (hfrom : way.stray = some stream ∨ l.conn.InUse stream ∧ way.stop = some stream) :
    l.Keeps (l.afterTake call stream s n) call way where
  conn := conn_modifyStream l stream _
  calls := rfl
  endpoint := rfl
  announcements := announcements_record nofun
  turn := .rfl
  takes := ⟨[⟨call, stream, s.incoming.take n⟩], rfl, fun t ht => by
    obtain rfl := List.mem_singleton.mp ht
    exact ⟨rfl, hfrom⟩⟩

theorem keeps_putOn (l : Link) (call : CallId) (way : Way) (stream : StreamId) (bytes : Bytes) :
    l.Keeps (l.putOn call stream bytes).2 call way := by
  rw [putOn]
  cases l.streams[stream]? with
  | none => exact .refl l call way
  | some s =>
    dsimp only
    generalize s.put l.window bytes = result
    obtain ⟨outlet, accepted, s'⟩ := result
    cases accepted with
    | nil => exact .refl l call way
    | cons b rest =>
      refine ⟨conn_modifyStream l stream _, rfl, rfl, announcements_record ?_, .rfl, .of_eq rfl⟩
      intro number instant h
      contradiction

/-- A call that has its turn still has it when it asks again. -/
theorem keeps_join (hturn : l.HasTurn call) (way : Way) :
    l.Keeps { l with readers := l.readers.join call } call way :=
  ⟨rfl, rfl, rfl, rfl, iff_of_true (View.holder_join hturn call) hturn, .of_eq rfl⟩

theorem announcements_reconnect (l : Link) (lost : Option StreamId) :
    (l.reconnect lost).announcements = l.announcements := by
  rw [reconnect]
  split_ifs <;> rfl

theorem takes_lose (l : Link) (stream : StreamId) : (l.lose stream).takes = l.takes := by
  simp only [lose, reconnect]
  split_ifs <;> rfl

theorem Keeps.disposed (h : l.Keeps l₁ call way) : l₁.disposed = l.disposed :=
  congrArg Conn.disposed h.conn

theorem Keeps.isCancelled (h : l.Keeps l₁ call way) :
    l₁.isCancelled call = l.isCancelled call := by
  rw [Link.isCancelled, Link.isCancelled, h.calls]

theorem Keeps.refusal (h : l.Keeps l₁ call way) : l₁.refusal = l.refusal := by
  rw [Link.refusal, Link.refusal, h.disposed, disposedError, disposedError, h.endpoint]

theorem Keeps.current (h : l.Keeps l₁ call way) : l₁.current = l.current := by
  have hgate : l₁.gateOpen = l.gateOpen := congrArg Conn.gateOpen h.conn
  have hslot : l₁.slot = l.slot := congrArg Conn.slot h.conn
  rw [Link.current, Link.current, hgate, hslot]

/-- What the rest of a way comes to after a call has gone on is what its way comes to. -/
theorem Outcome.of_keeps {stage : Stage} {c : Conn} (h : Outcome l₁ call rest stage c)
    (hkeeps : l.Keeps l₁ call way) (hrest : rest.Ends way) : Outcome l call way stage c := by
  cases h with
  | queued hturn => exact hkeeps.conn ▸ .queued (hkeeps.turn.not.mp hturn)
  | filling part f => exact hkeeps.conn ▸ hrest.stop ▸ .filling part f
  | offering => exact hkeeps.conn ▸ .offering
  | lining hstop => exact hkeeps.conn ▸ .lining (hrest.stop ▸ hstop)
  | sending rest hstop => exact hkeeps.conn ▸ .sending rest (hrest.stop ▸ hstop)
  | succeeds bytes => exact hkeeps.conn ▸ .succeeds bytes
  | refused hrefused =>
    rw [hkeeps.conn, hkeeps.refusal]
    exact .refused (by rwa [hkeeps.disposed, hkeeps.isCancelled] at hrefused)
  | loses hdisposed hloss hfound =>
    rw [hkeeps.conn, hrest.stop]
    rw [hrest.stop] at hfound
    refine .loses (hkeeps.disposed ▸ hdisposed) hloss (hfound.imp_right fun hstray => ?_)
    obtain ⟨stream, hstream⟩ := Option.isSome_iff_exists.mp hstray
    exact Option.isSome_iff_exists.mpr ⟨stream, hrest.stray stream hstream⟩
  | givesUp hstage hslot =>
    rw [hkeeps.conn]
    rw [show l₁.slot = l.slot from congrArg Conn.slot hkeeps.conn] at hslot
    exact .givesUp hstage hslot

theorem Ends.of_keeps (h : l₁.Ends call rest l') (hkeeps : l.Keeps l₁ call way)
    (hrest : rest.Ends way) : l.Ends call way l' := by
  obtain ⟨⟨stage, hcalls, houtcome⟩, hannouncements, htakes⟩ := h
  refine ⟨⟨stage, ?_, houtcome.of_keeps hkeeps hrest⟩, hannouncements.trans hkeeps.announcements,
    hkeeps.takes.trans hkeeps.conn hrest htakes⟩
  rw [hcalls, setStage, setStage, hkeeps.calls]

/-- A call that goes on to a stage at which it may stand. -/
theorem ends_setStage {stage : Stage} (h : Outcome l call way stage l.conn) :
    l.Ends call way (l.setStage call stage) :=
  ⟨⟨stage, rfl, h⟩, rfl, .of_eq rfl⟩

theorem ends_endRead {result : Result} (h : Outcome l call way (.done result) l.conn) :
    l.Ends call way (l.endRead call result) :=
  ⟨⟨.done result, rfl, h⟩, rfl, .of_eq rfl⟩

theorem ends_endWrite {result : Result} (stream : StreamId)
    (h : Outcome l call way (.done result) l.conn) :
    l.Ends call way (l.endWrite call stream result) :=
  ⟨⟨.done result, rfl, (conn_modifyStream l stream _).symm ▸ h⟩, rfl, .of_eq rfl⟩

/-! ### Reads -/

/-- What reading on leaves behind. A read that had bytes to take and has them all stops at the
connection that calls may use. -/
def Leaves (l : Link) (call : CallId) (f : Filling) (way : Way) (l' : Link) : Filled → Prop
  | .complete _ => l.Keeps l' call way ∧ (0 < f.missing → l.disposed = false ∧
      way.stop = l.current ∧ (way.stop.isSome ∨ way.stray.isSome))
  | .waiting _ source => l.Keeps l' call way ∧ source = way.stop
  | .failed e => l.Keeps l' call way ∧ (l.disposed ∨ l.isCancelled call) ∧ e = l.refusal ∨
    ∃ l₁ stream, l.Keeps l₁ call way ∧ l' = l₁.lose stream ∧ l.disposed = false ∧ e.isLoss ∧
      way.stop = some stream

section Read

variable {f : Filling}

/-- A round that takes something, and then what the others leave behind. -/
theorem Leaves.of_take {f' : Filling} {filled : Filled} (hkeeps : l.Keeps l₁ call way)
    (hdisposed : l.disposed = false) (hcurrent : way.stop = l.current)
    (hfound : way.stop.isSome ∨ way.stray.isSome) (h : Leaves l₁ call f' (l₁.way none) l' filled) :
    Leaves l call f way l' filled := by
  have hrest : (l₁.way none).Ends way := ⟨hkeeps.current.trans hcurrent.symm, nofun⟩
  have htrans : ∀ l₂, l₁.Keeps l₂ call (l₁.way none) → l.Keeps l₂ call way := fun l₂ h₂ =>
    ⟨h₂.conn.trans hkeeps.conn, h₂.calls.trans hkeeps.calls, h₂.endpoint.trans hkeeps.endpoint,
      h₂.announcements.trans hkeeps.announcements, h₂.turn.trans hkeeps.turn,
      hkeeps.takes.trans hkeeps.conn hrest h₂.takes⟩
  cases filled with
  | complete bytes => exact ⟨htrans l' h.1, fun _ => ⟨hdisposed, hcurrent, hfound⟩⟩
  | waiting f source => exact ⟨htrans l' h.1, h.2.trans hrest.stop⟩
  | failed e =>
    rcases h with ⟨h₂, hrefused, he⟩ | ⟨l₂, stream, h₂, hlost, halive, hloss, hstop⟩
    · rw [hkeeps.disposed, hkeeps.isCancelled] at hrefused
      exact .inl ⟨htrans l' h₂, hrefused, he.trans hkeeps.refusal⟩
    · exact .inr ⟨l₂, stream, htrans l₂ h₂, hlost, hdisposed, hloss, hrest.stop.symm.trans hstop⟩

theorem Fills.leaves {filled : Filled} (h : Fills call l f source l' filled) :
    Leaves l call f (l.way source) l' filled := by
  induction h with
  | full source hmissing => exact ⟨.refl _ call _, fun h => absurd hmissing (Nat.ne_of_gt h)⟩
  | refused source hmissing hrefused => exact .inl ⟨.refl _ call _, hrefused, rfl⟩
  | @unready l f hmissing hgate =>
    exact ⟨.refl l call _, (if_neg (by simp [hgate])).symm⟩
  | find hmissing huse hrest ih =>
    rw [way_of_inUse huse] at ih
    exact ih
  | idle hmissing hdisposed hstream hincoming =>
    rw [way_of_idle hstream hincoming]
    exact ⟨.refl _ call _, rfl⟩
  | lost hmissing hdisposed hstream hincoming herror =>
    rw [way_of_idle hstream hincoming]
    refine .inr ⟨_, _, .refl _ call _, rfl, hdisposed, ?_, rfl⟩
    rcases herror with rfl | rfl <;> rfl
  | @take l l' f stream s filled hmissing hdisposed hstream hsome hrest ih =>
    rw [way_of_unread hstream hsome]
    by_cases hcurrent : l.current = some stream
    · have huse := inUse_of_current hdisposed hcurrent
      exact ih.of_take (keeps_afterTake _ (.inr ⟨huse, hcurrent⟩)) hdisposed rfl
        (.inl (Option.isSome_of_eq_some hcurrent))
    · have hstray : (if l.current = some stream then none else some stream) = some stream :=
        if_neg hcurrent
      exact ih.of_take (keeps_afterTake _ (.inl hstray)) hdisposed rfl
        (.inr (Option.isSome_of_eq_some hstray))

/-- A read that ends with the loss of a connection. -/
theorem ends_endRead_forsake {e : WireError} (hdisposed : l.disposed = false) (hloss : e.isLoss)
    (hfound : way.stop.isSome ∨ way.stray.isSome) {lost : Link} (hcalls : lost.calls = l.calls)
    (hconn : lost.conn = l.conn.forsake way.stop)
    (hannouncements : lost.announcements = l.announcements) (htakes : lost.takes = l.takes) :
    l.Ends call way (lost.endRead call (.error e)) where
  outcome := by
    refine ⟨.done (.error e), ?_, ?_⟩
    · rw [setStage, ← hcalls]
      rfl
    · have hafter : (lost.endRead call (.error e)).conn = l.conn.forsake way.stop := hconn
      exact hafter ▸ .loses hdisposed hloss hfound
  announcements := hannouncements
  takes := .of_eq htakes

theorem ends_failed {e : WireError} (h : Leaves l call f way l' (.failed e)) :
    l.Ends call way (l'.endRead call (.error e)) := by
  rcases h with ⟨hkeeps, hrefused, rfl⟩ | ⟨l₁, stream, hkeeps, rfl, hdisposed, hloss, hstop⟩
  · rw [← hkeeps.disposed, ← hkeeps.isCancelled] at hrefused
    rw [← hkeeps.refusal]
    exact (ends_endRead (.refused hrefused)).of_keeps hkeeps (.refl way)
  · have hconn : (l₁.lose stream).conn = l₁.conn.forsake way.stop := by
      rw [conn_lose, hstop]
      rfl
    exact (ends_endRead_forsake (hkeeps.disposed ▸ hdisposed) hloss
      (.inl (Option.isSome_of_eq_some hstop)) (calls_lose l₁ stream) hconn
      (announcements_reconnect l₁ (some stream)) (takes_lose l₁ stream)).of_keeps hkeeps (.refl way)

theorem ends_waiting {f' : Filling} (part : Part)
    (h : Leaves l call f way l' (.waiting f' source)) :
    l.Ends call way (l'.setStage call (.filling part f' source)) := by
  obtain ⟨hkeeps, rfl⟩ := h
  exact (ends_setStage (.filling part f')).of_keeps hkeeps (.refl way)

variable (hvalid : l.conn.Valid)
include hvalid

/-- The last run of bytes of a read. -/
theorem ends_readLast (hmade : ∀ stream, source = some stream → stream < l.streams.length)
    (call : CallId) (part : Part) (f : Filling) :
    l.Ends call (l.way source) (l.readLast call part f source) := by
  have hleaves := (fills_fill call f hvalid hmade).leaves
  rw [readLast]
  generalize l.fill call f source = result at hleaves
  obtain ⟨l', filled⟩ := result
  cases filled with
  | complete bytes => exact (ends_endRead (.succeeds bytes)).of_keeps hleaves.1 (.refl _)
  | waiting f' source' => exact ends_waiting part hleaves
  | failed e => exact ends_failed hleaves

/-- Giving up what is in the slot is giving up the connection that calls may use. -/
theorem forsake_slot : l.conn.forsake l.slot = l.conn.forsake l.current := by
  rw [current]
  split_ifs with hgate
  · rfl
  · exact hvalid.forsake_of_gateOpen (eq_false_of_ne_true hgate)

/-- Behind the length of a frame. -/
theorem ends_readBody (hdisposed : l.disposed = false) (hstop : way.stop = l.current)
    (hfound : way.stop.isSome ∨ way.stray.isSome) (call : CallId) (length : Int32) :
    l.Ends call way (l.readBody call length) := by
  rw [readBody]
  split_ifs with hlength
  · have hlast : l.Ends call (l.way none) (l.readLast call .body ⟨[], length.toNatClampNeg⟩ none) :=
      ends_readLast hvalid (by simp) call .body _
    exact hlast.of_keeps (.refl l call way) ⟨hstop.symm, fun _ hstray => by contradiction⟩
  · have hforsake : l.conn.forsake l.slot = l.conn.forsake way.stop := hstop ▸ forsake_slot hvalid
    cases hslot : l.slot with
    | none =>
      rw [hslot] at hforsake
      exact ends_endRead_forsake hdisposed rfl hfound rfl hforsake rfl rfl
    | some stream =>
      rw [hslot] at hforsake
      exact ends_endRead_forsake hdisposed rfl hfound (calls_lose l stream)
        ((conn_lose l stream).trans hforsake) (announcements_reconnect l (some stream))
        (takes_lose l stream)

/-- A read that has its turn. -/
theorem ends_readOn (hmade : ∀ stream, source = some stream → stream < l.streams.length)
    (call : CallId) (part : Part) (f : Filling) (hmissing : part = .length → 0 < f.missing) :
    l.Ends call (l.way source) (l.readOn call part f source) := by
  by_cases hpart : part = .length
  · subst hpart
    have hleaves := (fills_fill call f hvalid hmade).leaves
    rw [readOn]
    generalize l.fill call f source = result at hleaves
    obtain ⟨l', filled⟩ := result
    cases filled with
    | complete bytes =>
      -- the body comes from the connection that calls may use now
      obtain ⟨hkeeps, hmore⟩ := hleaves
      obtain ⟨hdisposed, hstop, hfound⟩ := hmore (hmissing rfl)
      rw [← hkeeps.disposed] at hdisposed
      rw [← hkeeps.current] at hstop
      rw [← hkeeps.conn] at hvalid
      exact (ends_readBody hvalid hdisposed hstop hfound call _).of_keeps hkeeps (.refl _)
    | waiting f' source' => exact ends_waiting .length hleaves
    | failed e => exact ends_failed hleaves
  · have hlast : l.readOn call part f source = l.readLast call part f source := by
      cases part with
      | length => contradiction
      | _ => rfl
    rw [hlast]
    exact ends_readLast hvalid hmade call part f

/-- A read that waits for its turn. -/
theorem ends_enterRead (call : CallId) (part : Part) (size : Nat)
    (hsize : part = .length → 0 < size) :
    l.Ends call (l.way none) (l.enterRead call part size) := by
  rw [enterRead]
  dsimp only
  split_ifs with hdisposed hcancelled hturn
  · have hrefusal : l.refusal = l.disposedError := if_pos hdisposed
    exact hrefusal ▸ ends_endRead (.refused (.inl hdisposed))
  · have hrefusal : l.refusal = .cancelled := if_neg hdisposed
    exact hrefusal ▸ ends_endRead (.refused (.inr hcancelled))
  · have hkeeps := keeps_join hturn (l.way none)
    rw [← hkeeps.conn] at hvalid
    exact (ends_readOn hvalid (by simp) call part ⟨[], size⟩ hsize).of_keeps hkeeps
      (.refl (l.way none))
  · exact ⟨⟨.queued, rfl, .queued hturn⟩, rfl, .of_eq rfl⟩

end Read

/-! ### Writes -/

theorem refusal_of_disposed (hdisposed : l.disposed) : l.refusal = l.disposedError :=
  if_pos hdisposed

/-- A write that has its turn sends on. -/
theorem ends_send (call : CallId) (stream : StreamId) (rest : Bytes) (ioFirst : Bool) :
    l.Ends call ⟨none, some stream⟩ (l.send call stream rest ioFirst) := by
  rw [send]
  split_ifs with hdisposed
  · exact refusal_of_disposed hdisposed.1 ▸ ends_endWrite stream (.refused (.inl hdisposed.1))
  have hkeeps := keeps_putOn l call ⟨none, some stream⟩ stream rest
  generalize l.putOn call stream rest = result at hkeeps
  obtain ⟨outlet, l'⟩ := result
  dsimp only at hkeeps
  have hgone : l'.disposed → l'.Ends call ⟨none, some stream⟩
      (l'.endWrite call stream (.error l'.disposedError)) := fun h =>
    refusal_of_disposed h ▸ ends_endWrite stream (.refused (.inl h))
  refine Ends.of_keeps ?_ hkeeps (.refl _)
  cases outlet with
  | complete => exact ends_endWrite stream (.succeeds [])
  | partly rest =>
    dsimp only
    split_ifs with hdisposed
    · exact hgone hdisposed
    · exact ends_setStage (.sending rest rfl)
  | aborted =>
    dsimp only
    split_ifs with hdisposed
    · -- on a link that has been given up the loss goes unnoticed
      have hsame : (l'.endWrite call stream (.error l'.disposedError)).lose stream =
          l'.endWrite call stream (.error l'.disposedError) := if_pos hdisposed
      rw [hsame]
      exact hgone hdisposed
    · have halive : l'.disposed = false := eq_false_of_ne_true hdisposed
      refine ⟨⟨.done (.error brokenError), calls_lose _ stream, ?_⟩,
        announcements_reconnect _ (some stream), .of_eq (takes_lose _ stream)⟩
      have hconn : (l'.endWrite call stream (.error brokenError)).conn = l'.conn :=
        conn_modifyStream l' stream _
      rw [conn_lose, hconn]
      exact Outcome.loses halive rfl (.inl rfl)

/-- A write that waits for its turn on a connection. -/
theorem ends_lineUp (hmade : stream < l.streams.length) (call : CallId) (frame : Bytes)
    (ioFirst : Bool) :
    l.Ends call ⟨none, some stream⟩ (l.lineUp call stream frame ioFirst) := by
  rw [lineUp]
  dsimp only
  split_ifs with hdisposed hcancelled
  · exact refusal_of_disposed hdisposed ▸ ends_endWrite stream (.refused (.inl hdisposed))
  · have hrefusal : l.refusal = .cancelled := if_neg hdisposed
    exact hrefusal ▸ ends_endWrite stream (.refused (.inr hcancelled))
  have hkeeps := keeps_modifyStream l call ⟨none, some stream⟩ stream
    fun s => { s with writers := s.writers.join call }
  have hsome : ∃ s, (l.modifyStream stream fun s =>
      { s with writers := s.writers.join call }).streams[stream]? = some s := by
    simp [modifyStream, hmade]
  generalize (l.modifyStream stream fun s => { s with writers := s.writers.join call }) = l'
    at hkeeps hsome
  obtain ⟨s, hs⟩ := hsome
  rw [hs]
  dsimp only
  refine Ends.of_keeps ?_ hkeeps (.refl _)
  split_ifs
  · exact ends_send call stream frame ioFirst
  · exact ends_setStage (.lining rfl)

/-- A write that waits for a connection. -/
theorem ends_enterWrite (hvalid : l.conn.Valid) (call : CallId) (frame : Bytes) (ioFirst : Bool) :
    l.Ends call ⟨none, l.current⟩ (l.enterWrite call frame ioFirst) := by
  rw [enterWrite]
  split_ifs with hdisposed hcancelled hgate
  · exact refusal_of_disposed hdisposed ▸ ends_setStage (.refused (.inl hdisposed))
  · have hrefusal : l.refusal = .cancelled := if_neg hdisposed
    exact hrefusal ▸ ends_setStage (.refused (.inr hcancelled))
  · rw [current, if_pos hgate]
    cases hslot : l.slot with
    | none => exact absurd (hvalid.usable hgate hslot) hdisposed
    | some stream => exact ends_lineUp (hvalid.made stream hslot) call frame ioFirst
  · exact ends_setStage .offering

/-! ### Disposing -/

/-- A link that has just been given up, or had been before. -/
structure GivenUp (l l₁ : Link) : Prop where
  conn : l₁.conn = { l.conn with disposed := true }
  calls : l₁.calls = l.calls
  announcements : l₁.announcements = l.announcements
  takes : l₁.takes = l.takes

theorem GivenUp.refl (hdisposed : l.disposed) : l.GivenUp l :=
  ⟨by simp [Link.conn, hdisposed], rfl, rfl, rfl⟩

theorem GivenUp.ends {stage : Stage} {slot : Option StreamId} (h : l.GivenUp l₁)
    (hstage : stage = .done (.ok []) ∨ ∃ task deadline, stage = .winding task deadline)
    (hslot : slot = l.slot ∨ slot = none) (call : CallId) (way : Way) :
    l.Ends call way (({ l₁ with slot } : Link).setStage call stage) where
  outcome := by
    refine ⟨stage, by rw [setStage, setStage, h.calls], ?_⟩
    have hconn : (({ l₁ with slot } : Link).setStage call stage).conn =
        { l.conn with disposed := true, slot } :=
      congrArg (fun c : Conn => { c with slot }) h.conn
    exact hconn ▸ .givesUp hstage hslot
  announcements := h.announcements
  takes := .of_eq h.takes

theorem GivenUp.windDown (h : l.GivenUp l₁) (call : CallId) (way : Way)
    (task : Task) (deadline : Nat) : l.Ends call way (l₁.windDown call task deadline) := by
  rw [Link.windDown]
  split_ifs
  · exact h.ends (.inl rfl) (.inr rfl) call way
  · exact h.ends (.inr ⟨task, deadline, rfl⟩) (.inl (congrArg Conn.slot h.conn)) call way

theorem ends_enterDispose (l : Link) (call : CallId) (way : Way) :
    l.Ends call way (l.enterDispose call) := by
  rw [enterDispose]
  dsimp only
  split_ifs
  · exact ⟨⟨.done (.ok []), rfl, .succeeds []⟩, rfl, .of_eq rfl⟩
  · have hgone : l.GivenUp
        { l with disposals := l.disposals + 1, disposed := true, tracked := none } :=
      ⟨rfl, rfl, rfl, rfl⟩
    cases l.tracked with
    | none => exact hgone.ends (.inl rfl) (.inr rfl) call way
    | some task => exact hgone.windDown call way task _

/-! ### Calls -/

/-- The connections that calls stand by have been made. -/
def Held (l : Link) : Prop :=
  ∀ (call : CallId) (c : Call) stream, l.calls[call]? = some c → c.stage.stream? = some stream →
    stream < l.streams.length

section Call

variable {c : Call} {D : StreamId → Bytes} {R : StreamId → List Bytes}

/-- A call that cannot go on. -/
theorem ends_stay (hcall : l.calls[call]? = some c) (h : Outcome l call way c.stage l.conn) :
    l.Ends call way l := by
  have hself : (l.setStage call c.stage).calls = l.calls :=
    congrArg View.calls (View.setStage_self (v := l.view (fun _ => []) fun _ => []) hcall)
  exact ⟨⟨c.stage, hself.symm, h⟩, rfl, .of_eq rfl⟩

/-- A call that is not over is advanced. -/
theorem ends_poll (hok : (l.view D R).Ok) (hsettled : l.IsSettled call) (hheld : l.Held)
    (hcall : l.calls[call]? = some c) (hopen : c.stage.isOpen) (ioFirst : Bool) :
    l.Ends call (l.wayOf call) (l.poll call ioFirst) := by
  have hown := hok.call call c hcall
  have hheld := hheld call c
  have hvalid : l.conn.Valid := hok.conn
  rw [wayOf, poll, hcall]
  obtain ⟨job, cancelled, stage⟩ := c
  dsimp only [Option.elim_some]
  cases stage with
  | fresh =>
    cases job with
    | read n => exact ends_enterRead hvalid call .whole n fun h => by contradiction
    | readFrame => exact ends_enterRead hvalid call .length lengthSize fun _ => Nat.zero_lt_succ _
    | write frame => exact ends_enterWrite hvalid call frame ioFirst
    | dispose => exact ends_enterDispose l call _
  | queued =>
    cases job with
    | read n => exact ends_enterRead hvalid call .whole n fun h => by contradiction
    | readFrame => exact ends_enterRead hvalid call .length lengthSize fun _ => Nat.zero_lt_succ _
    | write frame => cases hown.1
    | dispose => cases hown.1
  | filling part f source =>
    have hread := ends_readOn hvalid (fun stream hsource => (hown.2.1 stream hsource).1) call part f
      fun _ => hsettled _ part f source hcall rfl
    cases job <;> exact hread
  | offering =>
    cases job with
    | write frame => exact ends_enterWrite hvalid call frame ioFirst
    | _ => exact ends_stay hcall .offering
  | lining stream =>
    cases job with
    | write frame => exact ends_lineUp (hheld stream hcall rfl) call frame ioFirst
    | _ => exact ends_stay hcall (.lining rfl)
  | sending stream rest => cases job <;> exact ends_send call stream rest ioFirst
  | winding task deadline =>
    have hgone : l.GivenUp l := .refl hown.2.1
    cases job <;> exact hgone.windDown call _ task deadline
  | done result => cases hopen
  | dropped => cases hopen

end Call

end Link

end BrokerWire
