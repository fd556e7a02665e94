import BrokerWire.Proofs.Link.Connecting

/-!
# How far a read gets

`Link.fill` reads on in rounds. `Fills` lists what the rounds can come to, without counting them,
and `fills_fill` says that there are always enough. A round that takes bytes is followed by one that
looks for a connection anew: if the bytes came from the connection in use, that one is found again,
but if they came from one that has been replaced, the read goes on with another (`Link.way`).
-/

namespace BrokerWire

namespace Link

/-- The link after a call took up to `n` bytes from a connection. -/
def afterTake (l : Link) (call : CallId) (stream : StreamId) (s : Stream) (n : Nat) : Link :=
  (l.modifyStream stream fun _ => { s with incoming := s.incoming.drop n }).record
    (.took call stream (s.incoming.take n))

/-- The failure of a call on a link that has been given up, or of a call that is withdrawn. -/
def refusal (l : Link) : WireError := if l.disposed then l.disposedError else .cancelled

/-- What reading on can come to: the link it leaves, and how far it gets. -/
inductive Fills (call : CallId) : Link → Filling → Option StreamId → Link → Filled → Prop where
  /-- Nothing is missing. -/
  | full {l : Link} {f : Filling} (source : Option StreamId) (hmissing : f.missing = 0) :
    Fills call l f source l (.complete f.got)
  /-- The read may not go on. -/
  | refused {l : Link} {f : Filling} (source : Option StreamId) (hmissing : 0 < f.missing)
    (hrefused : l.disposed ∨ l.isCancelled call) : Fills call l f source l (.failed l.refusal)
  /-- There is no connection. -/
  | unready {l : Link} {f : Filling} (hmissing : 0 < f.missing) (hgate : l.gateOpen = false) :
    Fills call l f none l (.waiting f none)
  /-- The read finds the connection in use. -/
  | find {l l' : Link} {f : Filling} {stream : StreamId} {filled : Filled}
    (hmissing : 0 < f.missing) (huse : l.conn.InUse stream)
    (hrest : Fills call l f (some stream) l' filled) : Fills call l f none l' filled
  /-- Nothing has arrived on the connection. -/
  | idle {l : Link} {f : Filling} {stream : StreamId} {s : Stream} (hmissing : 0 < f.missing)
    (hdisposed : l.disposed = false) (hstream : l.streams[stream]? = some s)
    (hincoming : s.incoming = []) : Fills call l f (some stream) l (.waiting f (some stream))
  /-- The connection is lost. -/
  | lost {l : Link} {f : Filling} {stream : StreamId} {s : Stream} {e : WireError}
    (hmissing : 0 < f.missing) (hdisposed : l.disposed = false)
    (hstream : l.streams[stream]? = some s) (hincoming : s.incoming = [])
    (herror : e = brokenError ∨ e = .serverDisconnected l.endpoint) :
    Fills call l f (some stream) (l.lose stream) (.failed e)
  /-- The read takes what has arrived, as far as it is missing. -/
  | take {l l' : Link} {f : Filling} {stream : StreamId} {s : Stream} {filled : Filled}
    (hmissing : 0 < f.missing) (hdisposed : l.disposed = false)
    (hstream : l.streams[stream]? = some s) (hsome : s.incoming ≠ [])
    (hrest : Fills call (l.afterTake call stream s f.missing)
      ⟨f.got ++ s.incoming.take f.missing, f.missing - (s.incoming.take f.missing).length⟩ none
      l' filled) : Fills call l f (some stream) l' filled

variable {l : Link} {call : CallId} {f : Filling} {stream : StreamId} {s : Stream}

/-! ### Rounds -/

theorem gather_full (rounds : Nat) (source : Option StreamId) (hmissing : f.missing = 0) :
    gather (rounds + 1) l call f source = (l, .complete f.got) := by
  cases source <;> rw [gather, if_pos hmissing]

theorem gather_refused (rounds : Nat) (source : Option StreamId) (hmissing : 0 < f.missing)
    (hrefused : l.disposed ∨ l.isCancelled call) :
    gather (rounds + 1) l call f source = (l, .failed l.refusal) := by
  have hmissing := Nat.ne_of_gt hmissing
  by_cases hdisposed : l.disposed
  · cases source <;> rw [gather, if_neg hmissing, if_pos hdisposed, refusal, if_pos hdisposed]
  · have hcancelled := hrefused.resolve_left hdisposed
    cases source <;>
      rw [gather, if_neg hmissing, if_neg hdisposed, if_pos hcancelled, refusal, if_neg hdisposed]

/-- A round that finds the connection to read from. -/
theorem gather_none (rounds : Nat) (hmissing : 0 < f.missing) (hdisposed : l.disposed = false)
    (hcancelled : l.isCancelled call = false) (hgate : l.gateOpen) (hslot : l.slot = some stream) :
    gather (rounds + 1) l call f none = gather rounds l call f (some stream) := by
  rw [gather, if_neg (Nat.ne_of_gt hmissing), if_neg (by simp [hdisposed]),
    if_neg (by simp [hcancelled])]
  simp only [hgate, if_true, hslot]

/-- A round that reads. -/
theorem gather_some (rounds : Nat) (hmissing : 0 < f.missing) (hdisposed : l.disposed = false)
    (hcancelled : l.isCancelled call = false) :
    gather (rounds + 1) l call f (some stream) =
      match l.takeFrom call stream f.missing with
      | (.bytes chunk, l) =>
        gather rounds l call ⟨f.got ++ chunk, f.missing - chunk.length⟩ none
      | (.nothing, l) => (l, .waiting f (some stream))
      | (.ended, l) => (l, .failed (.serverDisconnected l.endpoint))
      | (.aborted, l) => (l, .failed brokenError) := by
  rewrite [gather, if_neg (Nat.ne_of_gt hmissing), if_neg (by simp [hdisposed]),
    if_neg (by simp [hcancelled])]
  rfl

/-- What a read takes is all that has arrived or all that is missing. -/
theorem takeFrom_bytes (hstream : l.streams[stream]? = some s) (hsome : s.incoming ≠ [])
    (hmissing : 0 < f.missing) :
    l.takeFrom call stream f.missing =
      (.bytes (s.incoming.take f.missing), l.afterTake call stream s f.missing) := by
  simp [takeFrom, hstream, Stream.take, hsome, hmissing, afterTake]

theorem streams_afterTake (call : CallId) (hstream : l.streams[stream]? = some s) (n : Nat) :
    (l.afterTake call stream s n).streams[stream]? =
      some { s with incoming := s.incoming.drop n } := by
  simp [afterTake, record, modifyStream, hstream]

theorem endpoint_lose (l : Link) (stream : StreamId) : (l.lose stream).endpoint = l.endpoint := by
  simp only [lose, reconnect]
  split_ifs <;> rfl

/-- What comes of a connection on which nothing is unread. -/
theorem gather_empty (rounds : Nat) (hmissing : 0 < f.missing) (hdisposed : l.disposed = false)
    (hcancelled : l.isCancelled call = false) (hstream : l.streams[stream]? = some s)
    (hincoming : s.incoming = []) :
    gather (rounds + 1) l call f (some stream) =
      if s.ended then (l.lose stream, .failed (.serverDisconnected l.endpoint))
      else if s.aborted then (l.lose stream, .failed brokenError)
      else (l, .waiting f (some stream)) := by
  rw [gather_some _ hmissing hdisposed hcancelled, takeFrom, hstream]
  by_cases hended : s.ended
  · simp [Stream.take, hincoming, hended, endpoint_lose]
  · by_cases haborted : s.aborted
    · simp [Stream.take, hincoming, hended, haborted]
    · simp [Stream.take, hincoming, hended, haborted]

/-- A round that takes what has arrived. -/
theorem gather_bytes (rounds : Nat) (hmissing : 0 < f.missing) (hdisposed : l.disposed = false)
    (hcancelled : l.isCancelled call = false) (hstream : l.streams[stream]? = some s)
    (hsome : s.incoming ≠ []) :
    gather (rounds + 1) l call f (some stream) =
      gather rounds (l.afterTake call stream s f.missing) call
        ⟨f.got ++ s.incoming.take f.missing,
          f.missing - (s.incoming.take f.missing).length⟩ none := by
  rw [gather_some _ hmissing hdisposed hcancelled, takeFrom_bytes hstream hsome hmissing]

/-- A round that finds no connection. -/
theorem gather_unready (rounds : Nat) (hmissing : 0 < f.missing) (hdisposed : l.disposed = false)
    (hcancelled : l.isCancelled call = false) (hgate : l.gateOpen = false) :
    gather (rounds + 1) l call f none = (l, .waiting f none) := by
  rw [gather, if_neg (Nat.ne_of_gt hmissing), if_neg (by simp [hdisposed]),
    if_neg (by simp [hcancelled]), if_neg (by simp [hgate])]

theorem conn_modifyStream (l : Link) (stream : StreamId) (g : Stream → Stream) :
    (l.modifyStream stream g).conn = l.conn := by
  simp [conn, modifyStream]

theorem conn_afterTake (l : Link) (call : CallId) (stream : StreamId) (s : Stream) (n : Nat) :
    (l.afterTake call stream s n).conn = l.conn :=
  conn_modifyStream l stream _

/-- A round for the connection, and two for each byte that is missing: one to look for the
connection and one to take the byte. -/
theorem fills_gather {rounds : Nat} {source : Option StreamId} (hvalid : l.conn.Valid)
    (hmade : ∀ stream, source = some stream → stream < l.streams.length)
    (hrounds : 2 * f.missing + (if source = none then 2 else 1) ≤ rounds) :
    Fills call l f source (gather rounds l call f source).1 (gather rounds l call f source).2 := by
  induction rounds generalizing l f source with
  | zero => split_ifs at hrounds <;> omega
  | succ rounds ih =>
    by_cases hfull : f.missing = 0
    · rw [gather_full _ _ hfull]
      exact .full _ hfull
    have hmissing := Nat.pos_of_ne_zero hfull
    by_cases hrefused : l.disposed ∨ l.isCancelled call
    · rw [gather_refused _ _ hmissing hrefused]
      exact .refused _ hmissing hrefused
    obtain ⟨hdisposed, hcancelled⟩ : l.disposed = false ∧ l.isCancelled call = false := by
      simpa using hrefused
    cases source with
    | none =>
      cases hgate : l.gateOpen with
      | false =>
        rw [gather_unready _ hmissing hdisposed hcancelled hgate]
        exact .unready hmissing hgate
      | true =>
        -- where the gate is open there is a connection
        obtain ⟨stream, hslot⟩ : ∃ stream, l.slot = some stream :=
          Option.ne_none_iff_exists'.mp fun hslot =>
            nomatch hdisposed.symm.trans (hvalid.usable hgate hslot)
        rw [gather_none _ hmissing hdisposed hcancelled hgate hslot]
        refine .find hmissing ⟨hdisposed, hgate, hslot⟩ (ih hvalid (fun stream' hsource => ?_) ?_)
        · exact hvalid.made stream' (hslot.trans hsource)
        · simpa using hrounds
    | some stream =>
      obtain ⟨s, hstream⟩ : ∃ s, l.streams[stream]? = some s :=
        ⟨_, List.getElem?_eq_getElem (hmade stream rfl)⟩
      by_cases hincoming : s.incoming = []
      · rw [gather_empty _ hmissing hdisposed hcancelled hstream hincoming]
        split_ifs
        · exact .lost hmissing hdisposed hstream hincoming (.inr rfl)
        · exact .lost hmissing hdisposed hstream hincoming (.inl rfl)
        · exact .idle hmissing hdisposed hstream hincoming
      · rw [gather_bytes _ hmissing hdisposed hcancelled hstream hincoming]
        have hchunk : 0 < (s.incoming.take f.missing).length := by
          rw [List.length_take]
          exact Nat.lt_min.mpr ⟨hmissing, List.length_pos_iff.mpr hincoming⟩
        refine .take hmissing hdisposed hstream hincoming (ih ?_ nofun ?_)
        · rw [conn_afterTake]
          exact hvalid
        · simp only [reduceCtorEq, if_false, if_true] at hrounds ⊢
          omega

/-- Reading on comes to one of the things listed. -/
theorem fills_fill (call : CallId) (f : Filling) {source : Option StreamId}
    (hvalid : l.conn.Valid)
    (hmade : ∀ stream, source = some stream → stream < l.streams.length) :
    Fills call l f source (l.fill call f source).1 (l.fill call f source).2 := by
  refine fills_gather hvalid hmade ?_
  split_ifs <;> omega

/-! ### Where a read comes to -/

/-- The connection that calls may use. -/
def current (l : Link) : Option StreamId := if l.gateOpen then l.slot else none

/-- Whether bytes have arrived on a connection and are unread. -/
def hasUnread (l : Link) (stream : StreamId) : Bool :=
  (l.streams[stream]?).any fun s => s.incoming ≠ []

/-- The connections that a call has to do with when it is advanced. -/
structure Way where
  /-- One that is not in use and that it takes from in passing. -/
  stray : Option StreamId
  /-- The one at which it stops. -/
  stop : Option StreamId

/-- The way of a read that waits on a connection or for one. It takes what it finds on the
connection that it waits on, in use or not, and then goes on to the one that calls may use. -/
def way (l : Link) : Option StreamId → Way
  | none => ⟨none, l.current⟩
  | some stream =>
    if l.hasUnread stream then
      ⟨if l.current = some stream then none else some stream, l.current⟩
    else ⟨none, some stream⟩

theorem current_eq_some (huse : l.conn.InUse stream) : l.current = some stream :=
  (if_pos huse.2.1).trans huse.2.2

theorem inUse_of_current (hdisposed : l.disposed = false) (hcurrent : l.current = some stream) :
    l.conn.InUse stream := by
  rw [current] at hcurrent
  split_ifs at hcurrent with hgate
  exact ⟨hdisposed, hgate, hcurrent⟩

/-- A read that finds the connection in use goes the same way as if it had waited on it. -/
theorem way_of_inUse (huse : l.conn.InUse stream) : l.way (some stream) = l.way none := by
  by_cases hunread : l.hasUnread stream <;> simp [way, hunread, current_eq_some huse]

theorem way_of_unread (hstream : l.streams[stream]? = some s) (hsome : s.incoming ≠ []) :
    l.way (some stream) = ⟨if l.current = some stream then none else some stream, l.current⟩ :=
  if_pos (by simp [hasUnread, hstream, hsome])

theorem way_of_idle (hstream : l.streams[stream]? = some s) (hincoming : s.incoming = []) :
    l.way (some stream) = ⟨none, some stream⟩ :=
  if_neg (by simp [hasUnread, hstream, hincoming])

end Link

end BrokerWire
