import BrokerWire.Proofs.Link.Advancing
import BrokerWire.Proofs.Readings

/-!
# What a read makes of what has arrived

A read of a frame that is advanced on a connection in use comes to what `nextFrame` says of the
bytes that it holds and those that have arrived (`desk_readOn`). How they have arrived, and in how
many rounds the read takes them, makes no difference.
-/

namespace BrokerWire

namespace Link

/-! ### Desks -/

/-- A link as far as reads of frames go: a `View` without the record of what has been taken. -/
structure Desk where
  /-- The host and port of the broker. -/
  endpoint : String
  /-- Which connection is in use. -/
  conn : Conn
  /-- Whose turn it is to read. -/
  readers : Turns
  /-- The calls so far. -/
  calls : List Call
  /-- What each connection holds. -/
  inflow : StreamId → Inflow

/-- What reads of frames see of a link. -/
def desk (l : Link) : Desk := ⟨l.endpoint, l.conn, l.readers, l.calls, l.inflow⟩

/-- Where a read of a frame stands that has its turn, holds some bytes and needs more. -/
def Stage.awaiting (held : Bytes) (source : Option StreamId) : Stage :=
  if held.length < 4 then .filling .length ⟨held, 4 - held.length⟩ source
  else
    let length := (BigEndian.toInt32 (held.take 4)).toNatClampNeg
    .filling .body ⟨held.drop 4, length - (held.drop 4).length⟩ source

theorem Stage.awaiting_of_lt {held : Bytes} (hshort : held.length < 4) (source : Option StreamId) :
    Stage.awaiting held source = .filling .length ⟨held, 4 - held.length⟩ source :=
  if_pos hshort

theorem Stage.awaiting_append {header : Bytes} (hheader : header.length = 4) (got : Bytes)
    (source : Option StreamId) :
    Stage.awaiting (header ++ got) source =
      .filling .body ⟨got, (BigEndian.toInt32 header).toNatClampNeg - got.length⟩ source := by
  have hlong : ¬(header ++ got).length < 4 := by
    rw [List.length_append]
    omega
  rw [Stage.awaiting, if_neg hlong, List.take_left' hheader, List.drop_left' hheader]

theorem Stage.exists_awaiting (held : Bytes) (source : Option StreamId) :
    ∃ part f, Stage.awaiting held source = .filling part f source := by
  rw [Stage.awaiting]
  split_ifs
  · exact ⟨_, _, rfl⟩
  · exact ⟨_, _, rfl⟩

namespace Desk

/-- The desk with what a connection holds changed. -/
def setInflow (v : Desk) (stream : StreamId) (inflow : Inflow) : Desk :=
  { v with inflow := Function.update v.inflow stream inflow }

/-- The desk with other bytes unread on a connection. -/
def setIncoming (v : Desk) (stream : StreamId) (incoming : Bytes) : Desk :=
  v.setInflow stream { v.inflow stream with incoming }

/-- The desk with a call at another stage. -/
def setStage (v : Desk) (call : CallId) (stage : Stage) : Desk :=
  { v with calls := v.calls.modify call fun c => { c with stage } }

/-- The desk after a read has ended. -/
def endRead (v : Desk) (call : CallId) (result : Result) : Desk :=
  { v with readers := v.readers.leave call }.setStage call (.done result)

/-- The desk after the loss of a connection has been noticed. -/
def lose (v : Desk) (stream : StreamId) : Desk := { v with conn := v.conn.lose stream }

/-- The desk after a read of a frame, which holds some bytes, has been advanced on a connection. -/
def read (v : Desk) (call : CallId) (stream : StreamId) (held : Bytes) : Desk :=
  let bytes := held ++ (v.inflow stream).incoming
  match nextFrame bytes with
  | .frame body rest => (v.setIncoming stream rest).endRead call (.ok body)
  | .impossible length =>
    ((v.setIncoming stream (bytes.drop 4)).lose stream).endRead call
      (.error (.protocol (.frameLength length v.endpoint)))
  | .short =>
    if (v.inflow stream).ended then
      ((v.setIncoming stream []).lose stream).endRead call
        (.error (.serverDisconnected v.endpoint))
    else (v.setIncoming stream []).setStage call (.awaiting bytes (some stream))

/-- A call that has not been withdrawn can read from a connection. -/
structure CanRead (v : Desk) (call : CallId) (stream : StreamId) : Prop where
  inUse : v.conn.InUse stream
  made : stream < v.conn.made
  unbroken : (v.inflow stream).aborted = false
  kept : ∀ c, v.calls[call]? = some c → c.cancelled = false

variable {v : Desk} {call : CallId} {stream : StreamId}

@[simp]
theorem setIncoming_setIncoming (first incoming : Bytes) :
    (v.setIncoming stream first).setIncoming stream incoming = v.setIncoming stream incoming := by
  simp [setIncoming, setInflow]

theorem setIncoming_self {incoming : Bytes} (h : (v.inflow stream).incoming = incoming) :
    v.setIncoming stream incoming = v := by
  subst h
  simp [setIncoming, setInflow]

theorem inflow_setInflow (v : Desk) (stream other : StreamId) (inflow : Inflow) :
    (v.setInflow stream inflow).inflow other =
      if other = stream then inflow else v.inflow other :=
  Function.update_apply ..

theorem inflow_setIncoming_self (incoming : Bytes) :
    (v.setIncoming stream incoming).inflow stream = { v.inflow stream with incoming } :=
  Function.update_self ..

theorem CanRead.setIncoming (h : v.CanRead call stream) (incoming : Bytes) :
    (v.setIncoming stream incoming).CanRead call stream where
  inUse := h.inUse
  made := h.made
  unbroken := by
    rw [inflow_setIncoming_self]
    exact h.unbroken
  kept := h.kept

/-- It makes no difference whether bytes are held or still unread. -/
theorem read_setIncoming {first held rest : Bytes}
    (h : first ++ rest = held ++ (v.inflow stream).incoming) :
    (v.setIncoming stream rest).read call stream first = v.read call stream held := by
  rw [read, read, inflow_setIncoming_self]
  simp only [h, setIncoming_setIncoming]
  rfl

end Desk

variable {l : Link} {call : CallId} {stream : StreamId} {s : Stream} {f : Filling}
  {source : Option StreamId} {header got held : Bytes}

/-- A change that readers see only in the connection in use. -/
theorem desk_eq_of_view {l' : Link} {D : StreamId → Bytes} {R : StreamId → List Bytes}
    (hendpoint : l'.endpoint = l.endpoint)
    (hview : l'.view D R = { l.view D R with conn := l'.conn }) :
    l'.desk = { l.desk with conn := l'.conn } := by
  have hreaders : l'.readers = l.readers := congrArg View.readers hview
  have hcalls : l'.calls = l.calls := congrArg View.calls hview
  have hinflow : l'.inflow = l.inflow := congrArg View.inflow hview
  rw [desk, hendpoint, hreaders, hcalls, hinflow]
  rfl

theorem desk_modifyStream (hstream : l.streams[stream]? = some s) (g : Stream → Stream) :
    (l.modifyStream stream g).desk = l.desk.setInflow stream (g s).inflow := by
  have hview := view_modifyStream (D := fun _ => []) (R := fun _ => []) hstream g
  have hconn : (l.modifyStream stream g).conn = l.conn := congrArg View.conn hview
  have hinflow : (l.modifyStream stream g).inflow = Function.update l.inflow stream (g s).inflow :=
    congrArg View.inflow hview
  rw [desk, hconn, hinflow]
  rfl

/-- Readers do not see changes that concern only writers. -/
theorem desk_modifyStream_self (l : Link) (stream : StreamId) {g : Stream → Stream}
    (hinflow : ∀ s, (g s).inflow = s.inflow) : (l.modifyStream stream g).desk = l.desk :=
  congrArg (fun v : View => (⟨l.endpoint, v.conn, v.readers, v.calls, v.inflow⟩ : Desk))
    (view_modifyStream_self (D := fun _ => []) (R := fun _ => []) stream hinflow)

theorem desk_afterTake (hstream : l.streams[stream]? = some s) (call : CallId) (n : Nat) :
    (l.afterTake call stream s n).desk = l.desk.setIncoming stream (s.incoming.drop n) := by
  have hdesk := desk_modifyStream hstream fun _ => { s with incoming := s.incoming.drop n }
  rw [Desk.setIncoming, show l.desk.inflow stream = s.inflow from inflow_of_getElem? hstream]
  exact hdesk

theorem desk_lose (l : Link) (stream : StreamId) : (l.lose stream).desk = l.desk.lose stream := by
  rw [Desk.lose, desk, conn_lose, lose, reconnect]
  split_ifs <;> rfl

theorem desk_endRead (l : Link) (call : CallId) (result : Result) :
    (l.endRead call result).desk = l.desk.endRead call result := rfl

theorem isCancelled_of_kept (hkept : ∀ c, l.calls[call]? = some c → c.cancelled = false) :
    l.isCancelled call = false := by
  rw [isCancelled]
  cases hcall : l.calls[call]? with
  | none => rfl
  | some c => exact hkept c hcall

theorem Desk.CanRead.isCancelled (h : l.desk.CanRead call stream) : l.isCancelled call = false :=
  isCancelled_of_kept h.kept

theorem Desk.CanRead.exists_stream (h : l.desk.CanRead call stream) :
    ∃ s, l.streams[stream]? = some s ∧ s.aborted = false ∧ l.desk.inflow stream = s.inflow := by
  have hmade : stream < l.streams.length := h.made
  have hstream : l.streams[stream]? = some l.streams[stream] := List.getElem?_eq_getElem hmade
  have hinflow : l.desk.inflow stream = l.streams[stream].inflow := inflow_of_getElem? hstream
  exact ⟨_, hstream, (congrArg Inflow.aborted hinflow).symm.trans h.unbroken, hinflow⟩

section CanRead

variable (h : l.desk.CanRead call stream) (hsource : source = none ∨ source = some stream)
include h hsource

/-! ### Rounds -/

section Fill

variable (hmissing : 0 < f.missing)
include hmissing

theorem exists_fill_eq_gather :
    ∃ rounds, l.fill call f source = gather (rounds + 3) l call f (some stream) := by
  obtain ⟨halive, hgate, hslot⟩ := h.inUse
  obtain ⟨m, hm⟩ := Nat.exists_eq_add_of_lt hmissing
  rcases hsource with rfl | rfl
  · refine ⟨2 * m, ?_⟩
    have hrounds : 2 * f.missing + 2 = 2 * m + 3 + 1 := by omega
    rw [fill, hrounds, gather_none _ hmissing halive h.isCancelled hgate hslot]
  · refine ⟨2 * m + 1, ?_⟩
    have hrounds : 2 * f.missing + 2 = 2 * m + 1 + 3 := by omega
    rw [fill, hrounds]

/-- A read of a run of bytes that have all arrived. -/
theorem exists_fill_complete (hall : f.missing ≤ (l.desk.inflow stream).incoming.length) :
    ∃ l', l.fill call f source =
        (l', .complete (f.got ++ (l.desk.inflow stream).incoming.take f.missing)) ∧
      l'.desk = l.desk.setIncoming stream ((l.desk.inflow stream).incoming.drop f.missing) := by
  obtain ⟨rounds, hrounds⟩ := exists_fill_eq_gather h hsource hmissing
  obtain ⟨s, hstream, -, hinflow⟩ := h.exists_stream
  rw [hinflow] at hall ⊢
  have hall : f.missing ≤ s.incoming.length := hall
  have hsome : s.incoming ≠ [] := List.ne_nil_of_length_pos (Nat.lt_of_lt_of_le hmissing hall)
  have hlength : f.missing - (s.incoming.take f.missing).length = 0 := by
    rw [List.length_take_of_le hall, Nat.sub_self]
  refine ⟨l.afterTake call stream s f.missing, ?_, desk_afterTake hstream call f.missing⟩
  rw [hrounds, gather_bytes _ hmissing h.inUse.1 h.isCancelled hstream hsome, hlength,
    gather_full _ _ rfl]
  rfl

/-- A read of a run of bytes that have not all arrived takes those that have, and then it waits for
more, or fails if there will be none. -/
theorem exists_fill_short (hless : (l.desk.inflow stream).incoming.length < f.missing) :
    ∃ l', l'.desk = l.desk.setIncoming stream [] ∧
      l.fill call f source =
        if (l.desk.inflow stream).ended then
          (l'.lose stream, .failed (.serverDisconnected l.endpoint))
        else (l', .waiting ⟨f.got ++ (l.desk.inflow stream).incoming,
          f.missing - (l.desk.inflow stream).incoming.length⟩ (some stream)) := by
  obtain ⟨rounds, hrounds⟩ := exists_fill_eq_gather h hsource hmissing
  obtain ⟨halive, hgate, hslot⟩ := h.inUse
  obtain ⟨s, hstream, haborted, hinflow⟩ := h.exists_stream
  rw [hinflow] at hless ⊢
  have hless : s.incoming.length < f.missing := hless
  by_cases hnone : s.incoming = []
  · refine ⟨l, (Desk.setIncoming_self ?_).symm, ?_⟩
    · exact (congrArg Inflow.incoming hinflow).trans hnone
    · rw [hrounds, gather_empty _ hmissing halive h.isCancelled hstream hnone]
      simp [Stream.inflow, haborted, hnone]
  -- the take empties the connection, and the next rounds find it so
  have hempty : s.incoming.drop f.missing = [] := List.drop_of_length_le (Nat.le_of_lt hless)
  have hchunk : s.incoming.take f.missing = s.incoming :=
    List.take_of_length_le (Nat.le_of_lt hless)
  have hleft : 0 < f.missing - s.incoming.length := Nat.sub_pos_of_lt hless
  let l' := l.afterTake call stream s f.missing
  have hcancelled' : l'.isCancelled call = false := h.isCancelled
  have hafter : l'.streams[stream]? = some { s with incoming := s.incoming.drop f.missing } :=
    streams_afterTake call hstream f.missing
  refine ⟨l', (desk_afterTake hstream call f.missing).trans (by rw [hempty]), ?_⟩
  rw [hrounds, gather_bytes _ hmissing halive h.isCancelled hstream hnone, hchunk,
    gather_none (l := l') _ hleft halive hcancelled' hgate hslot,
    gather_empty (l := l') _ hleft halive hcancelled' hafter hempty]
  simp only [haborted, Bool.false_eq_true, if_false]
  rfl

/-- What a read of a frame comes to when what it lacks has not all arrived. -/
theorem desk_of_fill_short {part : Part}
    (hless : (l.desk.inflow stream).incoming.length < f.missing)
    (hnext : nextFrame (held ++ (l.desk.inflow stream).incoming) = .short)
    (hawaiting : Stage.awaiting (held ++ (l.desk.inflow stream).incoming) (some stream) =
      .filling part ⟨f.got ++ (l.desk.inflow stream).incoming,
        f.missing - (l.desk.inflow stream).incoming.length⟩ (some stream)) :
    (∃ l' e, l.fill call f source = (l', .failed e) ∧
        (l'.endRead call (.error e)).desk = l.desk.read call stream held) ∨
      ∃ l' f' source', l.fill call f source = (l', .waiting f' source') ∧
        (l'.setStage call (.filling part f' source')).desk = l.desk.read call stream held := by
  obtain ⟨l', hdesk, hfill⟩ := exists_fill_short h hsource hmissing hless
  rw [Desk.read, hnext]
  dsimp only
  by_cases hended : (l.desk.inflow stream).ended
  · rw [if_pos hended] at hfill ⊢
    refine .inl ⟨_, _, hfill, ?_⟩
    rw [desk_endRead, desk_lose, hdesk]
    rfl
  · rw [if_neg hended] at hfill ⊢
    refine .inr ⟨_, _, _, hfill, ?_⟩
    rw [hawaiting, ← hdesk]
    rfl

end Fill

/-! ### Reads -/

/-- A read that has the length of a frame reads on for its body. -/
theorem desk_readLast (hheader : header.length = 4)
    (hlength : isFrameLength (BigEndian.toInt32 header))
    (hgot : got.length ≤ (BigEndian.toInt32 header).toNatClampNeg) :
    (l.readLast call .body
        ⟨got, (BigEndian.toInt32 header).toNatClampNeg - got.length⟩ source).desk =
      l.desk.read call stream (header ++ got) := by
  rw [readLast]
  have hawaiting := Stage.awaiting_append hheader
    (got ++ (l.desk.inflow stream).incoming) (some stream)
  have hnext := nextFrame_append hheader (got ++ (l.desk.inflow stream).incoming)
  rw [if_pos hlength] at hnext
  generalize (BigEndian.toInt32 header).toNatClampNeg = n at hgot hawaiting hnext ⊢
  have hsize : (got ++ (l.desk.inflow stream).incoming).length =
      got.length + (l.desk.inflow stream).incoming.length := List.length_append
  rcases Nat.lt_or_ge (l.desk.inflow stream).incoming.length (n - got.length) with hless | hall
  · have hshort : (got ++ (l.desk.inflow stream).incoming).length < n := by omega
    have hleft : n - got.length - (l.desk.inflow stream).incoming.length =
        n - (got ++ (l.desk.inflow stream).incoming).length := by omega
    rw [if_pos hshort, ← List.append_assoc] at hnext
    rw [← hleft, ← List.append_assoc] at hawaiting
    obtain ⟨l', e, hfill, hdesk⟩ | ⟨l', f', source', hfill, hdesk⟩ := desk_of_fill_short h hsource
      (f := ⟨got, n - got.length⟩) (Nat.zero_lt_of_lt hless) hless hnext hawaiting
    · rw [hfill]
      exact hdesk
    · rw [hfill]
      exact hdesk
  have hlong : ¬(got ++ (l.desk.inflow stream).incoming).length < n := by omega
  rw [if_neg hlong, List.take_append, List.take_of_length_le hgot, List.drop_append,
    List.drop_of_length_le hgot, List.nil_append] at hnext
  rw [Desk.read, List.append_assoc, hnext]
  dsimp only
  by_cases hnone : n - got.length = 0
  · -- nothing is missing, because the body is empty
    rw [fill, gather_full _ _ hnone, hnone, List.take_zero, List.append_nil, List.drop_zero,
      Desk.setIncoming_self rfl]
    rfl
  · obtain ⟨l', hfill, hdesk⟩ := exists_fill_complete h hsource (f := ⟨got, n - got.length⟩)
      (Nat.pos_of_ne_zero hnone) hall
    rw [hfill]
    dsimp only
    rw [desk_endRead, hdesk]

omit hsource in
/-- Behind the length of a frame. -/
theorem desk_readBody (hheader : header.length = 4) :
    (l.readBody call (BigEndian.toInt32 header)).desk = l.desk.read call stream header := by
  rw [readBody]
  split_ifs with hlength
  · have hgot : ([] : Bytes).length ≤ (BigEndian.toInt32 header).toNatClampNeg := Nat.zero_le _
    have hlast := desk_readLast h (.inl rfl) hheader hlength hgot
    rw [List.append_nil] at hlast
    exact hlast
  · have hslot : l.slot = some stream := h.inUse.2.2
    have hunread : (header ++ (l.desk.inflow stream).incoming).drop 4 =
        (l.desk.inflow stream).incoming := List.drop_left' hheader
    rw [Desk.read, nextFrame_append hheader, if_neg hlength]
    dsimp only
    rw [hunread, Desk.setIncoming_self rfl, hslot]
    dsimp only
    rw [desk_endRead, desk_lose, endpoint_lose]
    rfl

/-- A read of a frame that has its turn and finds a connection. -/
theorem desk_readOn (hheld : nextFrame held = .short) {part : Part}
    (hstage : Stage.awaiting held source = .filling part f source) :
    (l.readOn call part f source).desk = l.desk.read call stream held := by
  obtain hshort | ⟨header, got, rfl, hheader⟩ := short_or_append held
  · rw [Stage.awaiting_of_lt hshort] at hstage
    obtain ⟨rfl, rfl, -⟩ := Stage.filling.inj hstage
    have hmissing : 0 < 4 - held.length := Nat.sub_pos_of_lt hshort
    have hsize : (held ++ (l.desk.inflow stream).incoming).length =
        held.length + (l.desk.inflow stream).incoming.length := List.length_append
    rw [readOn]
    rcases Nat.lt_or_ge (l.desk.inflow stream).incoming.length (4 - held.length) with hless | hall
    · have hbytes : (held ++ (l.desk.inflow stream).incoming).length < 4 := by omega
      have hleft : 4 - held.length - (l.desk.inflow stream).incoming.length =
          4 - (held ++ (l.desk.inflow stream).incoming).length := by omega
      have hawaiting := Stage.awaiting_of_lt hbytes (some stream)
      rw [← hleft] at hawaiting
      obtain ⟨l', e, hfill, hdesk⟩ | ⟨l', f', source', hfill, hdesk⟩ := desk_of_fill_short h
        hsource (f := ⟨held, 4 - held.length⟩) hmissing hless (nextFrame_of_lt hbytes) hawaiting
      · rw [hfill]
        exact hdesk
      · rw [hfill]
        exact hdesk
    · obtain ⟨l', hfill, hdesk⟩ :=
        exists_fill_complete h hsource (f := ⟨held, 4 - held.length⟩) hmissing hall
      have hheader :
          (held ++ (l.desk.inflow stream).incoming.take (4 - held.length)).length = 4 := by
        rw [List.length_append, List.length_take_of_le hall]
        omega
      have h' : l'.desk.CanRead call stream := hdesk ▸ h.setIncoming _
      rw [hfill]
      dsimp only
      rw [desk_readBody h' hheader, hdesk]
      refine Desk.read_setIncoming ?_
      rw [List.append_assoc, List.take_append_drop]
  · rw [Stage.awaiting_append hheader] at hstage
    obtain ⟨rfl, rfl, -⟩ := Stage.filling.inj hstage
    rw [nextFrame_append hheader] at hheld
    split_ifs at hheld with hlength hgot
    exact desk_readLast h hsource hheader hlength (Nat.le_of_lt hgot)

end CanRead

/-- A read that finds no connection waits on. -/
theorem readOn_of_closed (halive : l.disposed = false) (hkept : l.isCancelled call = false)
    (hgate : l.gateOpen = false) (hmissing : 0 < f.missing) :
    l.readOn call .length f none = l.setStage call (.filling .length f none) := by
  have hfill : l.fill call f none = (l, .waiting f none) := by
    rw [fill, gather_unready _ hmissing halive hkept hgate]
  rw [readOn, hfill]

end Link

end BrokerWire
