import BrokerWire.Proofs.Link.Changing
import BrokerWire.Proofs.Link.Receiving

/-!
# One read of a frame after the other

`Desk.Follows` says how the results of a caller's reads go with what has arrived: the connections
that have passed have been read to their end, and of the one in use the caller has got some frames
and holds a piece of the next. A read that is advanced keeps to it (`Desk.Caller.poll`): it ends
with the next of the `readings`, or holds more.
-/

namespace BrokerWire

namespace Link

/-! ### One connection after the other -/

namespace Conn

variable {c c' : Conn} {stream : StreamId}

/-- How many connections there have been before the one in use, or before the next one. -/
def passed (c : Conn) : Nat := if c.gateOpen then c.made - 1 else c.made

/-- A connection in the slot is the last one made. -/
def Latest (c : Conn) : Prop := ∀ stream, c.slot = some stream → c.made = stream + 1

theorem InUse.passed_eq (h : c.InUse stream) (hlatest : c.Latest) : c.passed = stream := by
  rw [passed, if_pos h.2.1, hlatest stream h.2.2, Nat.add_sub_cancel]

theorem exists_inUse (hvalid : c.Valid) (halive : c.disposed = false) (hgate : c.gateOpen) :
    ∃ stream, c.InUse stream := by
  cases hslot : c.slot with
  | none => exact absurd (hvalid.usable hgate hslot) (by simp [halive])
  | some stream => exact ⟨stream, halive, hgate, hslot⟩

/-- After its loss the connection in use is one more that has passed. -/
theorem InUse.passed_lose (h : c.InUse stream) (hvalid : c.Valid) (hlatest : c.Latest) :
    (c.lose stream).gateOpen = false ∧ (c.lose stream).passed = stream + 1 := by
  have hlose : c.lose stream = c.launch (some stream) := if_pos ⟨h.1, h.2.2, hvalid.idle h.2.1⟩
  rw [hlose]
  exact ⟨rfl, hlatest stream h.2.2⟩

theorem latest_lose (h : c.Latest) (lost : StreamId) : (c.lose lost).Latest := by
  rw [lose]
  split_ifs <;> exact h

/-- The background brings a connection into use only where there is none. -/
theorem Change.steady (h : Change none c c') (hvalid : c.Valid) (halive : c.disposed = false)
    (halive' : c'.disposed = false) (hlatest : c.Latest) :
    c'.passed = c.passed ∧ c'.Latest ∧ ∀ stream, c.InUse stream → c'.InUse stream := by
  have hclosed : c.gateOpen = false → ∀ stream, c.InUse stream → c'.InUse stream :=
    fun hgate _ huse => absurd huse (not_inUse_of_gateOpen hgate)
  cases h with
  | stay => exact ⟨rfl, hlatest, fun _ huse => huse⟩
  | openingDisposed _ hdisposed => exact absurd hdisposed (by simp [halive])
  | opening hopened =>
    have hgate := (hvalid.unopened hopened).2.2
    refine ⟨?_, hlatest, hclosed hgate⟩
    rw [passed, passed, hgate]
    rfl
  | dial he hrunning =>
    have hgate := hvalid.not_gateOpen he hrunning
    exact ⟨rfl, fun _ hslot => (nomatch hslot), hclosed hgate⟩
  | retire _ _ hdisposed => exact absurd hdisposed (by simp [halive])
  | establish he hrunning =>
    have hgate := hvalid.not_gateOpen he hrunning
    refine ⟨?_, fun stream hslot => ?_, hclosed hgate⟩
    · rw [passed, passed, hgate]
      rfl
    · obtain rfl := Option.some.inj hslot
      rfl
  | giveUp => contradiction

end Conn

/-! ### What has been read so far -/

/-- A call that has read a frame, or has failed to. -/
def Call.over (result : Result) : Call := ⟨.readFrame, false, .done result⟩

namespace Desk

/-- The far side keeps to what it is to send. -/
structure Sends (v : Desk) (sent : List Bytes) (arrived : StreamId → Bytes) : Prop where
  unbroken : ∀ stream, (v.inflow stream).aborted = false
  /-- Nothing arrives but what is sent. -/
  within : ∀ stream, arrived stream <+: sent.getD stream []
  /-- Where a connection ends all that is sent there has arrived. -/
  ended : ∀ stream, (v.inflow stream).ended → sent[stream]? = some (arrived stream)
  /-- Before a connection is made nothing arrives there. -/
  unmade : ∀ stream, v.conn.made ≤ stream → arrived stream = [] ∧ (v.inflow stream).incoming = []

/-- How a caller has come to so many results and holds some bytes now: all connections that have
passed have been read to their end, and from the next one so many frames. -/
structure Follows (v : Desk) (sent : List Bytes) (arrived : StreamId → Bytes)
    (results : List Result) (bodies : List Bytes) (held : Bytes) : Prop where
  valid : v.conn.Valid
  latest : v.conn.Latest
  alive : v.conn.disposed = false
  sends : v.Sends sent arrived
  fits : ∀ body ∈ bodies, IsBody body
  read : results = (sent.take v.conn.passed).flatMap (readings v.endpoint) ++ bodies.map .ok
  taken : arrived v.conn.passed = frames bodies ++ (held ++ (v.inflow v.conn.passed).incoming)

/-- Where the only caller stands. With a call under way it may hold some bytes. -/
inductive Caller (v : Desk) (results : List Result) : Bytes → Prop
  /-- All calls are over. -/
  | idle (hcalls : v.calls = results.map Call.over) (hreaders : v.readers = {}) :
    Caller v results []
  /-- A call has begun. -/
  | begun (hcalls : v.calls = results.map Call.over ++ [{ job := .readFrame }])
    (hreaders : v.readers = {}) : Caller v results []
  /-- A call waits for a connection or, with a source, for bytes from it. -/
  | waits {held : Bytes} {source : Option StreamId}
    (hcalls : v.calls = results.map Call.over ++ [⟨.readFrame, false, .awaiting held source⟩])
    (hreaders : v.readers = ⟨some results.length, []⟩) (hheld : nextFrame held = .short)
    (hnone : source = none → held = [])
    (hsome : ∀ stream, source = some stream → v.conn.InUse stream) : Caller v results held

variable {v v' : Desk} {sent : List Bytes} {arrived : StreamId → Bytes} {results : List Result}
  {bodies : List Bytes} {held body rest : Bytes} {stream : StreamId} {length : Int32}

/-- Something happens on one connection. -/
theorem Sends.setInflow {arrived' : StreamId → Bytes} {inflow : Inflow} (h : v.Sends sent arrived)
    (hmade : stream < v.conn.made)
    (hothers : ∀ other, other ≠ stream → arrived' other = arrived other)
    (hunbroken : inflow.aborted = false) (hwithin : arrived' stream <+: sent.getD stream [])
    (hended : inflow.ended → sent[stream]? = some (arrived' stream)) :
    (v.setInflow stream inflow).Sends sent arrived' := by
  refine ⟨fun other => ?_, fun other => ?_, fun other hother => ?_, fun other hunmade => ?_⟩
  · rw [inflow_setInflow]
    split_ifs
    · exact hunbroken
    · exact h.unbroken other
  · by_cases hother : other = stream
    · exact hother ▸ hwithin
    · exact hothers other hother ▸ h.within other
  · rw [inflow_setInflow] at hother
    split_ifs at hother with hsame
    · exact hsame ▸ hended hother
    · exact hothers other hsame ▸ h.ended other hother
  · have hne : other ≠ stream := Nat.ne_of_gt (Nat.lt_of_lt_of_le hmade hunmade)
    rw [hothers other hne, inflow_setInflow, if_neg hne]
    exact h.unmade other hunmade

theorem Sends.setIncoming (h : v.Sends sent arrived) (hmade : stream < v.conn.made)
    (incoming : Bytes) : (v.setIncoming stream incoming).Sends sent arrived :=
  h.setInflow hmade (fun _ _ => rfl) (h.unbroken stream) (h.within stream) (h.ended stream)

/-- The calls and their turns play no part. -/
theorem Follows.congr (h : v.Follows sent arrived results bodies held)
    (hendpoint : v'.endpoint = v.endpoint) (hconn : v'.conn = v.conn)
    (hinflow : v'.inflow = v.inflow) : v'.Follows sent arrived results bodies held := by
  obtain ⟨endpoint, conn, readers, calls, inflow⟩ := v
  obtain ⟨endpoint', conn', readers', calls', inflow'⟩ := v'
  dsimp only at hendpoint hconn hinflow
  subst hendpoint hconn hinflow
  exact ⟨h.valid, h.latest, h.alive,
    ⟨h.sends.unbroken, h.sends.within, h.sends.ended, h.sends.unmade⟩, h.fits, h.read, h.taken⟩

/-- What has been read from a connection so far is the front of what is to be read there. -/
theorem Follows.readings_append (h : v.Follows sent arrived results bodies held) (left : Bytes) :
    readings v.endpoint (arrived v.conn.passed ++ left) = bodies.map .ok ++
      readings v.endpoint (held ++ (v.inflow v.conn.passed).incoming ++ left) := by
  rw [h.taken, List.append_assoc, readings_frames_append h.fits]

theorem Follows.exists_left {bytes : Bytes} (h : v.Follows sent arrived results bodies held)
    (hbytes : sent[stream]? = some bytes) : ∃ left, bytes = arrived stream ++ left := by
  have hwithin := h.sends.within stream
  rw [List.getD_eq_getElem?_getD, hbytes] at hwithin
  obtain ⟨left, hleft⟩ := hwithin
  exact ⟨left, hleft.symm⟩

/-- Nothing arrives on a connection on which nothing is sent. -/
theorem Follows.exists_sent (h : v.Follows sent arrived results bodies held)
    (harrived : arrived stream ≠ []) : ∃ left, sent[stream]? = some (arrived stream ++ left) := by
  cases hbytes : sent[stream]? with
  | none =>
    have hwithin := h.sends.within stream
    rw [List.getD_eq_getElem?_getD, hbytes] at hwithin
    exact absurd (List.prefix_nil.mp hwithin) harrived
  | some bytes =>
    obtain ⟨left, rfl⟩ := h.exists_left hbytes
    exact ⟨left, rfl⟩

/-- The results so far are the first ones that there are to be. -/
theorem Follows.results_prefix (h : v.Follows sent arrived results bodies held) :
    results <+: sent.flatMap (readings v.endpoint) := by
  rw [h.read]
  cases hbytes : sent[v.conn.passed]? with
  | none =>
    have hbodies : bodies = [] := by
      cases bodies with
      | nil => rfl
      | cons body bodies =>
        have harrived : arrived v.conn.passed ≠ [] := by
          rw [h.taken, frames_cons, List.append_assoc]
          exact List.append_ne_nil_of_left_ne_nil (frame_ne_nil body) _
        obtain ⟨left, hsent⟩ := h.exists_sent harrived
        exact nomatch hbytes.symm.trans hsent
    have hall : sent.take v.conn.passed = sent :=
      List.take_of_length_le (List.getElem?_eq_none_iff.mp hbytes)
    exact ⟨[], by rw [hbodies, hall, List.map_nil, List.append_nil, List.append_nil]⟩
  | some bytes =>
    obtain ⟨left, rfl⟩ := h.exists_left hbytes
    have hsplit : sent.flatMap (readings v.endpoint) =
        (sent.take v.conn.passed).flatMap (readings v.endpoint) ++
          (readings v.endpoint (arrived v.conn.passed ++ left) ++
            (sent.drop (v.conn.passed + 1)).flatMap (readings v.endpoint)) := by
      obtain ⟨hlt, hget⟩ := List.getElem?_eq_some_iff.mp hbytes
      rw [← hget, ← List.flatMap_cons, ← List.drop_eq_getElem_cons hlt, ← List.flatMap_append,
        List.take_append_drop]
    rw [hsplit, h.readings_append, List.append_assoc]
    exact List.prefix_append_right_inj _ |>.mpr (List.prefix_append _ _)

/-! ### One read -/

section Read

variable (h : v.Follows sent arrived results bodies held) (huse : v.conn.InUse stream)
include h huse

/-- A read takes from the connection in use. -/
theorem Follows.take {results' : List Result} {bodies' : List Bytes} {held' : Bytes}
    (hfits : ∀ body ∈ bodies', IsBody body)
    (hread : results' = (sent.take stream).flatMap (readings v.endpoint) ++ bodies'.map .ok)
    (htaken : frames bodies ++ (held ++ (v.inflow stream).incoming) =
      frames bodies' ++ (held' ++ rest)) :
    (v.setIncoming stream rest).Follows sent arrived results' bodies' held' := by
  have hpassed : v.conn.passed = stream := huse.passed_eq h.latest
  have hpassed' : (v.setIncoming stream rest).conn.passed = stream := hpassed
  have hmade : stream < v.conn.made := h.valid.made stream huse.2.2
  refine ⟨h.valid, h.latest, h.alive, h.sends.setIncoming hmade rest, hfits, hpassed' ▸ hread, ?_⟩
  have hholds := h.taken
  rw [hpassed, htaken] at hholds
  rw [hpassed', inflow_setIncoming_self]
  exact hholds

/-- A read fails, and nothing has arrived yet on the next connection. -/
theorem Follows.fail {left : Bytes} {result : Result}
    (hsent : sent[stream]? = some (arrived stream ++ left))
    (hresult : readings v.endpoint (held ++ (v.inflow stream).incoming ++ left) = [result])
    (rest : Bytes) :
    ((v.setIncoming stream rest).lose stream).Follows sent arrived (results ++ [result]) [] [] := by
  have hpassed : v.conn.passed = stream := huse.passed_eq h.latest
  have hmade : stream < v.conn.made := h.valid.made stream huse.2.2
  have hsends := h.sends.setIncoming hmade rest
  have hnext : (v.conn.lose stream).passed = stream + 1 :=
    (huse.passed_lose h.valid h.latest).2
  have hmade' : v.conn.made ≤ stream + 1 := Nat.le_of_eq (h.latest stream huse.2.2)
  have hnothing := hsends.unmade (stream + 1) hmade'
  refine ⟨h.valid.lose stream, Conn.latest_lose h.latest stream, ?_,
    ⟨hsends.unbroken, hsends.within, hsends.ended, fun other hother => ?_⟩, nofun, ?_, ?_⟩
  · exact (Conn.disposed_lose v.conn stream).trans h.alive
  · have hmade₀ : v.conn.made = (v.conn.lose stream).made := (Conn.made_lose v.conn stream).symm
    exact hsends.unmade other (Nat.le_trans (Nat.le_of_eq hmade₀) hother)
  · have hreadings := h.readings_append left
    have hread := h.read
    rw [hpassed] at hreadings hread
    rw [hresult] at hreadings
    rw [show ((v.setIncoming stream rest).lose stream).conn.passed = stream + 1 from hnext,
      show ((v.setIncoming stream rest).lose stream).endpoint = v.endpoint from rfl,
      List.take_add_one, hsent, Option.toList_some, List.flatMap_append, List.flatMap_singleton,
      hreadings, hread, List.map_nil, List.append_nil, List.append_assoc]
  · rw [show ((v.setIncoming stream rest).lose stream).conn.passed = stream + 1 from hnext,
      hnothing.1]
    exact hnothing.2.symm

/-- A read of a frame ends, or all that has arrived is held and more is needed. -/
theorem Follows.read_cases (call : CallId) :
    (∃ (v₁ : Desk) (result : Result) (bodies' : List Bytes),
        v.read call stream held = v₁.endRead call result ∧
        v₁.calls = v.calls ∧ v₁.readers = v.readers ∧
        v₁.Follows sent arrived (results ++ [result]) bodies' []) ∨
      ((v.inflow stream).ended = false ∧
        nextFrame (held ++ (v.inflow stream).incoming) = .short ∧
        v.read call stream held = (v.setIncoming stream []).setStage call
          (.awaiting (held ++ (v.inflow stream).incoming) (some stream)) ∧
        (v.setIncoming stream []).Follows sent arrived results bodies
          (held ++ (v.inflow stream).incoming)) := by
  have hpassed : v.conn.passed = stream := huse.passed_eq h.latest
  have hread := h.read
  have htaken := h.taken
  rw [hpassed] at hread htaken
  rw [Desk.read]
  cases hnext : nextFrame (held ++ (v.inflow stream).incoming) with
  | frame body rest =>
    obtain ⟨hbytes, hbody⟩ := eq_of_nextFrame hnext
    refine .inl ⟨_, _, bodies ++ [body], rfl, rfl, rfl, h.take huse ?_ ?_ ?_⟩
    · intro b hb
      rcases List.mem_append.mp hb with hb | hb
      · exact h.fits b hb
      · exact List.mem_singleton.mp hb ▸ hbody
    · rw [hread, List.map_append, List.append_assoc]
      rfl
    · rw [frames_concat, hbytes, List.append_assoc]
      rfl
  | impossible length =>
    -- the bytes that make up the length have arrived, so some are sent
    have hsome : arrived stream ≠ [] := by
      intro hnone
      have hempty := (List.append_eq_nil_iff.mp (htaken.symm.trans hnone)).2
      rw [hempty] at hnext
      contradiction
    obtain ⟨left, hsent⟩ := h.exists_sent hsome
    exact .inl ⟨_, _, [], rfl, rfl, rfl, h.fail huse hsent
      (readings_of_impossible (nextFrame_impossible_append hnext left)) _⟩
  | short =>
    dsimp only
    split_ifs with hended
    · have hsent := h.sends.ended stream hended
      rw [← List.append_nil (arrived stream)] at hsent
      refine .inl ⟨_, _, [], rfl, rfl, rfl, h.fail huse hsent ?_ _⟩
      rw [List.append_nil]
      exact readings_of_short hnext
    · refine .inr ⟨eq_false_of_ne_true hended, rfl, rfl, h.take huse h.fits hread ?_⟩
      rw [List.append_nil]

end Read

/-! ### Callers -/

section Caller

variable {c : Call} {result : Result} (hcalls : v.calls = results.map Call.over ++ [c])
  (hreaders : v.readers = ⟨some results.length, []⟩)
include hcalls

theorem calls_setStage (stage : Stage) :
    (v.setStage results.length stage).calls = results.map Call.over ++ [{ c with stage }] := by
  have hlength : (results.map Call.over).length = results.length := List.length_map ..
  rw [setStage, hcalls, ← hlength, List.modify_eq_take_cons_drop (by simp)]
  simp

include hreaders

/-- A read of a frame ends. -/
theorem caller_endRead (hjob : c.job = .readFrame) (hkept : c.cancelled = false) :
    (v.endRead results.length result).Caller (results ++ [result]) [] := by
  refine .idle ?_ ?_
  · let v₁ : Desk := { v with readers := v.readers.leave results.length }
    rw [endRead, calls_setStage (v := v₁) hcalls, List.map_append, hjob, hkept]
    rfl
  · rw [endRead, setStage, hreaders]
    simp [Turns.leave]

/-- A read of a frame waits on. -/
theorem caller_setStage {held : Bytes} {source : Option StreamId} (hjob : c.job = .readFrame)
    (hkept : c.cancelled = false) (hheld : nextFrame held = .short)
    (hnone : source = none → held = [])
    (hsome : ∀ stream, source = some stream → v.conn.InUse stream) :
    (v.setStage results.length (.awaiting held source)).Caller results held := by
  have hcalls' : (v.setStage results.length (.awaiting held source)).calls =
      results.map Call.over ++ [⟨.readFrame, false, .awaiting held source⟩] := by
    rw [calls_setStage hcalls, hjob, hkept]
  exact .waits hcalls' hreaders hheld hnone hsome

end Caller

end Desk

/-! ### Calls that are advanced -/

variable {l : Link} {sent : List Bytes} {arrived : StreamId → Bytes} {results : List Result}
  {bodies : List Bytes} {held : Bytes} {stream : StreamId}

theorem isOpen_of_mem_over {c : Call} (hmem : c ∈ results.map Call.over) :
    c.stage.isOpen = false := by
  obtain ⟨result, -, rfl⟩ := List.mem_map.mp hmem
  rfl

/-- A call that is not over is the last one. -/
theorem eq_length_of_isOpen {calls : List Call} {call : CallId} {c last : Call}
    (hcalls : calls = results.map Call.over ++ [last]) (hcall : calls[call]? = some c)
    (hopen : c.stage.isOpen) : call = results.length := by
  rw [hcalls] at hcall
  rcases Nat.lt_or_ge call (results.map Call.over).length with hlt | hge
  · rw [List.getElem?_append_left hlt] at hcall
    exact nomatch hopen.symm.trans (isOpen_of_mem_over (List.mem_of_getElem? hcall))
  · rw [List.getElem?_append_right hge] at hcall
    have hlt := (List.getElem?_eq_some_iff.mp hcall).1
    rw [List.length_singleton, List.length_map, Nat.lt_one_iff] at hlt
    rw [List.length_map] at hge
    exact Nat.le_antisymm (Nat.le_of_sub_eq_zero hlt) hge

namespace Desk

/-- A caller's call that is not over is the one after all that are. -/
theorem Caller.eq_length (h : l.desk.Caller results held) {call : CallId}
    (hpending : l.isPending call) : call = results.length := by
  obtain ⟨c, hcall, hopen⟩ := exists_of_isPending hpending
  cases h with
  | idle hcalls =>
    have hmem : c ∈ l.desk.calls := List.mem_of_getElem? hcall
    rw [hcalls] at hmem
    exact nomatch hopen.symm.trans (isOpen_of_mem_over hmem)
  | begun hcalls => exact eq_length_of_isOpen hcalls hcall hopen
  | waits hcalls => exact eq_length_of_isOpen hcalls hcall hopen

/-- A call under way that is advanced reads on. -/
theorem Caller.exists_readOn (h : l.desk.Caller results held)
    (hpending : l.isPending results.length) (halive : l.disposed = false) (ioFirst : Bool) :
    ∃ stage part f source, l.calls = results.map Call.over ++ [⟨.readFrame, false, stage⟩] ∧
      Stage.awaiting held source = .filling part f source ∧ nextFrame held = .short ∧
      (source = none → held = []) ∧
      (∀ stream, source = some stream → l.conn.InUse stream) ∧
      l.poll results.length ioFirst =
        ({ l with readers := ⟨some results.length, []⟩ } : Link).readOn results.length part f
          source := by
  have hlast : ∀ {last : Call}, l.calls = results.map Call.over ++ [last] →
      l.calls[results.length]? = some last := by
    intro last hcalls
    rw [hcalls]
    simp
  cases h with
  | idle hcalls =>
    obtain ⟨c, hcall, hopen⟩ := exists_of_isPending hpending
    have hmem : c ∈ l.desk.calls := List.mem_of_getElem? hcall
    rw [hcalls] at hmem
    exact nomatch hopen.symm.trans (isOpen_of_mem_over hmem)
  | begun hcalls hreaders =>
    refine ⟨_, .length, ⟨[], lengthSize⟩, none, hcalls, rfl, rfl, fun _ => rfl, nofun, ?_⟩
    have hcall := hlast hcalls
    have hjoin : l.readers.join results.length = ⟨some results.length, []⟩ := by
      rw [show l.readers = {} from hreaders]
      rfl
    have hkept : l.isCancelled results.length = false := by
      rw [isCancelled, hcall]
    rw [poll, hcall]
    dsimp only
    rw [enterRead, if_neg (by simp [halive]), if_neg (by simp [hkept]), hjoin]
    exact if_pos rfl
  | @waits held source hcalls hreaders hheld hnone hsome =>
    obtain ⟨part, f, hstage⟩ := Stage.exists_awaiting held source
    refine ⟨_, part, f, source, hcalls, hstage, hheld, hnone, hsome, ?_⟩
    have hsame : ({ l with readers := ⟨some results.length, []⟩ } : Link) = l := by
      rw [← show l.readers = ⟨some results.length, []⟩ from hreaders]
    rw [hsame, poll, hlast hcalls, hstage]

/-- A call under way that is advanced ends, or it waits for a connection or for more bytes. -/
theorem Caller.poll (hcaller : l.desk.Caller results held)
    (h : l.desk.Follows sent arrived results bodies held) (hpending : l.isPending results.length)
    (ioFirst : Bool) :
    (∃ result bodies',
        (l.poll results.length ioFirst).desk.Follows sent arrived (results ++ [result]) bodies' [] ∧
        (l.poll results.length ioFirst).desk.Caller (results ++ [result]) []) ∨
      (∃ held', (l.poll results.length ioFirst).desk.Follows sent arrived results bodies held' ∧
        (l.poll results.length ioFirst).desk.Caller results held') ∧
        (l.gateOpen = false ∨ ∃ stream, l.conn.InUse stream ∧ (l.inflow stream).ended = false ∧
          nextFrame (held ++ (l.inflow stream).incoming) = .short) := by
  obtain ⟨stage, part, f, source, hcalls, hstage, hheld, hnone, hsome, hpoll⟩ :=
    hcaller.exists_readOn hpending h.alive ioFirst
  rw [hpoll]
  let l₁ : Link := { l with readers := ⟨some results.length, []⟩ }
  have h₁ : l₁.desk.Follows sent arrived results bodies held := h.congr rfl rfl rfl
  have hkept : ∀ c, l₁.calls[results.length]? = some c → c.cancelled = false := by
    intro c hcall
    rw [show l₁.calls = _ from hcalls] at hcall
    obtain rfl : (⟨.readFrame, false, stage⟩ : Call) = c := by simpa using hcall
    rfl
  by_cases hgate : l.gateOpen
  · obtain ⟨stream, huse⟩ := Conn.exists_inUse h.valid h.alive hgate
    have hsource : source = none ∨ source = some stream := by
      cases hs : source with
      | none => exact .inl rfl
      | some other => exact .inr ((hsome other hs).2.2.symm.trans huse.2.2)
    have hread : l₁.desk.CanRead results.length stream :=
      ⟨huse, h.valid.made stream huse.2.2, h.sends.unbroken stream, hkept⟩
    rw [show (l₁.readOn results.length part f source).desk = _ from
      desk_readOn hread hsource hheld hstage]
    rcases h₁.read_cases huse results.length with
      ⟨v₂, result, bodies', hend, hcalls₂, hreaders₂, hfollows⟩ |
      ⟨hended, hshort, hwait, hfollows⟩
    · rw [hend]
      exact .inl ⟨result, bodies', hfollows.congr rfl rfl rfl,
        caller_endRead (hcalls₂.trans hcalls) hreaders₂ rfl rfl⟩
    · rw [hwait]
      refine .inr ⟨⟨_, hfollows.congr rfl rfl rfl, ?_⟩, .inr ⟨stream, huse, hended, hshort⟩⟩
      refine caller_setStage hcalls rfl rfl rfl hshort nofun ?_
      rintro _ ⟨⟩
      exact huse
  · have hclosed : l.gateOpen = false := eq_false_of_ne_true hgate
    have hsource : source = none := by
      cases hs : source with
      | none => rfl
      | some other => exact absurd (hsome other hs).2.1 hgate
    subst hsource
    obtain rfl := hnone rfl
    obtain ⟨rfl, rfl, -⟩ := Stage.filling.inj hstage
    rw [readOn_of_closed (l := l₁) h.alive (isCancelled_of_kept hkept) hclosed (Nat.zero_lt_succ 3)]
    have hwaits : (l₁.desk.setStage results.length (.awaiting [] none)).Caller results [] :=
      caller_setStage hcalls rfl rfl rfl rfl (fun _ => rfl) fun _ hstream => (nomatch hstream)
    exact .inr ⟨⟨[], h₁.congr rfl rfl rfl, hwaits⟩, .inl hclosed⟩

/-- What a caller waits for stays where it is. -/
theorem Caller.congr {v v' : Desk} (h : v.Caller results held) (hcalls : v'.calls = v.calls)
    (hreaders : v'.readers = v.readers)
    (huse : ∀ stream, v.conn.InUse stream → v'.conn.InUse stream) : v'.Caller results held := by
  cases h with
  | idle hcalls₀ hreaders₀ => exact .idle (hcalls.trans hcalls₀) (hreaders.trans hreaders₀)
  | begun hcalls₀ hreaders₀ => exact .begun (hcalls.trans hcalls₀) (hreaders.trans hreaders₀)
  | waits hcalls₀ hreaders₀ hheld hnone hsome =>
    exact .waits (hcalls.trans hcalls₀) (hreaders.trans hreaders₀) hheld hnone
      fun stream hstream => huse stream (hsome stream hstream)

/-- The results of a caller's calls. -/
theorem Caller.result? (h : l.desk.Caller results held) (call : CallId) :
    l.result? call = results[call]? := by
  obtain ⟨tail, hcalls, htail⟩ : ∃ tail, l.calls = results.map Call.over ++ tail ∧
      ∀ c ∈ tail, c.stage.result? = none := by
    cases h with
    | idle hcalls => exact ⟨[], hcalls.trans (List.append_nil _).symm, List.forall_mem_nil _⟩
    | begun hcalls => exact ⟨_, hcalls, List.forall_mem_singleton.mpr rfl⟩
    | @waits held source hcalls =>
      obtain ⟨part, f, hstage⟩ := Stage.exists_awaiting held source
      exact ⟨_, hcalls, List.forall_mem_singleton.mpr (congrArg Stage.result? hstage)⟩
  rcases Nat.lt_or_ge call results.length with hlt | hge
  · have hcall : l.calls[call]? = some (.over results[call]) := by
      rw [hcalls, List.getElem?_append_left (by rwa [List.length_map]), List.getElem?_map,
        List.getElem?_eq_getElem hlt]
      rfl
    rw [result?_eq hcall, List.getElem?_eq_getElem hlt]
    rfl
  · rw [List.getElem?_eq_none hge]
    cases hcall : l.calls[call]? with
    | none => rw [Link.result?, hcall]
    | some c =>
      have hlate := hcall
      rw [hcalls, List.getElem?_append_right (by rwa [List.length_map])] at hlate
      exact (result?_eq hcall).trans (htail c (List.mem_of_getElem? hlate))

end Desk

end Link

end BrokerWire
