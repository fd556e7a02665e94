import BrokerWire.Proofs.Link.Background
import BrokerWire.Proofs.Link.Repeating
import BrokerWire.Proofs.Link.Status

/-!
# Streams that are read frame by frame

One caller reads frames, one read after the other, while the far side sends some bytes on each
connection and then ends it. The reads end as `readings` says, connection by connection, and it
makes no difference how the bytes are cut into pieces and when they arrive.
-/

namespace BrokerWire

namespace Link

/-! ### Courses with one caller -/

/-- What may happen next while one caller reads frames, one read after the other, and the far side
sends the given bytes, on each connection those that are its own, and then ends it; so much has
arrived before. -/
def Allows (sent : List Bytes) (l : Link) (arrived : StreamId → Bytes) : Event → Prop
  | .begin job => job = .readFrame ∧ ∀ c ∈ l.calls, c.stage.isOpen = false
  | .arrive stream bytes => arrived stream ++ bytes <+: sent.getD stream []
  | .finish stream => sent[stream]? = some (arrived stream)
  | .cancel _ | .drop _ | .abort _ | .flush _ | .release => False
  | .poll .. | .pollOpening | .pollEpisode .. | .drain .. | .elapse _ => True

/-- The courses that are made up of such events. -/
def Allowed (sent : List Bytes) (l : Link) (arrived : StreamId → Bytes) : List Event → Prop
  | [] => True
  | event :: events => l.Allows sent arrived event ∧
    (l.step event).Allowed sent (fun stream => arrived stream ++ l.deliveredBy event stream) events

instance decidableAllows (sent : List Bytes) (l : Link) (arrived : StreamId → Bytes) :
    (event : Event) → Decidable (l.Allows sent arrived event)
  | .begin job => inferInstanceAs (Decidable (job = .readFrame ∧ ∀ c ∈ l.calls, _ = false))
  | .arrive stream bytes => inferInstanceAs (Decidable (arrived stream ++ bytes <+: _))
  | .finish stream => inferInstanceAs (Decidable (sent[stream]? = some (arrived stream)))
  | .cancel _ | .drop _ | .abort _ | .flush _ | .release => inferInstanceAs (Decidable False)
  | .poll .. | .pollOpening | .pollEpisode .. | .drain .. | .elapse _ =>
    inferInstanceAs (Decidable True)

instance decidableAllowed (sent : List Bytes) (l : Link) (arrived : StreamId → Bytes) :
    (events : List Event) → Decidable (l.Allowed sent arrived events)
  | [] => inferInstanceAs (Decidable True)
  | event :: events =>
    let := decidableAllowed sent (l.step event)
      (fun stream => arrived stream ++ l.deliveredBy event stream) events
    inferInstanceAs (Decidable (l.Allows sent arrived event ∧ Allowed sent (l.step event) _ events))

/-! ### Events -/

variable {l : Link} {sent : List Bytes} {arrived : StreamId → Bytes} {results : List Result}
  {bodies : List Bytes} {held : Bytes} {stream : StreamId}

/-- Where a link stands with its only caller. -/
structure Stands (l : Link) (sent : List Bytes) (arrived : StreamId → Bytes)
    (results : List Result) (bodies : List Bytes) (held : Bytes) : Prop where
  follows : l.desk.Follows sent arrived results bodies held
  caller : l.desk.Caller results held

/-- An event of which only the connection in use may take note, and that is not a loss. -/
theorem Stands.change {conn : Conn} {l' : Link} (h : l.Stands sent arrived results bodies held)
    (hchange : Conn.Change none l.conn conn) (halive : conn.disposed = false)
    (hdesk : l'.desk = { l.desk with conn }) : l'.Stands sent arrived results bodies held := by
  obtain ⟨⟨hvalid, hlatest, hdisposed, hsends, hfits, hread, htaken⟩, hcaller⟩ := h
  obtain ⟨hpassed, hlatest', huse⟩ := hchange.steady hvalid hdisposed halive hlatest
  have hpassed : conn.passed = l.desk.conn.passed := hpassed
  refine ⟨hdesk ▸ ⟨hvalid.change hchange, hlatest', halive, ?_, hfits, ?_, ?_⟩,
    hdesk ▸ hcaller.congr rfl rfl huse⟩
  · exact ⟨hsends.unbroken, hsends.within, hsends.ended, fun stream hmade =>
      hsends.unmade stream (Nat.le_trans hchange.made_le hmade)⟩
  · rw [hpassed]
    exact hread
  · rw [hpassed]
    exact htaken

/-- The background goes on. -/
theorem Stands.background (h : l.Stands sent arrived results bodies held) {event : Event}
    (hevent : event.isBackground) : (l.step event).Stands sent arrived results bodies held := by
  have hvalid := h.follows.valid
  have halive : l.disposed = false := h.follows.alive
  have hendpoint : (l.step event).endpoint = l.endpoint := (l.continues_step event).endpoint
  cases event with
  | pollOpening =>
    have hdisposed : l.pollOpening.disposed = l.disposed := by
      rw [pollOpening]
      split_ifs
      · rfl
      · rfl
      · exact (untouched_reconnect _ none).disposed
      · rfl
    exact h.change (change_pollOpening hvalid) (hdisposed.trans halive)
      (desk_eq_of_view (D := fun _ => []) (R := fun _ => []) hendpoint (view_pollOpening l))
  | pollEpisode index dial ioFirst =>
    obtain ⟨-, -, -, hdisposed, -⟩ := l.fixed_pollEpisode index dial ioFirst
    exact h.change (change_pollEpisode hvalid index dial ioFirst) (hdisposed.trans halive)
      (desk_eq_of_view (D := fun _ => []) (R := fun _ => []) hendpoint
        (view_pollEpisode l index dial ioFirst))
  | elapse nanos => exact h.change (.stay _) halive rfl
  | _ => contradiction

/-- An event on the far side of one connection. -/
theorem Stands.setInflow {l' : Link} {arrived' : StreamId → Bytes} {inflow : Inflow} {more : Bytes}
    (h : l.Stands sent arrived results bodies held) (hmade : stream < l.conn.made)
    (hdesk : l'.desk = l.desk.setInflow stream inflow)
    (hothers : ∀ other, other ≠ stream → arrived' other = arrived other)
    (harrived : arrived' stream = arrived stream ++ more)
    (hincoming : inflow.incoming = (l.desk.inflow stream).incoming ++ more)
    (hunbroken : inflow.aborted = false) (hwithin : arrived' stream <+: sent.getD stream [])
    (hended : inflow.ended → sent[stream]? = some (arrived' stream)) :
    l'.Stands sent arrived' results bodies held := by
  obtain ⟨⟨hvalid, hlatest, halive, hsends, hfits, hread, htaken⟩, hcaller⟩ := h
  have hsends' := hsends.setInflow hmade hothers hunbroken hwithin hended
  refine ⟨hdesk ▸ ⟨hvalid, hlatest, halive, hsends', hfits, hread, ?_⟩,
    hdesk ▸ hcaller.congr rfl rfl fun _ huse => huse⟩
  have hpassed : (l.desk.setInflow stream inflow).conn.passed = l.desk.conn.passed := rfl
  rw [hpassed, Desk.inflow_setInflow]
  split_ifs with hsame
  · rw [hsame] at htaken ⊢
    rw [harrived, hincoming, htaken]
    simp only [List.append_assoc]
  · rw [hothers _ hsame, htaken]

/-- Bytes arrive. -/
theorem Stands.arrive (h : l.Stands sent arrived results bodies held) {bytes : Bytes}
    (hallows : arrived stream ++ bytes <+: sent.getD stream []) :
    (l.step (.arrive stream bytes)).Stands sent
      (fun other => arrived other ++ l.deliveredBy (.arrive stream bytes) other)
      results bodies held := by
  have hothers : ∀ other, other ≠ stream →
      arrived other ++ l.deliveredBy (.arrive stream bytes) other = arrived other := by
    intro other hne
    rw [deliveredBy]
    cases l.streams[other]? with
    | none => exact List.append_nil _
    | some s =>
      dsimp only
      rw [if_neg fun hsame => hne hsame.1.symm, List.append_nil]
  cases hstream : l.streams[stream]? with
  | none =>
    -- before a connection is made nothing arrives there
    have hsame : (fun other => arrived other ++ l.deliveredBy (.arrive stream bytes) other) =
        arrived := by
      funext other
      by_cases hother : other = stream
      · rw [hother, deliveredBy, hstream, List.append_nil]
      · exact hothers other hother
    rw [step, modifyStream_none hstream, hsame]
    exact h
  | some s =>
    have hinflow : l.desk.inflow stream = s.inflow := inflow_of_getElem? hstream
    have hunbroken : s.aborted = false :=
      (congrArg Inflow.aborted hinflow).symm.trans (h.follows.sends.unbroken stream)
    have hmade : stream < l.streams.length := (List.getElem?_eq_some_iff.mp hstream).1
    have hdesk := desk_modifyStream hstream (·.arrive bytes)
    by_cases hended : s.ended
    · have hdelivered : l.deliveredBy (.arrive stream bytes) stream = [] := by
        simp [deliveredBy, hstream, hended]
      have hstays : s.arrive bytes = s := if_pos (.inl hended)
      refine h.setInflow hmade hdesk hothers rfl ?_ ?_ ?_ ?_
      · rw [hdelivered, hstays, hinflow, List.append_nil]
      · rw [hstays]
        exact hunbroken
      · rw [hdelivered, List.append_nil]
        exact h.follows.sends.within stream
      · rw [hdelivered, List.append_nil]
        exact fun _ => h.follows.sends.ended stream (by rw [hinflow]; exact hended)
    · have hdelivered : l.deliveredBy (.arrive stream bytes) stream = bytes := by
        simp [deliveredBy, hstream, hended, hunbroken]
      have hgrows : s.arrive bytes = { s with incoming := s.incoming ++ bytes } :=
        if_neg (by simp [hended, hunbroken])
      refine h.setInflow hmade hdesk hothers rfl ?_ ?_ ?_ ?_
      · rw [hdelivered, hgrows, hinflow]
        rfl
      · rw [hgrows]
        exact hunbroken
      · rw [hdelivered]
        exact hallows
      · rw [hgrows]
        exact fun hafter => absurd hafter hended

/-- The far side ends its direction of a connection. -/
theorem Stands.finish (h : l.Stands sent arrived results bodies held)
    (hallows : sent[stream]? = some (arrived stream)) :
    (l.step (.finish stream)).Stands sent arrived results bodies held := by
  cases hstream : l.streams[stream]? with
  | none =>
    rw [step, modifyStream_none hstream]
    exact h
  | some s =>
    have hinflow : l.desk.inflow stream = s.inflow := inflow_of_getElem? hstream
    have hmade : stream < l.streams.length := (List.getElem?_eq_some_iff.mp hstream).1
    refine h.setInflow hmade (desk_modifyStream hstream Stream.finish) (fun _ _ => rfl)
      (List.append_nil _).symm ?_ ?_ (h.follows.sends.within stream) fun _ => hallows
    · rw [hinflow, List.append_nil]
      rfl
    · exact (congrArg Inflow.aborted hinflow).symm.trans (h.follows.sends.unbroken stream)

/-- The next call begins after all others are over. -/
theorem Stands.begin (h : l.Stands sent arrived results bodies held)
    (hover : ∀ c ∈ l.calls, c.stage.isOpen = false) :
    (l.step (.begin .readFrame)).Stands sent arrived results bodies held ∧
      (l.step (.begin .readFrame)).isPending results.length := by
  have hfollows : (l.step (.begin .readFrame)).desk.Follows sent arrived results bodies held :=
    h.follows.congr rfl rfl rfl
  have hlast : ∀ {c : Call}, l.calls = results.map Call.over ++ [c] → c.stage.isOpen = false :=
    fun hcalls => hover _ (hcalls ▸ List.mem_append_right _ (List.mem_singleton_self _))
  cases h.caller with
  | idle hcalls hreaders =>
    have hcalls' : (l.step (.begin .readFrame)).calls =
        results.map Call.over ++ [{ job := .readFrame }] :=
      congrArg (· ++ [({ job := .readFrame } : Call)]) hcalls
    refine ⟨⟨hfollows, .begun hcalls' hreaders⟩, ?_⟩
    have hcall : (l.step (.begin .readFrame)).calls[results.length]? =
        some { job := .readFrame } := by
      rw [hcalls']
      simp
    rw [isPending_eq hcall]
    rfl
  | begun hcalls => exact nomatch hlast hcalls
  | @waits held source hcalls =>
    obtain ⟨part, f, hstage⟩ := Stage.exists_awaiting held source
    have hclosed := hlast hcalls
    rw [hstage] at hclosed
    contradiction

/-- A call is advanced, or there is nothing to advance. -/
theorem Stands.poll (h : l.Stands sent arrived results bodies held) (call : CallId)
    (ioFirst : Bool) :
    ∃ results' bodies' held', (l.poll call ioFirst).Stands sent arrived results' bodies' held' := by
  by_cases hpending : l.isPending call
  · obtain rfl := h.caller.eq_length hpending
    obtain ⟨result, bodies', hfollows, hcaller⟩ | ⟨⟨held', hfollows, hcaller⟩, -⟩ :=
      h.caller.poll h.follows hpending ioFirst
    · exact ⟨_, bodies', [], hfollows, hcaller⟩
    · exact ⟨results, bodies, held', hfollows, hcaller⟩
  · have hover : ∀ c, l.calls[call]? = some c → c.stage.isOpen = false := fun c hcall =>
      eq_false_of_ne_true fun hopen => hpending ((isPending_eq hcall).trans hopen)
    rw [poll_of_not_isOpen hover]
    exact ⟨results, bodies, held, h⟩

/-- Where nothing arrives everything stays as it has arrived. -/
theorem arrived_of_quiet {event : Event} (hquiet : ∀ stream, l.deliveredBy event stream = []) :
    (fun stream => arrived stream ++ l.deliveredBy event stream) = arrived :=
  funext fun stream => by rw [hquiet, List.append_nil]

theorem Stands.step {event : Event} (h : l.Stands sent arrived results bodies held)
    (hallows : l.Allows sent arrived event) :
    ∃ results' bodies' held', (l.step event).Stands sent
      (fun stream => arrived stream ++ l.deliveredBy event stream) results' bodies' held' := by
  by_cases harrives : ∃ stream bytes, event = .arrive stream bytes
  · obtain ⟨stream, bytes, rfl⟩ := harrives
    exact ⟨results, bodies, held, h.arrive hallows⟩
  have hquiet : ∀ stream, l.deliveredBy event stream = [] := by
    intro stream
    cases event with
    | arrive stream bytes => exact absurd ⟨stream, bytes, rfl⟩ harrives
    | _ => rfl
  rw [arrived_of_quiet hquiet]
  cases event with
  | arrive stream bytes => exact absurd ⟨stream, bytes, rfl⟩ harrives
  | begin job =>
    obtain ⟨rfl, hover⟩ := hallows
    exact ⟨results, bodies, held, (h.begin hover).1⟩
  | poll call ioFirst => exact h.poll call ioFirst
  | finish stream => exact ⟨results, bodies, held, h.finish hallows⟩
  | drain stream n =>
    exact ⟨results, bodies, held, h.change (.stay _) h.follows.alive
      (desk_modifyStream_self l stream fun _ => rfl)⟩
  | pollOpening => exact ⟨results, bodies, held, h.background rfl⟩
  | pollEpisode index dial ioFirst => exact ⟨results, bodies, held, h.background rfl⟩
  | elapse nanos => exact ⟨results, bodies, held, h.background rfl⟩
  | _ => contradiction

/-! ### Runs -/

theorem stands_new (config : Config) (endpoint : String) (window : Nat) (sent : List Bytes) :
    Stands { config, endpoint, window } sent (fun _ => []) [] [] [] where
  follows :=
    { valid := Conn.valid_initial
      latest := fun _ hslot => nomatch hslot
      alive := rfl
      sends := ⟨fun _ => rfl, fun _ => List.nil_prefix, fun _ hended => (nomatch hended),
        fun _ _ => ⟨rfl, rfl⟩⟩
      fits := List.forall_mem_nil _
      read := rfl
      taken := rfl }
  caller := .idle rfl rfl

theorem Stands.run {events : List Event} (h : l.Stands sent arrived results bodies held)
    (hallowed : l.Allowed sent arrived events) :
    ∃ results' bodies' held', (l.run events).Stands sent
      (fun stream => arrived stream ++ l.delivered stream events) results' bodies' held' := by
  induction events generalizing l arrived results bodies held with
  | nil =>
    simp only [delivered, List.append_nil]
    exact ⟨results, bodies, held, h⟩
  | cons event events ih =>
    obtain ⟨results', bodies', held', hstep⟩ := h.step hallowed.1
    simp only [delivered, ← List.append_assoc]
    exact ih hstep hallowed.2

theorem allowed_append {early late : List Event} (hearly : l.Allowed sent arrived early)
    (hlate : (l.run early).Allowed sent (fun stream => arrived stream ++ l.delivered stream early)
      late) : l.Allowed sent arrived (early ++ late) := by
  induction early generalizing l arrived with
  | nil =>
    simp only [delivered, List.append_nil] at hlate
    exact hlate
  | cons event early ih =>
    simp only [delivered, ← List.append_assoc] at hlate
    exact ⟨hearly.1, ih hearly.2 hlate⟩

/-! ### Going on -/

/-- One more event of a course, on a link on which so much has arrived. -/
inductive Goes (sent : List Bytes) :
    Link × (StreamId → Bytes) → Link × (StreamId → Bytes) → Prop
  | step {l : Link} {arrived : StreamId → Bytes} {event : Event}
    (hallows : l.Allows sent arrived event) :
    Goes sent (l, arrived)
      (l.step event, fun stream => arrived stream ++ l.deliveredBy event stream)

/-- Any number of them. -/
abbrev GoesOn (sent : List Bytes) :
    Link × (StreamId → Bytes) → Link × (StreamId → Bytes) → Prop :=
  Relation.ReflTransGen (Goes sent)

theorem GoesOn.exists_later {before after : Link × (StreamId → Bytes)}
    (h : GoesOn sent before after) :
    ∃ later, before.1.Allowed sent before.2 later ∧ after = (before.1.run later,
      fun stream => before.2 stream ++ before.1.delivered stream later) := by
  induction h using Relation.ReflTransGen.head_induction_on with
  | refl =>
    refine ⟨[], trivial, ?_⟩
    simp only [delivered, List.append_nil]
    rfl
  | head hgoes _ ih =>
    obtain ⟨hallows⟩ := hgoes
    obtain ⟨later, hallowed, rfl⟩ := ih
    refine ⟨_ :: later, ⟨hallows, hallowed⟩, ?_⟩
    simp only [delivered, ← List.append_assoc]
    rfl

theorem GoesOn.sound {before after : Link × (StreamId → Bytes)} (h : GoesOn sent before after)
    (hsound : before.1.Sound) :
    after.1.Sound ∧ after.1.endpoint = before.1.endpoint := by
  induction h with
  | refl => exact ⟨hsound, rfl⟩
  | tail _ hgoes ih =>
    obtain ⟨hallows⟩ := hgoes
    exact ⟨ih.1.step _, (continues_step _ _).endpoint.trans ih.2⟩

theorem goesOn_of_quiet {event : Event} (hallows : l.Allows sent arrived event)
    (hquiet : ∀ stream, l.deliveredBy event stream = []) :
    GoesOn sent (l, arrived) (l.step event, arrived) := by
  have hgoes := Goes.step hallows
  rw [arrived_of_quiet hquiet] at hgoes
  exact .single hgoes

/-- While the background goes on the caller stands where it stood. -/
theorem Stands.run_background {later : List Event} (h : l.Stands sent arrived results bodies held)
    (hlater : ∀ event ∈ later, event.isBackground) :
    GoesOn sent (l, arrived) (l.run later, arrived) ∧
      (l.run later).Stands sent arrived results bodies held ∧ (l.run later).calls = l.calls := by
  induction later generalizing l with
  | nil => exact ⟨.refl, h, rfl⟩
  | cons event later ih =>
    have hevent := hlater event (List.mem_cons_self ..)
    obtain ⟨hgoes, hstands, hcalls⟩ :=
      ih (h.background hevent) fun e he => hlater e (List.mem_cons_of_mem _ he)
    have hstep : l.Allows sent arrived event ∧ (∀ stream, l.deliveredBy event stream = []) ∧
        (l.step event).calls = l.calls := by
      cases event with
      | pollOpening => exact ⟨trivial, fun _ => rfl, calls_pollOpening l⟩
      | pollEpisode index dial ioFirst =>
        exact ⟨trivial, fun _ => rfl, calls_pollEpisode l index dial ioFirst⟩
      | elapse nanos => exact ⟨trivial, fun _ => rfl, rfl⟩
      | _ => contradiction
    exact ⟨(goesOn_of_quiet hstep.1 hstep.2.1).trans hgoes, hstands, hcalls.trans hstep.2.2⟩

/-- A caller whose calls are all over can begin another. -/
theorem Stands.exists_pending (h : l.Stands sent arrived results bodies held) :
    ∃ l', GoesOn sent (l, arrived) (l', arrived) ∧ l'.Stands sent arrived results bodies held ∧
      l'.isPending results.length := by
  by_cases hpending : l.isPending results.length
  · exact ⟨l, .refl, h, hpending⟩
  have hover : ∀ c ∈ l.calls, c.stage.isOpen = false := by
    intro c hc
    obtain ⟨call, hcall⟩ := List.getElem?_of_mem hc
    refine eq_false_of_ne_true fun hopen => ?_
    have hpending' : l.isPending call := (isPending_eq hcall).trans hopen
    exact hpending (h.caller.eq_length hpending' ▸ hpending')
  have hallows : l.Allows sent arrived (.begin .readFrame) := ⟨rfl, hover⟩
  obtain ⟨hbegun, hpending'⟩ := h.begin hover
  exact ⟨_, goesOn_of_quiet hallows fun _ => rfl, hbegun, hpending'⟩

/-- A call can be under way and have a connection to read from. -/
theorem Stands.exists_inUse (h : l.Stands sent arrived results bodies held) (hsound : l.Sound) :
    ∃ l' stream, GoesOn sent (l, arrived) (l', arrived) ∧
      l'.Stands sent arrived results bodies held ∧ l'.isPending results.length ∧
        l'.conn.InUse stream := by
  obtain ⟨l₁, hgoes₁, h₁, hpending₁⟩ := h.exists_pending
  obtain ⟨later, hlater, hgate⟩ := (hgoes₁.sound hsound).1.opens h₁.follows.alive
  obtain ⟨hgoes₂, h₂, hcalls₂⟩ := h₁.run_background hlater
  obtain ⟨stream, huse⟩ := Conn.exists_inUse h₂.follows.valid h₂.follows.alive hgate
  refine ⟨_, stream, hgoes₁.trans hgoes₂, h₂, ?_, huse⟩
  rw [isPending, hcalls₂]
  exact hpending₁

/-- The far side can send what is left on a connection, and end it. -/
theorem Stands.exists_ended (h : l.Stands sent arrived results bodies held) {bytes : Bytes}
    (huse : l.conn.InUse stream) (hsent : sent[stream]? = some bytes) :
    ∃ l' arrived', GoesOn sent (l, arrived) (l', arrived') ∧
      l'.Stands sent arrived' results bodies held ∧ l'.calls = l.calls ∧ l'.conn = l.conn ∧
        (l'.inflow stream).ended := by
  by_cases hended : (l.inflow stream).ended
  · exact ⟨l, arrived, .refl, h, rfl, rfl, hended⟩
  obtain ⟨left, rfl⟩ := h.follows.exists_left hsent
  have hmade : stream < l.streams.length := h.follows.valid.made stream huse.2.2
  have hstream : l.streams[stream]? = some l.streams[stream] := List.getElem?_eq_getElem hmade
  have hinflow : l.inflow stream = l.streams[stream].inflow := inflow_of_getElem? hstream
  have hunbroken : l.streams[stream].aborted = false :=
    (congrArg Inflow.aborted hinflow).symm.trans (h.follows.sends.unbroken stream)
  rw [hinflow] at hended
  have hended : ¬l.streams[stream].ended := hended
  -- what is left arrives, and then the connection ends
  have harrive : l.Allows sent arrived (.arrive stream left) := by
    rw [Allows, List.getD_eq_getElem?_getD, hsent]
    exact List.prefix_refl _
  have hdelivered : l.deliveredBy (.arrive stream left) stream = left := by
    simp [deliveredBy, hstream, hended, hunbroken]
  let l₁ := l.step (.arrive stream left)
  let arrived₁ := fun other => arrived other ++ l.deliveredBy (.arrive stream left) other
  have h₁ : l₁.Stands sent arrived₁ results bodies held := h.arrive harrive
  have hfinish : l₁.Allows sent arrived₁ (.finish stream) :=
    hsent.trans (congrArg (fun more => some (arrived stream ++ more)) hdelivered.symm)
  refine ⟨l₁.step (.finish stream), arrived₁,
    .trans (.single (.step harrive)) (goesOn_of_quiet hfinish fun _ => rfl), h₁.finish hfinish, rfl,
    ?_, ?_⟩
  · exact (conn_modifyStream l₁ stream _).trans (conn_modifyStream l stream _)
  · simp [inflow, l₁, Link.step, modifyStream, hstream, Stream.finish, Stream.inflow]

/-- Something is sent on the connection in use, unless all results are there. -/
theorem Stands.exists_bytes (h : l.Stands sent arrived results bodies held)
    (huse : l.conn.InUse stream)
    (hmore : results.length < (sent.flatMap (readings l.endpoint)).length) :
    ∃ bytes, sent[stream]? = some bytes := by
  refine Option.ne_none_iff_exists'.mp fun hnone => ?_
  have hpassed : l.desk.conn.passed = stream := huse.passed_eq h.follows.latest
  have hread := h.follows.read
  rw [hpassed, List.take_of_length_le (List.getElem?_eq_none_iff.mp hnone)] at hread
  rw [hread, List.length_append] at hmore
  exact Nat.not_le.mpr hmore (Nat.le_add_right _ _)

/-- As long as there is more to read the next call can come to a result. -/
theorem Stands.exists_result (h : l.Stands sent arrived results bodies held) (hsound : l.Sound)
    (hmore : results.length < (sent.flatMap (readings l.endpoint)).length) :
    ∃ l' arrived' result bodies', GoesOn sent (l, arrived) (l', arrived') ∧
      l'.Stands sent arrived' (results ++ [result]) bodies' [] := by
  obtain ⟨l₁, stream, hgoes₁, h₁, hpending₁, huse⟩ := h.exists_inUse hsound
  have hendpoint₁ : l₁.endpoint = l.endpoint := (hgoes₁.sound hsound).2
  obtain ⟨bytes, hsent⟩ := h₁.exists_bytes huse (hendpoint₁ ▸ hmore)
  obtain ⟨l₂, arrived', hgoes₂, h₂, hcalls₂, hconn₂, hended⟩ := h₁.exists_ended huse hsent
  have hpending₂ : l₂.isPending results.length := by
    rw [isPending, hcalls₂]
    exact hpending₁
  have hpoll : GoesOn sent (l₂, arrived') (l₂.step (.poll results.length false), arrived') :=
    goesOn_of_quiet trivial fun _ => rfl
  -- with the connection ended the call has nothing to wait for
  obtain ⟨result, bodies', hfollows, hcaller⟩ | ⟨-, hclosed | ⟨other, hother, hopen, -⟩⟩ :=
    h₂.caller.poll h₂.follows hpending₂ false
  · exact ⟨_, arrived', result, bodies', (hgoes₁.trans hgoes₂).trans hpoll, hfollows, hcaller⟩
  · have hgate : l₂.gateOpen := (congrArg Conn.gateOpen hconn₂).trans huse.2.1
    exact absurd hgate (ne_true_of_eq_false hclosed)
  · rw [hconn₂] at hother
    obtain rfl : other = stream := Option.some.inj (hother.2.2.symm.trans huse.2.2)
    exact absurd hended (ne_true_of_eq_false hopen)

/-- As long as there is more to read the next calls can come to results. -/
theorem Stands.exists_results {n : Nat} (h : l.Stands sent arrived results bodies held)
    (hsound : l.Sound)
    (hmore : results.length + n ≤ (sent.flatMap (readings l.endpoint)).length) :
    ∃ l' arrived' results' bodies' held', GoesOn sent (l, arrived) (l', arrived') ∧
      l'.Stands sent arrived' results' bodies' held' ∧ results'.length = results.length + n := by
  induction n with
  | zero => exact ⟨l, arrived, results, bodies, held, .refl, h, rfl⟩
  | succ n ih =>
    obtain ⟨l₁, arrived₁, results₁, bodies₁, held₁, hgoes₁, h₁, hlength₁⟩ :=
      ih (Nat.le_of_succ_le hmore)
    obtain ⟨hsound₁, hendpoint₁⟩ := hgoes₁.sound hsound
    have hmore₁ : results₁.length < (sent.flatMap (readings l₁.endpoint)).length := by
      rw [hlength₁, show l₁.endpoint = l.endpoint from hendpoint₁]
      exact hmore
    obtain ⟨l₂, arrived₂, result, bodies₂, hgoes₂, h₂⟩ := h₁.exists_result hsound₁ hmore₁
    refine ⟨l₂, arrived₂, _, bodies₂, [], hgoes₁.trans hgoes₂, h₂, ?_⟩
    rw [List.length_append, hlength₁]
    rfl

/-! ### Results -/

/-- The results so far are the first of the readings. -/
theorem Stands.readings_of_result? (h : l.Stands sent arrived results bodies held) {call : CallId}
    {result : Result} (hresult : l.result? call = some result) :
    (sent.flatMap (readings l.endpoint))[call]? = some result := by
  rw [h.caller.result?] at hresult
  obtain ⟨hlt, rfl⟩ := List.getElem?_eq_some_iff.mp hresult
  exact List.prefix_iff_getElem?.mp h.follows.results_prefix call hlt

/-- A call under way that is advanced and has no result then waits for a connection, or there is no
further frame yet in what has arrived on the one there is. -/
theorem Stands.waits (h : l.Stands sent arrived results bodies held) {call : CallId}
    {ioFirst : Bool} (hpending : l.isPending call)
    (hnone : (l.step (.poll call ioFirst)).result? call = none) :
    l.status ≠ .connected ∨ ∃ stream, l.slot = some stream ∧ (l.inflow stream).ended = false ∧
      ((sent.take stream ++ [arrived stream]).flatMap (readings l.endpoint)).length = call + 1 := by
  obtain rfl := h.caller.eq_length hpending
  obtain ⟨result, bodies', -, hcaller⟩ | ⟨-, hclosed | ⟨stream, huse, hopen, hshort⟩⟩ :=
    h.caller.poll h.follows hpending ioFirst
  · rw [Link.step, hcaller.result?, List.getElem?_concat_length] at hnone
    contradiction
  · refine .inl fun hstatus => ?_
    rw [status, if_neg (by simp [show l.disposed = false from h.follows.alive]),
      if_neg (by simp [hclosed])] at hstatus
    split_ifs at hstatus
  · refine .inr ⟨stream, huse.2.2, hopen, ?_⟩
    have hpassed : l.desk.conn.passed = stream := huse.passed_eq h.follows.latest
    have hread := h.follows.read
    have hreadings := h.follows.readings_append []
    rw [hpassed] at hread hreadings
    rw [List.append_nil, List.append_nil, show l.desk.inflow stream = l.inflow stream from rfl,
      readings_of_short hshort] at hreadings
    rw [List.flatMap_append, List.flatMap_singleton, show l.endpoint = l.desk.endpoint from rfl,
      hreadings, hread]
    simp only [List.length_append, List.length_singleton, Nat.add_assoc]

/-- All results can still be reached. -/
theorem Stands.exists_later (h : l.Stands sent arrived results bodies held) (hsound : l.Sound) :
    ∃ later, l.Allowed sent arrived later ∧
      ∀ call, (l.run later).result? call = (sent.flatMap (readings l.endpoint))[call]? := by
  have hsofar : results <+: sent.flatMap (readings l.endpoint) := h.follows.results_prefix
  have hmissing := Nat.add_sub_of_le hsofar.length_le
  obtain ⟨l', arrived', results', bodies', held', hgoes, h', hlength⟩ :=
    h.exists_results hsound (Nat.le_of_eq hmissing)
  obtain ⟨later, hallowed, hafter⟩ := hgoes.exists_later
  obtain ⟨rfl, rfl⟩ := Prod.mk.inj hafter
  have hendpoint : (l.run later).desk.endpoint = l.endpoint := (hgoes.sound hsound).2
  have hall := h'.follows.results_prefix
  rw [hendpoint] at hall
  refine ⟨later, hallowed, fun call => ?_⟩
  rw [h'.caller.result?, hall.eq_of_length (hlength.trans hmissing)]

/-- How the reads of one caller end while the far side sends some bytes on each connection and then
ends it. Their results are those of the bytes alone, one connection after the other: with what is
left of a connection after a failure no later read begins. On one connection they are a body for
each length that is possible and followed by so many bytes, and then the one failure. A read that is
advanced waits only while there is no connection, or no more than the front of a frame has arrived
for it, and whatever has happened all results can still be reached. -/
theorem run_readFrame_readings (config : Config) (endpoint : String) (window : Nat)
    (sent : List Bytes) (events : List Event) :
    let start : Link := { config, endpoint, window }
    let l := start.run events
    let expected := sent.flatMap (readings endpoint)
    start.Allowed sent (fun _ => []) events →
    ((∀ bytes : Bytes, bytes.length < 4 →
        readings endpoint bytes = [.error (.serverDisconnected endpoint)]) ∧
      ∀ (length : Int32) (behind : Bytes),
        readings endpoint (BigEndian.ofInt32 length ++ behind) =
          if 0 ≤ length.toInt ∧ length.toInt ≤ 104857600 then
            if behind.length < length.toInt.toNat then [.error (.serverDisconnected endpoint)]
            else .ok (behind.take length.toInt.toNat) ::
              readings endpoint (behind.drop length.toInt.toNat)
          else [.error (.protocol (.frameLength length endpoint))]) ∧
    (∀ call result, l.result? call = some result → expected[call]? = some result) ∧
    (∀ call ioFirst, l.isPending call → (l.step (.poll call ioFirst)).result? call = none →
      l.status ≠ .connected ∨ ∃ stream, l.slot = some stream ∧ (l.inflow stream).ended = false ∧
        ((sent.take stream ++ [start.delivered stream events]).flatMap (readings endpoint)).length =
          call + 1) ∧
    ∃ later, start.Allowed sent (fun _ => []) (events ++ later) ∧
      ∀ call, (l.run later).result? call = expected[call]? := by
  intro start l expected hallowed
  have hsound : l.Sound := (sound_new config endpoint window).run events
  have hendpoint : l.endpoint = endpoint := (start.continues_run events).endpoint
  have hexpected : sent.flatMap (readings l.endpoint) = expected := by rw [hendpoint]
  obtain ⟨results, bodies, held, h⟩ := (stands_new config endpoint window sent).run hallowed
  have h : l.Stands sent (fun stream => start.delivered stream events) results bodies held := h
  refine ⟨⟨fun _ hshort => readings_of_lt hshort, readings_ofInt32_append endpoint⟩,
    fun call result hresult => ?_, fun call ioFirst hpending hnone => ?_, ?_⟩
  · exact hexpected ▸ h.readings_of_result? hresult
  · have hwaits := h.waits hpending hnone
    rw [hendpoint] at hwaits
    exact hwaits
  · obtain ⟨later, hlater, hresults⟩ := h.exists_later hsound
    exact ⟨later, allowed_append hallowed hlater, hexpected ▸ hresults⟩

/-- A frame and the front of another on the first connection, a length that no frame has on the next
one, and an empty frame on the third, where one more read waits. -/
theorem run_readFrame_readings_cut :
    let start : Link := { config := {}, endpoint := "localhost:9092", window := 0 }
    let sent := [frame [7] ++ [0, 0], BigEndian.ofInt32 (-1) ++ [9], frame []]
    let events := connecting ++ [.begin .readFrame, .poll 0 false, .arrive 0 [0, 0], .poll 0 false,
      .arrive 0 [0, 1, 7, 0], .poll 0 false, .begin .readFrame, .poll 1 false, .arrive 0 [0],
      .poll 1 false, .finish 0, .poll 1 false, .begin .readFrame, .poll 2 false,
      .pollEpisode 1 .pending false, .pollEpisode 1 .established false,
      .arrive 1 [255, 255, 255, 255, 9], .poll 2 false, .begin .readFrame,
      .pollEpisode 2 .pending false, .pollEpisode 2 .established false, .arrive 2 [0, 0, 0, 0],
      .poll 3 false, .begin .readFrame, .poll 4 false]
    let l := start.run events
    let expected := sent.flatMap (readings "localhost:9092")
    start.Allowed sent (fun _ => []) events ∧ l.isPending 4 ∧ l.status = .connected ∧
      expected[0]? = some (.ok [7]) ∧
      expected[1]? = some (.error (.serverDisconnected "localhost:9092")) ∧
      expected[2]? = some (.error (.protocol (.frameLength (-1) "localhost:9092"))) ∧
      expected[3]? = some (.ok []) ∧ expected.length = 5 ∧
      ∃ later, start.Allowed sent (fun _ => []) (events ++ later) ∧
        ∀ call, (l.run later).result? call = expected[call]? := by
  intro start sent events l expected
  have hallowed : start.Allowed sent (fun _ => []) events := by decide
  have hpending : l.isPending 4 := by decide
  have hstatus : l.status = .connected := by decide
  obtain ⟨-, hresults, hwaits, hlater⟩ :=
    run_readFrame_readings {} "localhost:9092" 0 sent events hallowed
  have hlength : expected.length = 5 := by
    obtain ⟨stream, hslot, -, hwaiting⟩ :=
      (hwaits 4 false hpending (by decide)).resolve_left (absurd hstatus)
    obtain rfl : 2 = stream := Option.some.inj (Eq.trans (by decide) hslot)
    have hall : sent.take 2 ++ [start.delivered 2 events] = sent := by decide
    rw [hall] at hwaiting
    exact hwaiting
  exact ⟨hallowed, hpending, hstatus, hresults 0 _ (by decide), hresults 1 _ (by decide),
    hresults 2 _ (by decide), hresults 3 _ (by decide), hlength, hlater⟩

end Link

end BrokerWire
