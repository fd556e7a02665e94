import BrokerWire.Proofs.Grouping
import BrokerWire.Proofs.Link.Cancelling
import BrokerWire.Proofs.Link.Changing
import Mathlib.Data.List.Count

/-!
# One episode for each connection that is given up

Several calls can find that the same connection is lost: a read and a write at once, writes that
still wait on it, and each at a time when it is in use, when it is being replaced, or when another
has taken its place. `Link.losses` lists the connections that they give up. `Conn.Traced` ties this
list to the episodes that there have been: the first for no cause, and then one for each connection
that is given up, in the order in which that comes about. A connection that has not been given up is
the one in use, so it is the first call to give it up, and no other, that starts an episode
(`Conn.Traced.lose`).

The connection that a call gives up is the one on which it has seen the failure, but for a read that
is late: it goes on to the connection in use and gives that one up, whatever it has read on the one
that has been replaced.
-/

namespace BrokerWire

namespace Link

namespace Conn

/-- What the episodes so far have been started for, in order. -/
def causes (c : Conn) : List (Option StreamId) := c.episodes.map Episode.cause

/-- What is true of a connection when the losses that have come to light, each named once, are
these. -/
structure Traced (c : Conn) (lost : List StreamId) : Prop where
  /-- After the first episode there is one for each loss. -/
  causes : c.causes = [] ∧ lost = [] ∨ c.causes = none :: lost.map some
  /-- No loss has two episodes. -/
  nodup : lost.Nodup
  /-- What is lost has been made. -/
  made : ∀ stream ∈ lost, stream < c.made
  /-- Calls cannot use what is lost. -/
  unused : ∀ stream ∈ lost, ¬(c.gateOpen ∧ c.slot = some stream)
  /-- What is not lost they can use, unless the link has been given up. -/
  current : ∀ stream < c.made, stream ∉ lost → c.disposed = false →
    c.gateOpen ∧ c.slot = some stream
  /-- The wait before the first attempt ends with an episode. -/
  opened : c.opened → c.disposed = false → c.causes ≠ []

variable {c c' : Conn} {lost : List StreamId} {stream : StreamId} {index : Nat} {e : Episode}

theorem causes_setPhase (c : Conn) (index : Nat) (phase : Phase) :
    (c.setPhase index phase).causes = c.causes := by
  refine List.ext_getElem? fun i => ?_
  rw [causes, causes, List.getElem?_map, List.getElem?_map, setPhase, List.getElem?_modify]
  cases c.episodes[i]? with
  | none => rfl
  | some e => by_cases hi : index = i <;> simp [hi]

theorem causes_launch (c : Conn) (cause : Option StreamId) :
    (c.launch cause).causes = c.causes ++ [cause] :=
  List.map_append ..

/-! ### Losses -/

/-- A loss that has come to light before, of a connection that is being replaced or has been
replaced, makes no difference. -/
theorem Traced.lose_of_mem (h : c.Traced lost) (hvalid : c.Valid) (hmem : stream ∈ lost) :
    c.lose stream = c := by
  rw [Conn.lose, if_neg]
  rintro ⟨halive, hslot, hnone⟩
  exact h.unused stream hmem ⟨hvalid.gateOpen_of_slot halive hslot hnone, hslot⟩

/-- A loss that comes to light for the first time is that of the connection in use. -/
theorem Traced.inUse (h : c.Traced lost) (halive : c.disposed = false) (hmade : stream < c.made)
    (hnew : stream ∉ lost) : c.InUse stream :=
  ⟨halive, h.current stream hmade hnew halive⟩

theorem lose_of_inUse (hvalid : c.Valid) (huse : c.InUse stream) :
    c.lose stream = c.launch (some stream) :=
  if_pos ⟨huse.1, huse.2.2, hvalid.idle huse.2.1⟩

/-- The loss of the connection in use starts an episode, and then calls can use none. -/
theorem Traced.launch (h : c.Traced lost) (hvalid : c.Valid) (huse : c.InUse stream)
    (hnew : stream ∉ lost) : (c.launch (some stream)).Traced (lost ++ [stream]) where
  causes := by
    right
    rw [causes_launch, List.map_append]
    rcases h.causes with ⟨hnone, -⟩ | hcauses
    · exact absurd hnone (h.opened (hvalid.opened_of_slot huse.2.2) huse.1)
    · rw [hcauses]
      rfl
  nodup := (List.perm_append_singleton stream lost).nodup_iff.mpr
    (List.nodup_cons.mpr ⟨hnew, h.nodup⟩)
  made other hother := by
    rcases List.mem_append.mp hother with hold | hlast
    · exact h.made other hold
    · obtain rfl := List.mem_singleton.mp hlast
      exact hvalid.made other huse.2.2
  unused _ _ hgate := nomatch hgate.1
  current other hlt hother halive := by
    -- before its loss the connection was the one that calls could use
    obtain ⟨hold, hlast⟩ : other ∉ lost ∧ other ≠ stream := by simpa using hother
    obtain ⟨-, hslot⟩ := h.current other hlt hold halive
    exact absurd (Option.some.inj (hslot.symm.trans huse.2.2)) hlast
  opened _ _ := by
    rw [causes_launch]
    exact List.append_ne_nil_of_right_ne_nil _ (List.cons_ne_nil _ _)

/-! ### One change at a time -/

/-- A change that starts no episode and brings no connection into use, nor takes one out of it
unless the link is given up. -/
theorem Traced.keep (h : c.Traced lost) (hcauses : c'.causes = c.causes) (hmade : c'.made = c.made)
    (hunused : ∀ stream, c'.gateOpen → c'.slot = some stream →
      c.gateOpen ∧ c.slot = some stream)
    (hcurrent : c'.disposed = false → c.disposed = false ∧
      (c.gateOpen → c'.gateOpen ∧ c'.slot = c.slot) ∧ (c'.opened → c.opened)) :
    c'.Traced lost where
  causes := hcauses ▸ h.causes
  nodup := h.nodup
  made stream hmem := hmade ▸ h.made stream hmem
  unused stream hmem huse := h.unused stream hmem (hunused stream huse.1 huse.2)
  current stream hlt hnew halive := by
    obtain ⟨halive, hgate, -⟩ := hcurrent halive
    obtain ⟨hopen, hslot⟩ := h.current stream (hmade ▸ hlt) hnew halive
    obtain ⟨hopen', hslot'⟩ := hgate hopen
    exact ⟨hopen', hslot'.trans hslot⟩
  opened hopened halive := by
    obtain ⟨halive, -, hold⟩ := hcurrent halive
    exact hcauses ▸ h.opened (hold hopened) halive

theorem Traced.opening (h : c.Traced lost) (hvalid : c.Valid) (hopened : c.opened = false) :
    (Conn.launch { c with opened := true } none).Traced lost where
  causes := by
    obtain ⟨hepisodes, -, -⟩ := hvalid.unopened hopened
    have hnone : c.causes = [] := congrArg (List.map Episode.cause) hepisodes
    right
    rcases h.causes with ⟨-, hlost⟩ | hcauses
    · rw [causes_launch, hlost]
      exact congrArg (· ++ [none]) hnone
    · exact nomatch hnone.symm.trans hcauses
  nodup := h.nodup
  made := h.made
  unused _ _ hgate := nomatch hgate.1
  current stream hlt hnew halive := by
    have hgate := (h.current stream hlt hnew halive).1
    exact nomatch hgate.symm.trans (hvalid.unopened hopened).2.2
  opened _ _ := by
    rw [causes_launch]
    exact List.append_ne_nil_of_right_ne_nil _ (List.cons_ne_nil _ _)

theorem Traced.establish (h : c.Traced lost) (hvalid : c.Valid)
    (he : c.episodes[index]? = some e) (hrunning : e.isRunning) :
    (Conn.endEpisode { c with slot := some c.made, made := c.made + 1 } index).Traced lost where
  causes := (causes_setPhase c index .over).symm ▸ h.causes
  nodup := h.nodup
  made stream hmem := Nat.lt_succ_of_lt (h.made stream hmem)
  unused stream hmem huse := by
    have hlt := h.made stream hmem
    rw [← Option.some.inj huse.2] at hlt
    exact Nat.lt_irrefl _ hlt
  current stream hlt hnew halive := by
    rcases Nat.lt_succ_iff_lt_or_eq.mp hlt with hold | rfl
    · have hgate := (h.current stream hold hnew halive).1
      exact nomatch hgate.symm.trans (hvalid.not_gateOpen he hrunning)
    · exact ⟨rfl, rfl⟩
  opened hopened halive := (causes_setPhase c index .over).symm ▸ h.opened hopened halive

/-- The losses after one more may have come to light. -/
def noteLoss (lost : List StreamId) : Option StreamId → List StreamId
  | none => lost
  | some stream => if stream ∈ lost then lost else lost ++ [stream]

theorem Traced.change {loss : Option StreamId} (h : c.Traced lost) (hvalid : c.Valid)
    (hchange : Change loss c c') : c'.Traced (noteLoss lost loss) := by
  cases hchange with
  | stay => exact h
  | @lose _ stream halive hmade =>
    rw [noteLoss]
    split_ifs with hmem
    · rw [h.lose_of_mem hvalid hmem]
      exact h
    · have huse := h.inUse halive hmade hmem
      rw [lose_of_inUse hvalid huse]
      exact h.launch hvalid huse hmem
  | openingDisposed hopened hdisposed =>
    exact h.keep rfl rfl (fun _ hgate hslot => ⟨hgate, hslot⟩)
      fun halive => nomatch hdisposed.symm.trans halive
  | opening hopened halive => exact h.opening hvalid hopened
  | @dial _ index e phase he hrunning hphase =>
    have hclosed := hvalid.not_gateOpen he hrunning
    exact h.keep (causes_setPhase c index phase) rfl (fun _ _ hslot => nomatch hslot)
      fun halive => ⟨halive, fun hgate => (nomatch hgate.symm.trans hclosed), id⟩
  | @retire _ index e he hrunning hdisposed =>
    exact h.keep (causes_setPhase c index .over) rfl (fun _ _ hslot => nomatch hslot)
      fun halive => nomatch hdisposed.symm.trans halive
  | establish he hrunning => exact h.establish hvalid he hrunning
  | giveUp hslot =>
    refine h.keep rfl rfl (fun stream hgate hsome => ⟨hgate, ?_⟩) fun halive => nomatch halive
    rcases hslot with rfl | rfl
    · exact hsome
    · exact nomatch hsome

end Conn

variable {l l' : Link}

/-- An episode has been advanced. -/
def Episode.hasBegun (e : Episode) : Bool := e.phase ≠ .spawned

/-- The number of the attempt that an episode has announced last. -/
def Phase.number? : Phase → Option UInt32
  | .dialing number _ | .waiting number _ _ => some number
  | _ => none

/-- How many first attempts have been announced. -/
def firstAttempts (l : Link) : Nat := l.announcements.countP fun a => a.1 = 1

/-- Each episode that has begun has announced one first attempt. -/
structure Announced (l : Link) : Prop where
  /-- There are as many of one as of the other. -/
  counted : l.disposed = false → l.firstAttempts = l.episodes.countP Episode.hasBegun
  /-- Attempts are counted from one. -/
  numbered : ∀ e ∈ l.episodes, ∀ number, e.phase.number? = some number → number ≠ 0

theorem nextAttempt_ne_zero {number : UInt32} (h : number ≠ 0) : nextAttempt number ≠ 0 := by
  rw [nextAttempt]
  split_ifs with hlast
  · exact h
  · grind

/-- No attempt that follows another is the first one. -/
theorem nextAttempt_ne_one {number : UInt32} (h : number ≠ 0) : nextAttempt number ≠ 1 := by
  rw [nextAttempt]
  split_ifs with hlast
  · rw [hlast]
    decide
  · exact fun hone => h (by simpa using hone)

theorem firstAttempts_record (l : Link) (number : UInt32) (instant : Nat) :
    (l.record (.announced number instant)).firstAttempts =
      l.firstAttempts + if number = 1 then 1 else 0 := by
  simp [firstAttempts, announcements, record, List.countP_append, List.countP_cons]

/-- A change by which an episode may start but none goes on. -/
structure Conn.Starts (c c' : Conn) : Prop where
  episodes : c'.episodes = c.episodes ∨ ∃ cause, c'.episodes = c.episodes ++ [⟨cause, .spawned⟩]
  alive : c'.disposed = false → c.disposed = false

theorem Conn.Starts.of_eq {c c' : Conn} (h : c' = c) : c.Starts c' :=
  ⟨.inl (congrArg Conn.episodes h), fun halive => h ▸ halive⟩

theorem starts_reconnect (l : Link) (lost : Option StreamId) :
    l.conn.Starts (l.reconnect lost).conn := by
  rw [reconnect]
  split_ifs
  · exact .of_eq rfl
  · exact .of_eq rfl
  · exact .of_eq rfl
  · exact ⟨.inr ⟨lost, rfl⟩, id⟩

theorem starts_forsake (l : Link) (lost : Option StreamId) :
    l.conn.Starts (l.conn.forsake lost) := by
  cases lost with
  | none => exact .of_eq rfl
  | some stream =>
    have hconn : (l.lose stream).conn = l.conn.forsake (some stream) := conn_lose l stream
    exact hconn ▸ starts_reconnect l (some stream)

theorem Outcome.starts {call : CallId} {way : Way} {stage : Stage} {c : Conn}
    (h : Outcome l call way stage c) : l.conn.Starts c := by
  cases h with
  | loses => exact starts_forsake l way.stop
  | givesUp => exact ⟨.inl rfl, nofun⟩
  | _ => exact .of_eq rfl

theorem Announced.keep (h : l.Announced) (hannouncements : l'.announcements = l.announcements)
    (hstarts : l.conn.Starts l'.conn) : l'.Announced where
  counted halive := by
    rw [firstAttempts, hannouncements]
    refine (h.counted (hstarts.alive halive)).trans ?_
    rcases hstarts.episodes with hsame | ⟨cause, hmore⟩
    · exact congrArg (List.countP _) hsame.symm
    · rw [show l'.episodes = l.episodes ++ [⟨cause, .spawned⟩] from hmore, List.countP_append]
      rfl
  numbered e he number hnumber := by
    rw [show l'.episodes = l'.conn.episodes from rfl] at he
    rcases hstarts.episodes with hsame | ⟨cause, hmore⟩
    · rw [hsame] at he
      exact h.numbered e he number hnumber
    · rw [hmore] at he
      rcases List.mem_append.mp he with hold | hnew
      · exact h.numbered e hold number hnumber
      · obtain rfl := List.mem_singleton.mp hnew
        exact nomatch hnumber

section Episode

variable {index : Nat} {e : Episode} (he : l.episodes[index]? = some e)
include he

/-- An episode goes on, and if it has not begun before, it announces its first attempt. -/
theorem Announced.goOn (h : l.Announced) {phase : Phase}
    (hepisodes : l'.episodes = (l.setPhase index phase).episodes) (hphase : phase ≠ .spawned)
    (hnumber : ∀ number, phase.number? = some number → number ≠ 0)
    (hdisposed : l'.disposed = l.disposed)
    (hfirst : l.disposed = false →
      l'.firstAttempts + (if e.hasBegun then 1 else 0) = l.firstAttempts + 1) : l'.Announced where
  counted halive := by
    rw [hdisposed] at halive
    have hmodify := Conn.countP_modify (p := Episode.hasBegun) (f := fun e => { e with phase }) he
    have hafter : Episode.hasBegun { e with phase } = true := by simpa [Episode.hasBegun]
    rw [if_pos hafter] at hmodify
    have hcounted := h.counted halive
    have hfirst := hfirst halive
    have hsame : l'.episodes.countP Episode.hasBegun =
        (l.episodes.modify index fun e => { e with phase }).countP Episode.hasBegun :=
      congrArg (List.countP _) hepisodes
    omega
  numbered e' he' number hsome := by
    obtain ⟨i, hi⟩ := List.getElem?_of_mem he'
    rw [hepisodes, setPhase, List.getElem?_modify] at hi
    obtain ⟨e₀, he₀, rfl⟩ := Option.map_eq_some_iff.mp hi
    split_ifs at hsome
    · exact hnumber number hsome
    · exact h.numbered e₀ (List.mem_of_getElem? he₀) number hsome

theorem Announced.endEpisode (h : l.Announced) (hbegun : l.disposed = false → e.hasBegun)
    (hepisodes : l'.episodes = (l.endEpisode index).episodes)
    (hannouncements : l'.announcements = l.announcements) (hdisposed : l'.disposed = l.disposed) :
    l'.Announced :=
  h.goOn he hepisodes (fun hsame => nomatch hsame) (fun _ hnone => nomatch hnone) hdisposed
    fun halive => by rw [firstAttempts, hannouncements, if_pos (hbegun halive), firstAttempts]

theorem Announced.attempt (h : l.Announced) {number : UInt32} (wait : Duration)
    (hnumber : number ≠ 0) (hfirst : number = 1 ↔ e.hasBegun = false) :
    (l.attempt index number wait).Announced := by
  rw [Link.attempt]
  split_ifs with hdisposed
  · exact h.endEpisode he (fun halive => Bool.noConfusion (hdisposed.symm.trans halive)) rfl rfl rfl
  · refine h.goOn he rfl (fun hsame => by contradiction) (fun number' hsome => ?_) rfl fun _ => ?_
    · obtain rfl := Option.some.inj hsome
      exact hnumber
    · have hrecord := firstAttempts_record l number l.clock
      rw [show ((l.record (.announced number l.clock)).setPhase index (.dialing number wait)
        ).firstAttempts = _ from hrecord]
      by_cases hone : number = 1
      · simp [hone, hfirst.mp hone]
      · have hbegun : e.hasBegun := by simpa using hfirst.not.mp hone
        simp [hone, hbegun]

end Episode

theorem Announced.pollEpisode (h : l.Announced) (index : Nat) (dial : Dial) (ioFirst : Bool) :
    (l.pollEpisode index dial ioFirst).Announced := by
  rw [Link.pollEpisode]
  cases he : l.episodes[index]? with
  | none => exact h
  | some e =>
    obtain ⟨cause, phase⟩ := e
    have hnumbered := h.numbered _ (List.mem_of_getElem? he)
    cases phase with
    | spawned =>
      have hcleared : ({ l with slot := none } : Link).Announced := ⟨h.counted, h.numbered⟩
      exact Announced.attempt (l := { l with slot := none }) he hcleared _ (by decide)
        (iff_of_true rfl rfl)
    | dialing number wait =>
      dsimp only
      split_ifs
      · exact h.endEpisode he (fun _ => rfl) rfl rfl rfl
      · cases dial with
        | pending => exact h
        | established => exact h.endEpisode he (fun _ => rfl) rfl rfl rfl
        | refused =>
          exact h.goOn he rfl (fun hsame => by contradiction) hnumbered rfl fun _ => rfl
    | waiting number wait deadline =>
      have hnumber : number ≠ 0 := hnumbered number rfl
      dsimp only
      split_ifs
      · exact h.endEpisode he (fun _ => rfl) rfl rfl rfl
      · exact h.attempt he _ (nextAttempt_ne_zero hnumber)
          (iff_of_false (nextAttempt_ne_one hnumber) (fun hsame => by contradiction))
      · exact h
    | _ => exact h

theorem announcements_drop (l : Link) (call : CallId) :
    (l.drop call).announcements = l.announcements := by
  rw [drop]
  split
  · rfl
  · split <;> rfl

/-- Nothing is announced, and at most an episode starts. -/
structure Rouses (l l' : Link) : Prop where
  announcements : l'.announcements = l.announcements
  starts : l.conn.Starts l'.conn

theorem Sound.rouses_poll (h : l.Sound) (call : CallId) (ioFirst : Bool) :
    l.Rouses (l.poll call ioFirst) := by
  obtain hover | ⟨c, hcall, hopen⟩ := l.over_or_open call
  · rw [poll_of_not_isOpen hover]
    exact ⟨rfl, .of_eq rfl⟩
  have hends := h.ends hcall hopen ioFirst
  obtain ⟨stage, hcalls, houtcome⟩ := hends.outcome
  exact ⟨hends.announcements, houtcome.starts⟩

theorem rouses_pollOpening (l : Link) : l.Rouses l.pollOpening := by
  rw [pollOpening]
  split_ifs
  · exact ⟨rfl, .of_eq rfl⟩
  · exact ⟨rfl, .inl rfl, id⟩
  · obtain ⟨hepisodes, halive⟩ := starts_reconnect { l with opened := true } none
    exact ⟨announcements_reconnect _ none, hepisodes, halive⟩
  · exact ⟨rfl, .of_eq rfl⟩

/-- Only an episode that is advanced announces anything. -/
theorem Sound.rouses_step (h : l.Sound) (event : Event)
    (hevent : ∀ index dial ioFirst, event ≠ .pollEpisode index dial ioFirst) :
    l.Rouses (l.step event) := by
  cases event with
  | pollEpisode index dial ioFirst => exact absurd rfl (hevent index dial ioFirst)
  | poll call ioFirst => exact h.rouses_poll call ioFirst
  | pollOpening => exact l.rouses_pollOpening
  | drop call => exact ⟨announcements_drop l call, .of_eq (conn_drop l call)⟩
  | release => exact ⟨rfl, .inl rfl, nofun⟩
  | begin job => exact ⟨rfl, .of_eq rfl⟩
  | cancel call => exact ⟨rfl, .of_eq rfl⟩
  | elapse nanos => exact ⟨rfl, .of_eq rfl⟩
  | _ => exact ⟨rfl, .of_eq (conn_modifyStream l _ _)⟩

theorem Announced.step (h : l.Announced) (hsound : l.Sound) (event : Event) :
    (l.step event).Announced := by
  by_cases hepisode : ∃ index dial ioFirst, event = .pollEpisode index dial ioFirst
  · obtain ⟨index, dial, ioFirst, rfl⟩ := hepisode
    exact h.pollEpisode index dial ioFirst
  · have hrouses := hsound.rouses_step event fun index dial ioFirst hevent =>
      hepisode ⟨index, dial, ioFirst, hevent⟩
    exact h.keep hrouses.announcements hrouses.starts

theorem Announced.run (h : l.Announced) (hsound : l.Sound) (events : List Event) :
    (l.run events).Announced := by
  induction events generalizing l with
  | nil => exact h
  | cons event events ih => exact ih (h.step hsound event) (hsound.step event)

end Link

end BrokerWire
