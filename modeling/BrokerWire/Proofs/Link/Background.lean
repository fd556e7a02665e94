import BrokerWire.Proofs.Link.Touching

/-!
# What disposing waits for

Disposing waits for one background task. No episode of connecting outlasts that task
(`Conn.Covers`), so when it has stopped and the slot has been emptied, nothing comes into the slot
again (`Conn.Final`). On a link that has been given up, episodes only come to their end
(`Sound.lapses_run`).
-/

namespace BrokerWire

namespace Link

namespace Conn

/-- Whether a background task has stopped. -/
def hasStopped (c : Conn) : Task → Bool
  | .opening => c.opened
  | .episode index =>
    match c.episodes[index]? with
    | some e => e.phase = .over
    | none => true

/-- All episodes are over. -/
def Rests (c : Conn) : Prop := ∀ e ∈ c.episodes, e.isRunning = false

/-- No episode is under way once the task has stopped. -/
def Covers (c : Conn) (task : Task) : Prop := c.hasStopped task → c.Rests

/-- The link has been given up, and no episode is left that could put a connection into the empty
slot. -/
structure Final (c : Conn) : Prop where
  disposed : c.disposed
  slot : c.slot = none
  rests : c.Rests

variable {c c' : Conn} {task : Task} {loss : Option StreamId}

/-! ### The last episode -/

/-- An episode that has just started has not stopped. -/
theorem covers_launch (c : Conn) (cause : Option StreamId) :
    (c.launch cause).Covers (.episode c.episodes.length) := by
  intro hstopped
  simp [hasStopped, launch] at hstopped

/-- After the only episode under way has ended, all are over. -/
theorem Valid.rests_over (h : c.Valid) {index : Nat} {e : Episode}
    (he : c.episodes[index]? = some e) (hrunning : e.isRunning) : (c.setPhase index .over).Rests :=
  fun e' he' => eq_false_of_ne_true (List.countP_eq_zero.mp (h.running_over he hrunning) e' he')

/-- A task that covers all episodes does so as long as no further one starts. -/
theorem Covers.change (h : c.Covers task) (hvalid : c.Valid) (hchange : Change loss c c')
    (hlength : c'.episodes.length = c.episodes.length) : c'.Covers task := by
  have hlaunch : ∀ cause, (c.launch cause).episodes.length ≠ c.episodes.length := by
    intro cause
    simp [launch]
  cases hchange with
  | stay => exact h
  | @lose _ stream =>
    rw [Conn.lose] at hlength ⊢
    split_ifs at hlength ⊢
    · exact absurd hlength (hlaunch _)
    · exact h
  | openingDisposed hopened =>
    intro _ e he
    rw [(hvalid.unopened hopened).1] at he
    contradiction
  | opening => exact absurd hlength (hlaunch none)
  | @dial _ index e phase he hrunning hphase =>
    intro hstopped
    -- the task has not stopped, since there is an episode under way
    have hbefore : c.hasStopped task := by
      cases task with
      | opening => exact hstopped
      | episode n =>
        by_cases hn : n = index
        · subst hn
          simp [hasStopped, setPhase, he, hphase] at hstopped
        · simpa [hasStopped, setPhase, List.getElem?_modify, Ne.symm hn] using hstopped
    have hover := h hbefore e (List.mem_of_getElem? he)
    exact absurd hrunning (ne_true_of_eq_false hover)
  | retire he hrunning => exact fun _ => hvalid.rests_over he hrunning
  | establish he hrunning => exact fun _ => hvalid.rests_over he hrunning
  | giveUp => exact h

/-- On a link that has been given up no episode starts. -/
theorem Change.length_episodes (h : Change loss c c') (hdisposed : c.disposed) :
    c'.episodes.length = c.episodes.length := by
  cases h with
  | lose halive => exact nomatch hdisposed.symm.trans halive
  | opening _ halive => exact nomatch hdisposed.symm.trans halive
  | dial => exact List.length_modify ..
  | retire => exact List.length_modify ..
  | establish => exact List.length_modify ..
  | _ => rfl

theorem Final.change (h : c.Final) (hchange : Change loss c c') : c'.Final := by
  have hover : ∀ {index : Nat} {e : Episode}, c.episodes[index]? = some e → ¬e.isRunning :=
    fun he hrunning => nomatch hrunning.symm.trans (h.rests _ (List.mem_of_getElem? he))
  cases hchange with
  | stay => exact h
  | lose halive => exact nomatch h.disposed.symm.trans halive
  | openingDisposed => exact ⟨h.disposed, h.slot, h.rests⟩
  | opening _ halive => exact nomatch h.disposed.symm.trans halive
  | dial he hrunning => exact absurd hrunning (hover he)
  | retire he hrunning => exact absurd hrunning (hover he)
  | establish he hrunning => exact absurd hrunning (hover he)
  | giveUp hslot => exact ⟨rfl, hslot.elim (·.trans h.slot) id, h.rests⟩

end Conn

variable {l l' : Link} {task : Task}

/-! ### The task that is kept track of -/

/-- Until the link is disposed, it keeps track of a task that covers all episodes. -/
def Tracks (l : Link) : Prop :=
  l.disposals = 0 → ∃ task, l.tracked = some task ∧ l.conn.Covers task

theorem tracks_new (config : Config) (endpoint : String) (window : Nat) :
    Tracks { config, endpoint, window } :=
  fun _ => ⟨.opening, rfl, fun _ _ he => nomatch he⟩

theorem Tracks.reconnect (h : l.Tracks) (lost : Option StreamId) : (l.reconnect lost).Tracks := by
  rw [Link.reconnect]
  split_ifs
  · exact h
  · exact h
  · exact h
  · exact fun _ => ⟨_, rfl, Conn.covers_launch l.conn lost⟩

theorem Touch.tracks (h : Touch l l') (htracks : l.Tracks) : l'.Tracks := by
  cases h with
  | stream stream g =>
    rw [Tracks, conn_modifyStream]
    exact htracks
  | streams g =>
    intro hcalled
    obtain ⟨task, htask, hcovers⟩ := htracks hcalled
    exact ⟨task, htask, hcovers⟩
  | lose stream => exact htracks.reconnect (some stream)
  | _ => exact htracks

theorem Touches.tracks (h : Touches l l') (htracks : l.Tracks) : l'.Tracks := by
  induction h with
  | refl => exact htracks
  | tail _ htouch ih => exact htouch.tracks ih

theorem Tracks.pollOpening (h : l.Tracks) (hvalid : l.conn.Valid) : l.pollOpening.Tracks := by
  -- before the first attempt there is no episode to be covered
  have hopened : ¬l.opened → ({ l with opened := true } : Link).Tracks := by
    intro hopened hcalled
    obtain ⟨task, htask, -⟩ := h hcalled
    refine ⟨task, htask, fun _ e he => ?_⟩
    have hnone : l.episodes = [] := (hvalid.unopened (eq_false_of_ne_true hopened)).1
    rw [show (conn { l with opened := true }).episodes = l.episodes from rfl, hnone] at he
    contradiction
  rw [Link.pollOpening]
  split_ifs with hdone
  · exact h
  · exact hopened hdone
  · exact (hopened hdone).reconnect none
  · exact h

/-- What an episode leaves alone. -/
theorem fixed_pollEpisode (l : Link) (index : Nat) (dial : Dial) (ioFirst : Bool) :
    (l.pollEpisode index dial ioFirst).config = l.config ∧
    (l.pollEpisode index dial ioFirst).endpoint = l.endpoint ∧
    (l.pollEpisode index dial ioFirst).disposals = l.disposals ∧
    (l.pollEpisode index dial ioFirst).disposed = l.disposed ∧
    (l.pollEpisode index dial ioFirst).tracked = l.tracked ∧
    (l.pollEpisode index dial ioFirst).episodes.length = l.episodes.length := by
  rw [pollEpisode]
  cases l.episodes[index]? with
  | none => exact ⟨rfl, rfl, rfl, rfl, rfl, rfl⟩
  | some episode =>
    obtain ⟨cause, phase⟩ := episode
    cases phase with
    | spawned =>
      dsimp only [attempt]
      split_ifs <;> exact ⟨rfl, rfl, rfl, rfl, rfl, List.length_modify ..⟩
    | dialing number wait =>
      dsimp only
      split_ifs
      · exact ⟨rfl, rfl, rfl, rfl, rfl, List.length_modify ..⟩
      · cases dial with
        | pending => exact ⟨rfl, rfl, rfl, rfl, rfl, rfl⟩
        | established => exact ⟨rfl, rfl, rfl, rfl, rfl, List.length_modify ..⟩
        | refused => exact ⟨rfl, rfl, rfl, rfl, rfl, List.length_modify ..⟩
    | waiting number wait deadline =>
      dsimp only [attempt]
      split_ifs
      · exact ⟨rfl, rfl, rfl, rfl, rfl, List.length_modify ..⟩
      · exact ⟨rfl, rfl, rfl, rfl, rfl, List.length_modify ..⟩
      · exact ⟨rfl, rfl, rfl, rfl, rfl, rfl⟩
    | _ => exact ⟨rfl, rfl, rfl, rfl, rfl, rfl⟩

theorem Tracks.pollEpisode (h : l.Tracks) (hvalid : l.conn.Valid) (index : Nat) (dial : Dial)
    (ioFirst : Bool) : (l.pollEpisode index dial ioFirst).Tracks := by
  obtain ⟨-, -, hdisposals, -, htracked, hlength⟩ := l.fixed_pollEpisode index dial ioFirst
  intro hcalled
  obtain ⟨task, htask, hcovers⟩ := h (hdisposals ▸ hcalled)
  have hchange := change_pollEpisode hvalid index dial ioFirst
  exact ⟨task, htracked.trans htask, hcovers.change hvalid hchange hlength⟩

theorem disposals_enterDispose (l : Link) (call : CallId) :
    (l.enterDispose call).disposals = l.disposals + 1 := by
  rw [enterDispose]
  dsimp only
  split_ifs
  · rfl
  · cases l.tracked with
    | none => rfl
    | some task =>
      dsimp only [windDown]
      split_ifs <;> rfl

theorem Tracks.poll (h : l.Tracks) (call : CallId) (ioFirst : Bool) :
    (l.poll call ioFirst).Tracks := by
  obtain htouches | ⟨_, -, hpoll⟩ | ⟨_, _, task, deadline, -, hpoll⟩ :=
    l.touches_poll call ioFirst
  · exact htouches.tracks h
  · intro hcalled
    rw [hpoll, disposals_enterDispose] at hcalled
    contradiction
  · rw [hpoll, windDown]
    split_ifs <;> exact h

theorem Tracks.step (h : l.Tracks) (hsound : l.Sound) (event : Event) : (l.step event).Tracks := by
  cases event with
  | poll call ioFirst => exact h.poll call ioFirst
  | pollOpening => exact h.pollOpening hsound.valid
  | pollEpisode index dial ioFirst => exact h.pollEpisode hsound.valid index dial ioFirst
  | drop call => exact (touches_drop l call).tracks h
  | begin job => exact h
  | cancel call => exact h
  | elapse nanos => exact h
  | release => exact h
  | _ => exact (Touch.stream l _ _).tracks h

theorem Tracks.run (h : l.Tracks) (hsound : l.Sound) (events : List Event) :
    (l.run events).Tracks := by
  induction events generalizing l with
  | nil => exact h
  | cons event events ih => exact ih (h.step hsound event) (hsound.step event)

/-! ### Links that have been given up -/

/-- What is left of connecting once a link has been given up: nothing is announced, and episodes
that are not over stand where they stood. -/
structure Lapses (l l' : Link) : Prop where
  announcements : l'.announcements = l.announcements
  episodes : ∀ (index : Nat) (e : Episode), l'.episodes[index]? = some e →
    e.phase = .over ∨ l.episodes[index]? = some e

theorem Lapses.of_eq (hannouncements : l'.announcements = l.announcements)
    (hepisodes : l'.episodes = l.episodes) : Lapses l l' :=
  ⟨hannouncements, fun _ _ he => .inr (hepisodes ▸ he)⟩

theorem Lapses.trans {l₁ : Link} (h₁ : Lapses l l₁) (h : Lapses l₁ l') : Lapses l l' where
  announcements := h.announcements.trans h₁.announcements
  episodes index e he := (h.episodes index e he).elim .inl (h₁.episodes index e)

theorem lapses_endEpisode (l : Link) (index : Nat) : Lapses l (l.endEpisode index) where
  announcements := rfl
  episodes other e he := by
    have he : (l.episodes.modify index fun e => { e with phase := .over })[other]? = some e := he
    rw [List.getElem?_modify] at he
    obtain ⟨before, hbefore, rfl⟩ := Option.map_eq_some_iff.mp he
    split_ifs
    · exact .inl rfl
    · exact .inr hbefore

theorem Touches.lapses (h : Touches l l') (hdisposed : l.disposed) : Lapses l l' := by
  refine .of_eq (Touches.untouched h).announcements ?_
  induction h with
  | refl => rfl
  | @tail l₁ l₂ htouches htouch ih =>
    cases htouch with
    | lose stream =>
      -- on a link that has been given up no loss is noted
      have hdisposed₁ : l₁.disposed := (Touches.untouched htouches).disposed.trans hdisposed
      rw [lose, reconnect, if_pos hdisposed₁]
      exact ih
    | _ => exact ih

theorem lapses_poll (hdisposed : l.disposed) (call : CallId) (ioFirst : Bool) :
    Lapses l (l.poll call ioFirst) := by
  have hwind : ∀ l₁ task deadline, Lapses l l₁ → Lapses l (windDown l₁ call task deadline) := by
    intro l₁ task deadline h
    rw [windDown]
    split_ifs <;> exact h.trans (.of_eq rfl rfl)
  obtain htouches | ⟨_, -, hpoll⟩ | ⟨_, _, task, deadline, -, hpoll⟩ :=
    l.touches_poll call ioFirst
  · exact htouches.lapses hdisposed
  · rw [hpoll, enterDispose]
    dsimp only
    split_ifs
    · exact .of_eq rfl rfl
    · cases l.tracked with
      | none => exact .of_eq rfl rfl
      | some task => exact hwind _ _ _ (.of_eq rfl rfl)
  · rw [hpoll]
    exact hwind l task deadline (.of_eq rfl rfl)

theorem lapses_pollEpisode (hdisposed : l.disposed) (index : Nat) (dial : Dial) (ioFirst : Bool) :
    Lapses l (l.pollEpisode index dial ioFirst) := by
  have hstay : Lapses l l := .of_eq rfl rfl
  rw [pollEpisode]
  cases l.episodes[index]? with
  | none => exact hstay
  | some episode =>
    obtain ⟨cause, phase⟩ := episode
    cases phase with
    | spawned =>
      dsimp only
      rw [attempt, if_pos hdisposed]
      have hcleared : Lapses l { l with slot := none } := .of_eq rfl rfl
      exact hcleared.trans (lapses_endEpisode _ index)
    | dialing number wait =>
      dsimp only
      split_ifs with hnoticed
      · exact lapses_endEpisode l index
      · -- only a success is noticed first
        obtain ⟨-, rfl⟩ : ioFirst ∧ dial = .established := by
          by_contra hnot
          exact hnoticed ⟨hdisposed, hnot⟩
        let l₁ : Link := { l with
          streams := l.streams ++ [{}]
          slot := some l.streams.length }
        have hfilled : Lapses l l₁ := .of_eq rfl rfl
        exact hfilled.trans (lapses_endEpisode l₁ index)
    | waiting number wait deadline =>
      dsimp only
      rw [if_pos hdisposed]
      exact lapses_endEpisode l index
    | _ => exact hstay

theorem lapses_step (hdisposed : l.disposed) (event : Event) : Lapses l (l.step event) := by
  cases event with
  | poll call ioFirst => exact lapses_poll hdisposed call ioFirst
  | pollOpening =>
    rw [step, pollOpening]
    split_ifs <;> exact .of_eq rfl rfl
  | pollEpisode index dial ioFirst => exact lapses_pollEpisode hdisposed index dial ioFirst
  | drop call => exact (touches_drop l call).lapses hdisposed
  | _ => exact .of_eq rfl rfl

/-! ### What stays as it is -/

/-- What no event changes, and the count of calls to dispose the link, which only grows. -/
structure Continues (l l' : Link) : Prop where
  config : l'.config = l.config
  endpoint : l'.endpoint = l.endpoint
  disposals : l.disposals ≤ l'.disposals

theorem Untouched.continues (h : l.Untouched l') : l.Continues l' :=
  ⟨h.config, h.endpoint, Nat.le_of_eq h.disposals.symm⟩

theorem continues_enterDispose (l : Link) (call : CallId) : l.Continues (l.enterDispose call) := by
  rw [enterDispose]
  dsimp only
  split_ifs
  · exact ⟨rfl, rfl, Nat.le_succ _⟩
  · cases l.tracked with
    | none => exact ⟨rfl, rfl, Nat.le_succ _⟩
    | some task =>
      dsimp only [windDown]
      split_ifs <;> exact ⟨rfl, rfl, Nat.le_succ _⟩

theorem continues_step (l : Link) (event : Event) : l.Continues (l.step event) := by
  cases event with
  | poll call ioFirst =>
    rw [step]
    obtain htouches | ⟨_, -, hpoll⟩ | ⟨_, _, task, deadline, -, hpoll⟩ :=
      l.touches_poll call ioFirst
    · exact htouches.untouched.continues
    · exact hpoll ▸ continues_enterDispose l call
    · rw [hpoll, windDown]
      split_ifs <;> exact ⟨rfl, rfl, Nat.le_refl _⟩
  | pollOpening =>
    rw [step, pollOpening]
    split_ifs
    · exact ⟨rfl, rfl, Nat.le_refl _⟩
    · exact ⟨rfl, rfl, Nat.le_refl _⟩
    · have hreconnect := (untouched_reconnect { l with opened := true } none).continues
      exact ⟨hreconnect.config, hreconnect.endpoint, hreconnect.disposals⟩
    · exact ⟨rfl, rfl, Nat.le_refl _⟩
  | pollEpisode index dial ioFirst =>
    obtain ⟨hconfig, hendpoint, hdisposals, -⟩ := l.fixed_pollEpisode index dial ioFirst
    exact ⟨hconfig, hendpoint, Nat.le_of_eq hdisposals.symm⟩
  | drop call => exact (touches_drop l call).untouched.continues
  | _ => exact ⟨rfl, rfl, Nat.le_refl _⟩

theorem continues_run (l : Link) (events : List Event) : l.Continues (l.run events) := by
  induction events generalizing l with
  | nil => exact ⟨rfl, rfl, Nat.le_refl _⟩
  | cons event events ih =>
    have hstep := l.continues_step event
    have hrun := ih (l.step event)
    exact ⟨hrun.config.trans hstep.config, hrun.endpoint.trans hstep.endpoint,
      Nat.le_trans hstep.disposals hrun.disposals⟩

/-- A link that has been given up stays so, and nothing more is made of connecting. -/
theorem Sound.lapses_run (h : l.Sound) (hdisposed : l.disposed) (events : List Event) :
    (l.run events).disposed ∧ Lapses l (l.run events) := by
  induction events generalizing l with
  | nil => exact ⟨hdisposed, .of_eq rfl rfl⟩
  | cons event events ih =>
    obtain ⟨hrun, hlapses⟩ := ih (h.step event) ((h.change event).disposed hdisposed)
    exact ⟨hrun, (lapses_step hdisposed event).trans hlapses⟩

/-- A slot that is empty for good stays empty. -/
theorem Sound.final_run (h : l.Sound) (hfinal : l.conn.Final) (events : List Event) :
    (l.run events).conn.Final := by
  induction events generalizing l with
  | nil => exact hfinal
  | cons event events ih => exact ih (h.step event) (hfinal.change (h.change event))

/-- On a link that has been given up, a task that covers all episodes goes on to do so. -/
theorem Sound.covers_run (h : l.Sound) (hdisposed : l.disposed) (hcovers : l.conn.Covers task)
    (events : List Event) : (l.run events).conn.Covers task := by
  induction events generalizing l with
  | nil => exact hcovers
  | cons event events ih =>
    have hchange := h.change event
    exact ih (h.step event) (hchange.disposed hdisposed)
      (hcovers.change h.valid hchange (hchange.length_episodes hdisposed))

end Link

end BrokerWire
