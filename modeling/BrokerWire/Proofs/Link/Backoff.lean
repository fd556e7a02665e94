import BrokerWire.Proofs.Link.Background
import BrokerWire.Proofs.Link.Losing
import Mathlib.Algebra.Order.Ring.Nat
import Mathlib.Data.Nat.Find
import Mathlib.Order.Bounds.Basic

/-!
# Attempts to connect

An episode of connecting announces its attempts as numbers one, two and so on, and waits after each
failed one. `Config.wait` is how long, step by step, and `Config.nanos_wait` the same in one
formula: the first wait times a power of the multiplier, and from the first power on that would be
too long for a duration, always the last one that is not. `run_backoff` is about the attempts and
the failures of every episode in any course of events.
-/

namespace BrokerWire

namespace Link

namespace Config

variable (c : Config)

/-- The wait after a failed attempt; the first attempt has index zero. -/
def wait : Nat → Duration
  | 0 => c.backoff
  | i + 1 => (wait i).backoff c.multiplier

/-- The first wait times a power of the multiplier, as a number that has no greatest. -/
def product (e : Nat) : Nat := c.backoff.nanos * c.multiplier.toNat ^ e

/-- There are durations for all powers of the multiplier up to this one. -/
def Fits (j : Nat) : Prop := ∀ e ≤ j, c.product e ≤ longestNanos

instance : DecidablePred c.Fits := fun _ => Nat.decidableBallLE _ _

/-- The power of the multiplier that goes into the wait after a failed attempt. -/
def exponent (i : Nat) : Nat := Nat.findGreatest c.Fits i

theorem fits_zero : c.Fits 0 := by
  intro e he
  obtain rfl := Nat.le_zero.mp he
  rw [product, pow_zero, Nat.mul_one]
  exact c.backoff.nanos_le

theorem fits_succ {j : Nat} : c.Fits (j + 1) ↔ c.Fits j ∧ c.product (j + 1) ≤ longestNanos := by
  simp only [Fits, Nat.le_succ_iff, or_imp, forall_and, forall_eq]

theorem isGreatest_exponent (i : Nat) : IsGreatest {j | j ≤ i ∧ c.Fits j} (c.exponent i) :=
  ⟨⟨Nat.findGreatest_le i, Nat.findGreatest_spec (Nat.zero_le i) c.fits_zero⟩,
    fun _ hj => Nat.le_findGreatest hj.1 hj.2⟩

theorem product_succ (e : Nat) : c.product (e + 1) = c.product e * c.multiplier.toNat := by
  rw [product, product, pow_succ, Nat.mul_assoc]

/-- The next power is used if there is a duration for it and one for each before. -/
theorem exponent_succ (i : Nat) : c.exponent (i + 1) =
    if c.product (c.exponent i + 1) ≤ longestNanos then c.exponent i + 1 else c.exponent i := by
  obtain ⟨⟨hle, hfits⟩, hgreatest⟩ := c.isGreatest_exponent i
  split_ifs with hproduct
  · have hnext : c.Fits (c.exponent i + 1) := c.fits_succ.mpr ⟨hfits, hproduct⟩
    have hall : c.exponent i = i := by
      by_contra hne
      exact absurd (hgreatest ⟨by omega, hnext⟩) (by omega)
    rw [hall] at hnext ⊢
    exact Nat.findGreatest_eq hnext
  · refine Nat.findGreatest_of_not fun hnext => hproduct (hnext _ ?_)
    exact Nat.succ_le_succ hle

/-- The wait after a failed attempt. -/
theorem nanos_wait (i : Nat) : (c.wait i).nanos = c.product (c.exponent i) := by
  induction i with
  | zero => simp [wait, product, exponent]
  | succ i ih =>
    rw [wait, Duration.backoff, Duration.times?, exponent_succ]
    simp only [ih, ← product_succ]
    split_ifs
    · rfl
    · exact ih

/-- With a multiplier of at least one, no wait is shorter than the one before. -/
theorem nanos_wait_le (h : 1 ≤ c.multiplier.toNat) (i : Nat) :
    (c.wait i).nanos ≤ (c.wait (i + 1)).nanos := by
  rw [nanos_wait, nanos_wait]
  refine Nat.mul_le_mul_left _ (Nat.pow_le_pow_right h ?_)
  exact Nat.findGreatest_mono_right _ (Nat.le_succ i)

end Config

/-! ### Attempts -/

/-- The number of an attempt; the first one has index zero. -/
def attemptNumber : Nat → UInt32
  | 0 => 1
  | i + 1 => nextAttempt (attemptNumber i)

theorem toNat_nextAttempt (number : UInt32) :
    (nextAttempt number).toNat = min (number.toNat + 1) 4294967295 := by
  rw [nextAttempt]
  split_ifs with hlast
  · rw [hlast]
    rfl
  · have hne : number.toNat ≠ 4294967295 := fun h => hlast (UInt32.toNat_inj.mp h)
    have hlt := number.toNat_lt
    rw [UInt32.toNat_add]
    simp
    omega

theorem toNat_attemptNumber (i : Nat) : (attemptNumber i).toNat = min (i + 1) 4294967295 := by
  induction i with
  | zero => rfl
  | succ i ih =>
    rw [attemptNumber, toNat_nextAttempt, ih]
    omega

variable {l l' : Link} {index : Nat} {event : Event} {phase : Phase}
  {told : List (UInt32 × Nat)} {failed : List Nat}

/-- An attempt is under way. -/
def Phase.isDialing : Phase → Bool
  | .dialing _ _ => true
  | _ => false

/-- Where an episode stands. One that is yet to start stands where it will start. -/
def phaseAt (l : Link) (index : Nat) : Phase :=
  (l.episodes[index]?.map Episode.phase).getD .spawned

/-- The attempt that an event announces, with its instant, if the event advances the episode. -/
def announcedBy (index : Nat) (l : Link) : Event → List (UInt32 × Nat)
  | .pollEpisode i dial ioFirst =>
    if i = index then
      (l.pollEpisode i dial ioFirst).announcements.drop l.announcements.length
    else []
  | _ => []

/-- The instant of the event if it lets an attempt of the episode fail. -/
def failedBy (index : Nat) (l : Link) : Event → List Nat
  | .pollEpisode i .refused _ =>
    if i = index ∧ (l.phaseAt index).isDialing ∧ l.disposed = false then [l.clock] else []
  | _ => []

/-- The attempts that an episode announces in a course of events, with their instants. -/
def attempts (l : Link) (index : Nat) (events : List Event) : List (UInt32 × Nat) :=
  l.collect (announcedBy index) events

/-- The instants at which attempts of an episode fail in a course of events. -/
def failures (l : Link) (index : Nat) (events : List Event) : List Nat :=
  l.collect (failedBy index) events

/-- How an episode goes on at an instant, with what it announces and when its attempts fail. -/
inductive Phase.Goes (c : Config) (clock : Nat) (disposed : Bool) :
    Phase → Phase → List (UInt32 × Nat) → List Nat → Prop where
  | stay (phase : Phase) : Goes c clock disposed phase phase [] []
  | begin : Goes c clock disposed .spawned (.dialing 1 c.backoff) [(1, clock)] []
  | fail (number : UInt32) (wait : Duration) : Goes c clock disposed (.dialing number wait)
      (.waiting number wait (clock + wait.nanos)) [] [clock]
  | again (number : UInt32) (wait : Duration) {deadline : Nat} (hdue : deadline ≤ clock) :
    Goes c clock disposed (.waiting number wait deadline)
      (.dialing (nextAttempt number) (wait.backoff c.multiplier)) [(nextAttempt number, clock)] []
  | finish (phase : Phase) (h : disposed = false → phase.isDialing) :
    Goes c clock disposed phase .over [] []

theorem announcements_attempt (halive : l.disposed = false) (number : UInt32) (wait : Duration) :
    (l.attempt index number wait).announcements = l.announcements ++ [(number, l.clock)] := by
  rw [attempt, if_neg (by simp [halive])]
  simp [announcements, record, setPhase]

/-- An episode that is over announces nothing. -/
theorem Phase.Goes.told_eq_nil {c : Config} {clock : Nat} {disposed : Bool}
    (h : Phase.over.Goes c clock disposed phase told failed) : told = [] := by
  cases h <;> rfl

theorem phaseAt_of_getElem? {e : Episode} (he : l.episodes[index]? = some e) :
    l.phaseAt index = e.phase := by
  rw [phaseAt, he]
  rfl

theorem phaseAt_setPhase {e : Episode} (he : l.episodes[index]? = some e) (phase : Phase)
    (other : Nat) :
    (l.setPhase index phase).phaseAt other = if other = index then phase else l.phaseAt other := by
  rw [phaseAt, setPhase, List.getElem?_modify]
  split_ifs with hsame hother hother
  · simp [hsame ▸ he]
  · exact absurd hsame.symm hother
  · exact absurd hother.symm hsame
  · simp [phaseAt]

/-- Only attempts that are under way fail. -/
theorem failedBy_eq_nil (h : (l.phaseAt index).isDialing = false) (event : Event) :
    l.failedBy index event = [] := by
  unfold failedBy
  split
  · exact if_neg fun hfails => Bool.false_ne_true (h.symm.trans hfails.2.1)
  · rfl

/-- An episode goes on, and no other does. -/
def MovesOn (l : Link) (index : Nat) (failed : List Nat) (l' : Link) : Prop :=
  ∃ told, l'.announcements = l.announcements ++ told ∧
    (∀ other ≠ index, l'.phaseAt other = l.phaseAt other) ∧
    Phase.Goes l.config l.clock l.disposed (l.phaseAt index) (l'.phaseAt index) told failed

theorem movesOn_refl (l : Link) (index : Nat) : l.MovesOn index [] l :=
  ⟨[], (List.append_nil _).symm, fun _ _ => rfl, .stay _⟩

section Episode

variable {e : Episode} (he : l.episodes[index]? = some e)
include he

theorem Phase.Goes.movesOn (h : Phase.Goes l.config l.clock l.disposed e.phase phase told failed)
    (htold : l'.announcements = l.announcements ++ told)
    (hepisodes : l'.episodes = (l.setPhase index phase).episodes) : l.MovesOn index failed l' := by
  have hphases (other : Nat) : l'.phaseAt other = if other = index then phase
      else l.phaseAt other := by
    rw [← phaseAt_setPhase he, phaseAt, phaseAt, hepisodes]
  refine ⟨told, htold, fun other hne => (hphases other).trans (if_neg hne), ?_⟩
  rw [hphases index, if_pos rfl, phaseAt_of_getElem? he]
  exact h

theorem movesOn_endEpisode (h : l.disposed = false → e.phase.isDialing) :
    l.MovesOn index [] (l.endEpisode index) :=
  (Phase.Goes.finish e.phase h).movesOn he (List.append_nil _).symm rfl

theorem movesOn_attempt {number : UInt32} {wait : Duration}
    (h : Phase.Goes l.config l.clock l.disposed e.phase (.dialing number wait)
      [(number, l.clock)] []) : l.MovesOn index [] (l.attempt index number wait) := by
  by_cases hdisposed : l.disposed
  · rw [attempt, if_pos hdisposed]
    exact movesOn_endEpisode he fun halive =>
      absurd (halive.symm.trans hdisposed) Bool.false_ne_true
  · refine h.movesOn he (announcements_attempt (by simpa using hdisposed) number wait) ?_
    rw [attempt, if_neg hdisposed]
    rfl

end Episode

/-- An episode that is advanced stays where it is, goes on or ends. -/
theorem movesOn_pollEpisode (l : Link) (index : Nat) (dial : Dial) (ioFirst : Bool) :
    l.MovesOn index (l.failedBy index (.pollEpisode index dial ioFirst))
      (l.pollEpisode index dial ioFirst) := by
  rw [pollEpisode]
  cases he : l.episodes[index]? with
  | none =>
    rw [failedBy_eq_nil (by rw [phaseAt, he]; rfl)]
    exact l.movesOn_refl index
  | some e =>
    obtain ⟨cause, phase⟩ := e
    have hphase : l.phaseAt index = phase := phaseAt_of_getElem? he
    cases phase with
    | spawned =>
      rw [failedBy_eq_nil (by rw [hphase]; rfl)]
      exact movesOn_attempt (l := { l with slot := none }) he .begin
    | dialing number wait =>
      cases dial with
      | pending =>
        change l.MovesOn index [] (if _ then _ else _)
        split
        · exact movesOn_endEpisode he fun _ => rfl
        · exact l.movesOn_refl index
      | established =>
        change l.MovesOn index [] (if _ then _ else _)
        split
        · exact movesOn_endEpisode he fun _ => rfl
        · exact (Phase.Goes.finish _ fun _ => rfl).movesOn he (List.append_nil _).symm rfl
      | refused =>
        have hfailed : l.failedBy index (.pollEpisode index .refused ioFirst) =
            if l.disposed = false then [l.clock] else [] :=
          if_congr (by simp [hphase, Phase.isDialing]) rfl rfl
        rw [hfailed]
        dsimp only
        by_cases hdisposed : l.disposed
        · rw [if_neg (by simp [hdisposed]), if_pos ⟨hdisposed, by simp⟩]
          exact movesOn_endEpisode he fun _ => rfl
        · rw [if_pos (by simpa using hdisposed), if_neg fun h => hdisposed h.1]
          exact (Phase.Goes.fail number wait).movesOn he (List.append_nil _).symm rfl
    | waiting number wait deadline =>
      rw [failedBy_eq_nil (by rw [hphase]; rfl)]
      dsimp only
      split_ifs with hdisposed hdue
      · exact movesOn_endEpisode he fun halive =>
          absurd (halive.symm.trans hdisposed) Bool.false_ne_true
      · exact movesOn_attempt he (.again number wait hdue)
      · exact l.movesOn_refl index
    | _ =>
      rw [failedBy_eq_nil (by rw [hphase]; rfl)]
      exact l.movesOn_refl index

/-! ### The schedule -/

/-- Attempts and failures of an episode that keep to the schedule. -/
structure OnSchedule (c : Config) (told : List (UInt32 × Nat)) (failed : List Nat) : Prop where
  /-- The attempts are numbered one after the other. -/
  numbered : ∀ (i : Nat) (a : UInt32 × Nat), told[i]? = some a → a.1 = attemptNumber i
  /-- After a failure the wait is over before there is a further attempt. -/
  spaced : ∀ (i instant : Nat) (a : UInt32 × Nat), failed[i]? = some instant →
    told[i + 1]? = some a → instant + (c.wait i).nanos ≤ a.2

/-- Where an episode stands after these attempts and failures. -/
inductive Phase.Follows (c : Config) (disposed : Bool) :
    Phase → List (UInt32 × Nat) → List Nat → Prop where
  | spawned : Follows c disposed .spawned [] []
  | dialing {told : List (UInt32 × Nat)} {failed : List Nat}
    (h : told.length = failed.length + 1) :
    Follows c disposed (.dialing (attemptNumber failed.length) (c.wait failed.length)) told failed
  | waiting {told : List (UInt32 × Nat)} {failed : List Nat} (instant : Nat)
    (h : told.length = failed.length + 1) :
    Follows c disposed (.waiting (attemptNumber failed.length) (c.wait failed.length)
      (instant + (c.wait failed.length).nanos)) told (failed ++ [instant])
  | ended {told : List (UInt32 × Nat)} {failed : List Nat} (hle : failed.length ≤ told.length)
    (hle' : told.length ≤ failed.length + 1)
    (h : disposed = false → told.length = failed.length + 1) : Follows c disposed .over told failed

variable {c : Config} {disposed disposed' : Bool} {phase' : Phase} {new : List (UInt32 × Nat)}
  {newly : List Nat} {clock : Nat}

theorem Phase.Follows.mono (h : phase.Follows c disposed told failed)
    (hdisposed : disposed' = false → disposed = false) :
    phase.Follows c disposed' told failed := by
  cases h with
  | spawned => exact .spawned
  | dialing h => exact .dialing h
  | waiting instant h => exact .waiting instant h
  | ended hle hle' h => exact .ended hle hle' fun halive => h (hdisposed halive)

theorem Phase.Follows.length (h : phase.Follows c disposed told failed) :
    failed.length ≤ told.length ∧ told.length ≤ failed.length + 1 := by
  cases h with
  | spawned => exact ⟨Nat.le_refl 0, Nat.zero_le 1⟩
  | dialing h => omega
  | waiting instant h =>
    rw [List.length_append, List.length_singleton]
    omega
  | ended hle hle' => exact ⟨hle, hle'⟩

theorem Phase.Follows.told_eq_nil (h : Phase.spawned.Follows c disposed told failed) :
    told = [] := by
  cases h
  rfl

theorem of_getElem?_concat {α : Type} {as : List α} {a b : α} {i : Nat}
    (h : (as ++ [a])[i]? = some b) : as[i]? = some b ∨ i = as.length ∧ b = a := by
  rcases Nat.lt_trichotomy i as.length with hlt | rfl | hgt
  · exact .inl (List.getElem?_append_left hlt ▸ h)
  · rw [List.getElem?_concat_length] at h
    exact .inr ⟨rfl, (Option.some.inj h).symm⟩
  · rw [List.getElem?_eq_none (by simpa using Nat.succ_le_of_lt hgt)] at h
    contradiction

/-- A further attempt is announced. -/
theorem OnSchedule.announce (h : OnSchedule c told failed) {a : UInt32 × Nat}
    (hnumber : a.1 = attemptNumber told.length)
    (hdue : ∀ i instant, i + 1 = told.length → failed[i]? = some instant →
      instant + (c.wait i).nanos ≤ a.2) : OnSchedule c (told ++ [a]) failed where
  numbered i b hb := by
    rcases of_getElem?_concat hb with hold | ⟨rfl, rfl⟩
    · exact h.numbered i b hold
    · exact hnumber
  spaced i instant b hinstant hb := by
    rcases of_getElem?_concat hb with hold | ⟨hlast, rfl⟩
    · exact h.spaced i instant b hinstant hold
    · exact hdue i instant hlast hinstant

/-- The last attempt fails. -/
theorem OnSchedule.fail (h : OnSchedule c told failed) (hlength : told.length ≤ failed.length + 1)
    (instant : Nat) : OnSchedule c told (failed ++ [instant]) where
  numbered := h.numbered
  spaced i instant' a hinstant ha := by
    rcases of_getElem?_concat hinstant with hold | ⟨rfl, -⟩
    · exact h.spaced i instant' a hold ha
    · rw [List.getElem?_eq_none hlength] at ha
      contradiction

/-- An episode that goes on keeps to the schedule. -/
theorem Phase.Goes.follows (h : phase.Goes c clock disposed phase' new newly)
    (hfollows : phase.Follows c disposed told failed) (hschedule : OnSchedule c told failed) :
    phase'.Follows c disposed (told ++ new) (failed ++ newly) ∧
      OnSchedule c (told ++ new) (failed ++ newly) := by
  cases h with
  | stay =>
    rw [List.append_nil, List.append_nil]
    exact ⟨hfollows, hschedule⟩
  | begin =>
    cases hfollows
    have hdialing : Phase.Follows c disposed
        (.dialing (attemptNumber [].length) (c.wait [].length)) [(1, clock)] [] := .dialing rfl
    refine ⟨hdialing, hschedule.announce rfl fun i instant hlast => ?_⟩
    contradiction
  | fail number wait =>
    cases hfollows with
    | dialing hlength =>
      rw [List.append_nil]
      exact ⟨.waiting clock hlength, hschedule.fail (Nat.le_of_eq hlength) clock⟩
  | again number wait hdue =>
    cases hfollows with
    | @waiting _ earlier instant hlength =>
      rw [List.append_nil]
      have hearlier : (earlier ++ [instant]).length = earlier.length + 1 := by simp
      have hdialing : Phase.Follows c disposed (.dialing
          (attemptNumber (earlier ++ [instant]).length) (c.wait (earlier ++ [instant]).length))
          (told ++ [(nextAttempt (attemptNumber earlier.length), clock)]) (earlier ++ [instant]) :=
        .dialing (by simp [hlength])
      rw [hearlier] at hdialing
      refine ⟨hdialing, hschedule.announce ?_ fun i instant' hlast hinstant => ?_⟩
      · rw [hlength]
        rfl
      · obtain rfl : i = earlier.length := by omega
        rw [List.getElem?_concat_length] at hinstant
        obtain rfl := Option.some.inj hinstant
        exact hdue
  | finish phase hended =>
    rw [List.append_nil, List.append_nil]
    obtain ⟨hle, hle'⟩ := hfollows.length
    refine ⟨.ended hle hle' fun halive => ?_, hschedule⟩
    have hdialing := hended halive
    cases hfollows with
    | dialing hlength => exact hlength
    | ended _ _ hlength => exact hlength halive
    | _ => contradiction

/-! ### Any course of events -/

namespace Conn

variable {c c' : Conn} {loss : Option StreamId}

/-- An episode under way is the last one there has been. -/
def RunsLast (c : Conn) : Prop :=
  ∀ (index : Nat) (e : Episode), c.episodes[index]? = some e → e.isRunning →
    index + 1 = c.episodes.length

theorem runsLast_of_rests (h : c.Rests) : c.RunsLast := fun _ e he hrunning =>
  nomatch hrunning.symm.trans (h e (List.mem_of_getElem? he))

theorem Valid.rests (h : c.Valid) (hnone : c.reconnecting = 0) : c.Rests := fun e he =>
  eq_false_of_ne_true (List.countP_eq_zero.mp (h.counted.symm.trans hnone) e he)

theorem runsLast_launch (h : c.Rests) (cause : Option StreamId) :
    (c.launch cause).RunsLast := by
  intro index e he hrunning
  rcases of_getElem?_concat he with hold | ⟨rfl, -⟩
  · exact nomatch hrunning.symm.trans (h e (List.mem_of_getElem? hold))
  · simp [launch]

theorem RunsLast.change (h : c.RunsLast) (hvalid : c.Valid) (hchange : Change loss c c') :
    c'.RunsLast := by
  cases hchange with
  | lose =>
    rw [Conn.lose]
    split_ifs with hlose
    · exact runsLast_launch (hvalid.rests hlose.2.2) _
    · exact h
  | opening hopened =>
    refine runsLast_launch (fun e he => ?_) none
    rw [(hvalid.unopened hopened).1] at he
    contradiction
  | @dial _ index e phase he hrunning hphase =>
    intro other e' he' hrunning'
    rw [setPhase, List.getElem?_modify] at he'
    obtain ⟨e₀, he₀, rfl⟩ := Option.map_eq_some_iff.mp he'
    rw [setPhase, List.length_modify]
    -- an episode that is under way now was under way before
    by_cases hother : index = other
    · exact hother ▸ h index e he hrunning
    · rw [if_neg hother] at hrunning'
      exact h other e₀ he₀ hrunning'
  | retire he hrunning => exact runsLast_of_rests (hvalid.rests_over he hrunning)
  | establish he hrunning => exact runsLast_of_rests (hvalid.rests_over he hrunning)
  | _ => exact h

end Conn

/-- What other episodes announce is no part of it. -/
theorem contributes_nothing (l : Link)
    (hevent : ∀ dial ioFirst, event ≠ .pollEpisode index dial ioFirst) :
    l.announcedBy index event = [] ∧ l.failedBy index event = [] := by
  cases event with
  | pollEpisode other dial ioFirst =>
    have hne : other ≠ index := fun h => hevent dial ioFirst (h ▸ rfl)
    refine ⟨if_neg hne, ?_⟩
    cases dial with
    | refused => exact if_neg fun h => hne h.1
    | _ => rfl
  | _ => exact ⟨rfl, rfl⟩

/-- The attempts and the failures of each episode so far. -/
structure Paced (l : Link) (c : Config) (told : Nat → List (UInt32 × Nat))
    (failed : Nat → List Nat) : Prop where
  sound : l.Sound
  config : l.config = c
  runsLast : l.conn.RunsLast
  schedule : ∀ index, OnSchedule c (told index) (failed index)
  follows : ∀ index, (l.phaseAt index).Follows c l.disposed (told index) (failed index)
  /-- Attempts are announced by one episode after the other. -/
  announcements : l.announcements = (List.range l.episodes.length).flatMap told

section Step

variable {told : Nat → List (UInt32 × Nat)} {failed : Nat → List Nat}

/-- An event that advances no episode announces nothing, and no attempt fails. -/
theorem Paced.rouse (h : l.Paced c told failed) (hsound : l'.Sound) (hconfig : l'.config = l.config)
    (hrunsLast : l'.conn.RunsLast) (hrouses : l.Rouses l') : l'.Paced c told failed := by
  have hphases (index : Nat) : l'.phaseAt index = l.phaseAt index := by
    rcases hrouses.starts.episodes with hsame | ⟨cause, hmore⟩
    · rw [phaseAt, phaseAt, show l'.episodes = l.episodes from hsame]
    · rw [phaseAt, phaseAt, show l'.episodes = l.episodes ++ [⟨cause, .spawned⟩] from hmore,
        List.getElem?_append]
      split_ifs with hlt
      · rfl
      · rw [List.getElem?_eq_none (Nat.le_of_not_lt hlt)]
        cases index - l.episodes.length <;> rfl
  refine ⟨hsound, hconfig.trans h.config, hrunsLast, h.schedule, fun index => ?_, ?_⟩
  · rw [hphases]
    exact (h.follows index).mono hrouses.starts.alive
  · rw [hrouses.announcements, h.announcements]
    rcases hrouses.starts.episodes with hsame | ⟨cause, hmore⟩
    · exact congrArg (fun episodes => (List.range episodes.length).flatMap told) hsame.symm
    · have hnext : l.phaseAt l.episodes.length = .spawned := by simp [phaseAt]
      have hnone : told l.episodes.length = [] := (hnext ▸ h.follows _).told_eq_nil
      rw [show l'.episodes = l.episodes ++ [⟨cause, .spawned⟩] from hmore, List.length_append,
        List.length_singleton, List.range_succ, List.flatMap_append, List.flatMap_singleton, hnone,
        List.append_nil]

/-- An episode announces something only while it is under way, and then it is the last one. -/
theorem Paced.eq_length (h : l.Paced c told failed) {dial : Dial} {ioFirst : Bool}
    (hnew : l.announcedBy index (.pollEpisode index dial ioFirst) ≠ []) :
    index + 1 = l.episodes.length := by
  obtain ⟨new, hannouncements, -, hgoes⟩ := l.movesOn_pollEpisode index dial ioFirst
  rw [announcedBy, if_pos rfl, hannouncements, List.drop_left] at hnew
  cases he : l.episodes[index]? with
  | none =>
    have hstays : l.pollEpisode index dial ioFirst = l := by rw [pollEpisode, he]
    rw [hstays] at hannouncements
    exact absurd (List.self_eq_append_right.mp hannouncements) hnew
  | some e =>
    rw [phaseAt_of_getElem? he] at hgoes
    refine h.runsLast index e he (decide_eq_true fun hover => hnew ?_)
    rw [hover] at hgoes
    exact hgoes.told_eq_nil

theorem Paced.pollEpisode (h : l.Paced c told failed) {dial : Dial} {ioFirst : Bool}
    (hsound : (l.pollEpisode index dial ioFirst).Sound)
    (hconfig : (l.pollEpisode index dial ioFirst).config = l.config)
    (hrunsLast : (l.pollEpisode index dial ioFirst).conn.RunsLast) :
    (l.pollEpisode index dial ioFirst).Paced c
      (fun other => told other ++ l.announcedBy other (.pollEpisode index dial ioFirst))
      (fun other => failed other ++ l.failedBy other (.pollEpisode index dial ioFirst)) := by
  obtain ⟨new, hannouncements, hothers, hgoes⟩ := l.movesOn_pollEpisode index dial ioFirst
  obtain ⟨-, -, -, hdisposed, -, hlength⟩ := l.fixed_pollEpisode index dial ioFirst
  have hnew : l.announcedBy index (.pollEpisode index dial ioFirst) = new := by
    rw [announcedBy, if_pos rfl, hannouncements, List.drop_left]
  have hnothing (other : Nat) (hne : other ≠ index) :
      l.announcedBy other (.pollEpisode index dial ioFirst) = [] ∧
        l.failedBy other (.pollEpisode index dial ioFirst) = [] :=
    contributes_nothing l fun _ _ hsame => hne (Event.pollEpisode.inj hsame).1.symm
  rw [h.config] at hgoes
  have hfollows := hgoes.follows (h.follows index) (h.schedule index)
  refine ⟨hsound, hconfig.trans h.config, hrunsLast, fun other => ?_, fun other => ?_, ?_⟩
  · by_cases hother : other = index
    · rw [hother, hnew]
      exact hfollows.2
    · rw [(hnothing other hother).1, (hnothing other hother).2, List.append_nil, List.append_nil]
      exact h.schedule other
  · rw [hdisposed]
    by_cases hother : other = index
    · rw [hother, hnew]
      exact hfollows.1
    · rw [(hnothing other hother).1, (hnothing other hother).2, List.append_nil, List.append_nil,
        hothers other hother]
      exact h.follows other
  · rw [hannouncements, h.announcements, hlength]
    by_cases hnone : new = []
    · -- nothing has been announced
      have hsame (other : Nat) :
          told other ++ l.announcedBy other (.pollEpisode index dial ioFirst) = told other := by
        by_cases hother : other = index
        · rw [hother, hnew, hnone, List.append_nil]
        · rw [(hnothing other hother).1, List.append_nil]
      simp only [hsame, hnone, List.append_nil]
    · have hlast := h.eq_length (hnew.symm ▸ hnone)
      have hsame : ∀ other ∈ List.range index,
          told other = told other ++ l.announcedBy other (.pollEpisode index dial ioFirst) := by
        intro other hother
        rw [(hnothing other (Nat.ne_of_lt (List.mem_range.mp hother))).1, List.append_nil]
      rw [← hlast, List.range_succ, List.flatMap_append, List.flatMap_append,
        List.flatMap_singleton, List.flatMap_singleton, hnew, List.append_assoc,
        List.flatMap_congr hsame]

theorem Paced.step (h : l.Paced c told failed) (event : Event) :
    (l.step event).Paced c (fun index => told index ++ l.announcedBy index event)
      (fun index => failed index ++ l.failedBy index event) := by
  have hsound := h.sound.step event
  have hrunsLast := h.runsLast.change h.sound.valid (h.sound.change event)
  have hconfig := (l.continues_step event).config
  by_cases hepisode : ∃ index dial ioFirst, event = .pollEpisode index dial ioFirst
  · obtain ⟨index, dial, ioFirst, rfl⟩ := hepisode
    exact h.pollEpisode hsound hconfig hrunsLast
  · have hevent : ∀ index dial ioFirst, event ≠ .pollEpisode index dial ioFirst :=
      fun index dial ioFirst hevent => hepisode ⟨index, dial, ioFirst, hevent⟩
    have htold (index : Nat) := (contributes_nothing l (hevent index)).1
    have hfailed (index : Nat) := (contributes_nothing l (hevent index)).2
    simp only [htold, hfailed, List.append_nil]
    exact h.rouse hsound hconfig hrunsLast (h.sound.rouses_step event hevent)

theorem paced_new (c : Config) (endpoint : String) (window : Nat) :
    Paced { config := c, endpoint, window } c (fun _ => []) fun _ => [] where
  sound := sound_new c endpoint window
  config := rfl
  runsLast _ _ he := nomatch he
  schedule _ := ⟨fun _ _ h => (nomatch h), fun _ _ _ h => nomatch h⟩
  follows _ := .spawned
  announcements := rfl

theorem Paced.run (h : l.Paced c told failed) (events : List Event) :
    (l.run events).Paced c (fun index => told index ++ l.attempts index events)
      (fun index => failed index ++ l.failures index events) := by
  induction events generalizing l told failed with
  | nil =>
    simp only [attempts, failures, collect, List.append_nil]
    exact h
  | cons event events ih =>
    simp only [attempts, failures, collect, ← List.append_assoc]
    exact ih (h.step event)

end Step

/-- When the next attempt of an episode may be announced, after these failures. -/
def Config.due (c : Config) (failed : List Nat) : Nat :=
  match failed.getLast? with
  | none => 0
  | some instant => instant + (c.wait (failed.length - 1)).nanos

theorem due_concat (c : Config) (earlier : List Nat) (instant : Nat) :
    c.due (earlier ++ [instant]) = instant + (c.wait earlier.length).nanos := by
  simp [Config.due]

/-- An episode that has no attempt under way announces the next one as soon as it is due. -/
theorem Phase.Follows.announcedBy (h : (l.phaseAt index).Follows l.config l.disposed told failed)
    (hlt : index < l.episodes.length) (halive : l.disposed = false)
    (hlength : told.length = failed.length) (dial : Dial) (ioFirst : Bool) :
    if l.config.due failed ≤ l.clock then
      l.announcedBy index (.pollEpisode index dial ioFirst) =
        [(attemptNumber told.length, l.clock)]
    else l.step (.pollEpisode index dial ioFirst) = l := by
  obtain ⟨⟨cause, phase⟩, he⟩ : ∃ e, l.episodes[index]? = some e :=
    ⟨_, List.getElem?_eq_getElem hlt⟩
  rw [phaseAt_of_getElem? he] at h
  rw [Link.announcedBy, if_pos rfl, step, pollEpisode, he]
  cases h with
  | spawned =>
    have hdue : l.config.due [] ≤ l.clock := Nat.zero_le _
    rw [if_pos hdue]
    have hannounced :
        (({ l with slot := none } : Link).attempt index 1 l.config.backoff).announcements =
          l.announcements ++ [(1, l.clock)] :=
      announcements_attempt (l := { l with slot := none }) halive 1 l.config.backoff
    exact (congrArg (List.drop _) hannounced).trans List.drop_left
  | dialing hmore => omega
  | @waiting _ earlier instant hmore =>
    have halive' : ¬l.disposed := by simp [halive]
    rw [due_concat]
    dsimp only
    by_cases hdue : instant + (l.config.wait earlier.length).nanos ≤ l.clock
    · rw [if_pos hdue, if_neg halive', if_pos hdue, announcements_attempt halive, List.drop_left,
        hmore]
      rfl
    · rw [if_neg hdue, if_neg halive', if_neg hdue]
  | ended hle hle' hmore => exact absurd (hmore halive) (by omega)

/-- What each episode announces, and when, in any course of events. Its attempts are numbered from
one, and they fail one by one. After a failed attempt there is no further one before the wait is
over, and as soon as the episode is advanced after that, unless the link has been given up, there is
one. The wait is the first wait times a power of the multiplier, the greatest power below the number
of the attempt up to which there are durations for all powers. The attempts of an episode are over
before those of the next one begin. -/
theorem run_backoff (config : Config) (endpoint : String) (window : Nat) (events : List Event) :
    let start : Link := { config, endpoint, window }
    let l := start.run events
    l.announcements = (List.range l.episodes.length).flatMap (start.attempts · events) ∧
    (∀ index,
      let told := start.attempts index events
      let failed := start.failures index events
      (failed.length ≤ told.length ∧ told.length ≤ failed.length + 1) ∧
      (∀ (i : Nat) a, told[i]? = some a → a.1.toNat = min (i + 1) 4294967295) ∧
      (∀ (i instant : Nat) a, failed[i]? = some instant → told[i + 1]? = some a →
        instant + (config.wait i).nanos ≤ a.2) ∧
      (index < l.episodes.length → l.disposed = false → told.length = failed.length →
        ∀ dial ioFirst,
          if config.due failed ≤ l.clock then
            l.announcedBy index (.pollEpisode index dial ioFirst) =
              [(attemptNumber told.length, l.clock)]
          else l.step (.pollEpisode index dial ioFirst) = l)) ∧
    ∀ i,
      (config.wait i).nanos =
        config.backoff.nanos * config.multiplier.toNat ^ config.exponent i ∧
      IsGreatest {j | j ≤ i ∧ ∀ e ≤ j,
        config.backoff.nanos * config.multiplier.toNat ^ e ≤ longestNanos} (config.exponent i) ∧
      (1 ≤ config.multiplier.toNat → (config.wait i).nanos ≤ (config.wait (i + 1)).nanos) := by
  intro start l
  have hpaced : l.Paced config (start.attempts · events) (start.failures · events) :=
    (paced_new config endpoint window).run events
  refine ⟨hpaced.announcements, fun index => ?_, fun i =>
    ⟨config.nanos_wait i, config.isGreatest_exponent i, fun h => config.nanos_wait_le h i⟩⟩
  have hfollows := hpaced.follows index
  have hschedule := hpaced.schedule index
  refine ⟨hfollows.length, fun i a ha => ?_, hschedule.spaced, fun hlt halive hlength => ?_⟩
  · rw [hschedule.numbered i a ha, toNat_attemptNumber]
  · rw [← hpaced.config] at hfollows ⊢
    exact hfollows.announcedBy hlt halive hlength

/-- How three attempts fail, until just before a fourth one is due. -/
def failing : List Event :=
  [.pollOpening, .pollEpisode 0 .pending false, .pollEpisode 0 .refused false,
    .elapse 5000000000000000000000000000, .pollEpisode 0 .pending false,
    .pollEpisode 0 .refused false, .elapse 10000000000000000000000000000,
    .pollEpisode 0 .pending false, .elapse 3, .pollEpisode 0 .refused false,
    .elapse 9999999999999999999999999999]

/-- A link whose wait can be doubled once. -/
def slow : Link where
  config := { backoff := ⟨5000000000000000000000000000, by decide⟩ }
  endpoint := "localhost:9092"
  window := 0

/-- There is no duration for the second power of the multiplier, so the third wait is as long as the
second. It is not over yet, but a nanosecond later it is. -/
theorem run_backoff_longest :
    slow.failures 0 failing =
      [0, 5000000000000000000000000000, 15000000000000000000000000003] ∧
    (slow.run failing).announcements =
      [(1, 0), (2, 5000000000000000000000000000), (3, 15000000000000000000000000000)] ∧
    (slow.config.wait 2).nanos = 5000000000000000000000000000 * 2 ^ 1 ∧
    (slow.run failing).step (.pollEpisode 0 .pending false) = slow.run failing ∧
    (slow.run (failing ++ [.elapse 1])).announcedBy 0 (.pollEpisode 0 .pending false) =
      [(4, 25000000000000000000000000003)] := by
  have hfailures : slow.failures 0 failing =
      [0, 5000000000000000000000000000, 15000000000000000000000000003] := by decide +kernel
  have hattempts : slow.attempts 0 failing =
      [(1, 0), (2, 5000000000000000000000000000), (3, 15000000000000000000000000000)] := by
    decide +kernel
  have hslow :
      ({ config := slow.config, endpoint := "localhost:9092", window := 0 } : Link) = slow := rfl
  obtain ⟨hannouncements, hepisodes, hwaits⟩ := run_backoff slow.config "localhost:9092" 0 failing
  obtain ⟨-, hlater, -⟩ := run_backoff slow.config "localhost:9092" 0 (failing ++ [.elapse 1])
  simp only [hslow] at hannouncements hepisodes hlater
  refine ⟨hfailures, hannouncements.trans (by decide +kernel), ?_, ?_, ?_⟩
  · have hexponent : slow.config.exponent 2 = 1 := by decide +kernel
    rw [(hwaits 2).1, hexponent]
    rfl
  · have hlength : (slow.attempts 0 failing).length = (slow.failures 0 failing).length := by
      rw [hattempts, hfailures]
      rfl
    have hearly : ¬slow.config.due (slow.failures 0 failing) ≤ (slow.run failing).clock := by
      decide +kernel
    have hstays :=
      (hepisodes 0).2.2.2 (by decide +kernel) (by decide +kernel) hlength .pending false
    rwa [if_neg hearly] at hstays
  · have hdue : slow.config.due (slow.failures 0 (failing ++ [.elapse 1])) ≤
        (slow.run (failing ++ [.elapse 1])).clock := by
      decide +kernel
    have hannounces :=
      (hlater 0).2.2.2 (by decide +kernel) (by decide +kernel) (by decide +kernel) .pending false
    rw [if_pos hdue] at hannounces
    exact hannounces.trans (by decide +kernel)

end Link

end BrokerWire
