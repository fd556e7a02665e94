import BrokerWire.Proofs.Link.View
import Mathlib.Tactic.SplitIfs

/-!
# Episodes of connecting

`Conn.Valid` relates the gate, the slot and the episodes of connecting. There is at most one episode
under way, and while there is one, calls cannot use the connection in the slot, so a connection is
lost at most once. Each change to a `Conn` keeps it valid.
-/

namespace BrokerWire

namespace Link

/-- Whether an episode is under way. -/
def Episode.isRunning (e : Episode) : Bool := e.phase ≠ .over

namespace Conn

/-- How many episodes are under way. -/
def running (c : Conn) : Nat := c.episodes.countP Episode.isRunning

/-- What holds of the gate, the slot and the episodes at any time. -/
structure Valid (c : Conn) : Prop where
  /-- The episodes under way are counted. -/
  counted : c.reconnecting = c.running
  /-- There is at most one. -/
  single : c.reconnecting ≤ 1
  /-- There is none while calls may use the connection in the slot. -/
  idle : c.gateOpen → c.reconnecting = 0
  /-- They find one there, unless the link has been given up. -/
  usable : c.gateOpen → c.slot = none → c.disposed
  /-- While they may not, an episode is under way or yet to come. -/
  pending : c.gateOpen = false → c.disposed = false → c.opened = false ∨ c.reconnecting = 1
  /-- Before the first attempt there is no connection and no episode. -/
  unopened : c.opened = false → c.episodes = [] ∧ c.slot = none ∧ c.gateOpen = false
  /-- An episode that has begun has emptied the slot. -/
  cleared : ∀ e ∈ c.episodes, e.isRunning → e.phase ≠ .spawned → c.slot = none
  /-- The connection in the slot is the last one that has been made. -/
  newest : ∀ stream, c.slot = some stream → stream + 1 = c.made

theorem valid_initial : Valid ⟨none, false, 0, [], false, false, 0⟩ where
  counted := rfl
  single := Nat.zero_le 1
  idle h := nomatch h
  usable h := nomatch h
  pending _ _ := .inl rfl
  unopened _ := ⟨rfl, rfl, rfl⟩
  cleared _ h := nomatch h
  newest _ h := nomatch h

variable {c : Conn}

/-- A connection in the slot has been made. -/
theorem Valid.made (h : c.Valid) (stream : StreamId) (hslot : c.slot = some stream) :
    stream < c.made :=
  Nat.lt_of_succ_le (Nat.le_of_eq (h.newest stream hslot))

/-- Before the first attempt no episode is under way. -/
theorem Valid.reconnecting_eq_zero (h : c.Valid) (hopened : c.opened = false) :
    c.reconnecting = 0 := by
  rw [h.counted, running, (h.unopened hopened).1]
  rfl

/-- A connection is in the slot only after the first attempt. -/
theorem Valid.opened_of_slot (h : c.Valid) {stream : StreamId} (hslot : c.slot = some stream) :
    c.opened := by
  by_contra hopened
  have hempty := (h.unopened (by simpa using hopened)).2.1
  rw [hslot] at hempty
  contradiction

/-- A connection that is not being replaced can be used. -/
theorem Valid.gateOpen_of_slot (h : c.Valid) {stream : StreamId} (halive : c.disposed = false)
    (hslot : c.slot = some stream) (hnone : c.reconnecting = 0) : c.gateOpen := by
  by_contra hgate
  rcases h.pending (by simpa using hgate) halive with hopened | hone
  · exact nomatch (h.opened_of_slot hslot).symm.trans hopened
  · exact nomatch hnone.symm.trans hone

/-- While the gate is closed no connection is in use. -/
theorem not_inUse_of_gateOpen {stream : StreamId} (hgate : c.gateOpen = false) :
    ¬c.InUse stream := fun huse =>
  Bool.false_ne_true (hgate.symm.trans huse.2.1)

/-- While the slot is empty no connection is in use. -/
theorem not_inUse_of_slot {stream : StreamId} (hslot : c.slot = none) :
    ¬c.InUse stream := fun huse =>
  Option.some_ne_none stream (huse.2.2.symm.trans hslot)

/-- Once the link has been given up no connection is in use. -/
theorem not_inUse_of_disposed {stream : StreamId} (hdisposed : c.disposed) :
    ¬c.InUse stream := fun huse =>
  Bool.false_ne_true (huse.1.symm.trans hdisposed)

/-- After its loss has been noticed a connection is not in use. -/
theorem not_inUse_lose (h : c.Valid) (stream : StreamId) : ¬(c.lose stream).InUse stream := by
  intro huse
  rw [lose] at huse
  split_ifs at huse with hlose
  · exact not_inUse_of_gateOpen rfl huse
  · exact hlose ⟨huse.1, huse.2.2, h.idle huse.2.1⟩

/-- Noticing the loss of a connection brings none into use. -/
theorem InUse.of_lose {lost stream : StreamId} (huse : (c.lose lost).InUse stream) :
    c.InUse stream := by
  rw [lose] at huse
  split_ifs at huse with hlose
  · exact absurd huse (not_inUse_of_gateOpen rfl)
  · exact huse

/-- A connection stays in use when the loss of another is noticed. -/
theorem InUse.lose {lost stream : StreamId} (huse : c.InUse stream) (hne : lost ≠ stream) :
    (c.lose lost).InUse stream := by
  rw [Conn.lose, if_neg]
  · exact huse
  · rintro ⟨-, hslot, -⟩
    exact hne (Option.some.inj (hslot.symm.trans huse.2.2))

/-- A connection that another has followed is not in use. -/
theorem Valid.not_inUse_of_lt (h : c.Valid) {stream : StreamId} (hlt : stream + 1 < c.made) :
    ¬c.InUse stream := fun huse =>
  Nat.ne_of_lt hlt (h.newest stream huse.2.2)

/-- After what is in the slot has been given up no connection is in use. -/
theorem not_inUse_forsake (h : c.Valid) (stream : StreamId) :
    ¬(c.forsake c.slot).InUse stream := by
  intro huse
  cases hslot : c.slot with
  | none =>
    rw [hslot] at huse
    exact not_inUse_of_slot hslot huse
  | some other =>
    rw [hslot] at huse
    have hsame : other = stream := Option.some.inj (hslot.symm.trans huse.of_lose.2.2)
    exact not_inUse_lose h other (hsame ▸ huse)

/-- While calls may not use what is in the slot, giving it up changes nothing. -/
theorem Valid.forsake_of_gateOpen (h : c.Valid) (hgate : c.gateOpen = false) :
    c.forsake c.slot = c := by
  cases hslot : c.slot with
  | none => rfl
  | some stream =>
    refine if_neg ?_
    rintro ⟨halive, -, hnone⟩
    exact nomatch hgate.symm.trans (h.gateOpen_of_slot halive hslot hnone)

theorem disposed_lose (c : Conn) (stream : StreamId) : (c.lose stream).disposed = c.disposed := by
  rw [lose]
  split_ifs <;> rfl

theorem made_lose (c : Conn) (stream : StreamId) : (c.lose stream).made = c.made := by
  rw [lose]
  split_ifs <;> rfl

theorem disposed_forsake (c : Conn) (stream : Option StreamId) :
    (c.forsake stream).disposed = c.disposed := by
  cases stream with
  | none => rfl
  | some stream => exact disposed_lose c stream

theorem made_forsake (c : Conn) (stream : Option StreamId) :
    (c.forsake stream).made = c.made := by
  cases stream with
  | none => rfl
  | some stream => exact made_lose c stream

/-! ### Changes -/

/-- An episode starts while there is none. -/
theorem Valid.launch (h : c.Valid) (hnone : c.reconnecting = 0) (hopened : c.opened)
    (cause : Option StreamId) : (c.launch cause).Valid where
  counted := by
    have hcount := h.counted
    simp only [running] at hcount
    simp [Conn.launch, running, ← hcount, Episode.isRunning]
  single := by simp [Conn.launch, hnone]
  idle h := nomatch h
  usable h := nomatch h
  pending _ _ := .inr (by simp [Conn.launch, hnone])
  unopened hnot := by
    rw [show (c.launch cause).opened = c.opened from rfl, hopened] at hnot
    contradiction
  cleared e he hrunning hphase := by
    rcases List.mem_append.mp he with hold | hnew
    · exact h.cleared e hold hrunning hphase
    · obtain rfl := List.mem_singleton.mp hnew
      contradiction
  newest := h.newest

theorem Valid.lose (h : c.Valid) (stream : StreamId) : (c.lose stream).Valid := by
  rw [Conn.lose]
  split_ifs with hlose
  · obtain ⟨-, hslot, hnone⟩ := hlose
    exact h.launch hnone (h.opened_of_slot hslot) _
  · exact h

theorem Valid.forsake (h : c.Valid) (stream : Option StreamId) : (c.forsake stream).Valid := by
  cases stream with
  | none => exact h
  | some stream => exact h.lose stream

theorem countP_modify {α : Type} {p : α → Bool} {f : α → α} {as : List α} {index : Nat} {a : α}
    (h : as[index]? = some a) :
    (as.modify index f).countP p + (if p a then 1 else 0) =
      as.countP p + if p (f a) then 1 else 0 := by
  induction as generalizing index with
  | nil => simp at h
  | cons b as ih =>
    cases index with
    | zero =>
      obtain rfl : b = a := by simpa using h
      simp only [List.modify_zero_cons, List.countP_cons]
      omega
    | succ index =>
      have hrest := @ih index (by simpa using h)
      simp only [List.modify_succ_cons, List.countP_cons]
      omega

section Episode

variable {index : Nat} {e : Episode} (he : c.episodes[index]? = some e)
include he

/-- An episode is under way, so it is the only one. -/
theorem Valid.reconnecting_eq (h : c.Valid) (hrunning : e.isRunning) : c.reconnecting = 1 := by
  have hpos : 0 < c.running := List.countP_pos_iff.mpr ⟨e, List.mem_of_getElem? he, hrunning⟩
  have hcount := h.counted
  have hsingle := h.single
  omega

theorem Valid.not_gateOpen (h : c.Valid) (hrunning : e.isRunning) : c.gateOpen = false := by
  by_contra hgate
  have hidle := h.idle (by simpa using hgate)
  rw [h.reconnecting_eq he hrunning] at hidle
  contradiction

theorem Valid.isOpened (h : c.Valid) : c.opened := by
  by_contra hopened
  rw [(h.unopened (by simpa using hopened)).1] at he
  simp at he

/-- An episode goes on. -/
theorem Valid.dial (h : c.Valid) (hrunning : e.isRunning) {phase : Phase} (hphase : phase ≠ .over) :
    ({ c with slot := none }.setPhase index phase).Valid where
  counted := by
    have hcount := countP_modify (p := Episode.isRunning) (f := fun e => { e with phase }) he
    have hafter : Episode.isRunning { e with phase } = true := by simpa [Episode.isRunning]
    rw [if_pos hrunning, if_pos hafter] at hcount
    exact h.counted.trans (Nat.add_right_cancel hcount).symm
  single := h.single
  idle := h.idle
  usable hgate := by
    have hclosed := h.not_gateOpen he hrunning
    rw [show c.gateOpen = true from hgate] at hclosed
    contradiction
  pending := h.pending
  unopened hopened := by
    have hnot : c.opened = false := hopened
    rw [h.isOpened he] at hnot
    contradiction
  cleared _ _ _ _ := rfl
  newest _ h := nomatch h

/-- After the only episode under way has ended there is none. -/
theorem Valid.running_over (h : c.Valid) (hrunning : e.isRunning) :
    (c.setPhase index .over).running = 0 := by
  have hcount := countP_modify (p := Episode.isRunning) (f := fun e => { e with phase := .over }) he
  have hafter : Episode.isRunning { e with phase := .over } = false := rfl
  rw [if_pos hrunning, if_neg (by simp [hafter])] at hcount
  -- the count falls by the one episode there is
  have hone : c.running = 1 := h.counted ▸ h.reconnecting_eq he hrunning
  exact Nat.succ.inj (hcount.trans hone)

/-- An episode ends with whatever is then in the slot. -/
theorem Valid.endEpisode (h : c.Valid) (hrunning : e.isRunning) {slot : Option StreamId}
    {made : Nat} (husable : slot = none → c.disposed)
    (hnewest : ∀ stream, slot = some stream → stream + 1 = made) :
    ({ c with slot, made }.endEpisode index).Valid where
  counted := by
    have hone : c.reconnecting - 1 = 0 := congrArg (· - 1) (h.reconnecting_eq he hrunning)
    exact hone.trans (h.running_over he hrunning).symm
  single := Nat.le_trans (Nat.sub_le _ _) h.single
  idle _ := congrArg (· - 1) (h.reconnecting_eq he hrunning)
  usable _ := husable
  pending h := nomatch h
  unopened hopened := by
    have hnot : c.opened = false := hopened
    rw [h.isOpened he] at hnot
    contradiction
  cleared e' he' hrunning' _ := by
    have hnone := List.countP_eq_zero.mp (h.running_over he hrunning) e' he'
    contradiction
  newest := hnewest

/-- An episode ends with a new connection. -/
theorem Valid.establish (h : c.Valid) (hrunning : e.isRunning) :
    ({ c with slot := some c.made, made := c.made + 1 }.endEpisode index).Valid := by
  refine h.endEpisode he hrunning (fun hnone => nomatch hnone) fun stream hstream => ?_
  exact congrArg (· + 1) (Option.some.inj hstream).symm

end Episode

/-! ### Giving up -/

theorem Valid.openingDisposed (h : c.Valid) (hdisposed : c.disposed) :
    { c with opened := true }.Valid where
  counted := h.counted
  single := h.single
  idle := h.idle
  usable := h.usable
  pending _ halive := absurd hdisposed (by simp [show c.disposed = false from halive])
  unopened hopened := nomatch hopened
  cleared := h.cleared
  newest := h.newest

/-- The wait before the first attempt is over, and the first episode starts. -/
theorem Valid.opening (h : c.Valid) (hopened : c.opened = false) :
    ({ c with opened := true }.launch none).Valid := by
  obtain ⟨hepisodes, hslot, hgate⟩ := h.unopened hopened
  have hnone := h.reconnecting_eq_zero hopened
  constructor
  · simp [Conn.launch, running, hepisodes, hnone, Episode.isRunning]
  · simp [Conn.launch, hnone]
  · exact fun h => nomatch h
  · exact fun h => nomatch h
  · exact fun _ _ => .inr (by simp [Conn.launch, hnone])
  · exact fun h => nomatch h
  · intro e he hrunning hphase
    exact hslot
  · exact h.newest

theorem Valid.dispose (h : c.Valid) : { c with disposed := true }.Valid where
  counted := h.counted
  single := h.single
  idle := h.idle
  usable _ _ := rfl
  pending _ halive := nomatch halive
  unopened := h.unopened
  cleared := h.cleared
  newest := h.newest

theorem Valid.clear (h : c.Valid) (hdisposed : c.disposed) : { c with slot := none }.Valid where
  counted := h.counted
  single := h.single
  idle := h.idle
  usable _ _ := hdisposed
  pending := h.pending
  unopened hopened := by
    obtain ⟨hepisodes, -, hgate⟩ := h.unopened hopened
    exact ⟨hepisodes, rfl, hgate⟩
  cleared _ _ _ _ := rfl
  newest _ h := nomatch h

/-! ### One change at a time -/

/-- The changes that an event can make, each with the connection whose loss it brings to light. -/
inductive Change : Option StreamId → Conn → Conn → Prop where
  /-- Nothing changes. -/
  | stay (c : Conn) : Change none c c
  /-- A call notices the loss of its connection. -/
  | lose {c : Conn} {stream : StreamId} (hdisposed : c.disposed = false)
    (hmade : stream < c.made) : Change (some stream) c (c.lose stream)
  /-- The wait before the first attempt ends with the link. -/
  | openingDisposed {c : Conn} (hopened : c.opened = false) (hdisposed : c.disposed) :
    Change none c { c with opened := true }
  /-- The wait before the first attempt is over. -/
  | opening {c : Conn} (hopened : c.opened = false) (hdisposed : c.disposed = false) :
    Change none c ({ c with opened := true }.launch none)
  /-- An episode goes on. -/
  | dial {c : Conn} {index : Nat} {e : Episode} {phase : Phase} (he : c.episodes[index]? = some e)
    (hrunning : e.isRunning) (hphase : phase ≠ .over) :
    Change none c ({ c with slot := none }.setPhase index phase)
  /-- An episode ends because the link is given up. -/
  | retire {c : Conn} {index : Nat} {e : Episode} (he : c.episodes[index]? = some e)
    (hrunning : e.isRunning) (hdisposed : c.disposed) :
    Change none c ({ c with slot := none }.endEpisode index)
  /-- An episode ends with a connection. -/
  | establish {c : Conn} {index : Nat} {e : Episode} (he : c.episodes[index]? = some e)
    (hrunning : e.isRunning) :
    Change none c ({ c with slot := some c.made, made := c.made + 1 }.endEpisode index)
  /-- The link is given up, and its connection may be let go. -/
  | giveUp {c : Conn} {slot : Option StreamId} (hslot : slot = c.slot ∨ slot = none) :
    Change none c { c with disposed := true, slot }

theorem Valid.change {loss : Option StreamId} {c' : Conn} (h : c.Valid)
    (hchange : Change loss c c') : c'.Valid := by
  cases hchange with
  | stay => exact h
  | lose => exact h.lose _
  | openingDisposed hopened hdisposed => exact h.openingDisposed hdisposed
  | opening hopened hdisposed => exact h.opening hopened
  | dial he hrunning hphase => exact h.dial he hrunning hphase
  | retire he hrunning hdisposed =>
    exact h.endEpisode he hrunning (fun _ => hdisposed) fun _ hnone => nomatch hnone
  | establish he hrunning => exact h.establish he hrunning
  | giveUp hslot =>
    rcases hslot with rfl | rfl
    · exact h.dispose
    · exact h.dispose.clear rfl

theorem Change.made_le {loss : Option StreamId} {c' : Conn} (h : Change loss c c') :
    c.made ≤ c'.made := by
  cases h with
  | lose => exact Nat.le_of_eq (made_lose _ _).symm
  | establish => exact Nat.le_succ _
  | _ => exact Nat.le_refl _

/-- A link that has been given up stays so. -/
theorem Change.disposed {loss : Option StreamId} {c' : Conn} (h : Change loss c c')
    (hdisposed : c.disposed) : c'.disposed := by
  cases h with
  | lose => exact (disposed_lose _ _).trans hdisposed
  | giveUp => rfl
  | _ => exact hdisposed

end Conn

end Link

end BrokerWire
