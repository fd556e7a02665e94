import BrokerWire.Endpoint
import BrokerWire.Rehearsal.Peer

/-!
# Rehearsals

A rehearsal is a link whose broker is played by scripted peers, one for each connection that is
accepted, in time that passes only when nothing else can happen. `Rehearsal.stir?` does the next
thing that can happen in the background, and `Rehearsal.nextInstant?` is the instant for which the
background waits when nothing can.
-/

namespace BrokerWire

/-- A link and the broker that is played to it. -/
structure Rehearsal where
  /-- The link. -/
  link : Link
  /-- Where the broker is. -/
  endpoint : Endpoint
  /-- The scripts of the connections, in the order of their acceptance; there are no actions for
  further ones. -/
  scripts : List (List Rehearsal.Action)
  /-- Whether the owner of the link is told of attempts to connect. -/
  observed : Bool := true
  /-- Whether connecting succeeds. -/
  listening : Bool
  /-- The attempt from whose first announcement on connecting succeeds, if one is still to come. -/
  listenFrom : Option UInt32 := none
  /-- The peers of the connections accepted so far. -/
  peers : List Rehearsal.Peer := []
  /-- The connections that may pass a gate, once for each time they are listed. -/
  releases : List Nat := []
  /-- The calls that callers have named, the latest first. -/
  names : List (String × CallId) := []
  /-- Whether the owner has dropped the link. -/
  clientGone : Bool := false
  deriving DecidableEq, Repr

namespace Rehearsal

/-- The rehearsal in which an event has happened to the link. -/
def step (r : Rehearsal) (event : Link.Event) : Rehearsal :=
  { r with link := r.link.step event }

/-- Uses up a release of a connection. -/
def useRelease (r : Rehearsal) (index : Nat) : Rehearsal :=
  { r with releases := r.releases.erase index }

/-- The rehearsal with a peer changed. -/
def setPeer (r : Rehearsal) (index : Nat) (peer : Peer) : Rehearsal :=
  { r with peers := r.peers.modify index fun _ => peer }

/-! ### Connecting -/

/-- The number of the attempt that an episode has under way. -/
def attemptUnderWay? (l : Link) (index : Nat) : Option UInt32 :=
  match l.episodes[index]? with
  | some ⟨_, .dialing number _⟩ => some number
  | _ => none

/-- Advances an episode, and starts to listen if the awaited attempt is announced. -/
def advanceEpisode (r : Rehearsal) (index : Nat) (dial : Link.Dial) : Rehearsal :=
  let before := attemptUnderWay? r.link index
  let r := r.step (.pollEpisode index dial false)
  let announced := if before.isNone then attemptUnderWay? r.link index else none
  if r.observed ∧ announced.isSome ∧ announced = r.listenFrom then
    { r with listening := true, listenFrom := none }
  else r

/-- Answers an attempt to connect: refuses it, accepts it, or accepts it and lets it hang. -/
def answer? (r : Rehearsal) (index : Nat) : Option Rehearsal :=
  let next := r.link.streams.length
  match r.peers[next]? with
  | some peer =>
    if next ∈ r.releases then
      some (((r.useRelease next).setPeer next { peer with stance := .acting }).advanceEpisode index
        .established)
    else none
  | none =>
    if r.listening then
      let peer := Peer.accept ((r.scripts[next]?).getD [])
      let r := { r with peers := r.peers ++ [peer] }
      if peer.stance = .hanging then some r else some (r.advanceEpisode index .established)
    else some (r.advanceEpisode index .refused)

/-- Does the next thing that an episode can do now, if there is one. -/
def stirEpisode? (r : Rehearsal) (index : Nat) (episode : Link.Episode) : Option Rehearsal :=
  match episode.phase with
  | .spawned => some (r.advanceEpisode index .pending)
  | .dialing .. =>
    if r.link.disposed then some (r.advanceEpisode index .pending) else r.answer? index
  | .waiting _ _ deadline =>
    if r.link.disposed ∨ deadline ≤ r.link.clock then some (r.advanceEpisode index .pending)
    else none
  | .over => none

/-- Does the next thing that the wait before the first attempt can do now. -/
def stirOpening? (r : Rehearsal) : Option Rehearsal :=
  let l := r.link
  let due := l.opensAt.all (· ≤ l.clock)
  if ¬l.opened ∧ (l.disposed ∨ due) then some (r.step .pollOpening) else none

/-! ### Peers -/

/-- What a peer is shown. -/
def outlook (r : Rehearsal) (index : Nat) : Outlook :=
  { clock := r.link.clock
    released := index ∈ r.releases
    waiting := ((r.link.streams[index]?).map (·.outgoing)).getD []
    isOpen := !r.clientGone && r.link.isOpen index }

/-- Carries out what a peer does. Where it aborts the connection, nothing is left to be read. -/
def apply (r : Rehearsal) (index : Nat) : Effect → Rehearsal
  | .none => r
  | .pass => r.useRelease index
  | .arrive bytes => r.step (.arrive index bytes)
  | .drain n => r.step (.drain index n)
  | .finish => r.step (.finish index)
  | .abort => (r.step (.abort index)).step (.flush index)

/-- Does the next thing that a peer can do now, if there is one. A peer whose connection the
client still waits for does nothing. -/
def stirPeer? (r : Rehearsal) (index : Nat) (peer : Peer) : Option Rehearsal :=
  if peer.stance = .hanging ∧ ¬r.link.disposed then none
  else (peer.turn (r.outlook index)).map fun (peer, effect) =>
    (r.setPeer index peer).apply index effect

/-! ### The background -/

/-- Does the next thing that can happen in the background now, if there is one. -/
def stir? (r : Rehearsal) : Option Rehearsal :=
  r.stirOpening?
    <|> r.link.episodes.zipIdx.findSome? (fun (episode, index) => r.stirEpisode? index episode)
    <|> r.peers.zipIdx.findSome? (fun (peer, index) => r.stirPeer? index peer)

/-- How many things may happen in the background at one instant. -/
def patience : Nat := 16777216

/-- Does up to `limit` things in the background. -/
def stirUpTo : Nat → Rehearsal → Rehearsal
  | 0, r => r
  | limit + 1, r =>
    match r.stir? with
    | some r => stirUpTo limit r
    | none => r

/-- Does all that can happen in the background now. -/
def settle (r : Rehearsal) : Rehearsal := stirUpTo patience r

/-- The instants for which background tasks, peers and calls wait. -/
def instants (r : Rehearsal) : List Nat :=
  let opening := if r.link.opened then [] else r.link.opensAt.toList
  let episodes := r.link.episodes.filterMap fun e =>
    match e.phase with
    | .waiting _ _ deadline => some deadline
    | _ => none
  let peers := r.peers.filterMap fun p =>
    match p.stance with
    | .pausing deadline => some deadline
    | _ => none
  let calls := r.link.calls.filterMap fun c =>
    match c.stage with
    | .winding _ deadline => some deadline
    | _ => none
  opening ++ episodes ++ peers ++ calls

/-- The next instant for which something waits. -/
def nextInstant? (r : Rehearsal) : Option Nat :=
  (r.instants.filter (r.link.clock < ·)).min?

/-- Lets time pass up to an instant. -/
def passTo (r : Rehearsal) (instant : Nat) : Rehearsal :=
  r.step (.elapse (instant - r.link.clock))

end Rehearsal

end BrokerWire
