import BrokerWire.Proofs.Link.Cancelling
import BrokerWire.Proofs.Link.Sending

/-!
# Frames stay whole

What writes put on a connection are whole frames, one after the other, and behind them at most the
front of one more (`Composed`). Where that one will not be finished, nothing follows it. Along a
course of events it is moves of the writers' view that make it so (`moves_run`), as long as no
caller drops a write.
-/

namespace BrokerWire

namespace Link

variable {l : Link} {d : StreamId → Bytes} {call : CallId} {c : Call} {stream : StreamId}
  {frame : Bytes} {stage : Stage}

open Outflow (Moves)

/-! ### Runs -/

/-- The bytes that the far side takes from a connection in a course of events. -/
def drained (l : Link) (stream : StreamId) (events : List Event) : Bytes :=
  l.collect (fun l event => l.drainedBy event stream) events

/-- Every course of events is a course of moves. -/
theorem moves_run (h : l.Sound) (hposted : (l.outflow d).Posted) (events : List Event) :
    Moves (l.outflow d)
      ((l.run events).outflow fun stream => d stream ++ l.drained stream events) := by
  induction events generalizing l d with
  | nil =>
    simp only [drained, collect, List.append_nil]
    exact .refl
  | cons event events ih =>
    have hstep := moves_step_outflow h hposted event
    have hrun := ih (h.step event) (hposted.moves hstep)
    simp only [drained, collect, List.append_assoc] at hrun ⊢
    exact hstep.trans hrun

section New

variable (config : Config) (endpoint : String) (window : Nat)

theorem posted_new : (outflow { config, endpoint, window } fun _ => []).Posted :=
  fun _ _ _ hpost => nomatch hpost

end New

/-! ### What is put on a connection -/

/-- The frame that a call is to put on a connection, if it is a write. -/
def frameOf (l : Link) (call : CallId) : Bytes :=
  match l.calls[call]? with
  | some ⟨.write frame, _, _⟩ => frame
  | _ => []

end Link

end BrokerWire
