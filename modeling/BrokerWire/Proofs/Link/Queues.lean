import BrokerWire.Proofs.Link.Sending

/-!
# Queues

Reads take turns for the whole link, and writes take turns for each connection. A `Queue` is what
calls take turns for. Those who stand in it should be exactly the calls whose stage says that they
have the turn or wait for it (`InLine`). Then a call stands in one queue at most, so it does not
matter whether it leaves that one or all of them (`leaveAll`), and whoever is first in line has the
turn (`Turns.Serves.holder_eq`).
-/

namespace BrokerWire

namespace Link

/-! ### Turns -/

namespace Turns

/-- The calls that have the turn or wait for it, in the order in which it is theirs. -/
def line (turns : Turns) : List CallId := turns.holder.toList ++ turns.waiting

/-- These calls stand in line and no others, each of them once, and nobody waits for a turn that
nobody has. -/
structure Serves (turns : Turns) (who : CallId → Prop) : Prop where
  nodup : turns.line.Nodup
  mem : ∀ id, id ∈ turns.line ↔ who id
  held : turns.holder = none → turns.waiting = []

variable {turns : Turns} {who who' : CallId → Prop} {call : CallId}

theorem serves_empty (hnobody : ∀ id, ¬who id) : ({} : Turns).Serves who where
  nodup := List.nodup_nil
  mem id := iff_of_false List.not_mem_nil (hnobody id)
  held _ := rfl

theorem Serves.congr (h : turns.Serves who) (hwho : ∀ id, who' id ↔ who id) :
    turns.Serves who' :=
  ⟨h.nodup, fun id => (h.mem id).trans (hwho id).symm, h.held⟩

/-- Whoever is first in line has the turn. -/
theorem Serves.holder_eq (h : turns.Serves who) : turns.holder = turns.line.head? := by
  cases hholder : turns.holder with
  | none => rw [line, hholder, h.held hholder, Option.toList_none, List.nil_append, List.head?_nil]
  | some holder => rw [line, hholder, Option.toList_some, List.singleton_append, List.head?_cons]

theorem Serves.not_mem (h : turns.Serves who) (hnot : ¬who call) :
    turns.holder ≠ some call ∧ call ∉ turns.waiting := by
  have hnot : call ∉ turns.line := mt (h.mem call).mp hnot
  simpa [line] using hnot

/-- The others keep their order when a call leaves, whether it has the turn or waits for it. -/
theorem Serves.line_leave (h : turns.Serves who) (call : CallId) :
    (turns.leave call).line = turns.line.filter (· ≠ call) := by
  rw [leave]
  split_ifs with hturn
  · have hnodup := h.nodup
    rw [line, hturn, Option.toList_some, List.singleton_append, List.nodup_cons] at hnodup
    have hwaiting : turns.waiting.filter (· ≠ call) = turns.waiting :=
      List.filter_eq_self.mpr fun id hid => decide_eq_true fun heq => hnodup.1 (heq ▸ hid)
    have hnext : turns.waiting.head?.toList ++ turns.waiting.tail = turns.waiting := by
      cases turns.waiting <;> rfl
    rw [line, line, hturn, Option.toList_some, List.filter_append, hwaiting, hnext]
    simp
  · have hholder : turns.holder.toList.filter (· ≠ call) = turns.holder.toList :=
      List.filter_eq_self.mpr fun id hid =>
        decide_eq_true fun heq => hturn (heq ▸ Option.mem_toList.mp hid)
    rw [line, line, List.filter_append, hholder]

/-- A call that does not stand in line cannot leave it. -/
theorem Serves.leave_of_not (h : turns.Serves who) (hnot : ¬who call) :
    turns.leave call = turns := by
  obtain ⟨hholder, hwaiting⟩ := h.not_mem hnot
  have hsame : turns.waiting.filter (· ≠ call) = turns.waiting :=
    List.filter_eq_self.mpr fun id hid => decide_eq_true fun heq => hwaiting (heq ▸ hid)
  rw [leave, if_neg hholder, hsame]

theorem Serves.leave (h : turns.Serves who) (call : CallId) :
    (turns.leave call).Serves fun id => id ≠ call ∧ who id where
  nodup := h.line_leave call ▸ h.nodup.filter _
  mem id := by
    rw [h.line_leave, List.mem_filter, h.mem, decide_eq_true_iff, and_comm]
  held hnone := by
    rw [Turns.leave] at hnone ⊢
    split_ifs at hnone ⊢ with hturn
    · rw [List.head?_eq_none_iff.mp hnone, List.tail_nil]
    · rw [h.held hnone, List.filter_nil]

/-- Whoever has the turn keeps it when he asks again. -/
theorem join_of_holder (hturn : turns.holder = some call) : turns.join call = turns := by
  simp [join, hturn]

/-- A call joins the line at its end. -/
theorem Serves.line_join (h : turns.Serves who) (call : CallId) :
    (turns.join call).line = if call ∈ turns.line then turns.line else turns.line ++ [call] := by
  obtain ⟨holder, waiting⟩ := turns
  cases holder with
  | none =>
    obtain rfl : waiting = [] := h.held rfl
    rfl
  | some holder =>
    have hmem : call ∈ line ⟨some holder, waiting⟩ ↔ holder = call ∨ call ∈ waiting := by
      simp [line, eq_comm]
    simp only [join, hmem]
    split_ifs
    · rfl
    · rw [line, line, List.append_assoc]

theorem Serves.join (h : turns.Serves who) (call : CallId) :
    (turns.join call).Serves fun id => id = call ∨ who id where
  nodup := by
    rw [h.line_join]
    split_ifs with hmem
    · exact h.nodup
    · refine List.nodup_append.mpr ⟨h.nodup, List.pairwise_singleton _ call, ?_⟩
      rintro id hid other hother rfl
      exact hmem (List.mem_singleton.mp hother ▸ hid)
  mem id := by
    rw [h.line_join, ← h.mem]
    split_ifs with hmem
    · exact (or_iff_right_of_imp fun heq => heq ▸ hmem).symm
    · rw [List.mem_append, List.mem_singleton, or_comm]
  held hnone := by
    rw [Turns.join] at hnone ⊢
    cases hholder : turns.holder with
    | none => exact h.held hholder
    | some holder =>
      simp only [hholder] at hnone
      split_ifs at hnone
      rw [hholder] at hnone
      contradiction

end Turns

/-! ### Queues -/

/-- What calls take turns for. -/
inductive Queue where
  /-- To read from the link. -/
  | reading
  /-- To write on a connection. -/
  | writing (stream : StreamId)
  deriving DecidableEq, Repr

/-- The queue in which a call at this stage stands. -/
def Stage.queue? : Stage → Option Queue
  | .queued | .filling .. => some .reading
  | .lining stream | .sending stream _ => some (.writing stream)
  | _ => none

/-- What a call for a job may take turns for. -/
def Job.Asks (job : Job) : Queue → Prop
  | .reading => job.start?.isSome
  | .writing _ => ∃ frame, job = .write frame

/-- Whose turn it is in a queue. -/
def turnsAt (l : Link) : Queue → Turns
  | .reading => l.readers
  | .writing stream => (l.streamAt stream).writers

/-- The queue in which a call stands. -/
def queueOf (l : Link) (call : CallId) : Option Queue := l.calls[call]?.bind (·.stage.queue?)

/-- In every queue stand those who have their place there. -/
def Lines (turns : Queue → Turns) (place : CallId → Option Queue) : Prop :=
  ∀ queue, (turns queue).Serves (place · = some queue)

/-- The calls that stand in a queue are those whose stage says so, and they have something to do
there. -/
structure InLine (l : Link) : Prop where
  lines : Lines l.turnsAt l.queueOf
  asks : ∀ (call : CallId) c queue, l.calls[call]? = some c → c.stage.queue? = some queue →
    c.job.Asks queue

section Lines

variable {turns : Queue → Turns} {place : CallId → Option Queue} {call : CallId} {queue : Queue}

/-- A call joins a queue, and stands in no other. -/
theorem Lines.join (h : Lines turns place)
    (hplace : place call = none ∨ place call = some queue) :
    Lines (Function.update turns queue ((turns queue).join call))
      (Function.update place call (some queue)) := by
  intro other
  by_cases hother : other = queue
  · subst hother
    rw [Function.update_self]
    refine ((h other).join call).congr fun id => ?_
    by_cases hid : id = call <;> simp [hid]
  · rw [Function.update_of_ne hother]
    refine (h other).congr fun id => ?_
    by_cases hid : id = call
    · subst hid
      rw [Function.update_self]
      rcases hplace with hplace | hplace <;> simp [hplace, Ne.symm hother]
    · rw [Function.update_of_ne hid]

/-- A call leaves all queues. -/
theorem Lines.leave (h : Lines turns place) (call : CallId) :
    Lines (fun queue => (turns queue).leave call) (Function.update place call none) := by
  intro queue
  refine ((h queue).leave call).congr fun id => ?_
  by_cases hid : id = call <;> simp [hid]

end Lines

variable {l l' : Link} {d : StreamId → Bytes} {call : CallId} {c : Call} {stream : StreamId}
  {place : CallId → Option Queue}

/-! ### Turns on a link -/

theorem queueOf_eq (hcall : l.calls[call]? = some c) : l.queueOf call = c.stage.queue? := by
  rw [queueOf, hcall, Option.bind_some]

theorem turnsAt_eq (houtflow : l'.outflow d = l.outflow d) (hreaders : l'.readers = l.readers) :
    l'.turnsAt = l.turnsAt := by
  funext queue
  cases queue with
  | reading => exact hreaders
  | writing stream => exact congrFun (congrArg Outflow.writers houtflow) stream

/-- Turns do not change with what connections hold. -/
theorem turnsAt_modifyStream {g : Stream → Stream}
    (hwriters : ∀ s, l.streams[stream]? = some s → (g s).writers = s.writers) :
    (l.modifyStream stream g).turnsAt = l.turnsAt := by
  funext queue
  cases queue with
  | reading => rfl
  | writing target =>
    rw [turnsAt, turnsAt, streamAt, streamAt, modifyStream, List.getElem?_modify]
    cases hs : l.streams[target]? with
    | none => rfl
    | some s =>
      by_cases htarget : stream = target
      · subst htarget
        simp [hwriters s hs]
      · simp [htarget]

theorem turnsAt_joinReading (l : Link) (call : CallId) :
    ({ l with readers := l.readers.join call } : Link).turnsAt =
      Function.update l.turnsAt .reading ((l.turnsAt .reading).join call) := by
  funext queue
  cases queue with
  | reading =>
    rw [Function.update_self]
    rfl
  | writing stream =>
    rw [Function.update_of_ne (by simp)]
    rfl

theorem turnsAt_joinWriting (hmade : stream < l.streams.length) (call : CallId) :
    (l.modifyStream stream fun s => { s with writers := s.writers.join call }).turnsAt =
      Function.update l.turnsAt (.writing stream)
        ((l.turnsAt (.writing stream)).join call) := by
  funext queue
  cases queue with
  | reading =>
    rw [Function.update_of_ne (by simp)]
    rfl
  | writing target =>
    rw [turnsAt, streamAt_modifyStream hmade]
    by_cases htarget : target = stream
    · subst htarget
      rw [Function.update_self, Function.update_self]
      rfl
    · rw [Function.update_of_ne htarget, Function.update_of_ne (by simpa using htarget)]
      rfl

/-- The link after a call has left every queue. -/
def leaveAll (l : Link) (call : CallId) : Link :=
  { l with
    readers := l.readers.leave call
    streams := l.streams.map fun s => { s with writers := s.writers.leave call } }

theorem turnsAt_leaveAll (l : Link) (call : CallId) :
    (l.leaveAll call).turnsAt = fun queue => (l.turnsAt queue).leave call := by
  funext queue
  cases queue with
  | reading => rfl
  | writing stream => exact congrArg Stream.writers (streamAt_leave l call stream)

section Leave

variable (h : Lines l.turnsAt place)
include h

/-- A call that does not stand in a queue makes no difference to it when it leaves. -/
theorem writers_leave_of_ne {i : Nat} {s : Stream} (hs : l.streams[i]? = some s)
    (hne : place call ≠ some (.writing i)) :
    { s with writers := s.writers.leave call } = s := by
  have hat : l.turnsAt (.writing i) = s.writers := by
    rw [turnsAt, streamAt, hs, Option.getD_some]
  have hsame : s.writers.leave call = s.writers := hat ▸ (h (.writing i)).leave_of_not hne
  rw [hsame]

/-- A read leaves its queue, which is the only one in which it stands. -/
theorem leaveAll_of_reading (hplace : place call = none ∨ place call = some .reading) :
    l.leaveAll call = { l with readers := l.readers.leave call } := by
  have hstreams : (l.streams.map fun s => { s with writers := s.writers.leave call }) =
      l.streams := by
    refine List.ext_getElem? fun i => ?_
    rw [List.getElem?_map]
    cases hs : l.streams[i]? with
    | none => rfl
    | some s =>
      refine congrArg some (writers_leave_of_ne h hs ?_)
      rcases hplace with hplace | hplace <;> simp [hplace]
  rw [leaveAll, hstreams]

/-- A write leaves its queue, which is the only one in which it stands. -/
theorem leaveAll_of_writing (hplace : place call = none ∨ place call = some (.writing stream)) :
    l.leaveAll call =
      l.modifyStream stream fun s => { s with writers := s.writers.leave call } := by
  have hreaders : l.readers.leave call = l.readers := by
    refine (h .reading).leave_of_not ?_
    rcases hplace with hplace | hplace <;> simp [hplace]
  have hstreams : (l.streams.map fun s => { s with writers := s.writers.leave call }) =
      l.streams.modify stream fun s => { s with writers := s.writers.leave call } := by
    refine List.ext_getElem? fun i => ?_
    rw [List.getElem?_map, List.getElem?_modify]
    cases hs : l.streams[i]? with
    | none => rfl
    | some s =>
      by_cases hi : stream = i
      · simp [hi]
      · have hne : place call ≠ some (.writing i) := by
          rcases hplace with hplace | hplace <;> simp [hplace, hi]
        simp [hi, writers_leave_of_ne h hs hne]
  rw [leaveAll, modifyStream, hreaders, hstreams]

/-- A call that stands in no queue leaves none. -/
theorem leaveAll_of_none (hplace : place call = none) : l.leaveAll call = l := by
  have hreaders : l.readers.leave call = l.readers :=
    (h .reading).leave_of_not (by simp [hplace])
  rw [leaveAll_of_reading h (.inl hplace), hreaders]

end Leave

end Link

end BrokerWire
