import BrokerWire.Proofs.Link.Connecting

/-!
# What calls hold

Bytes that a call has taken are in its hands until it ends. `View.Ok` says for every call what it
has taken: nothing before its turn, and then, in the order in which it was taken, what its stage
says it has read. What it takes may come from more than one connection, but it never goes back to an
earlier one. Every move keeps this (`View.Ok.move`).
-/

namespace BrokerWire

namespace Link

/-- What a read is after: `Progress job part header size` says that a call for `job` reads `size`
bytes for `part`, behind a `header` that it has read before. -/
inductive Progress : Job → Part → Bytes → Nat → Prop where
  | whole (n : Nat) : Progress (.read n) .whole [] n
  | length : Progress .readFrame .length [] lengthSize
  | body (header : Bytes) (hheader : header.length = lengthSize)
    (hlength : isFrameLength (BigEndian.toInt32 header)) :
    Progress .readFrame .body header (BigEndian.toInt32 header).toNatClampNeg

theorem Progress.of_start? {job : Job} {part : Part} {size : Nat}
    (h : job.start? = some (part, size)) : Progress job part [] size := by
  cases job with
  | read n =>
    obtain ⟨rfl, rfl⟩ := Prod.mk.inj (Option.some.inj h)
    exact .whole n
  | readFrame =>
    obtain ⟨rfl, rfl⟩ := Prod.mk.inj (Option.some.inj h)
    exact .length
  | write frame => exact nomatch h
  | dispose => exact nomatch h

theorem Progress.isSome_start? {job : Job} {part : Part} {header : Bytes} {size : Nat}
    (h : Progress job part header size) : job.start?.isSome := by
  cases h <;> rfl

/-- Bytes that are a part, but not all, of what a call is to read. -/
def IsPartial (job : Job) (bytes : Bytes) : Prop :=
  ∃ part header size got, Progress job part header size ∧ got.length < size ∧ bytes = header ++ got

/-- How a call ends that its caller gives up. -/
def Stage.isAbandoned : Stage → Bool
  | .dropped => true
  | .done (.error .cancelled) => true
  | _ => false

theorem Stage.not_isAbandoned_of_isOpen {stage : Stage} (hopen : stage.isOpen) :
    ¬stage.isAbandoned := by
  cases stage with
  | done result => contradiction
  | dropped => contradiction
  | _ => exact Bool.false_ne_true

namespace View

/-- A call has taken nothing. -/
def EmptyHanded (v : View) (call : CallId) : Prop := ∀ t ∈ v.takes, t.call ≠ call

/-- A connection that a call waits on has been made, and the call has taken nothing from later
ones. -/
def Stands (v : View) (call : CallId) (source : Option StreamId) : Prop :=
  ∀ stream, source = some stream →
    stream < v.conn.made ∧ ∀ t ∈ v.takes, t.call = call → t.stream ≤ stream

/-- What a call has taken, given where it stands. -/
def CallOk (v : View) (id : CallId) (c : Call) : Prop :=
  match c.stage with
  | .fresh => v.EmptyHanded id
  | .queued => c.job.start?.isSome ∧ v.EmptyHanded id
  | .filling part f source =>
    v.readers.holder = some id ∧ v.Stands id source ∧
      ∃ header size, Progress c.job part header size ∧ f.got.length + f.missing = size ∧
        v.hand id = header ++ f.got
  | .offering | .lining _ | .sending .. => c.job.start? = none ∧ v.EmptyHanded id
  | .winding .. => c.job.start? = none ∧ v.conn.disposed ∧ v.EmptyHanded id
  | .done (.ok bytes) =>
    c.job.start? = none ∧ v.EmptyHanded id ∨
      ∃ part header, part ≠ .length ∧ Progress c.job part header bytes.length ∧
        v.hand id = header ++ bytes
  | .done (.error _) | .dropped =>
    c.stage.isAbandoned → v.EmptyHanded id ∨ IsPartial c.job (v.hand id)

/-- From where and in which order calls take. -/
structure Orderly (v : View) : Prop where
  /-- They take from connections that have been made. -/
  made : ∀ t ∈ v.takes, t.stream < v.conn.made
  /-- No call goes back to an earlier connection. -/
  ascending : ∀ id, (v.takes.filter (isBy id)).Pairwise fun newer older =>
    older.stream ≤ newer.stream

/-- What holds of a view at any time. -/
structure Ok (v : View) : Prop where
  /-- The gate, the slot and the episodes fit together. -/
  conn : v.conn.Valid
  /-- Every call has taken what it should have. -/
  call : ∀ id c, v.calls[id]? = some c → v.CallOk id c
  /-- A call that has not begun has taken nothing. -/
  unbegun : ∀ id, v.calls.length ≤ id → v.EmptyHanded id
  /-- Calls go from one connection to a later one. -/
  takes : v.Orderly

variable {v v' : View} {id : CallId} {c : Call} {stream : StreamId}

theorem EmptyHanded.hand_eq_nil (h : v.EmptyHanded id) : v.hand id = [] :=
  bytesOf_eq_nil fun t ht => decide_eq_false (h t ht)

theorem EmptyHanded.takenBy_eq_nil (h : v.EmptyHanded id) (stream : StreamId) :
    v.takenBy id stream = [] :=
  bytesOf_eq_nil fun t ht => decide_eq_false fun hof => h t ht hof.1

theorem Orderly.of_eq (h : v.Orderly) (htakes : v'.takes = v.takes)
    (hmade : v.conn.made ≤ v'.conn.made) : v'.Orderly where
  made t ht := Nat.lt_of_lt_of_le (h.made t (htakes ▸ ht)) hmade
  ascending id := htakes ▸ h.ascending id

/-- From a connection that has not been made nothing has been taken. -/
theorem Orderly.takenFrom_eq_nil (h : v.Orderly) (hmade : v.conn.made ≤ stream) :
    v.takenFrom stream = [] :=
  bytesOf_eq_nil fun t ht => decide_eq_false fun heq =>
    Nat.not_lt_of_le (heq ▸ hmade) (h.made t ht)

/-- A read that has its turn is the only one. -/
theorem Ok.holder (h : v.Ok) (hcall : v.calls[id]? = some c) (hfilling : c.stage.isFilling) :
    v.readers.holder = some id := by
  have hok := h.call id c hcall
  obtain ⟨job, cancelled, stage⟩ := c
  cases stage with
  | filling part f source => exact hok.1
  | _ => exact nomatch hfilling

/-- A change that takes nothing from a call, and nothing for it: its bytes stay, and if it has its
turn, it keeps it. -/
structure Spares (v v' : View) (id : CallId) : Prop where
  taken : v'.takes.filter (isBy id) = v.takes.filter (isBy id)
  holder : v.readers.holder = some id → v'.readers.holder = some id
  made : v.conn.made ≤ v'.conn.made
  disposed : v.conn.disposed → v'.conn.disposed

theorem Spares.mem_takes (hspares : v.Spares v' id) {t : Take} (ht : t ∈ v'.takes)
    (hcall : t.call = id) : t ∈ v.takes := by
  have hmem : t ∈ v'.takes.filter (isBy id) := List.mem_filter.mpr ⟨ht, decide_eq_true hcall⟩
  rw [hspares.taken] at hmem
  exact (List.mem_filter.mp hmem).1

theorem Spares.emptyHanded (hspares : v.Spares v' id) (h : v.EmptyHanded id) :
    v'.EmptyHanded id :=
  fun t ht hcall => h t (hspares.mem_takes ht hcall) hcall

theorem Spares.hand (hspares : v.Spares v' id) : v'.hand id = v.hand id :=
  congrArg (fun takes => takes.reverse.flatMap Take.bytes) hspares.taken

theorem Spares.stands (hspares : v.Spares v' id) {source : Option StreamId}
    (h : v.Stands id source) : v'.Stands id source := fun stream hstream =>
  ⟨Nat.lt_of_lt_of_le (h stream hstream).1 hspares.made,
    fun t ht hcall => (h stream hstream).2 t (hspares.mem_takes ht hcall) hcall⟩

theorem Spares.callOk (hspares : v.Spares v' id) (h : v.CallOk id c) : v'.CallOk id c := by
  obtain ⟨job, cancelled, stage⟩ := c
  cases stage with
  | fresh => exact hspares.emptyHanded h
  | queued => exact ⟨h.1, hspares.emptyHanded h.2⟩
  | filling part f source =>
    obtain ⟨hturn, hstands, header, size, hprogress, hsize, hhand⟩ := h
    exact ⟨hspares.holder hturn, hspares.stands hstands, header, size, hprogress, hsize,
      hspares.hand.trans hhand⟩
  | offering => exact ⟨h.1, hspares.emptyHanded h.2⟩
  | lining stream => exact ⟨h.1, hspares.emptyHanded h.2⟩
  | sending stream rest => exact ⟨h.1, hspares.emptyHanded h.2⟩
  | winding task deadline => exact ⟨h.1, hspares.disposed h.2.1, hspares.emptyHanded h.2.2⟩
  | done result =>
    cases result with
    | ok bytes =>
      rcases h with ⟨hjob, hnothing⟩ | ⟨part, header, hpart, hprogress, hhand⟩
      · exact .inl ⟨hjob, hspares.emptyHanded hnothing⟩
      · exact .inr ⟨part, header, hpart, hprogress, hspares.hand.trans hhand⟩
    | error e =>
      exact fun habandoned => (h habandoned).imp hspares.emptyHanded fun h => hspares.hand ▸ h
  | dropped =>
    exact fun habandoned => (h habandoned).imp hspares.emptyHanded fun h => hspares.hand ▸ h

theorem Spares.refl (v : View) (id : CallId) : v.Spares v id where
  taken := rfl
  holder h := h
  made := Nat.le_refl _
  disposed h := h

/-- A change that spares every call. -/
theorem Ok.keep (h : v.Ok) (hspares : ∀ id, v.Spares v' id) (hcalls : v'.calls = v.calls)
    (hconn : v'.conn.Valid) (htakes : v'.takes = v.takes) : v'.Ok where
  conn := hconn
  call id c hcall := (hspares id).callOk (h.call id c (hcalls ▸ hcall))
  unbegun id hid := (hspares id).emptyHanded (h.unbegun id (hcalls ▸ hid))
  takes := h.takes.of_eq htakes (hspares 0).made

/-- A call goes on to another stage with a change that spares all others. -/
theorem Ok.setStage (h : v.Ok) (hspares : ∀ other, other ≠ id → v.Spares v' other)
    (hcalls : v'.calls = v.calls) (hcall : v.calls[id]? = some c) (hconn : v'.conn.Valid)
    {stage : Stage} (hown : v'.CallOk id { c with stage }) (htakes : v'.Orderly) :
    (v'.setStage id stage).Ok where
  conn := hconn
  call other c' hcall' := by
    by_cases hother : other = id
    · subst hother
      rw [getElem?_setStage_self (hcalls ▸ hcall)] at hcall'
      obtain rfl := Option.some.inj hcall'
      exact hown
    · rw [getElem?_setStage_of_ne hother, hcalls] at hcall'
      exact (hspares other hother).callOk (h.call other c' hcall')
  unbegun other hother := by
    have hlength : v.calls.length ≤ other := by
      simpa [View.setStage, hcalls] using hother
    have hne : other ≠ id := by
      rintro rfl
      rw [List.getElem?_eq_none hlength] at hcall
      contradiction
    exact (hspares other hne).emptyHanded (h.unbegun other hlength)
  takes := ⟨htakes.made, htakes.ascending⟩

/-! ### Changes that spare calls -/

theorem holder_join {turns : Turns} (h : turns.holder = some id) (call : CallId) :
    (turns.join call).holder = some id := by
  simp only [Turns.join, h]
  split_ifs
  · exact h
  · rfl

theorem holder_leave {turns : Turns} (h : turns.holder = some id) {call : CallId}
    (hne : id ≠ call) : (turns.leave call).holder = some id := by
  rw [Turns.leave, if_neg]
  · exact h
  · rw [h]
    exact fun heq => hne (Option.some.inj heq)

theorem spares_join (v : View) (call id : CallId) :
    v.Spares { v with readers := v.readers.join call } id :=
  ⟨rfl, fun h => holder_join h call, Nat.le_refl _, fun h => h⟩

theorem spares_leave (v : View) {call : CallId} (hne : id ≠ call) : v.Spares (v.leave call) id :=
  ⟨rfl, fun h => holder_leave h hne, Nat.le_refl _, fun h => h⟩

/-- A change of the connection in use. -/
theorem spares_conn {conn : Conn} (id : CallId) (hmade : v.conn.made ≤ conn.made)
    (hdisposed : v.conn.disposed → conn.disposed) : v.Spares { v with conn } id :=
  ⟨rfl, fun h => h, hmade, hdisposed⟩

/-- A call gives up its turn, and a connection may be lost. -/
theorem spares_forsake (lost : Option StreamId) {call : CallId} (hne : id ≠ call) :
    v.Spares ({ v with conn := v.conn.forsake lost }.leave call) id :=
  ⟨rfl, fun h => holder_leave h hne, Nat.le_of_eq (Conn.made_forsake _ _).symm,
    (Conn.disposed_forsake _ _).trans⟩

theorem spares_setInflow {inflow : Inflow} (id : CallId) :
    v.Spares (v.setInflow stream inflow) id :=
  ⟨rfl, fun h => h, Nat.le_refl _, fun h => h⟩

theorem spares_take (v : View) {call : CallId} (hne : id ≠ call) (stream : StreamId)
    (chunk rest : Bytes) : v.Spares (v.take call stream chunk rest) id :=
  ⟨List.filter_cons_of_neg (by simp [isBy, Ne.symm hne]), fun h => h, Nat.le_refl _, fun h => h⟩

/-! ### What a call takes -/

theorem hand_take (v : View) (call : CallId) (stream : StreamId) (chunk rest : Bytes) :
    (v.take call stream chunk rest).hand call = v.hand call ++ chunk := by
  simp [hand, View.take, bytesOf_cons, isBy]

theorem takenBy_take_self (v : View) (call : CallId) (stream : StreamId) (chunk rest : Bytes) :
    (v.take call stream chunk rest).takenBy call stream = v.takenBy call stream ++ chunk := by
  simp [takenBy, View.take, bytesOf_cons, isOf]

theorem takenBy_take_of_ne (v : View) {call other : CallId} {stream target : StreamId}
    (hne : other ≠ call ∨ target ≠ stream) (chunk rest : Bytes) :
    (v.take call stream chunk rest).takenBy other target = v.takenBy other target := by
  have hnot : isOf other target ⟨call, stream, chunk⟩ = false := by
    rcases hne with hne | hne <;> simp [isOf, Ne.symm hne]
  simp [takenBy, View.take, bytesOf_cons, hnot]

theorem takenFrom_take_self (v : View) (call : CallId) (stream : StreamId) (chunk rest : Bytes) :
    (v.take call stream chunk rest).takenFrom stream = v.takenFrom stream ++ chunk := by
  simp [takenFrom, View.take, bytesOf_cons, isFrom]

theorem takenFrom_take_of_ne (v : View) {call : CallId} {stream target : StreamId}
    (hne : target ≠ stream) (chunk rest : Bytes) :
    (v.take call stream chunk rest).takenFrom target = v.takenFrom target := by
  simp [takenFrom, View.take, bytesOf_cons, isFrom, Ne.symm hne]

/-- What a call takes from the connection that it waits on comes behind all that it has taken. -/
theorem Orderly.take (h : v.Orderly) {call : CallId} (hstands : v.Stands call (some stream))
    (chunk rest : Bytes) : (v.take call stream chunk rest).Orderly where
  made t ht := by
    rcases List.mem_cons.mp ht with rfl | ht
    · exact (hstands stream rfl).1
    · exact h.made t ht
  ascending id := by
    have hold := h.ascending id
    by_cases hid : id = call
    · subst hid
      rw [View.take, List.filter_cons_of_pos (by simp [isBy]), List.pairwise_cons]
      refine ⟨fun t ht => ?_, hold⟩
      obtain ⟨hmem, hby⟩ := List.mem_filter.mp ht
      exact (hstands stream rfl).2 t hmem (of_decide_eq_true hby)
    · exact (spares_take v hid stream chunk rest).taken ▸ hold

/-! ### Moves -/

/-- A call that has not had its turn, or needs none, has taken nothing. -/
theorem CallOk.emptyHanded (h : v.CallOk id c) (hopen : c.stage.isOpen)
    (hfilling : c.stage.isFilling = false) : v.EmptyHanded id := by
  obtain ⟨job, cancelled, stage⟩ := c
  cases stage with
  | fresh => exact h
  | queued => exact h.2
  | filling part f source => exact nomatch hfilling
  | offering => exact h.2
  | lining stream => exact h.2
  | sending stream rest => exact h.2
  | winding task deadline => exact h.2.2
  | done result => exact nomatch hopen
  | dropped => exact nomatch hopen

/-- What a read that has its turn has taken. -/
theorem CallOk.filling (h : v.CallOk id c) {part : Part} {f : Filling} {source : Option StreamId}
    (hstage : c.stage = .filling part f source) :
    v.readers.holder = some id ∧ v.Stands id source ∧
      ∃ header size, Progress c.job part header size ∧ f.got.length + f.missing = size ∧
        v.hand id = header ++ f.got := by
  obtain ⟨job, cancelled, stage⟩ := c
  obtain rfl : stage = .filling part f source := hstage
  exact h

/-- A call that needs no turn is not filling. -/
theorem CallOk.not_filling (h : v.CallOk id c) (hjob : c.job.start? = none) :
    c.stage.isFilling = false := by
  cases hstage : c.stage with
  | filling part f source =>
    obtain ⟨-, -, header, size, hprogress, -⟩ := h.filling hstage
    have hsome := hprogress.isSome_start?
    rw [hjob] at hsome
    contradiction
  | _ => rfl

theorem eq_cancelled_of_isAbandoned {e : WireError} (h : (Stage.done (.error e)).isAbandoned) :
    e = .cancelled := by
  cases e <;> first | rfl | exact nomatch h

/-- A read that has its turn and misses bytes has taken a part of what it is to take. -/
theorem CallOk.isPartial (h : v.CallOk id c) {part : Part} {f : Filling}
    {source : Option StreamId} (hstage : c.stage = .filling part f source)
    (hmissing : 0 < f.missing) : IsPartial c.job (v.hand id) := by
  obtain ⟨-, -, header, size, hprogress, hsize, hhand⟩ := h.filling hstage
  exact ⟨part, header, size, f.got, hprogress, by omega, hhand⟩

/-- A stage that a call without a turn may be at. -/
theorem callOk_of_emptyHanded {stage : Stage} (hempty : v.EmptyHanded id)
    (hjob : c.job.start? = none) (hfilling : stage.isFilling = false) (hqueued : stage ≠ .queued)
    (hwinding : ∀ task deadline, stage = .winding task deadline → v.conn.disposed) :
    v.CallOk id { c with stage } := by
  cases stage with
  | fresh => exact hempty
  | queued => contradiction
  | filling part f source => exact nomatch hfilling
  | offering => exact ⟨hjob, hempty⟩
  | lining stream => exact ⟨hjob, hempty⟩
  | sending stream rest => exact ⟨hjob, hempty⟩
  | winding task deadline => exact ⟨hjob, hwinding task deadline rfl, hempty⟩
  | done result =>
    cases result with
    | ok bytes => exact .inl ⟨hjob, hempty⟩
    | error e => exact fun _ => .inl hempty
  | dropped => exact fun _ => .inl hempty

theorem callOk_filling {part : Part} {f : Filling} {source : Option StreamId} {header : Bytes}
    {size : Nat} (hturn : v.readers.holder = some id) (hstands : v.Stands id source)
    (hprogress : Progress c.job part header size) (hsize : f.got.length + f.missing = size)
    (hhand : v.hand id = header ++ f.got) :
    v.CallOk id { c with stage := .filling part f source } :=
  ⟨hturn, hstands, header, size, hprogress, hsize, hhand⟩

/-- A read that fails keeps what it has taken, and if it is given up, that is not all. -/
theorem callOk_error {e : WireError}
    (hpartial : e = .cancelled → v.EmptyHanded id ∨ IsPartial c.job (v.hand id)) :
    v.CallOk id { c with stage := .done (.error e) } :=
  fun habandoned => hpartial (eq_cancelled_of_isAbandoned habandoned)

theorem stage_waiting (hstage : c.stage = .fresh ∨ c.stage = .queued) :
    c.stage.isOpen ∧ c.stage.isFilling = false := by
  rcases hstage with hstage | hstage <;> rw [hstage] <;> exact ⟨rfl, rfl⟩

/-- A call that begins keeps a view in order. -/
theorem Ok.begun (h : v.Ok) (event : Event) : (v.begun event).Ok := by
  cases event with
  | begin job =>
    refine ⟨h.conn, fun id c hcall => ?_, fun id hid => h.unbegun id ?_,
      ⟨h.takes.made, h.takes.ascending⟩⟩
    · have hcall : (v.calls ++ [({ job } : Call)])[id]? = some c := hcall
      rcases Nat.lt_trichotomy id v.calls.length with hid | hid | hid
      · rw [List.getElem?_append_left hid] at hcall
        exact h.call id c hcall
      · obtain rfl : c = { job } := by simpa [hid, eq_comm] using hcall
        exact h.unbegun id (Nat.le_of_eq hid.symm)
      · rw [List.getElem?_eq_none (by simp; omega)] at hcall
        contradiction
    · simp only [View.begun, List.length_append, List.length_singleton] at hid
      omega
  | _ => exact h

/-- Every move keeps a view in order. -/
theorem Ok.move (h : v.Ok) (hmove : Move v v') : v'.Ok := by
  -- most moves take nothing and make no connection
  have hsame : v.conn.made ≤ v.conn.made := Nat.le_refl _
  cases hmove with
  | withdraw call =>
    refine ⟨h.conn, fun id c hcall => ?_, fun id hid => h.unbegun id (by simpa using hid),
      ⟨h.takes.made, h.takes.ascending⟩⟩
    by_cases hid : call = id
    · subst hid
      obtain ⟨c, hc, rfl⟩ : ∃ c', v.calls[call]? = some c' ∧ { c' with cancelled := true } = c := by
        simpa using hcall
      exact h.call call c hc
    · exact h.call id c (by simpa [hid] using hcall)
  | shift hcall hjob hopen hfilling hqueued hwinding hprotocol =>
    have hok := h.call _ _ hcall
    refine h.setStage (fun _ _ => .refl _ _) rfl hcall h.conn ?_ h.takes
    exact callOk_of_emptyHanded (hok.emptyHanded hopen (hok.not_filling hjob)) hjob hfilling hqueued
      hwinding
  | queue hcall hjob hstage hturn =>
    obtain ⟨hopen, hfilling⟩ := stage_waiting hstage
    have hempty := (h.call _ _ hcall).emptyHanded hopen hfilling
    exact h.setStage (fun other _ => spares_join v _ other) rfl hcall h.conn ⟨hjob, hempty⟩
      (h.takes.of_eq rfl hsame)
  | quit hcall hjob hstage herror =>
    obtain ⟨hopen, hfilling⟩ := stage_waiting hstage
    have hempty := (h.call _ _ hcall).emptyHanded hopen hfilling
    exact h.setStage (fun _ hne => spares_leave v hne) rfl hcall h.conn
      (callOk_error fun _ => .inl hempty) (h.takes.of_eq rfl hsame)
  | enter hcall hjob hstage hturn =>
    obtain ⟨hopen, hfilling⟩ := stage_waiting hstage
    have hempty := (h.call _ _ hcall).emptyHanded hopen hfilling
    exact h.setStage (fun other _ => spares_join v _ other) rfl hcall h.conn
      (callOk_filling hturn nofun (.of_start? hjob) (Nat.zero_add _) hempty.hand_eq_nil)
      (h.takes.of_eq rfl hsame)
  | find hcall hstage huse =>
    obtain ⟨hturn, -, header, size, hprogress, hsize, hhand⟩ := (h.call _ _ hcall).filling hstage
    refine h.setStage (fun _ _ => .refl _ _) rfl hcall h.conn
      (callOk_filling hturn (fun stream hstream => ?_) hprogress hsize hhand) h.takes
    -- the connection in use is the last one, so the call has taken nothing from later ones
    obtain rfl := Option.some.inj hstream
    refine ⟨h.conn.made _ huse.2.2, fun t ht _ => Nat.le_of_lt_succ ?_⟩
    exact Nat.lt_of_lt_of_eq (h.takes.made t ht) (h.conn.newest _ huse.2.2).symm
  | @take call c part f stream chunk rest hcall hstage hincoming hchunk hmissing =>
    obtain ⟨hturn, hstands, header, size, hprogress, hsize, hhand⟩ :=
      (h.call _ _ hcall).filling hstage
    refine h.setStage (fun other hne => spares_take v hne stream chunk rest) rfl hcall h.conn
      (callOk_filling hturn nofun hprogress ?_ ?_) (h.takes.take hstands chunk rest)
    · simp only [List.length_append]
      omega
    · rw [hand_take, hhand, List.append_assoc]
  | @header call c got hcall hstage hlength =>
    obtain ⟨hturn, hstands, header, size, hprogress, hsize, hhand⟩ :=
      (h.call _ _ hcall).filling hstage
    -- what was read so far is the header, and nothing of the body is there
    have hbody : Progress c.job .body got (BigEndian.toInt32 got).toNatClampNeg := by
      generalize c.job = job at hprogress
      cases hprogress
      exact .body got hsize hlength
    have hgot : header ++ got = got ++ [] := by
      generalize c.job = job at hprogress
      cases hprogress
      rw [List.append_nil, List.nil_append]
    exact h.setStage (fun _ _ => .refl _ _) rfl hcall h.conn
      (callOk_filling hturn hstands hbody (Nat.zero_add _) (hhand.trans hgot)) h.takes
  | @finish call c part got source hcall hstage hpart =>
    obtain ⟨-, -, header, size, hprogress, hsize, hhand⟩ := (h.call _ _ hcall).filling hstage
    obtain rfl : got.length = size := hsize
    let left : View := (v.deliver call got).leave call
    have hown : left.CallOk call { c with stage := .done (.ok got) } :=
      .inr ⟨part, header, hpart, hprogress, hhand⟩
    have hspares : ∀ other, other ≠ call → v.Spares left other := fun other hne =>
      ⟨rfl, fun h => holder_leave h hne, hsame, fun h => h⟩
    exact h.setStage hspares rfl hcall h.conn hown (h.takes.of_eq rfl hsame)
  | reject hcall hstage hlength =>
    exact h.setStage (fun _ hne => spares_forsake _ hne) rfl hcall (h.conn.forsake _)
      (callOk_error nofun) (h.takes.of_eq rfl (Nat.le_of_eq (Conn.made_forsake _ _).symm))
  | refuse hcall hstage hmissing herror =>
    have hpartial := (h.call _ _ hcall).isPartial hstage hmissing
    exact h.setStage (fun _ hne => spares_leave v hne) rfl hcall h.conn
      (callOk_error fun _ => .inr hpartial) (h.takes.of_eq rfl hsame)
  | @lost call c part f stream e hcall hstage herror =>
    exact h.setStage (fun _ hne => spares_forsake (some stream) hne) rfl hcall (h.conn.lose stream)
      (callOk_error fun heq => absurd heq herror.1)
      (h.takes.of_eq rfl (Nat.le_of_eq (Conn.made_lose _ _).symm))
  | @drop call c hcall hopen hmissing =>
    have hok := h.call _ _ hcall
    -- a call that has its turn has taken a part of its bytes, any other call nothing
    have hpartial : v.EmptyHanded call ∨ IsPartial c.job (v.hand call) := by
      cases hstage : c.stage with
      | filling part f source => exact .inr (hok.isPartial hstage (hmissing _ _ _ hstage))
      | _ => exact .inl (hok.emptyHanded hopen (by rw [hstage]; rfl))
    exact h.setStage (fun _ hne => spares_leave v hne) rfl hcall h.conn (fun _ => hpartial)
      (h.takes.of_eq rfl hsame)
  | @notice stream haborted =>
    exact h.keep (fun id => spares_conn id (Nat.le_of_eq (Conn.made_lose _ _).symm)
      (Conn.disposed_lose _ _).trans) rfl (h.conn.lose stream) rfl
  | openingDisposed hopened hdisposed =>
    exact h.keep (fun id => spares_conn id hsame fun h => h) rfl
      (h.conn.openingDisposed hdisposed) rfl
  | opening hopened hdisposed =>
    exact h.keep (fun id => spares_conn id hsame fun h => h) rfl (h.conn.opening hopened) rfl
  | dial hepisode hrunning hphase =>
    exact h.keep (fun id => spares_conn id hsame fun h => h) rfl
      (h.conn.dial hepisode (decide_eq_true hrunning) hphase) rfl
  | retire hepisode hrunning hdisposed =>
    exact h.keep (fun id => spares_conn id hsame fun h => h) rfl
      (h.conn.endEpisode hepisode (decide_eq_true hrunning) (fun _ => hdisposed)
        fun _ hnone => nomatch hnone) rfl
  | establish hepisode hrunning =>
    exact h.keep (fun id => spares_conn id (Nat.le_succ _) fun h => h) rfl
      (h.conn.establish hepisode (decide_eq_true hrunning)) rfl
  | dispose =>
    exact h.keep (fun id => spares_conn id hsame fun _ => rfl) rfl h.conn.dispose rfl
  | clear hdisposed =>
    exact h.keep (fun id => spares_conn id hsame fun h => h) rfl (h.conn.clear hdisposed) rfl
  | arrive bytes hmade hended haborted =>
    exact h.keep (fun id => ⟨rfl, fun h => h, hsame, fun h => h⟩) rfl h.conn rfl
  | hangUp stream => exact h.keep (fun id => spares_setInflow id) rfl h.conn rfl
  | abort stream => exact h.keep (fun id => spares_setInflow id) rfl h.conn rfl
  | flush haborted => exact h.keep (fun id => spares_setInflow id) rfl h.conn rfl

end View

end Link

end BrokerWire
