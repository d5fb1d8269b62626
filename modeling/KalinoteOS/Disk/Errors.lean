import KalinoteOS.Disk.Run

/-! # Disk errors

An interrupt handler that finds `DISK_STATUS_ERROR` reads no sector and counts down all the same,
and does not keep the status.
-/
namespace KalinoteOS.Disk
open Scheduler Lib
set_option autoImplicit false

/-- The disk, and at each interrupt the node in use and whether the status had its error bit. -/
structure Observed where
  disk : State
  statuses : List (Nat × Bool)

/-- The error bits at the interrupts of a request. -/
def Observed.errors (o : Observed) (serial : Nat) : List Bool :=
  o.statuses.filterMap fun status => if status.1 = serial then some status.2 else none

inductive Action where
  | submit (cmd blocks count buffer : Nat)
  | irq (error : Bool)
  | resched (sched : Schedule)

/-- Requests of any task and interrupts with any status, in any order. -/
inductive Observes : Observed → Action → Observed → Prop
  | submit {s t : State} {statuses : List (Nat × Bool)} {cmd blocks count buffer : Nat}
      (hCmd : cmd = ataReadCmd ∨ cmd = ataWriteCmd) (hPos : 1 ≤ count) (hLt : count < 2 ^ 32)
      (hCall : submit s (makeRequest s cmd blocks count buffer) = some t) :
      Observes ⟨s, statuses⟩ (.submit cmd blocks count buffer) ⟨t, statuses⟩
  | irq {s t : State} {statuses : List (Nat × Bool)} {node : BlockBufferNode} (error : Bool)
      (hFlight : s.drive.InFlight) (hNode : s.inUsing = some node)
      (hCall : diskHandler error (raiseIrq s) = some t) :
      Observes ⟨s, statuses⟩ (.irq error) ⟨t, statuses ++ [(node.serial, error)]⟩
  | resched {s : State} {statuses : List (Nat × Bool)} (sched : Schedule) :
      Observes ⟨s, statuses⟩ (.resched sched) ⟨{ s with sched := sched }, statuses⟩

def Observed.Start (o : Observed) : Prop := Initial o.disk ∧ o.statuses = []

/-- The address of a sector that is read for the node `serial`. -/
def readBy (serial : Nat) : Event → Option Nat
  | .transfer .insw owner _ address => if owner = serial then some address else none
  | _ => none

def reads (s : State) (serial : Nat) : List Nat := s.log.filterMap (readBy serial)

/-- The addresses of the sectors whose interrupt had no error bit. -/
def readAddresses (r : BlockBufferNode) (errors : List Bool) : List Nat :=
  errors.zipIdx.filterMap fun e => if e.1 then none else some (r.buffer + 512 * e.2)

/-! ## What a call adds to the log -/

/-- Neither a sector that is read nor an `end_request`. -/
def Quiet : Event → Prop
  | .transfer .insw _ _ _ => False
  | .finish _ => False
  | _ => True

def Extends (s t : State) : Prop := ∃ events, t.log = s.log ++ events ∧ ∀ e ∈ events, Quiet e

theorem Extends.refl (s : State) : Extends s s := ⟨[], by simp, by simp⟩

theorem Extends.trans {s t u : State} (h : Extends s t) (h' : Extends t u) : Extends s u := by
  obtain ⟨events, hLog, hQuiet⟩ := h
  obtain ⟨events', hLog', hQuiet'⟩ := h'
  refine ⟨events ++ events', by rw [hLog', hLog, List.append_assoc], fun e he => ?_⟩
  obtain he | he := List.mem_append.mp he
  · exact hQuiet e he
  · exact hQuiet' e he

theorem Extends.single {s t : State} {e : Event} (hLog : t.log = s.log ++ [e]) (hQuiet : Quiet e) :
    Extends s t := by
  refine ⟨[e], hLog, fun e' he => ?_⟩
  rw [List.mem_singleton.mp he]
  exact hQuiet

theorem Extends.filterMap {s t : State} (h : Extends s t) {α : Type} {f : Event → Option α}
    (hf : ∀ e, Quiet e → f e = none) : t.log.filterMap f = s.log.filterMap f := by
  obtain ⟨events, hLog, hQuiet⟩ := h
  have hNone : events.filterMap f = [] := by
    rw [List.filterMap_eq_nil_iff]
    exact fun e he => hf e (hQuiet e he)
  rw [hLog, List.filterMap_append, hNone, List.append_nil]

theorem Extends.reads {s t : State} (h : Extends s t) (serial : Nat) :
    reads t serial = reads s serial := by
  apply h.filterMap
  intro e hQuiet
  cases e with
  | transfer direction owner block address =>
    cases direction with
    | insw => exact absurd hQuiet id
    | outsw => rfl
  | issue | irq | finish => rfl

theorem Extends.finished {s t : State} (h : Extends s t) :
    t.log.filterMap finished = s.log.filterMap finished := by
  apply h.filterMap
  intro e hQuiet
  cases e with
  | finish serial => exact absurd hQuiet id
  | issue | irq | transfer => rfl

structure Taken (s t : State) (node : BlockBufferNode) (rest : List BlockBufferNode) : Prop where
  queue : s.waitQueueList = node :: rest
  waitQueueList : t.waitQueueList = rest
  inUsing : t.inUsing = some node
  submitted : t.submitted = s.submitted
  log : Extends s t

theorem cmdOut_taken {s t : State} (h : cmdOut s = some t) : ∃ node rest, Taken s t node rest := by
  unfold cmdOut at h
  split at h
  · cases h
  · next node rest hQueue =>
    have hIssue : ∀ writes, Extends s (issue (takeFirst s node rest) node writes) :=
      fun writes => .single rfl trivial
    refine ⟨node, rest, ?_⟩
    dsimp only at h
    split at h
    · cases h
      exact ⟨hQueue, rfl, rfl, rfl, (hIssue _).trans (.single rfl trivial)⟩
    · split at h
      · cases h
        exact ⟨hQueue, rfl, rfl, rfl, hIssue _⟩
      · split at h
        · cases h
          exact ⟨hQueue, rfl, rfl, rfl, hIssue _⟩
        · cases h
          exact ⟨hQueue, rfl, rfl, rfl, .refl s⟩

/-- A handler before it looks at the new count. -/
structure Counted (error : Bool) (s t : State) (node : BlockBufferNode) : Prop where
  waitQueueList : t.waitQueueList = s.waitQueueList
  submitted : t.submitted = s.submitted
  finished : t.log.filterMap finished = s.log.filterMap finished
  reads : ∀ serial, reads t serial = reads s serial ++
    if node.endHandler = .readHandler ∧ error = false ∧ node.serial = serial then [node.buffer]
    else []

theorem Counted.of_extends {error : Bool} {s t : State} {node : BlockBufferNode}
    (hQueue : t.waitQueueList = s.waitQueueList) (hSubmitted : t.submitted = s.submitted)
    (hLog : Extends s t) (hNone : ¬ (node.endHandler = .readHandler ∧ error = false)) :
    Counted error s t node := by
  refine ⟨hQueue, hSubmitted, hLog.finished, fun serial => ?_⟩
  rw [hLog.reads, if_neg fun h => hNone ⟨h.1, h.2.1⟩, List.append_nil]

theorem raiseIrq_extends (s : State) : Extends s (raiseIrq s) := .single rfl trivial

theorem readHandler_counted {s : State} {node : BlockBufferNode} (error : Bool)
    (hRead : node.endHandler = .readHandler) (inUsing : Option BlockBufferNode) :
    Counted error s { (if error then raiseIrq s else portTransfer .insw (raiseIrq s) node) with
      inUsing := inUsing } node := by
  cases error with
  | true => exact .of_extends rfl rfl (raiseIrq_extends s) (by simp)
  | false =>
    refine ⟨rfl, rfl, by simp [portTransfer, raiseIrq, finished], fun serial => ?_⟩
    have hRaise : reads (raiseIrq s) serial = reads s serial := (raiseIrq_extends s).reads serial
    have hPort : ∀ u : State, reads (portTransfer .insw u node) serial = reads u serial ++
        if node.serial = serial then [node.buffer] else [] := by
      intro u
      unfold reads portTransfer
      rw [List.filterMap_append]
      by_cases hEq : node.serial = serial
      · simp [readBy, hEq]
      · simp [readBy, hEq]
    change reads (portTransfer .insw (raiseIrq s) node) serial = _
    rw [hPort, hRaise]
    simp [hRead]

/-- A handler counts down and either returns or ends the request. -/
theorem diskHandler_cases {s t : State} {node : BlockBufferNode} {error : Bool}
    (hNode : s.inUsing = some node)
    (hKind : node.endHandler = .readHandler ∨ node.endHandler = .writeHandler)
    (h : diskHandler error (raiseIrq s) = some t) : ∃ u, Counted error s u node ∧
      (((countDown node).count ≠ 0 ∧ t = u ∧ u.inUsing = some (advance (countDown node))) ∨
        ((countDown node).count = 0 ∧ endRequest u (countDown node) = some t)) := by
  have hIrq : (raiseIrq s).inUsing = some node := hNode
  unfold diskHandler at h
  rw [hIrq] at h
  dsimp only at h
  obtain hRead | hWrite := hKind
  · rw [hRead] at h
    dsimp only [readHandler] at h
    split at h
    · next hMore =>
      exact ⟨t, Option.some.inj h ▸ readHandler_counted error hRead _, Or.inl ⟨hMore, rfl,
        Option.some.inj h ▸ rfl⟩⟩
    · next hLast =>
      exact ⟨_, readHandler_counted error hRead _, Or.inr ⟨not_not.mp hLast, h⟩⟩
  · have hNone : ¬ (node.endHandler = .readHandler ∧ error = false) := by simp [hWrite]
    rw [hWrite] at h
    dsimp only [writeHandler] at h
    split at h
    · next hMore =>
      have hEq := (Option.some.inj h).symm
      have hLog : Extends s t := by
        rw [hEq]
        exact (raiseIrq_extends s).trans (.single rfl trivial)
      exact ⟨t, .of_extends (by rw [hEq]; rfl) (by rw [hEq]; rfl) hLog hNone,
        Or.inl ⟨hMore, rfl, by rw [hEq]; rfl⟩⟩
    · next hLast =>
      have hCounted : Counted error s { raiseIrq s with inUsing := some (countDown node) } node :=
        .of_extends rfl rfl (.single rfl trivial) hNone
      exact ⟨_, hCounted, Or.inr ⟨not_not.mp hLast, h⟩⟩

/-! ## What a run records -/

structure Requested (r : BlockBufferNode) : Prop where
  kind : (r.cmd = ataReadCmd ∧ r.endHandler = .readHandler) ∨
    (r.cmd = ataWriteCmd ∧ r.endHandler = .writeHandler)
  pos : 0 < r.count

theorem Requested.handler {r : BlockBufferNode} (h : Requested r) :
    r.endHandler = .readHandler ∨ r.endHandler = .writeHandler := by
  obtain ⟨-, hRead⟩ | ⟨-, hWrite⟩ := h.kind
  · exact Or.inl hRead
  · exact Or.inr hWrite

theorem Requested.readHandler {r : BlockBufferNode} (h : Requested r) (hCmd : r.cmd = ataReadCmd) :
    r.endHandler = .readHandler := by
  obtain ⟨-, hRead⟩ | ⟨hWrite, -⟩ := h.kind
  · exact hRead
  · exact absurd (hCmd.symm.trans hWrite) (by decide)

theorem makeRequest_requested (s : State) {cmd blocks count buffer : Nat}
    (hCmd : cmd = ataReadCmd ∨ cmd = ataWriteCmd) (hPos : 1 ≤ count) (hLt : count < 2 ^ 32) :
    Requested (makeRequest s cmd blocks count buffer) := by
  have hCount : (makeRequest s cmd blocks count buffer).count = count := Nat.mod_eq_of_lt hLt
  refine ⟨?_, by rw [hCount]; exact hPos⟩
  obtain rfl | rfl := hCmd
  · exact Or.inl ⟨rfl, rfl⟩
  · exact Or.inr ⟨rfl, rfl⟩

theorem errors_append (s t : State) (statuses : List (Nat × Bool)) (owner serial : Nat)
    (error : Bool) : Observed.errors ⟨t, statuses ++ [(owner, error)]⟩ serial =
      Observed.errors ⟨s, statuses⟩ serial ++ if owner = serial then [error] else [] := by
  unfold Observed.errors
  rw [List.filterMap_append]
  by_cases hEq : owner = serial
  · simp [hEq]
  · simp [hEq]

theorem readAddresses_append (r : BlockBufferNode) (errors : List Bool) (error : Bool) :
    readAddresses r (errors ++ [error]) =
      readAddresses r errors ++ if error then [] else [r.buffer + 512 * errors.length] := by
  unfold readAddresses
  rw [List.zipIdx_append, List.filterMap_append]
  cases error with
  | true => simp
  | false => simp

/-- `done` were ended, `active` is in use. -/
structure Recorded (o : Observed) (done : List BlockBufferNode) (active : Option BlockBufferNode) :
    Prop where
  submitted : o.disk.submitted = done ++ active.toList ++ o.disk.waitQueueList
  serials : o.disk.submitted.map BlockBufferNode.serial = List.range o.disk.submitted.length
  requested : ∀ r ∈ o.disk.submitted, Requested r
  inUsing : o.disk.inUsing = active.map fun r => progress r (o.errors r.serial).length
  busy : ∀ r ∈ active, (o.errors r.serial).length < r.count
  full : ∀ r ∈ done, (o.errors r.serial).length = r.count
  finished : o.disk.log.filterMap finished = done.map BlockBufferNode.serial
  reads : ∀ r ∈ done ++ active.toList, r.cmd = ataReadCmd →
    reads o.disk r.serial = readAddresses r (o.errors r.serial)
  fresh : ∀ serial ∉ (done ++ active.toList).map BlockBufferNode.serial,
    o.errors serial = [] ∧ Disk.reads o.disk serial = []

section
variable {s t : State} {statuses : List (Nat × Bool)} {done rest : List BlockBufferNode}
  {active : Option BlockBufferNode} {r node : BlockBufferNode}

theorem Recorded.nodup {o : Observed} (h : Recorded o done active) :
    (o.disk.submitted.map BlockBufferNode.serial).Nodup := by
  rw [h.serials]
  exact List.nodup_range

theorem Recorded.eq_of_serial {o : Observed} (h : Recorded o done active)
    (hr : r ∈ o.disk.submitted) (hNode : node ∈ o.disk.submitted)
    (hEq : r.serial = node.serial) : r = node :=
  List.inj_on_of_nodup_map h.nodup hr hNode hEq

theorem Recorded.take (h : Recorded ⟨s, statuses⟩ done none) (hTaken : Taken s t node rest) :
    Recorded ⟨t, statuses⟩ done (some node) := by
  have hSubmitted : s.submitted = done ++ node :: rest := by
    have hAll := h.submitted
    rw [hTaken.queue] at hAll
    simpa using hAll
  have hApart : node.serial ∉ done.map BlockBufferNode.serial := by
    have hNodup : (s.submitted.map BlockBufferNode.serial).Nodup := h.nodup
    rw [hSubmitted, List.map_append, List.nodup_append] at hNodup
    exact fun hMem => hNodup.2.2 _ hMem _ List.mem_cons_self rfl
  obtain ⟨hErrors, hReads⟩ := h.fresh node.serial (by simpa using hApart)
  constructor
  · simp [hTaken.submitted, hTaken.waitQueueList, hSubmitted]
  · simpa only [hTaken.submitted] using h.serials
  · simpa only [hTaken.submitted] using h.requested
  · change t.inUsing = some (progress node (Observed.errors ⟨s, statuses⟩ node.serial).length)
    rw [hErrors, hTaken.inUsing]
    rfl
  · intro q hq
    obtain rfl : node = q := Option.some.inj hq
    change (Observed.errors ⟨s, statuses⟩ node.serial).length < node.count
    rw [hErrors]
    exact (h.requested node (by simp [hSubmitted])).pos
  · exact h.full
  · exact hTaken.log.finished.trans h.finished
  · intro q hq hCmd
    rw [hTaken.log.reads]
    obtain hDone | hNode := List.mem_append.mp hq
    · exact h.reads q (List.mem_append_left _ hDone) hCmd
    · obtain rfl : q = node := List.mem_singleton.mp hNode
      change Disk.reads s q.serial = readAddresses q (Observed.errors ⟨s, statuses⟩ q.serial)
      rw [hErrors, hReads]
      rfl
  · intro serial hSerial
    rw [hTaken.log.reads]
    refine h.fresh serial fun hMem => hSerial ?_
    rw [List.map_append]
    exact List.mem_append_left _ (by simpa using hMem)

theorem Recorded.add (h : Recorded ⟨s, statuses⟩ done active) (hNode : Requested node)
    (hSerial : node.serial = s.submitted.length) :
    Recorded ⟨addRequest s node, statuses⟩ done active where
  submitted := by
    change s.submitted ++ [node] = done ++ active.toList ++ (s.waitQueueList ++ [node])
    rw [← List.append_assoc]
    exact congrArg (· ++ [node]) h.submitted
  serials := by
    change (s.submitted ++ [node]).map _ = List.range (s.submitted ++ [node]).length
    rw [List.map_append, List.length_append, List.length_singleton, List.range_succ]
    exact congrArg₂ _ h.serials (congrArg (fun n => [n]) hSerial)
  requested q hq := by
    obtain hOld | hNew := List.mem_append.mp hq
    · exact h.requested q hOld
    · exact List.mem_singleton.mp hNew ▸ hNode
  inUsing := h.inUsing
  busy := h.busy
  full := h.full
  finished := h.finished
  reads := h.reads
  fresh := h.fresh

theorem Recorded.submit (h : Recorded ⟨s, statuses⟩ done active) (hNode : Requested node)
    (hSerial : node.serial = s.submitted.length) (hCall : submit s node = some t) :
    ∃ active, Recorded ⟨t, statuses⟩ done active := by
  have hAdd := h.add hNode hSerial
  unfold Disk.submit at hCall
  dsimp only at hCall
  split at hCall
  · next hIdle =>
    have hNone : active = none := by
      have hUsing : s.inUsing = _ := h.inUsing
      have hNone : s.inUsing = none := hIdle
      rw [hNone] at hUsing
      exact Option.map_eq_none_iff.mp hUsing.symm
    obtain ⟨first, rest, hTaken⟩ := cmdOut_taken hCall
    rw [hNone] at hAdd
    exact ⟨some first, hAdd.take hTaken⟩
  · cases hCall
    exact ⟨active, hAdd⟩

theorem Recorded.irq_reads (h : Recorded ⟨s, statuses⟩ done (some r)) {error : Bool}
    (hCounted : Counted error s t (progress r (Observed.errors ⟨s, statuses⟩ r.serial).length)) :
    ∀ q ∈ done ++ [r], q.cmd = ataReadCmd → Disk.reads t q.serial =
      readAddresses q (Observed.errors ⟨t, statuses ++ [(r.serial, error)]⟩ q.serial) := by
  intro q hq hCmd
  have hOld : Disk.reads s q.serial = readAddresses q (Observed.errors ⟨s, statuses⟩ q.serial) :=
    h.reads q hq hCmd
  rw [hCounted.reads, errors_append s, hOld]
  by_cases hEq : r.serial = q.serial
  · have hMem : ∀ p ∈ done ++ [r], p ∈ s.submitted := fun p hp => by
      have hAll : s.submitted = done ++ [r] ++ s.waitQueueList := h.submitted
      rw [hAll]
      exact List.mem_append_left _ hp
    obtain rfl : r = q := h.eq_of_serial (hMem r (by simp)) (hMem q hq) hEq
    have hRead := (h.requested r (hMem r (by simp))).readHandler hCmd
    rw [if_pos rfl, readAddresses_append]
    cases error with
    | true => simp
    | false => simp [hRead, progress]
  · have hNot : ¬ ((progress r (Observed.errors ⟨s, statuses⟩ r.serial).length).endHandler =
        .readHandler ∧ error = false ∧
        (progress r (Observed.errors ⟨s, statuses⟩ r.serial).length).serial = q.serial) :=
      fun hAll => hEq hAll.2.2
    rw [if_neg hNot, if_neg hEq, List.append_nil, List.append_nil]

theorem Recorded.irq_fresh (h : Recorded ⟨s, statuses⟩ done (some r)) {error : Bool}
    (hCounted : Counted error s t (progress r (Observed.errors ⟨s, statuses⟩ r.serial).length)) :
    ∀ serial ∉ (done ++ [r]).map BlockBufferNode.serial,
      Observed.errors ⟨t, statuses ++ [(r.serial, error)]⟩ serial = [] ∧ Disk.reads t serial = [] := by
  intro serial hSerial
  obtain ⟨hErrors, hReads⟩ := h.fresh serial hSerial
  have hNe : r.serial ≠ serial := fun hEq => hSerial (by simp [hEq])
  have hOld : Disk.reads s serial = [] := hReads
  constructor
  · rw [errors_append s, hErrors, if_neg hNe]
    rfl
  · rw [hCounted.reads, hOld, if_neg fun hAll => hNe hAll.2.2]
    rfl

theorem Recorded.irq_full (h : Recorded ⟨s, statuses⟩ done (some r)) (error : Bool) :
    ∀ q ∈ done, (Observed.errors ⟨t, statuses ++ [(r.serial, error)]⟩ q.serial).length = q.count := by
  intro q hq
  have hNe : r.serial ≠ q.serial := by
    have hNodup : (s.submitted.map BlockBufferNode.serial).Nodup := h.nodup
    have hAll : s.submitted = done ++ [r] ++ s.waitQueueList := h.submitted
    rw [hAll, List.append_assoc, List.map_append, List.nodup_append] at hNodup
    exact (hNodup.2.2 _ (List.mem_map_of_mem hq) _ List.mem_cons_self).symm
  rw [errors_append s, if_neg hNe, List.append_nil]
  exact h.full q hq

theorem errors_length_succ (s t : State) (statuses : List (Nat × Bool)) (serial : Nat)
    (error : Bool) : (Observed.errors ⟨t, statuses ++ [(serial, error)]⟩ serial).length =
      (Observed.errors ⟨s, statuses⟩ serial).length + 1 := by
  rw [errors_append s, if_pos rfl, List.length_append]
  rfl

theorem Recorded.irq_more (h : Recorded ⟨s, statuses⟩ done (some r)) {error : Bool}
    (hCounted : Counted error s t (progress r (Observed.errors ⟨s, statuses⟩ r.serial).length))
    (hMore : (countDown (progress r (Observed.errors ⟨s, statuses⟩ r.serial).length)).count ≠ 0)
    (hNode : t.inUsing = some (advance (countDown
      (progress r (Observed.errors ⟨s, statuses⟩ r.serial).length)))) :
    Recorded ⟨t, statuses ++ [(r.serial, error)]⟩ done (some r) := by
  have hLt : (Observed.errors ⟨s, statuses⟩ r.serial).length < r.count := h.busy r rfl
  rw [countDown_count hLt] at hMore
  rw [advance_countDown hLt] at hNode
  constructor
  · simpa only [hCounted.submitted, hCounted.waitQueueList] using h.submitted
  · simpa only [hCounted.submitted] using h.serials
  · simpa only [hCounted.submitted] using h.requested
  · change t.inUsing = some (progress r
      (Observed.errors ⟨t, statuses ++ [(r.serial, error)]⟩ r.serial).length)
    rw [errors_length_succ s, hNode]
  · intro q hq
    obtain rfl : r = q := Option.some.inj hq
    rw [errors_length_succ s]
    omega
  · exact h.irq_full error
  · exact hCounted.finished.trans h.finished
  · exact h.irq_reads hCounted
  · exact h.irq_fresh hCounted

theorem Recorded.irq_release (h : Recorded ⟨s, statuses⟩ done (some r)) {error : Bool}
    (hCounted : Counted error s t (progress r (Observed.errors ⟨s, statuses⟩ r.serial).length))
    (hLast : (countDown (progress r (Observed.errors ⟨s, statuses⟩ r.serial).length)).count = 0)
    (hSerial : node.serial = r.serial) :
    Recorded ⟨release t node, statuses ++ [(r.serial, error)]⟩ (done ++ [r]) none := by
  have hLt : (Observed.errors ⟨s, statuses⟩ r.serial).length < r.count := h.busy r rfl
  rw [countDown_count hLt] at hLast
  have hReads : ∀ serial, Disk.reads (release t node) serial = Disk.reads t serial := fun serial => by
    simp [Disk.reads, release, readBy]
  constructor
  · change t.submitted = done ++ [r] ++ [] ++ t.waitQueueList
    rw [hCounted.submitted, hCounted.waitQueueList, List.append_nil]
    exact h.submitted
  · change t.submitted.map _ = List.range t.submitted.length
    rw [hCounted.submitted]
    exact h.serials
  · change ∀ q ∈ t.submitted, Requested q
    rw [hCounted.submitted]
    exact h.requested
  · rfl
  · exact fun q hq => absurd hq (by simp)
  · intro q hq
    obtain hDone | hEnded := List.mem_append.mp hq
    · exact h.irq_full error q hDone
    · obtain rfl : q = r := List.mem_singleton.mp hEnded
      rw [errors_length_succ s]
      omega
  · change (t.log ++ [Event.finish node.serial]).filterMap Disk.finished = _
    rw [List.filterMap_append, hCounted.finished, List.map_append, hSerial]
    exact congrArg (· ++ [r.serial]) h.finished
  · intro q hq
    rw [hReads]
    exact h.irq_reads hCounted q (by simpa using hq)
  · intro serial hNot
    rw [hReads]
    exact h.irq_fresh hCounted serial (by simpa using hNot)

theorem Recorded.irq (h : Recorded ⟨s, statuses⟩ done active) {error : Bool}
    (hNode : s.inUsing = some node) (hCall : diskHandler error (raiseIrq s) = some t) :
    ∃ done active, Recorded ⟨t, statuses ++ [(node.serial, error)]⟩ done active := by
  have hUsing : s.inUsing = active.map fun r =>
      progress r (Observed.errors ⟨s, statuses⟩ r.serial).length := h.inUsing
  cases active with
  | none => exact absurd (hNode.symm.trans hUsing) (by simp)
  | some r =>
    obtain rfl : node = progress r (Observed.errors ⟨s, statuses⟩ r.serial).length :=
      Option.some.inj (hNode.symm.trans hUsing)
    have hSubmitted : s.submitted = done ++ [r] ++ s.waitQueueList := h.submitted
    have hKind := (h.requested r (by simp [hSubmitted])).handler
    obtain ⟨u, hCounted, hNext⟩ := diskHandler_cases hNode hKind hCall
    obtain ⟨hMore, rfl, hUsing⟩ | ⟨hLast, hEnd⟩ := hNext
    · exact ⟨done, some r, h.irq_more hCounted hMore hUsing⟩
    · have hRelease := h.irq_release hCounted hLast (countDown_serial _)
      unfold endRequest at hEnd
      dsimp only at hEnd
      split at hEnd
      · obtain ⟨first, rest, hTaken⟩ := cmdOut_taken hEnd
        exact ⟨done ++ [r], some first, hRelease.take hTaken⟩
      · cases hEnd
        exact ⟨done ++ [r], none, hRelease⟩

end

theorem Recorded.start {o : Observed} (h : o.Start) : Recorded o [] none := by
  obtain ⟨⟨sched, drive, -, hDisk⟩, hStatuses⟩ := h
  obtain ⟨disk, statuses⟩ := o
  dsimp only at hDisk hStatuses
  subst hDisk hStatuses
  exact ⟨rfl, rfl, by simp [diskInit], rfl, by simp, by simp, rfl, by simp,
    fun _ _ => ⟨rfl, rfl⟩⟩

theorem Recorded.step {o o' : Observed} {a : Action} {done : List BlockBufferNode}
    {active : Option BlockBufferNode} (h : Recorded o done active) (hStep : Observes o a o') :
    ∃ done active, Recorded o' done active := by
  cases hStep with
  | @submit s _ _ _ _ _ _ hCmd hPos hLt hCall =>
    obtain ⟨active', hNew⟩ := h.submit (makeRequest_requested s hCmd hPos hLt) rfl hCall
    exact ⟨done, active', hNew⟩
  | irq _ _ hNode hCall => exact h.irq hNode hCall
  | resched =>
    exact ⟨done, active, h.submitted, h.serials, h.requested, h.inUsing, h.busy, h.full,
      h.finished, h.reads, h.fresh⟩

/-! ## What the record says of a request -/

theorem mem_readAddresses_iff (r : BlockBufferNode) (errors : List Bool) (i : Nat) :
    r.buffer + 512 * i ∈ readAddresses r errors ↔ errors[i]? = some false := by
  unfold readAddresses
  rw [List.mem_filterMap]
  constructor
  · rintro ⟨⟨error, j⟩, hMem, hSome⟩
    have hGet : errors[j]? = some error := List.mk_mem_zipIdx_iff_getElem?.mp hMem
    cases error with
    | true => cases hSome
    | false =>
      have hAddress : r.buffer + 512 * j = r.buffer + 512 * i := Option.some.inj hSome
      have hIndex : j = i := by omega
      exact hIndex ▸ hGet
  · intro hGet
    exact ⟨(false, i), List.mk_mem_zipIdx_iff_getElem?.mpr hGet, rfl⟩

section
variable {o : Observed} {done : List BlockBufferNode} {active : Option BlockBufferNode}
  {r : BlockBufferNode} (h : Recorded o done active) (hr : r ∈ o.disk.submitted)
include h hr

theorem Recorded.cases : r ∈ done ∨ active = some r ∨
    r.serial ∉ (done ++ active.toList).map BlockBufferNode.serial := by
  by_cases hMem : r.serial ∈ (done ++ active.toList).map BlockBufferNode.serial
  · obtain ⟨q, hq, hEq⟩ := List.mem_map.mp hMem
    have hSubmitted : q ∈ o.disk.submitted := by
      rw [h.submitted]
      exact List.mem_append_left _ hq
    obtain rfl : q = r := h.eq_of_serial hSubmitted hr hEq
    obtain hDone | hActive := List.mem_append.mp hq
    · exact Or.inl hDone
    · exact Or.inr (Or.inl (Option.mem_toList.mp hActive))
  · exact Or.inr (Or.inr hMem)

theorem Recorded.errors_length_le : (o.errors r.serial).length ≤ r.count := by
  obtain hDone | hActive | hWaits := h.cases hr
  · exact (h.full r hDone).le
  · exact (h.busy r hActive).le
  · rw [(h.fresh r.serial hWaits).1]
    exact Nat.zero_le _

theorem Recorded.reads_eq (hCmd : r.cmd = ataReadCmd) :
    Disk.reads o.disk r.serial = readAddresses r (o.errors r.serial) := by
  obtain hDone | hActive | hWaits := h.cases hr
  · exact h.reads r (List.mem_append_left _ hDone) hCmd
  · refine h.reads r (List.mem_append_right _ ?_) hCmd
    exact Option.mem_toList.mpr hActive
  · obtain ⟨hErrors, hReads⟩ := h.fresh r.serial hWaits
    rw [hErrors, hReads]
    rfl

end

/-! ## What stays -/

theorem submit_submitted {s t : State} {node : BlockBufferNode} (h : submit s node = some t) :
    t.submitted = s.submitted ++ [node] := by
  unfold submit at h
  dsimp only at h
  split at h
  · obtain ⟨first, rest, hTaken⟩ := cmdOut_taken h
    exact hTaken.submitted
  · cases h
    rfl

theorem endRequest_submitted {s t : State} {node : BlockBufferNode}
    (h : endRequest s node = some t) : t.submitted = s.submitted := by
  unfold endRequest at h
  dsimp only at h
  split at h
  · obtain ⟨first, rest, hTaken⟩ := cmdOut_taken h
    exact hTaken.submitted
  · cases h
    rfl

theorem diskHandler_submitted {s t : State} {error : Bool} (h : diskHandler error s = some t) :
    t.submitted = s.submitted := by
  have hPort : ∀ node : BlockBufferNode,
      (if error then s else portTransfer .insw s node).submitted = s.submitted := by
    intro node
    split <;> rfl
  unfold diskHandler at h
  split at h
  · cases h
  · next node _ =>
    cases hHandler : node.endHandler with
    | readHandler =>
      rw [hHandler] at h
      dsimp only [readHandler] at h
      split at h
      · cases h
        exact hPort node
      · exact (endRequest_submitted h).trans (hPort node)
    | writeHandler =>
      rw [hHandler] at h
      dsimp only [writeHandler] at h
      split at h
      · cases h
        rfl
      · exact endRequest_submitted h
    | otherHandler =>
      rw [hHandler] at h
      exact (endRequest_submitted h).trans (hPort node)

/-- A step adds to the requests and to the statuses. -/
theorem Observes.grows {o o' : Observed} {a : Action} (h : Observes o a o') :
    o.disk.submitted <+: o'.disk.submitted ∧ ∀ serial, o.errors serial <+: o'.errors serial := by
  cases h with
  | submit _ _ _ hCall => exact ⟨⟨_, (submit_submitted hCall).symm⟩, fun serial => List.prefix_refl _⟩
  | @irq s t statuses node error _ _ hCall =>
    refine ⟨⟨[], ?_⟩, fun serial => ?_⟩
    · rw [List.append_nil]
      exact (diskHandler_submitted hCall).symm
    · rw [errors_append s]
      exact List.prefix_append _ _
  | resched => exact ⟨List.prefix_refl _, fun serial => List.prefix_refl _⟩

end KalinoteOS.Disk
