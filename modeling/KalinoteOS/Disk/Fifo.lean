import KalinoteOS.Disk.Request
import KalinoteOS.Lib.Run

/-! # The request queue

Submitted requests are done, in service, or waiting, in this order. The node in service is the
submitted one, counted down by the interrupts its command has raised.
-/
namespace KalinoteOS.Disk
open Scheduler Lib
set_option autoImplicit false

/-- What `make_request` builds for a read or a write of 1 to 65535 sectors. -/
structure Valid (r : BlockBufferNode) : Prop where
  kind : (r.cmd = ataReadCmd ∧ r.endHandler = .readHandler) ∨
    (r.cmd = ataWriteCmd ∧ r.endHandler = .writeHandler)
  pos : 0 < r.count
  lt : r.count < 65536

/-- The node of `r` after `n` of its interrupts. -/
def progress (r : BlockBufferNode) (n : Nat) : BlockBufferNode :=
  { r with count := r.count - n, buffer := r.buffer + 512 * n }

/-- The command that the drive gets for `r`. -/
def commandOf (r : BlockBufferNode) : Command := ⟨r.cmd, r.LBA % 2 ^ 48, r.count⟩

/-! ## The trace of a request -/

def sectorAt (direction : Direction) (r : BlockBufferNode) (i : Nat) : Event :=
  .transfer direction r.serial i (r.buffer + 512 * i)

/-- A write sends its first sector with the command. -/
def startEvents (r : BlockBufferNode) : List Event :=
  .issue r.serial (some (commandOf r)) ::
    if r.cmd = ataWriteCmd then [sectorAt .outsw r 0] else []

/-- The interrupt after sector `i`. -/
def irqEvents (r : BlockBufferNode) (i : Nat) : List Event :=
  .irq (some r.serial) ::
    if r.cmd = ataWriteCmd then
      if i + 1 < r.count then [sectorAt .outsw r (i + 1)] else []
    else [sectorAt .insw r i]

/-- What `r` has done after `n` interrupts. -/
def trace (r : BlockBufferNode) (n : Nat) : List Event :=
  startEvents r ++ (List.range n).flatMap (irqEvents r)

def fullTrace (r : BlockBufferNode) : List Event := trace r r.count ++ [.finish r.serial]

theorem trace_zero (r : BlockBufferNode) : trace r 0 = startEvents r := by
  simp [trace]

theorem trace_succ (r : BlockBufferNode) (n : Nat) : trace r (n + 1) = trace r n ++ irqEvents r n := by
  simp [trace, List.range_succ]

/-- The sectors that went through the data port after `n` interrupts. -/
def blocksAfter (r : BlockBufferNode) (n : Nat) : Nat :=
  if r.cmd = ataWriteCmd then min (n + 1) r.count else n

/-- The serial of an `end_request`. -/
def finished : Event → Option Nat
  | .finish serial => some serial
  | _ => none

/-! ## The commands the drive gets -/

theorem address_ext (node : BlockBufferNode) (d : Drive) :
    (outAll d (extWrites node)).command
      = some ⟨node.cmd, node.LBA % 2 ^ 48, (outAll d (extWrites node)).sectors node.cmd⟩ := by
  simp only [outAll, extWrites, List.foldl, Drive.out, Reg.write, Drive.address, Drive.sectors,
    Nat.shiftRight_eq_div_pow]
  congr 2
  omega

theorem outAll_ext {r : BlockBufferNode} (h : Valid r) (d : Drive) :
    (outAll d (extWrites r)).command = some (commandOf r) ∧ (outAll d (extWrites r)).irqs = 0 ∧
      (outAll d (extWrites r)).blocks = 0 := by
  refine ⟨?_, rfl, rfl⟩
  rw [address_ext, commandOf]
  have hKind : r.cmd = ataReadCmd ∨ r.cmd = ataWriteCmd := h.kind.imp And.left And.left
  have hSectors : (outAll d (extWrites r)).sectors r.cmd = r.count := by
    have hPos := h.pos
    have hLt := h.lt
    have hCount : r.count % 256 + 2 ^ 8 * (r.count >>> 8 % 256) = r.count := by
      rw [Nat.shiftRight_eq_div_pow]
      omega
    simp only [outAll, extWrites, List.foldl, Drive.out, Reg.write, Drive.sectors, hKind, if_true,
      hCount]
    rw [if_neg (by omega)]
  rw [hSectors]

/-! ## The invariant -/

/-- The interrupts, hence the sectors, that were handled for the node `serial`. -/
def handled (s : State) (serial : Nat) : Nat := s.log.count (.irq (some serial))

/-- `done` were ended, `active` is in service. -/
structure Inv (s : State) (done : List BlockBufferNode) (active : Option BlockBufferNode) :
    Prop where
  submitted : s.submitted = done ++ active.toList ++ s.waitQueueList
  serials : s.submitted.map BlockBufferNode.serial = List.range s.submitted.length
  valid : ∀ r ∈ s.submitted, Valid r
  count : s.blockRequestCount = s.waitQueueList.length
  inUsing : s.inUsing = active.map (progress · s.drive.irqs)
  busy : ∀ r ∈ active, s.drive.irqs < r.count ∧ s.drive.command = some (commandOf r)
  idle : active = none → s.waitQueueList = [] ∧ ¬ s.drive.InFlight
  finished : s.log.filterMap finished = done.map BlockBufferNode.serial
  handled_done : ∀ r ∈ done, handled s r.serial = r.count
  handled_active : ∀ r ∈ active, handled s r.serial = s.drive.irqs
  handled_waiting : ∀ serial, (∀ r ∈ done ++ active.toList, r.serial ≠ serial) →
    handled s serial = 0

/-- The log of an error-free run. -/
structure Logged (s : State) (done : List BlockBufferNode) (active : Option BlockBufferNode) :
    Prop where
  log : s.log = done.flatMap fullTrace ++ active.elim [] (trace · s.drive.irqs)
  blocks : ∀ r ∈ active, s.drive.blocks = blocksAfter r s.drive.irqs

/-- What `cmd_out` does to the first waiting request. -/
structure Issued (s t : State) (r : BlockBufferNode) (rest : List BlockBufferNode) : Prop where
  waitQueueList : t.waitQueueList = rest
  inUsing : t.inUsing = some r
  count : t.blockRequestCount = s.blockRequestCount - 1
  sched : t.sched = s.sched
  submitted : t.submitted = s.submitted
  command : t.drive.command = some (commandOf r)
  irqs : t.drive.irqs = 0
  blocks : t.drive.blocks = blocksAfter r 0
  log : t.log = s.log ++ trace r 0

theorem cmdOut_issued {s : State} {r : BlockBufferNode} {rest : List BlockBufferNode}
    (hQueue : s.waitQueueList = r :: rest) (hValid : Valid r) :
    ∃ t, cmdOut s = some t ∧ Issued s t r rest := by
  obtain ⟨hCommand, hIrqs, hBlocks⟩ := outAll_ext hValid s.drive
  obtain ⟨hCmd, -⟩ | ⟨hCmd, -⟩ := hValid.kind
  · have hRead : r.cmd ≠ ataWriteCmd := by
      rw [hCmd]
      decide
    have hOut : cmdOut s = some (issue (takeFirst s r rest) r (extWrites r)) := by
      rw [cmdOut, hQueue]
      exact (if_neg hRead).trans (if_pos hCmd)
    refine ⟨_, hOut, rfl, rfl, rfl, rfl, rfl, hCommand, hIrqs, ?_, ?_⟩
    · simp [issue, takeFirst, hBlocks, blocksAfter, hRead]
    · simp [issue, takeFirst, hCommand, trace_zero, startEvents, hRead]
  · have hOut : cmdOut s
        = some (portTransfer .outsw (issue (takeFirst s r rest) r (extWrites r)) r) := by
      rw [cmdOut, hQueue]
      exact if_pos hCmd
    have hPos := hValid.pos
    refine ⟨_, hOut, rfl, rfl, rfl, rfl, rfl, hCommand, hIrqs, ?_, ?_⟩
    · simp only [portTransfer, issue, takeFirst, hBlocks, blocksAfter, hCmd, if_true]
      omega
    · simp [portTransfer, issue, takeFirst, hCommand, hBlocks, trace_zero, startEvents, hCmd,
        sectorAt]

theorem Issued.handled_eq {s t : State} {r : BlockBufferNode} {rest : List BlockBufferNode}
    (h : Issued s t r rest) (serial : Nat) : handled t serial = handled s serial := by
  unfold Disk.handled
  rw [h.log, List.count_append, trace_zero, startEvents]
  split <;> simp [sectorAt]

theorem Issued.inv {s t : State} {r : BlockBufferNode} {rest done : List BlockBufferNode}
    (h : Issued s t r rest) (hSubmitted : s.submitted = done ++ r :: rest)
    (hSerials : s.submitted.map BlockBufferNode.serial = List.range s.submitted.length)
    (hValid : ∀ r ∈ s.submitted, Valid r) (hCount : s.blockRequestCount = rest.length + 1)
    (hFinished : s.log.filterMap Disk.finished = done.map BlockBufferNode.serial)
    (hDone : ∀ q ∈ done, handled s q.serial = q.count)
    (hRest : ∀ serial, (∀ q ∈ done, q.serial ≠ serial) → handled s serial = 0) :
    Inv t done (some r) where
  submitted := by
    rw [h.submitted, h.waitQueueList, hSubmitted]
    simp
  serials := by
    rw [h.submitted]
    exact hSerials
  valid := by
    rw [h.submitted]
    exact hValid
  count := by
    rw [h.count, h.waitQueueList, hCount]
    omega
  inUsing := by
    rw [h.inUsing, h.irqs]
    rfl
  busy := by
    rintro r ⟨⟩
    rw [h.irqs, h.command]
    refine ⟨(hValid r ?_).pos, rfl⟩
    rw [hSubmitted]
    simp
  idle := fun hNone => absurd hNone (by simp)
  finished := by
    rw [h.log, List.filterMap_append, hFinished, trace_zero]
    simp only [startEvents]
    split <;> simp [Disk.finished, sectorAt]
  handled_done := by
    intro q hq
    rw [h.handled_eq]
    exact hDone q hq
  handled_active := by
    rintro r ⟨⟩
    rw [h.handled_eq, h.irqs]
    refine hRest r.serial fun q hq => ?_
    have hNodup : (s.submitted.map BlockBufferNode.serial).Nodup := by
      rw [hSerials]
      exact List.nodup_range
    rw [hSubmitted, List.map_append, List.map_cons, List.nodup_append] at hNodup
    exact hNodup.2.2 _ (List.mem_map_of_mem hq) _ List.mem_cons_self
  handled_waiting := by
    intro serial hNot
    rw [h.handled_eq]
    exact hRest serial fun q hq => hNot q (List.mem_append_left _ hq)

theorem Issued.logged {s t : State} {r : BlockBufferNode} {rest done : List BlockBufferNode}
    (h : Issued s t r rest) (hLog : s.log = done.flatMap fullTrace) : Logged t done (some r) where
  log := by
    rw [h.log, hLog, h.irqs]
    rfl
  blocks := by
    rintro r ⟨⟩
    rw [h.blocks, h.irqs]

/-- The queue does not depend on the tasks. -/
theorem Inv.of_sched {s : State} {done : List BlockBufferNode} {active : Option BlockBufferNode}
    (h : Inv s done active) (sched : Schedule) : Inv { s with sched := sched } done active :=
  ⟨h.submitted, h.serials, h.valid, h.count, h.inUsing, h.busy, h.idle, h.finished,
    h.handled_done, h.handled_active, h.handled_waiting⟩

theorem diskInit_inv (sched : Schedule) {drive : Drive} (hRest : ¬ drive.InFlight) :
    Inv (diskInit sched drive) [] none :=
  ⟨rfl, rfl, by simp [diskInit], rfl, rfl, by simp, fun _ => ⟨rfl, hRest⟩, rfl, by simp, by simp,
    fun _ _ => rfl⟩

/-! ## `submit` -/

theorem makeRequest_valid (s : State) {cmd blocks count buffer : Nat}
    (hCmd : cmd = ataReadCmd ∨ cmd = ataWriteCmd) (hPos : 1 ≤ count) (hLe : count ≤ 65535) :
    Valid (makeRequest s cmd blocks count buffer) := by
  have hCount : (makeRequest s cmd blocks count buffer).count = count := by
    simp only [makeRequest]
    omega
  refine ⟨?_, by omega, by omega⟩
  obtain rfl | rfl := hCmd
  · exact Or.inl ⟨rfl, rfl⟩
  · exact Or.inr ⟨rfl, rfl⟩

section
variable {s : State} {done : List BlockBufferNode} {active : Option BlockBufferNode}
  (h : Inv s done active)
include h

theorem Inv.submit {node : BlockBufferNode} (hValid : Valid node)
    (hSerial : node.serial = s.submitted.length) :
    ∃ t, submit s node = some t ∧ t.sched = s.sched ∧ t.submitted = s.submitted ++ [node] ∧
      Inv t done (active.or (some node)) ∧
      (Logged s done active → Logged t done (active.or (some node))) := by
  have hSerials : (s.submitted ++ [node]).map BlockBufferNode.serial
      = List.range (s.submitted ++ [node]).length := by
    rw [List.map_append, h.serials, List.length_append, List.length_singleton, List.range_succ,
      ← hSerial]
    rfl
  have hAll : ∀ r ∈ s.submitted ++ [node], Valid r := by
    intro r hr
    obtain hr | hr := List.mem_append.mp hr
    · exact h.valid r hr
    · rw [List.mem_singleton.mp hr]
      exact hValid
  cases active with
  | some r =>
    have hBusy : (addRequest s node).inUsing ≠ none := by
      change s.inUsing ≠ none
      rw [h.inUsing]
      simp
    refine ⟨addRequest s node, if_neg hBusy, rfl, rfl, ?_, fun hLogged => ⟨hLogged.log, hLogged.blocks⟩⟩
    refine ⟨?_, hSerials, hAll, ?_, h.inUsing, h.busy, fun hNone => absurd hNone (by simp),
      h.finished, h.handled_done, h.handled_active, h.handled_waiting⟩
    · simp [addRequest, h.submitted]
    · simp [addRequest, h.count]
  | none =>
    obtain ⟨hEmpty, -⟩ := h.idle rfl
    have hIdle : (addRequest s node).inUsing = none := h.inUsing
    have hQueue : (addRequest s node).waitQueueList = node :: [] := by
      simp [addRequest, hEmpty]
    obtain ⟨t, hOut, hIssued⟩ := cmdOut_issued hQueue hValid
    have hSubmitted : (addRequest s node).submitted = done ++ node :: [] := by
      simp [addRequest, h.submitted, hEmpty]
    refine ⟨t, (if_pos hIdle).trans hOut, hIssued.sched, hIssued.submitted, ?_, ?_⟩
    · refine hIssued.inv hSubmitted hSerials hAll ?_ h.finished h.handled_done ?_
      · simp [addRequest, h.count, hEmpty]
      · exact fun serial hNot => h.handled_waiting serial (by simpa using hNot)
    · intro hLogged
      refine hIssued.logged ?_
      change s.log = _
      rw [hLogged.log]
      simp

end

/-! ## The interrupt -/

/-- What one interrupt does for the request `r`, apart from `in_using` and the end of `r`. -/
structure Served (error : Bool) (s t : State) (r : BlockBufferNode) : Prop where
  waitQueueList : t.waitQueueList = s.waitQueueList
  count : t.blockRequestCount = s.blockRequestCount
  sched : t.sched = s.sched
  submitted : t.submitted = s.submitted
  command : t.drive.command = s.drive.command
  irqs : t.drive.irqs = s.drive.irqs + 1
  finished : t.log.filterMap finished = s.log.filterMap finished
  handled_eq : ∀ serial, handled t serial = handled s serial + if serial = r.serial then 1 else 0
  logged : error = false → s.drive.blocks = blocksAfter r s.drive.irqs →
    t.log = s.log ++ irqEvents r s.drive.irqs ∧ t.drive.blocks = blocksAfter r (s.drive.irqs + 1)

theorem countDown_progress {r : BlockBufferNode} {n : Nat} (hLt : n < r.count) :
    countDown (progress r n) = { progress r n with count := r.count - (n + 1) } := by
  have hCount : r.count - n ≠ 0 := by omega
  simp only [countDown, progress, hCount, if_false]
  rfl

theorem advance_countDown {r : BlockBufferNode} {n : Nat} (hLt : n < r.count) :
    advance (countDown (progress r n)) = progress r (n + 1) := by
  rw [countDown_progress hLt]
  simp [advance, progress, Nat.mul_add, Nat.add_assoc]

theorem countDown_count {r : BlockBufferNode} {n : Nat} (hLt : n < r.count) :
    (countDown (progress r n)).count = r.count - (n + 1) := by
  rw [countDown_progress hLt]

@[simp] theorem countDown_tsk (node : BlockBufferNode) : (countDown node).tsk = node.tsk := rfl
@[simp] theorem countDown_serial (node : BlockBufferNode) :
    (countDown node).serial = node.serial := rfl
@[simp] theorem progress_tsk (r : BlockBufferNode) (n : Nat) : (progress r n).tsk = r.tsk := rfl
@[simp] theorem progress_serial (r : BlockBufferNode) (n : Nat) :
    (progress r n).serial = r.serial := rfl

/-- The data port at an interrupt of a read. -/
def readSector (error : Bool) (s : State) (r : BlockBufferNode) : State :=
  if error then raiseIrq s else portTransfer .insw (raiseIrq s) (progress r s.drive.irqs)

theorem raiseIrq_handled {s : State} {r : BlockBufferNode}
    (hNode : s.inUsing = some (progress r s.drive.irqs)) (serial : Nat) :
    handled (raiseIrq s) serial = handled s serial + if serial = r.serial then 1 else 0 := by
  unfold handled raiseIrq
  rw [List.count_append, hNode]
  by_cases hEq : serial = r.serial
  · simp [hEq]
  · simp [hEq, Ne.symm hEq]

section
variable {error : Bool} {s : State} {r : BlockBufferNode}
  (hNode : s.inUsing = some (progress r s.drive.irqs))
include hNode

theorem readSector_served (hCmd : r.cmd = ataReadCmd) (node : Option BlockBufferNode) :
    Served error s { readSector error s r with inUsing := node } r := by
  have hRead : r.cmd ≠ ataWriteCmd := by
    rw [hCmd]
    decide
  have hHandled := raiseIrq_handled hNode
  cases error with
  | true =>
    refine ⟨rfl, rfl, rfl, rfl, rfl, rfl, ?_, hHandled, fun hError => absurd hError (by decide)⟩
    simp [readSector, raiseIrq, finished]
  | false =>
    refine ⟨rfl, rfl, rfl, rfl, rfl, rfl, ?_, fun serial => ?_, fun _ hBlocks => ?_⟩
    · simp [readSector, raiseIrq, portTransfer, finished]
    · rw [← hHandled]
      simp [readSector, portTransfer, handled]
    · have hBlock : s.drive.blocks = s.drive.irqs := by
        rw [hBlocks, blocksAfter, if_neg hRead]
      constructor
      · simp [readSector, raiseIrq, portTransfer, irqEvents, hRead, sectorAt, progress, hBlock, hNode]
      · simp [readSector, raiseIrq, portTransfer, blocksAfter, hRead, hBlock]

theorem raiseIrq_served (hCmd : r.cmd = ataWriteCmd) (hLast : r.count = s.drive.irqs + 1)
    (node : Option BlockBufferNode) : Served error s { raiseIrq s with inUsing := node } r := by
  refine ⟨rfl, rfl, rfl, rfl, rfl, rfl, ?_, raiseIrq_handled hNode, fun _ hBlocks => ⟨?_, ?_⟩⟩
  · simp [raiseIrq, finished]
  · simp [raiseIrq, irqEvents, hCmd, hLast, hNode]
  · simp only [raiseIrq, hBlocks, blocksAfter, hCmd, if_true]
    omega

theorem outsw_served (hCmd : r.cmd = ataWriteCmd) (hMore : s.drive.irqs + 1 < r.count)
    (node : Option BlockBufferNode) :
    Served error s (portTransfer .outsw { raiseIrq s with inUsing := node }
      (progress r (s.drive.irqs + 1))) r := by
  refine ⟨rfl, rfl, rfl, rfl, rfl, rfl, ?_, fun serial => ?_, fun _ hBlocks => ?_⟩
  · simp [portTransfer, raiseIrq, finished]
  · rw [← raiseIrq_handled hNode]
    simp [portTransfer, handled]
  · have hBlock : s.drive.blocks = s.drive.irqs + 1 := by
      rw [hBlocks, blocksAfter, if_pos hCmd]
      omega
    constructor
    · simp [portTransfer, raiseIrq, irqEvents, hCmd, hMore, sectorAt, progress, hBlock, hNode]
    · simp only [portTransfer, raiseIrq, hBlock, blocksAfter, hCmd, if_true]
      omega

end

section
variable (error : Bool) {s : State} {r : BlockBufferNode} (hValid : Valid r)
  (hNode : s.inUsing = some (progress r s.drive.irqs))
include hValid hNode

theorem diskHandler_more (hMore : s.drive.irqs + 1 < r.count) :
    ∃ t, diskHandler error (raiseIrq s) = some t ∧ Served error s t r ∧
      t.inUsing = some (progress r (s.drive.irqs + 1)) := by
  have hLt : s.drive.irqs < r.count := by omega
  have hCount : (countDown (progress r s.drive.irqs)).count ≠ 0 := by
    rw [countDown_count hLt]
    omega
  have hNode' : (raiseIrq s).inUsing = some (progress r s.drive.irqs) := hNode
  have hNext := advance_countDown hLt
  obtain ⟨hCmd, hHandler⟩ | ⟨hCmd, hHandler⟩ := hValid.kind
  · have hHandler' : (progress r s.drive.irqs).endHandler = .readHandler := hHandler
    refine ⟨{ readSector error s r with inUsing := some (progress r (s.drive.irqs + 1)) }, ?_,
      readSector_served hNode hCmd _, rfl⟩
    simp only [diskHandler, hNode', hHandler', readHandler, hNext]
    rw [if_pos hCount]
    rfl
  · have hHandler' : (progress r s.drive.irqs).endHandler = .writeHandler := hHandler
    refine ⟨portTransfer .outsw
      { raiseIrq s with inUsing := some (progress r (s.drive.irqs + 1)) }
      (progress r (s.drive.irqs + 1)), ?_, outsw_served hNode hCmd hMore _, rfl⟩
    simp only [diskHandler, hNode', hHandler', writeHandler, hNext]
    rw [if_pos hCount]

theorem diskHandler_last (hLast : s.drive.irqs + 1 = r.count) :
    ∃ t node, diskHandler error (raiseIrq s) = endRequest t node ∧ Served error s t r ∧
      node.tsk = r.tsk ∧ node.serial = r.serial := by
  have hLt : s.drive.irqs < r.count := by omega
  have hCount : ¬ (countDown (progress r s.drive.irqs)).count ≠ 0 := by
    rw [countDown_count hLt]
    omega
  have hNode' : (raiseIrq s).inUsing = some (progress r s.drive.irqs) := hNode
  obtain ⟨hCmd, hHandler⟩ | ⟨hCmd, hHandler⟩ := hValid.kind
  · have hHandler' : (progress r s.drive.irqs).endHandler = .readHandler := hHandler
    refine ⟨{ readSector error s r with inUsing := some (countDown (progress r s.drive.irqs)) },
      countDown (progress r s.drive.irqs), ?_, readSector_served hNode hCmd _, by simp, by simp⟩
    simp only [diskHandler, hNode', hHandler', readHandler]
    rw [if_neg hCount]
    rfl
  · have hHandler' : (progress r s.drive.irqs).endHandler = .writeHandler := hHandler
    refine ⟨{ raiseIrq s with inUsing := some (countDown (progress r s.drive.irqs)) },
      countDown (progress r s.drive.irqs), ?_, raiseIrq_served hNode hCmd hLast.symm _,
      by simp, by simp⟩
    simp only [diskHandler, hNode', hHandler', writeHandler]
    rw [if_neg hCount]

end

/-- A request that was ended is not the one in service. -/
theorem Inv.serial_ne {s : State} {r q : BlockBufferNode} {done : List BlockBufferNode}
    (h : Inv s done (some r)) (hq : q ∈ done) : q.serial ≠ r.serial := by
  have hNodup : (s.submitted.map BlockBufferNode.serial).Nodup := by
    rw [h.serials]
    exact List.nodup_range
  rw [h.submitted, List.append_assoc, List.map_append, List.map_append, List.nodup_append] at hNodup
  exact hNodup.2.2 _ (List.mem_map_of_mem hq) _ (List.mem_append_left _ (List.mem_singleton_self _))

section
variable {error : Bool} {s t : State} {r : BlockBufferNode} {done : List BlockBufferNode}
  (h : Inv s done (some r)) (hServed : Served error s t r)
include h hServed

theorem Served.inv (hMore : s.drive.irqs + 1 < r.count)
    (hNode : t.inUsing = some (progress r (s.drive.irqs + 1))) : Inv t done (some r) where
  submitted := by
    rw [hServed.submitted, hServed.waitQueueList]
    exact h.submitted
  serials := by
    rw [hServed.submitted]
    exact h.serials
  valid := by
    rw [hServed.submitted]
    exact h.valid
  count := by
    rw [hServed.count, hServed.waitQueueList]
    exact h.count
  inUsing := by
    rw [hNode, hServed.irqs]
    rfl
  busy := by
    rintro r ⟨⟩
    rw [hServed.irqs, hServed.command]
    exact ⟨hMore, (h.busy r rfl).2⟩
  idle := fun hNone => absurd hNone (by simp)
  finished := by
    rw [hServed.finished]
    exact h.finished
  handled_done := by
    intro q hq
    rw [hServed.handled_eq, if_neg (h.serial_ne hq), h.handled_done q hq, Nat.add_zero]
  handled_active := by
    rintro r ⟨⟩
    rw [hServed.handled_eq, if_pos rfl, h.handled_active r rfl, hServed.irqs]
  handled_waiting := by
    intro serial hNot
    have hNe : serial ≠ r.serial := Ne.symm (hNot r (by simp))
    rw [hServed.handled_eq, if_neg hNe, h.handled_waiting serial hNot]

omit h in
theorem Served.logged_more (hError : error = false) (hLogged : Logged s done (some r)) :
    Logged t done (some r) := by
  obtain ⟨hLog, hBlocks⟩ := hServed.logged hError (hLogged.blocks r rfl)
  refine ⟨?_, ?_⟩
  · rw [hLog, hLogged.log, hServed.irqs, List.append_assoc]
    change _ ++ (trace r _ ++ _) = _ ++ trace r _
    rw [trace_succ]
  · rintro r ⟨⟩
    rw [hBlocks, hServed.irqs]

omit h in
theorem Served.logged_last (hError : error = false) (hLogged : Logged s done (some r))
    (hLast : s.drive.irqs + 1 = r.count) {node : BlockBufferNode} (hSerial : node.serial = r.serial) :
    (release t node).log = (done ++ [r]).flatMap fullTrace := by
  obtain ⟨hLog, -⟩ := hServed.logged hError (hLogged.blocks r rfl)
  have hTrace : fullTrace r = trace r s.drive.irqs ++ irqEvents r s.drive.irqs ++ [.finish r.serial] := by
    rw [fullTrace, ← hLast, trace_succ]
  simp [release, hLog, hLogged.log, hSerial, hTrace]

theorem Served.endRequest (hLast : s.drive.irqs + 1 = r.count) {node : BlockBufferNode}
    (hTsk : node.tsk = r.tsk) (hSerial : node.serial = r.serial) :
    ∃ u next, endRequest t node = some u ∧
      u.sched = setNeedSchedule (wakeUp s.sched r.tsk) r.tsk ∧ u.submitted = s.submitted ∧
      Inv u (done ++ [r]) next ∧
      (error = false → Logged s done (some r) → Logged u (done ++ [r]) next) := by
  have hSched : (release t node).sched = setNeedSchedule (wakeUp s.sched r.tsk) r.tsk := by
    simp [release, hServed.sched, hTsk]
  have hSubmitted : (release t node).submitted = (done ++ [r]) ++ (release t node).waitQueueList := by
    change t.submitted = _ ++ t.waitQueueList
    rw [hServed.submitted, hServed.waitQueueList, h.submitted]
    rfl
  have hSame : (release t node).submitted = s.submitted := hServed.submitted
  have hSerials : (release t node).submitted.map BlockBufferNode.serial
      = List.range (release t node).submitted.length := by
    rw [hSame]
    exact h.serials
  have hValid : ∀ r ∈ (release t node).submitted, Valid r := by
    rw [hSame]
    exact h.valid
  have hCount : (release t node).blockRequestCount = (release t node).waitQueueList.length := by
    change t.blockRequestCount = t.waitQueueList.length
    rw [hServed.count, hServed.waitQueueList]
    exact h.count
  have hHandled : ∀ serial, Disk.handled (release t node) serial = Disk.handled t serial :=
    fun serial => by simp [Disk.handled, release]
  have hDone : ∀ q ∈ done ++ [r], Disk.handled (release t node) q.serial = q.count := by
    intro q hq
    rw [hHandled, hServed.handled_eq]
    obtain hq | hq := List.mem_append.mp hq
    · rw [if_neg (h.serial_ne hq), h.handled_done q hq, Nat.add_zero]
    · rw [List.mem_singleton.mp hq, if_pos rfl, h.handled_active r rfl, hLast]
  have hWaiting : ∀ serial, (∀ q ∈ done ++ [r], q.serial ≠ serial) →
      Disk.handled (release t node) serial = 0 := by
    intro serial hNot
    have hNe : serial ≠ r.serial := Ne.symm (hNot r (by simp))
    rw [hHandled, hServed.handled_eq, if_neg hNe, h.handled_waiting serial hNot]
  have hFinished : (release t node).log.filterMap Disk.finished
      = (done ++ [r]).map BlockBufferNode.serial := by
    simp [release, hServed.finished, h.finished, Disk.finished, hSerial]
  cases hQueue : (release t node).waitQueueList with
  | nil =>
    have hZero : ¬ (release t node).blockRequestCount ≠ 0 := by simp [hCount, hQueue]
    refine ⟨release t node, none, if_neg hZero, hSched, hSame, ?_, fun hError hLogged => ⟨?_, ?_⟩⟩
    · refine ⟨?_, hSerials, hValid, hCount, rfl, fun _ hNone => absurd hNone (by simp), ?_,
        hFinished, hDone, fun _ hNone => absurd hNone (by simp),
        fun serial hNot => hWaiting serial (by simpa using hNot)⟩
      · rw [hSubmitted]
        simp
      · refine fun _ => ⟨hQueue, ?_⟩
        rintro ⟨c, hc, hLt⟩
        have hCommand : t.drive.command = some (commandOf r) :=
          hServed.command.trans (h.busy r rfl).2
        have hIrqs : (release t node).drive.irqs = r.count := hServed.irqs.trans hLast
        rw [hIrqs, ← Option.some.inj (hCommand.symm.trans hc)] at hLt
        exact absurd hLt (lt_irrefl _)
    · rw [Served.logged_last hServed hError hLogged hLast hSerial]
      simp
    · exact fun _ hNone => absurd hNone (by simp)
  | cons first rest =>
    have hNonzero : (release t node).blockRequestCount ≠ 0 := by
      rw [hCount, hQueue, List.length_cons]
      omega
    rw [hQueue] at hSubmitted hCount
    have hFirst : Valid first := hValid first (by rw [hSubmitted]; simp)
    obtain ⟨u, hOut, hIssued⟩ := cmdOut_issued hQueue hFirst
    refine ⟨u, some first, (if_pos hNonzero).trans hOut, hIssued.sched.trans hSched,
      hIssued.submitted.trans hSame, ?_, fun hError hLogged => ?_⟩
    · exact hIssued.inv hSubmitted hSerials hValid (by simpa using hCount) hFinished hDone hWaiting
    · exact hIssued.logged (Served.logged_last hServed hError hLogged hLast hSerial)

end

theorem Inv.irq {s : State} {done : List BlockBufferNode} {active : Option BlockBufferNode}
    (h : Inv s done active) (hFlight : s.drive.InFlight) (error : Bool) :
    ∃ r t, active = some r ∧ diskHandler error (raiseIrq s) = some t ∧ t.submitted = s.submitted ∧
      ((s.drive.irqs + 1 < r.count ∧ t.sched = s.sched ∧ Inv t done (some r) ∧
          (error = false → Logged s done active → Logged t done (some r))) ∨
        (s.drive.irqs + 1 = r.count ∧
          t.sched = setNeedSchedule (wakeUp s.sched r.tsk) r.tsk ∧
          ∃ next, Inv t (done ++ [r]) next ∧
            (error = false → Logged s done active → Logged t (done ++ [r]) next))) := by
  cases active with
  | none => exact absurd hFlight (h.idle rfl).2
  | some r =>
    obtain ⟨hLt, -⟩ := h.busy r rfl
    have hValid : Valid r := h.valid r (by rw [h.submitted]; simp)
    by_cases hMore : s.drive.irqs + 1 < r.count
    · obtain ⟨t, hCall, hServed, hNode⟩ := diskHandler_more error hValid h.inUsing hMore
      exact ⟨r, t, rfl, hCall, hServed.submitted, Or.inl ⟨hMore, hServed.sched,
        hServed.inv h hMore hNode, hServed.logged_more⟩⟩
    · have hLast : s.drive.irqs + 1 = r.count := by omega
      obtain ⟨u, node, hCall, hServed, hTsk, hSerial⟩ :=
        diskHandler_last error hValid h.inUsing hLast
      obtain ⟨t, next, hEnd, hSched, hSubmitted, hInv, hLogged⟩ :=
        hServed.endRequest h hLast hTsk hSerial
      exact ⟨r, t, rfl, hCall.trans hEnd, hSubmitted,
        Or.inr ⟨hLast, hSched, next, hInv, hLogged⟩⟩

/-! ## One request among the submitted ones -/

section
variable {s : State} {done : List BlockBufferNode} {active : Option BlockBufferNode}
  (h : Inv s done active) {r : BlockBufferNode}
include h

/-- The serial of a request is its place. -/
theorem Inv.submitted_get (hr : r ∈ s.submitted) : s.submitted[r.serial]? = some r := by
  obtain ⟨i, hi, rfl⟩ := List.mem_iff_getElem.mp hr
  have hSerial : (s.submitted.map BlockBufferNode.serial)[i]? = (List.range s.submitted.length)[i]? := by
    rw [h.serials]
  rw [List.getElem?_map, List.getElem?_eq_getElem hi, List.getElem?_range hi] at hSerial
  rw [Option.some.inj hSerial]
  exact List.getElem?_eq_getElem hi

theorem Inv.eq_of_serial (hr : r ∈ s.submitted) {q : BlockBufferNode} (hq : q ∈ s.submitted)
    (hSerial : q.serial = r.serial) : q = r :=
  Option.some.inj ((h.submitted_get hq).symm.trans (hSerial ▸ h.submitted_get hr))

theorem Inv.serial_lt (hr : r ∈ s.submitted) : r.serial < s.submitted.length :=
  (List.getElem?_eq_some_iff.mp (h.submitted_get hr)).1

theorem Inv.finish_mem {serial : Nat} :
    Event.finish serial ∈ s.log ↔ ∃ q ∈ done, q.serial = serial := by
  have hMem : Event.finish serial ∈ s.log ↔ serial ∈ s.log.filterMap Disk.finished := by
    rw [List.mem_filterMap]
    constructor
    · exact fun hFinish => ⟨_, hFinish, rfl⟩
    · rintro ⟨event, hEvent, hSerial⟩
      cases event with
      | finish other =>
        cases hSerial
        exact hEvent
      | issue | irq | transfer => cases hSerial
  rw [hMem, h.finished, List.mem_map]

theorem Inv.done_subset (hr : r ∈ done) : r ∈ s.submitted := by
  rw [h.submitted]
  exact List.mem_append_left _ (List.mem_append_left _ hr)

theorem Inv.mem_done_iff (hr : r ∈ s.submitted) : r ∈ done ↔ Event.finish r.serial ∈ s.log := by
  rw [h.finish_mem]
  constructor
  · exact fun hDone => ⟨r, hDone, rfl⟩
  · rintro ⟨q, hq, hSerial⟩
    exact h.eq_of_serial hr (h.done_subset hq) hSerial ▸ hq

/-- A request has ended when the last of its sectors was handled. -/
theorem Inv.finish_iff (hr : r ∈ s.submitted) :
    Event.finish r.serial ∈ s.log ↔ r.count - handled s r.serial = 0 := by
  rw [← h.mem_done_iff hr]
  constructor
  · intro hDone
    rw [h.handled_done r hDone, Nat.sub_self]
  · intro hZero
    by_contra hOpen
    have hPos := (h.valid r hr).pos
    rw [h.submitted, List.append_assoc, List.mem_append, List.mem_append] at hr
    by_cases hActive : r ∈ active.toList
    · have hMem : r ∈ active := Option.mem_toList.mp hActive
      have hLt := (h.busy r hMem).1
      rw [h.handled_active r hMem] at hZero
      omega
    · have hWaiting : handled s r.serial = 0 := by
        refine h.handled_waiting r.serial fun q hq hSerial => ?_
        have hq' : q ∈ s.submitted := by
          rw [h.submitted]
          exact List.mem_append_left _ hq
        have hr' : r ∈ s.submitted := by
          rw [h.submitted, List.append_assoc, List.mem_append, List.mem_append]
          exact hr
        rw [h.eq_of_serial hr' hq' hSerial, List.mem_append] at hq
        exact hq.elim hOpen hActive
      omega

end

end KalinoteOS.Disk
