import KalinoteOS.Disk.Fifo

/-! # Runs of the disk queue

Submits by whatever task is current, in any order with the interrupts of the drive.
-/
namespace KalinoteOS.Disk
open Scheduler Lib
set_option autoImplicit false

inductive Op where
  | submit (cmd blocks count buffer : Nat)
  | irq
  /-- Something else happens to the tasks. -/
  | resched (sched : Schedule)

inductive Step : State → Op → State → Prop
  | submit {s t : State} {cmd blocks count buffer : Nat}
      (hCmd : cmd = ataReadCmd ∨ cmd = ataWriteCmd) (hPos : 1 ≤ count) (hLe : count ≤ 65535)
      (hCall : submit s (makeRequest s cmd blocks count buffer) = some t) :
      Step s (.submit cmd blocks count buffer) t
  | irq {s t : State} (hFlight : s.drive.InFlight)
      (hCall : diskHandler false (raiseIrq s) = some t) : Step s .irq t
  | resched {s : State} (sched : Schedule) : Step s (.resched sched) { s with sched := sched }

/-- After `disk_init`, with a drive that is at rest. -/
def Initial (s : State) : Prop := ∃ sched drive, ¬ drive.InFlight ∧ s = diskInit sched drive

/-- What a caller of `make_request` asks for. -/
structure Request where
  cmd : Nat
  blocks : Nat
  count : Nat
  buffer : Nat
  deriving DecidableEq, Repr

def BlockBufferNode.request (r : BlockBufferNode) : Request := ⟨r.cmd, r.LBA, r.count, r.buffer⟩

/-- The requests of a run, in the order of its submits. -/
def requested (ops : List Op) : List Request :=
  ops.filterMap fun
    | .submit cmd blocks count buffer => some ⟨cmd, blocks, count, buffer⟩
    | .irq | .resched _ => none

/-- The serial of an `issue`. -/
def issued : Event → Option Nat
  | .issue serial _ => some serial
  | _ => none

/-- The sector and the address of a transfer for the node `serial`. -/
def transferOf (serial : Nat) : Event → Option (Nat × Nat)
  | .transfer _ owner block address => if owner = serial then some (block, address) else none
  | _ => none

/-- What the queue owes after the steps `ops`: `done` were ended, `active` is in service. -/
structure FifoSpec (ops : List Op) (s : State) (done : List BlockBufferNode)
    (active : Option BlockBufferNode) : Prop where
  requests : s.submitted.map BlockBufferNode.request = requested ops
  submitted : s.submitted = done ++ active.toList ++ s.waitQueueList
  serials : s.submitted.map BlockBufferNode.serial = List.range s.submitted.length
  count : s.blockRequestCount = s.waitQueueList.length
  busy : s.inUsing.isSome ↔ s.drive.InFlight
  idle : s.inUsing = none → s.waitQueueList = []
  log : s.log = done.flatMap fullTrace ++ active.elim [] (trace · s.drive.irqs)
  issued : s.log.filterMap issued = (done ++ active.toList).map BlockBufferNode.serial
  ended : s.log.filterMap finished = done.map BlockBufferNode.serial
  sectors : ∀ r ∈ done, s.log.filterMap (transferOf r.serial) =
    (List.range r.count).map fun i => (i, r.buffer + 512 * i)
  accepts : ∀ cmd blocks count buffer, (cmd = ataReadCmd ∨ cmd = ataWriteCmd) → 1 ≤ count →
    count ≤ 65535 → ∃ t, Step s (.submit cmd blocks count buffer) t
  serves : s.drive.InFlight → ∃ t, Step s .irq t

theorem initial_inv {s : State} (h : Initial s) : Inv s [] none ∧ Logged s [] none := by
  obtain ⟨sched, drive, hRest, rfl⟩ := h
  exact ⟨diskInit_inv sched hRest, rfl, by simp⟩

/-- The node holds what was asked for: its narrower fields are wide enough. -/
theorem makeRequest_request (s : State) {cmd blocks count buffer : Nat}
    (hCmd : cmd = ataReadCmd ∨ cmd = ataWriteCmd) (hLe : count ≤ 65535) :
    (makeRequest s cmd blocks count buffer).request = ⟨cmd, blocks, count, buffer⟩ := by
  have hCount : count % 2 ^ 32 = count := Nat.mod_eq_of_lt (by omega)
  have hByte : cmd % 2 ^ 8 = cmd := by
    obtain rfl | rfl := hCmd
    · rfl
    · rfl
  simp only [BlockBufferNode.request, makeRequest, hCount, hByte]

/-- A step keeps the invariant, and a submit adds its own request to those submitted. -/
theorem step_inv {s t : State} {op : Op} {done : List BlockBufferNode}
    {active : Option BlockBufferNode} (h : Inv s done active) (hLogged : Logged s done active)
    (hStep : Step s op t) :
    t.submitted.map BlockBufferNode.request =
        s.submitted.map BlockBufferNode.request ++ requested [op] ∧
      ∃ done active, Inv t done active ∧ Logged t done active := by
  cases hStep with
  | @submit _ cmd blocks count buffer hCmd hPos hLe hCall =>
    have hValid : Valid (makeRequest s cmd blocks count buffer) := makeRequest_valid s hCmd hPos hLe
    obtain ⟨u, hSubmit, -, hSubmitted, hInv, hLog⟩ := h.submit hValid rfl
    have hEq : t = u := Option.some.inj (hCall.symm.trans hSubmit)
    subst hEq
    refine ⟨?_, _, _, hInv, hLog hLogged⟩
    rw [hSubmitted, List.map_append, List.map_singleton, makeRequest_request s hCmd hLe]
    rfl
  | irq hFlight hCall =>
    obtain ⟨r, u, rfl, hIrq, hSubmitted, hNext⟩ := h.irq hFlight false
    have hEq : t = u := Option.some.inj (hCall.symm.trans hIrq)
    subst hEq
    refine ⟨by rw [hSubmitted]; exact (List.append_nil _).symm, ?_⟩
    obtain ⟨-, -, hInv, hLog⟩ | ⟨-, -, next, hInv, hLog⟩ := hNext
    · exact ⟨_, _, hInv, hLog rfl hLogged⟩
    · exact ⟨_, _, hInv, hLog rfl hLogged⟩
  | resched sched =>
    exact ⟨(List.append_nil _).symm, done, active, h.of_sched sched, hLogged.log, hLogged.blocks⟩

/-- After any run from `disk_init` the nodes submitted are the requests of the run. -/
theorem run_inv {s₀ s : State} {ops : List Op} (hInit : Initial s₀) (hRun : Run Step s₀ ops s) :
    s.submitted.map BlockBufferNode.request = requested ops ∧
      ∃ done active, Inv s done active ∧ Logged s done active := by
  induction hRun with
  | nil =>
    refine ⟨?_, [], none, initial_inv hInit⟩
    obtain ⟨sched, drive, -, rfl⟩ := hInit
    rfl
  | snoc before hStep ih =>
    obtain ⟨hRequests, done, active, hInv, hLogged⟩ := ih
    obtain ⟨hNext, hKept⟩ := step_inv hInv hLogged hStep
    refine ⟨?_, hKept⟩
    rw [hNext, hRequests, requested, requested, requested, List.filterMap_append]

/-! ## Reading the log -/

theorem trace_issued (r : BlockBufferNode) (n : Nat) : (trace r n).filterMap issued = [r.serial] := by
  induction n with
  | zero =>
    rw [trace_zero, startEvents]
    split <;> rfl
  | succ n ih =>
    rw [trace_succ, List.filterMap_append, ih, irqEvents]
    split
    · split <;> rfl
    · rfl

theorem fullTrace_issued (r : BlockBufferNode) : (fullTrace r).filterMap issued = [r.serial] := by
  rw [fullTrace, List.filterMap_append, trace_issued]
  rfl

theorem filterMap_issued (done : List BlockBufferNode) :
    (done.flatMap fullTrace).filterMap issued = done.map BlockBufferNode.serial := by
  induction done with
  | nil => rfl
  | cons r done ih =>
    rw [List.flatMap_cons, List.filterMap_append, fullTrace_issued, ih]
    rfl

@[simp] theorem filterMap_sectorAt (direction : Direction) (r : BlockBufferNode) (i : Nat) :
    [sectorAt direction r i].filterMap (transferOf r.serial) = [(i, r.buffer + 512 * i)] := by
  simp [sectorAt, transferOf]

theorem trace_transferOf (r : BlockBufferNode) {n : Nat} (hLe : n ≤ r.count) (hPos : 0 < r.count) :
    (trace r n).filterMap (transferOf r.serial) =
      (List.range (blocksAfter r n)).map fun i => (i, r.buffer + 512 * i) := by
  induction n with
  | zero =>
    rw [trace_zero, startEvents, blocksAfter]
    by_cases hWrite : r.cmd = ataWriteCmd
    · have hOne : min (0 + 1) r.count = 1 := by omega
      rw [if_pos hWrite, if_pos hWrite, hOne]
      exact filterMap_sectorAt .outsw r 0
    · simp [hWrite, transferOf]
  | succ n ih =>
    rw [trace_succ, List.filterMap_append, ih (by omega), irqEvents, blocksAfter, blocksAfter]
    by_cases hWrite : r.cmd = ataWriteCmd
    · simp only [hWrite, if_true]
      by_cases hMore : n + 1 < r.count
      · have hNow : min (n + 1) r.count = n + 1 := by omega
        have hNext : min (n + 1 + 1) r.count = n + 1 + 1 := by omega
        rw [if_pos hMore, hNow, hNext, List.range_succ (n := n + 1), List.map_append]
        exact congrArg _ (filterMap_sectorAt .outsw r (n + 1))
      · have hSame : min (n + 1 + 1) r.count = min (n + 1) r.count := by omega
        rw [if_neg hMore, hSame]
        exact List.append_nil _
    · simp only [hWrite, if_false]
      rw [List.range_succ, List.map_append]
      exact congrArg _ (filterMap_sectorAt .insw r n)

theorem trace_transferOf_other {r : BlockBufferNode} {serial : Nat} (hNe : r.serial ≠ serial)
    (n : Nat) : (trace r n).filterMap (transferOf serial) = [] := by
  induction n with
  | zero =>
    rw [trace_zero, startEvents]
    split <;> simp [transferOf, sectorAt, hNe]
  | succ n ih =>
    rw [trace_succ, List.filterMap_append, ih, irqEvents]
    split
    · split <;> simp [transferOf, sectorAt, hNe]
    · simp [transferOf, sectorAt, hNe]

theorem flatMap_transferOf_other {done : List BlockBufferNode} {serial : Nat}
    (hNe : ∀ r ∈ done, r.serial ≠ serial) :
    (done.flatMap fullTrace).filterMap (transferOf serial) = [] := by
  induction done with
  | nil => rfl
  | cons r done ih =>
    rw [List.flatMap_cons, List.filterMap_append,
      ih fun r hr => hNe r (List.mem_cons_of_mem _ hr), fullTrace, List.filterMap_append,
      trace_transferOf_other (hNe r List.mem_cons_self)]
    rfl

section
variable {s : State} {done : List BlockBufferNode} {active : Option BlockBufferNode}
  (h : Inv s done active) (hLogged : Logged s done active)
include h

theorem Inv.inFlight_iff : s.inUsing.isSome ↔ s.drive.InFlight := by
  rw [h.inUsing]
  cases active with
  | none => simp [(h.idle rfl).2]
  | some r =>
    obtain ⟨hLt, hCommand⟩ := h.busy r rfl
    exact iff_of_true rfl ⟨commandOf r, hCommand, hLt⟩

theorem Inv.serials_nodup : (done.map BlockBufferNode.serial ++
    active.toList.map BlockBufferNode.serial).Nodup := by
  have hAll : (s.submitted.map BlockBufferNode.serial).Nodup := by
    rw [h.serials]
    exact List.nodup_range
  rw [h.submitted, List.map_append, List.map_append] at hAll
  exact (List.nodup_append.mp hAll).1

include hLogged

theorem Inv.log_issued :
    s.log.filterMap issued = (done ++ active.toList).map BlockBufferNode.serial := by
  rw [hLogged.log, List.filterMap_append, filterMap_issued, List.map_append]
  cases active with
  | none => rfl
  | some r => exact congrArg _ (trace_issued r _)

theorem Inv.log_sectors : ∀ r ∈ done, s.log.filterMap (transferOf r.serial) =
    (List.range r.count).map fun i => (i, r.buffer + 512 * i) := by
  intro r hr
  obtain ⟨front, back, rfl⟩ := List.append_of_mem hr
  have hNodup := h.serials_nodup
  rw [List.map_append, List.map_cons, List.append_assoc, List.nodup_append] at hNodup
  obtain ⟨-, hRest, hApart⟩ := hNodup
  rw [List.cons_append, List.nodup_cons, List.mem_append, not_or] at hRest
  have hFront : ∀ q ∈ front, q.serial ≠ r.serial := fun q hq =>
    hApart _ (List.mem_map_of_mem hq) _ (List.mem_append_left _ List.mem_cons_self)
  have hBack : ∀ q ∈ back, q.serial ≠ r.serial := fun q hq hEq =>
    hRest.1.1 (hEq ▸ List.mem_map_of_mem hq)
  have hActive : (active.elim [] (trace · s.drive.irqs)).filterMap (transferOf r.serial) = [] := by
    cases active with
    | none => rfl
    | some q =>
      refine trace_transferOf_other (fun hEq => hRest.1.2 ?_) _
      rw [← hEq]
      exact List.mem_singleton_self _
  have hValid : Valid r := h.valid r (by rw [h.submitted]; simp)
  have hBlocks : blocksAfter r r.count = r.count := by
    unfold blocksAfter
    split
    · omega
    · rfl
  rw [hLogged.log, List.filterMap_append, hActive, List.flatMap_append, List.flatMap_cons,
    List.filterMap_append, List.filterMap_append, flatMap_transferOf_other hFront,
    flatMap_transferOf_other hBack, fullTrace, List.filterMap_append,
    trace_transferOf r (le_refl _) hValid.pos, hBlocks]
  simp [transferOf]

theorem Inv.fifoSpec {ops : List Op}
    (hRequests : s.submitted.map BlockBufferNode.request = requested ops) :
    FifoSpec ops s done active where
  requests := hRequests
  submitted := h.submitted
  serials := h.serials
  count := h.count
  busy := h.inFlight_iff
  idle hNone := by
    rw [h.inUsing, Option.map_eq_none_iff] at hNone
    exact (h.idle hNone).1
  log := hLogged.log
  issued := h.log_issued hLogged
  ended := h.finished
  sectors := h.log_sectors hLogged
  accepts cmd blocks count buffer hCmd hPos hLe := by
    obtain ⟨t, hCall, -⟩ := h.submit (makeRequest_valid s hCmd hPos hLe) rfl
    exact ⟨t, .submit hCmd hPos hLe hCall⟩
  serves hFlight := by
    obtain ⟨r, t, -, hCall, -⟩ := h.irq hFlight false
    exact ⟨t, .irq hFlight hCall⟩

end

/-- After every run the queue holds the requests of the run in submission order, and each of them
has left its trace, or the part of it up to the interrupts so far. -/
theorem run_fifo (s₀ s : State) (ops : List Op) (hInit : Initial s₀) (hRun : Run Step s₀ ops s) :
    ∃ done active, FifoSpec ops s done active := by
  obtain ⟨hRequests, done, active, hInv, hLogged⟩ := run_inv hInit hRun
  exact ⟨done, active, hInv.fifoSpec hLogged hRequests⟩

def bootSched : Schedule := scheduleInit initTask fun _ => ⟨.running, pfKthread, 0, 0, 2, 0⟩

def restingDrive : Drive := ⟨⟨0, 0⟩, ⟨0, 0⟩, ⟨0, 0⟩, ⟨0, 0⟩, none, 0, 0⟩

/-- A write of two sectors is submitted while one sector is read into 4096. -/
theorem run_fifo_write : ∃ s done active,
    s.log = [.issue 0 (some ⟨ataReadCmd, 7, 1⟩), .irq (some 0), .transfer .insw 0 0 4096, .finish 0,
      .issue 1 (some ⟨ataWriteCmd, 9, 2⟩), .transfer .outsw 1 0 8192, .irq (some 1),
      .transfer .outsw 1 1 8704] ∧
    FifoSpec [.submit ataReadCmd 7 1 4096, .submit ataWriteCmd 9 2 8192, .irq, .irq] s done
      active := by
  have hInit : Initial (diskInit bootSched restingDrive) :=
    ⟨bootSched, restingDrive, by simp [Drive.InFlight, restingDrive], rfl⟩
  have hCalls : ∃ a b c d,
      submit (diskInit bootSched restingDrive)
        (makeRequest (diskInit bootSched restingDrive) ataReadCmd 7 1 4096) = some a ∧
      submit a (makeRequest a ataWriteCmd 9 2 8192) = some b ∧
      b.drive.InFlight ∧ diskHandler false (raiseIrq b) = some c ∧
      c.drive.InFlight ∧ diskHandler false (raiseIrq c) = some d ∧
      d.log = [.issue 0 (some ⟨ataReadCmd, 7, 1⟩), .irq (some 0), .transfer .insw 0 0 4096,
        .finish 0, .issue 1 (some ⟨ataWriteCmd, 9, 2⟩), .transfer .outsw 1 0 8192, .irq (some 1),
        .transfer .outsw 1 1 8704] :=
    ⟨_, _, _, _, rfl, rfl, ⟨_, rfl, by decide⟩, rfl, ⟨_, rfl, by decide⟩, rfl, rfl⟩
  obtain ⟨a, b, c, d, hRead, hWrite, hFlight, hIrq, hFlight', hIrq', hLog⟩ := hCalls
  have hRun := Run.single (Step.submit (Or.inl rfl) (by decide) (by decide) hRead)
    |>.snoc (.submit (Or.inr rfl) (by decide) (by decide) hWrite)
    |>.snoc (.irq hFlight hIrq) |>.snoc (.irq hFlight' hIrq')
  obtain ⟨done, active, hSpec⟩ := run_fifo _ d _ hInit hRun
  exact ⟨d, done, active, hLog, hSpec⟩

end KalinoteOS.Disk
