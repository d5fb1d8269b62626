import KalinoteOS.Disk.Errors
import KalinoteOS.Disk.WaitRun

/-! # What `IDE_transfer` tells its caller

`wait_for_finish` keeps nothing of its request either: whenever the task goes on behind it, the
caller of `IDE_transfer` gets the same result.
-/
namespace KalinoteOS.Disk
open Scheduler Lib
set_option autoImplicit false

/-- What `IDE_transfer` returns behind `wait_for_finish`. -/
def ideTransferResult (cmd : Nat) : Nat := if cmd = ataReadCmd ∨ cmd = ataWriteCmd then 1 else 0

/-- A return of `IDE_transfer`, with the statuses of its request and the sectors read by then. -/
structure Outcome where
  request : BlockBufferNode
  result : Nat
  statuses : List Bool
  read : List Nat

/-- The disk with the places of its callers, the statuses at the interrupts, and the returns. -/
structure Calls where
  system : Wait.System
  statuses : List (Nat × Bool)
  outcomes : List Outcome

namespace Calls

def observed (c : Calls) : Observed := ⟨c.system.disk, c.statuses⟩

def outcome (c : Calls) (r : BlockBufferNode) : Outcome where
  request := r
  result := ideTransferResult r.cmd
  statuses := c.observed.errors r.serial
  read := reads c.system.disk r.serial

/-- The return of the task that gets the CPU, if it is inside `wait_for_finish`. -/
def returned (c : Calls) (sched : Schedule) : List Outcome :=
  match c.system.phase sched.nowTask with
  | .waiting serial _ => (c.system.disk.submitted[serial]?).toList.map c.outcome
  | _ => []

def Start (c : Calls) : Prop := Wait.Initial c.system ∧ c.statuses = [] ∧ c.outcomes = []

end Calls

inductive CallOp where
  | submit (cmd blocks count buffer : Nat)
  | irq (error : Bool)
  | waitForFinish
  /-- `schedule`, in `wait_for_finish` or at a tick or behind an interrupt, or anything else that
  happens to the tasks. -/
  | resched (change : Schedule → Schedule)

/-- `IDE_transfer` of any tasks and interrupts with any status. -/
def callNext (c : Calls) : CallOp → Option Calls
  | .submit cmd blocks count buffer =>
    if c.system.phase c.system.sched.nowTask = .outside ∧ (cmd = ataReadCmd ∨ cmd = ataWriteCmd) ∧
      1 ≤ count ∧ count < 2 ^ 32 then
      (Wait.submitRequest c.system cmd blocks count buffer).map fun system =>
        { c with system := system }
    else none
  | .irq error =>
    if c.system.disk.drive.InFlight then
      c.system.disk.inUsing.bind fun node =>
        (diskHandler error (raiseIrq c.system.disk)).map fun disk =>
          { c with
            system := { c.system with disk := disk }
            statuses := c.statuses ++ [(node.serial, error)] }
    else none
  | .waitForFinish =>
    match c.system.phase c.system.sched.nowTask with
    | .submitted serial => some { c with system := Wait.block c.system serial }
    | _ => none
  | .resched change =>
    some { c with
      system := Wait.resume (c.system.setSched (change c.system.sched))
      outcomes := c.outcomes ++ c.returned (change c.system.sched) }

def Transfers (c : Calls) (op : CallOp) (c' : Calls) : Prop := callNext c op = some c'

/-- The test of `FAT32_lookup` behind its read: it parses the buffer. -/
def LookupParses (out : Outcome) : Prop := out.request.cmd = ataReadCmd ∧ out.result ≠ 0

/-- The result is nonzero only if no interrupt of the request had the error bit, and who parses
the buffer then finds every sector read. -/
def Reported (c : Calls) (out : Outcome) : Prop :=
  (out.result ≠ 0 → ∀ error ∈ c.observed.errors out.request.serial, error = false) ∧
  (LookupParses out →
    ∀ i < out.request.count, out.request.buffer + 512 * i ∈ out.read)

/-- No interrupt of the request had the error bit, and a read had all of its interrupts when
`IDE_transfer` returned. -/
def Delivered (c : Calls) (out : Outcome) : Prop :=
  (∀ error ∈ c.observed.errors out.request.serial, error = false) ∧
  (out.request.cmd = ataReadCmd → out.statuses.length = out.request.count)

/-- The atomic steps of the wait protocol are runs of these. -/
theorem transfers_of_step {p q : Wait.System} {op : Wait.Op} (h : Wait.Step p op q)
    (statuses : List (Nat × Bool)) (outcomes : List Outcome) : ∃ ops statuses' outcomes',
      Run Transfers ⟨p, statuses, outcomes⟩ ops ⟨q, statuses', outcomes'⟩ := by
  cases op with
  | submit cmd blocks count buffer =>
    obtain ⟨⟨hOut, hCmd, hPos, hLe⟩, hCall⟩ := Option.ite_none_right_eq_some.mp h
    refine ⟨[.submit cmd blocks count buffer], statuses, outcomes, .single ?_⟩
    have hGuard : p.phase p.sched.nowTask = .outside ∧ (cmd = ataReadCmd ∨ cmd = ataWriteCmd) ∧
        1 ≤ count ∧ count < 2 ^ 32 := ⟨hOut, hCmd, hPos, by omega⟩
    unfold Transfers
    dsimp only [callNext]
    rw [if_pos hGuard, hCall]
    rfl
  | irq error =>
    obtain ⟨hFlight, hCall⟩ := Option.ite_none_right_eq_some.mp h
    obtain ⟨disk, hIrq, rfl⟩ := Option.map_eq_some_iff.mp hCall
    cases hNode : p.disk.inUsing with
    | none =>
      have hNone : diskHandler error (raiseIrq p.disk) = none := by
        unfold diskHandler raiseIrq
        rw [hNode]
      exact absurd (hNone.symm.trans hIrq) (by simp)
    | some node =>
      have hStep : Transfers ⟨p, statuses, outcomes⟩ (.irq error)
          ⟨{ p with disk := disk }, statuses ++ [(node.serial, error)], outcomes⟩ := by
        unfold Transfers
        dsimp only [callNext]
        rw [if_pos hFlight, hNode, Option.bind_some, hIrq]
        rfl
      unfold Wait.retFromIntr
      split
      · exact ⟨[.irq error, .resched schedule], _, _, (Run.single hStep).snoc rfl⟩
      · exact ⟨[.irq error], _, _, .single hStep⟩
  | waitForFinish =>
    unfold Wait.Step at h
    dsimp only [Wait.next] at h
    split at h
    · next serial hPhase =>
      cases h
      have hBlock : Transfers ⟨p, statuses, outcomes⟩ .waitForFinish
          ⟨Wait.block p serial, statuses, outcomes⟩ := by
        unfold Transfers
        dsimp only [callNext]
        rw [hPhase]
      exact ⟨[.waitForFinish, .resched schedule], _, _, (Run.single hBlock).snoc rfl⟩
    · cases h
  | tick =>
    cases h
    exact ⟨[.resched fun s => schedule (pitHandler s)], _, _, .single rfl⟩

/-! ## Runs -/

/-- What is known of a return later on. -/
structure OutcomeKept (o : Observed) (out : Outcome) : Prop where
  submitted : out.request ∈ o.disk.submitted
  result : out.result = ideTransferResult out.request.cmd
  statuses : out.statuses <+: o.errors out.request.serial
  read : out.request.cmd = ataReadCmd → out.read = readAddresses out.request out.statuses

theorem OutcomeKept.step {o o' : Observed} {a : Action} {out : Outcome} (h : OutcomeKept o out)
    (hStep : Observes o a o') : OutcomeKept o' out := by
  obtain ⟨hSubmitted, hErrors⟩ := hStep.grows
  exact ⟨hSubmitted.subset h.submitted, h.result, h.statuses.trans (hErrors _), h.read⟩

def Kept (c : Calls) : Prop :=
  (∃ done active, Recorded c.observed done active) ∧ ∀ out ∈ c.outcomes, OutcomeKept c.observed out

theorem Kept.start {c : Calls} (h : c.Start) : Kept c := by
  obtain ⟨hInitial, hStatuses, hOutcomes⟩ := h
  refine ⟨⟨[], none, .start ⟨hInitial.disk, hStatuses⟩⟩, ?_⟩
  rw [hOutcomes]
  exact fun out hOut => absurd hOut List.not_mem_nil

theorem resume_disk (p : Wait.System) : (Wait.resume p).disk = p.disk := by
  unfold Wait.resume
  split <;> rfl

theorem mem_returned {c : Calls} {sched : Schedule} {out : Outcome} (h : out ∈ c.returned sched) :
    ∃ r ∈ c.system.disk.submitted, out = c.outcome r := by
  unfold Calls.returned at h
  split at h
  · obtain ⟨r, hr, rfl⟩ := List.mem_map.mp h
    exact ⟨r, List.mem_of_getElem? (Option.mem_toList.mp hr), rfl⟩
  · exact absurd h List.not_mem_nil

theorem Recorded.outcome {c : Calls} {done : List BlockBufferNode} {active : Option BlockBufferNode}
    (h : Recorded c.observed done active) {r : BlockBufferNode} (hr : r ∈ c.system.disk.submitted) :
    OutcomeKept c.observed (c.outcome r) :=
  ⟨hr, rfl, List.prefix_refl _, h.reads_eq hr⟩

theorem Kept.step {c c' : Calls} {op : CallOp} (h : Kept c) (hStep : Transfers c op c') : Kept c' := by
  obtain ⟨⟨done, active, hRecorded⟩, hOutcomes⟩ := h
  have hDisk : ∀ {o a}, Observes c.observed a o →
      (∃ done active, Recorded o done active) ∧ ∀ out ∈ c.outcomes, OutcomeKept o out :=
    fun hObserves => ⟨hRecorded.step hObserves, fun out hOut => (hOutcomes out hOut).step hObserves⟩
  cases op with
  | submit cmd blocks count buffer =>
    obtain ⟨⟨-, hCmd, hPos, hLt⟩, hCall⟩ := Option.ite_none_right_eq_some.mp hStep
    obtain ⟨system, hSystem, rfl⟩ := Option.map_eq_some_iff.mp hCall
    obtain ⟨disk, hSubmit, rfl⟩ := Option.map_eq_some_iff.mp hSystem
    exact hDisk (.submit hCmd hPos hLt hSubmit)
  | irq error =>
    obtain ⟨hFlight, hCall⟩ := Option.ite_none_right_eq_some.mp hStep
    obtain ⟨node, hNode, hHandler⟩ := Option.bind_eq_some_iff.mp hCall
    obtain ⟨disk, hIrq, rfl⟩ := Option.map_eq_some_iff.mp hHandler
    exact hDisk (.irq error hFlight hNode hIrq)
  | waitForFinish =>
    unfold Transfers at hStep
    dsimp only [callNext] at hStep
    split at hStep
    · cases hStep
      exact hDisk (.resched _)
    · cases hStep
  | resched change =>
    cases hStep
    obtain ⟨hNext, hOld⟩ := hDisk (.resched (change c.system.sched))
    have hObserved : Calls.observed { c with
        system := Wait.resume (c.system.setSched (change c.system.sched))
        outcomes := c.outcomes ++ c.returned (change c.system.sched) } =
          ⟨{ c.system.disk with sched := change c.system.sched }, c.statuses⟩ :=
      congrArg (fun disk => Observed.mk disk c.statuses) (resume_disk _)
    unfold Kept
    rw [hObserved]
    refine ⟨hNext, fun out hOut => ?_⟩
    obtain hOut | hOut := List.mem_append.mp hOut
    · exact hOld out hOut
    · obtain ⟨r, hr, rfl⟩ := mem_returned hOut
      exact (hRecorded.outcome hr).step (.resched _)

theorem reach_kept {c : Calls} (h : Reach Calls.Start Transfers c) : Kept c :=
  Reach.invariant (P := Kept) (fun _ => Kept.start) (fun _ _ _ => Kept.step) h

/-- A return reports the errors of its request, and hands out a buffer that was read, exactly if
there were no errors and, for a read, nothing was left to be read. -/
theorem transfer_reported_iff (c : Calls) (h : Reach Calls.Start Transfers c) (out : Outcome)
    (hOut : out ∈ c.outcomes) : Reported c out ↔ Delivered c out := by
  obtain ⟨⟨done, active, hRecorded⟩, hOutcomes⟩ := reach_kept h
  obtain ⟨hr, hResult, hStatuses, hRead⟩ := hOutcomes out hOut
  have hNonzero : out.result ≠ 0 := by
    rw [hResult]
    obtain ⟨hCmd, -⟩ | ⟨hCmd, -⟩ := (hRecorded.requested out.request hr).kind
    · simp [ideTransferResult, hCmd]
    · simp [ideTransferResult, hCmd]
  have hLe : out.statuses.length ≤ out.request.count :=
    hStatuses.length_le.trans (hRecorded.errors_length_le hr)
  constructor
  · rintro ⟨hNone, hSectors⟩
    refine ⟨hNone hNonzero, fun hCmd => le_antisymm hLe ?_⟩
    by_contra hShort
    -- the sector behind the last status would be in the buffer
    have hMem := hSectors ⟨hCmd, hNonzero⟩ out.statuses.length (not_le.mp hShort)
    rw [hRead hCmd, mem_readAddresses_iff, List.getElem?_eq_none (le_refl _)] at hMem
    cases hMem
  · rintro ⟨hNone, hAll⟩
    refine ⟨fun _ => hNone, ?_⟩
    rintro ⟨hCmd, -⟩ i hi
    rw [hRead hCmd, mem_readAddresses_iff, List.getElem?_eq_getElem (by rw [hAll hCmd]; exact hi)]
    exact congrArg some (hNone _ (hStatuses.subset (List.getElem_mem _)))

/-! ## Two sectors, read by task 1 -/

/-- Task 1 reads two sectors into 4096: it waits, the second interrupt has the given error bit,
and a tick gives it the CPU back. -/
theorem two_sectors (error : Bool) : ∃ c out, Reach Calls.Start Transfers c ∧
    out ∈ c.outcomes ∧ LookupParses out ∧ out.request.count = 2 ∧
    out.statuses = [false, error] ∧ c.observed.errors out.request.serial = [false, error] := by
  have hStart : Calls.Start ⟨Wait.start, [], []⟩ := ⟨Wait.start_initial, rfl, rfl⟩
  have hSome : ∃ c out, runList callNext ⟨Wait.start, [], []⟩
      [.submit ataReadCmd 7 2 4096, .waitForFinish, .resched schedule, .irq false, .irq error,
        .resched fun s => schedule (pitHandler s)] = some c ∧
      c.outcomes = [out] ∧ out.request.cmd = ataReadCmd ∧ out.result = 1 ∧
      out.request.count = 2 ∧ out.statuses = [false, error] ∧
      c.observed.errors out.request.serial = [false, error] := by
    cases error with
    | false => exact ⟨_, _, rfl, rfl, rfl, rfl, rfl, rfl, rfl⟩
    | true => exact ⟨_, _, rfl, rfl, rfl, rfl, rfl, rfl, rfl⟩
  obtain ⟨c, out, hRun, hOut, hCmd, hResult, hRest⟩ := hSome
  refine ⟨c, out, (Reach.start hStart).run (run_of_runList (fun _ _ _ h => h) hRun), ?_,
    ⟨hCmd, by rw [hResult]; decide⟩, hRest⟩
  rw [hOut]
  exact List.mem_singleton_self out

theorem transfer_reported_iff_read : ∃ c out, out ∈ c.outcomes ∧ LookupParses out ∧
    out.request.count = 2 ∧ Reported c out := by
  obtain ⟨c, out, hReach, hOut, hParses, hCount, hStatuses, hErrors⟩ := two_sectors false
  refine ⟨c, out, hOut, hParses, hCount, (transfer_reported_iff c hReach out hOut).mpr ⟨?_, ?_⟩⟩
  · rw [hErrors]
    decide
  · intro _
    rw [hStatuses, hCount]
    rfl

/-- The second sector of a request is not read, and its caller parses the buffer. -/
theorem failed_read_unreported : ∃ c out, Reach Calls.Start Transfers c ∧ out ∈ c.outcomes ∧
    LookupParses out ∧ ¬ Reported c out := by
  obtain ⟨c, out, hReach, hOut, hParses, -, -, hErrors⟩ := two_sectors true
  refine ⟨c, out, hReach, hOut, hParses, fun hReported => ?_⟩
  have hFalse := hReported.1 hParses.2 true (by simp [hErrors])
  cases hFalse

end KalinoteOS.Disk
