import KalinoteOS.Disk.Fifo
import KalinoteOS.Scheduler.Invariant

/-! # Waiting for the disk

`IDE_transfer` cut where an interrupt or a tick may come in: before `wait_for_finish`, and
inside the `schedule` that it calls.
-/
namespace KalinoteOS.Disk.Wait
open Scheduler Lib
set_option autoImplicit false

/-- Where a task is in `IDE_transfer`. -/
inductive Phase where
  | outside
  /-- The request `serial` was submitted. -/
  | submitted (serial : Nat)
  /-- In `wait_for_finish`. The request had already ended when it was entered, or not. -/
  | waiting (serial : Nat) (ended : Bool)
  deriving DecidableEq, Repr

/-- A return of `IDE_transfer`. -/
structure Return where
  tsk : TaskId
  serial : Nat
  sectorsLeft : Nat
  state : TaskState
  deriving DecidableEq, Repr

/-- The driver with the places of its callers; `last` and `returns` record what happened. -/
structure System where
  disk : State
  phase : TaskId → Phase
  last : TaskId → Option Nat
  returns : List Return

namespace System

def sched (p : System) : Schedule := p.disk.sched

/-- `end_request` was called for the request. -/
def Ended (p : System) (serial : Nat) : Prop := Event.finish serial ∈ p.disk.log

instance (p : System) (serial : Nat) : Decidable (p.Ended serial) :=
  inferInstanceAs (Decidable (_ ∈ _))

/-- The sectors of a request whose interrupt was not handled yet. -/
def sectorsLeft (p : System) (serial : Nat) : Nat :=
  match p.disk.submitted[serial]? with
  | some r => r.count - handled p.disk serial
  | none => 0

def setSched (p : System) (sched : Schedule) : System := { p with disk := { p.disk with sched := sched } }

def setPhase (p : System) (t : TaskId) (phase : Phase) : System :=
  { p with phase := Function.update p.phase t phase }

end System

/-- A task that `schedule` gave the CPU to leaves `wait_for_finish` and `IDE_transfer`. -/
def resume (p : System) : System :=
  match p.phase p.sched.nowTask with
  | .waiting serial _ =>
    { p.setPhase p.sched.nowTask .outside with
      returns := p.returns ++
        [⟨p.sched.nowTask, serial, p.sectorsLeft serial, p.sched.state p.sched.nowTask⟩] }
  | _ => p

def reschedule (p : System) : System := resume (p.setSched (schedule p.sched))

/-- The test of `ret_from_intr`. -/
def Preempts (s : Schedule) : Prop := s.now.preemptCount = 0 ∧ s.now.flags &&& needSchedule ≠ 0

instance (s : Schedule) : Decidable (Preempts s) := inferInstanceAs (Decidable (_ ∧ _))

def retFromIntr (p : System) : System := if Preempts p.sched then reschedule p else p

/-- `IDE_transfer` up to `wait_for_finish`. -/
def submitRequest (p : System) (cmd blocks count buffer : Nat) : Option System :=
  let node := makeRequest p.disk cmd blocks count buffer
  (submit p.disk node).map fun disk =>
    { p with
      disk := disk
      phase := Function.update p.phase p.sched.nowTask (.submitted node.serial)
      last := Function.update p.last p.sched.nowTask (some node.serial) }

/-- `wait_for_finish` up to its `schedule`. -/
def block (p : System) (serial : Nat) : System :=
  (p.setSched (p.sched.setState p.sched.nowTask .uninterruptible)).setPhase p.sched.nowTask
    (.waiting serial (p.Ended serial))

inductive Op where
  | submit (cmd blocks count buffer : Nat)
  | irq (error : Bool)
  | waitForFinish
  /-- A tick followed by `schedule`. -/
  | tick
  deriving DecidableEq, Repr

instance (d : Drive) : Decidable d.InFlight :=
  match h : d.command with
  | none => isFalse (by rintro ⟨c, hc, -⟩; rw [h] at hc; cases hc)
  | some c => decidable_of_iff (d.irqs < c.sectors) ⟨fun hLt => ⟨c, h, hLt⟩, by
      rintro ⟨c', hc, hLt⟩
      rw [h] at hc
      cases hc
      exact hLt⟩

/-- The sector counts that the callers of `IDE_transfer` pass fit the registers of the drive:
they are 1 or the sectors of a cluster. -/
def next (p : System) : Op → Option System
  | .submit cmd blocks count buffer =>
    if p.phase p.sched.nowTask = .outside ∧ (cmd = ataReadCmd ∨ cmd = ataWriteCmd) ∧
      1 ≤ count ∧ count ≤ 65535 then submitRequest p cmd blocks count buffer
    else none
  | .irq error =>
    if p.disk.drive.InFlight then
      (diskHandler error (raiseIrq p.disk)).map fun disk => retFromIntr { p with disk := disk }
    else none
  | .waitForFinish =>
    match p.phase p.sched.nowTask with
    | .submitted serial => some (reschedule (block p serial))
    | _ => none
  | .tick => some (reschedule (p.setSched (pitHandler p.sched)))

def Step (p : System) (op : Op) (q : System) : Prop := next p op = some q

/-- A disk after `disk_init`, nobody in `IDE_transfer`, and every task of the scheduler ready
to run. -/
structure Initial (p : System) : Prop where
  disk : ∃ sched drive, ¬ drive.InFlight ∧ p.disk = diskInit sched drive
  queue : QueueInv p.sched
  running : ∀ t, Known p.sched t → p.sched.state t = .running
  outside : ∀ t, p.phase t = .outside
  last : ∀ t, p.last t = none
  returns : p.returns = []

/-- What the protocol owes in every state. -/
structure Spec (p : System) : Prop where
  returns : ∀ r ∈ p.returns, r.sectorsLeft = 0 ∧ r.state = .running
  nodup : p.sched.taskQueue.Nodup
  now_notMem : p.sched.nowTask ∉ p.sched.taskQueue
  awake : ∀ t serial, p.last t = some serial → p.Ended serial → Known p.sched t

/-! ## The condition -/

/-- `init_task` waits for a request that has not ended, or that had ended before. -/
def Stuck (p : System) : Prop :=
  match p.phase initTask with
  | .waiting serial ended => ended = true ∨ ¬ p.Ended serial
  | _ => False

instance (p : System) : Decidable (Stuck p) := by
  unfold Stuck
  split <;> infer_instance

/-- `schedule` finds nothing to run but `init_task`. -/
def FallsBack (s : Schedule) : Prop := s.taskQueue = [] ∧ yields s initTask

instance (s : Schedule) : Decidable (FallsBack s) := inferInstanceAs (Decidable (_ ∧ _))

def InWait (p : System) (t : TaskId) : Prop :=
  match p.phase t with
  | .waiting _ _ => True
  | _ => False

instance (p : System) (t : TaskId) : Decidable (InWait p t) := by
  unfold InWait
  split <;> infer_instance

/-- The next interrupt ends the request of the node. -/
def EndsRequest (p : System) : Prop := p.disk.inUsing.any fun node => node.count = 1

instance (p : System) : Decidable (EndsRequest p) := inferInstanceAs (Decidable (_ = true))

/-- An interrupt that ends a request finds its task in `wait_for_finish`, unless that is
`init_task`, and no `schedule` falls back to a stuck `init_task`. -/
def Good (p : System) : Op → Prop
  | .submit .. => True
  | .irq _ =>
    if EndsRequest p then
      ∀ node ∈ p.disk.inUsing, InWait p node.tsk ∨ node.tsk = initTask
    else ¬ (Preempts p.sched ∧ FallsBack p.sched ∧ Stuck p)
  | .waitForFinish => ¬ (p.sched.taskQueue = [] ∧ (p.sched.nowTask = initTask ∨ Stuck p))
  | .tick => ¬ (FallsBack (pitHandler p.sched) ∧ Stuck p)

instance (p : System) (op : Op) : Decidable (Good p op) := by
  cases op with
  | submit => exact isTrue trivial
  | irq =>
    exact inferInstanceAs (Decidable (if EndsRequest p then
      ∀ node ∈ p.disk.inUsing, InWait p node.tsk ∨ node.tsk = initTask
      else ¬ (Preempts p.sched ∧ FallsBack p.sched ∧ Stuck p)))
  | waitForFinish => exact inferInstanceAs (Decidable (¬ _))
  | tick => exact inferInstanceAs (Decidable (¬ _))

end KalinoteOS.Disk.Wait
