import KalinoteOS.Scheduler.Schedule
import KalinoteOS.Spinlock

/-! # `color_printk` and the contexts of one CPU

Each task has a stack of contexts: the task, and the interrupts that came in on top of it, up
to their return through `ret_from_intr`. The printing itself changes nothing here, so that a
`color_printk` is its instructions on the lock word and the counter of `preempt_disable`.
-/
namespace KalinoteOS.Printk
open Scheduler Lib
set_option autoImplicit false

inductive Kind where
  | task
  /-- From the interrupt gate up to `ret_from_intr`; the only kind with `IF` clear. -/
  | handler
  /-- `do_softirq`, after `io_sti`. -/
  | softirq
  /-- The timer functions that `do_timer` calls. -/
  | doTimer
  /-- The `color_printk` at the end of `do_timer`. -/
  | lastPrint
  /-- The end of `do_softirq`, before `io_cli`. -/
  | softirqDone
  /-- In the `schedule` of `ret_from_intr`, after `switch_to` gave the CPU away. -/
  | switched
  deriving DecidableEq, Repr

/-- Where a context is in `color_printk`. -/
inductive Position where
  | outside
  | label1
  | label2
  | holding
  /-- After the `movq` of `spin_unlock`, before its `preempt_enable`. -/
  | unlocked
  deriving DecidableEq, Repr

structure Context where
  kind : Kind
  position : Position
  deriving DecidableEq, Repr

/-- `softirqStatus` is the bit `TIMER_SIRQ`, the only one that is ever set. A stack has its
innermost context first. -/
structure State where
  printkLock : Spinlock.Word
  softirqStatus : Bool
  preemptCount : TaskId → Int
  contexts : TaskId → List Context
  nowTask : TaskId

/-- After `spin_init`, with every task in its own code. -/
def init (nowTask : TaskId) : State where
  printkLock := Spinlock.spinInit
  softirqStatus := false
  preemptCount := fun _ => 0
  contexts := fun _ => [⟨.task, .outside⟩]
  nowTask := nowTask

inductive Op where
  /-- The innermost context calls `color_printk`; `last` at the end of `do_timer`. -/
  | colorPrintk (last : Bool)
  | decq
  | read
  | movq
  | preemptEnable
  | interrupt
  /-- `PIT_handler` finds an expired timer. -/
  | setSoftirqStatus
  /-- `ret_from_intr`; `next` is the task that `schedule` switches to, if it is called. -/
  | ret (next : Option TaskId)
  /-- The test of `softirq_status` in `do_softirq`. -/
  | testStatus
  | clearStatus
  /-- `io_cli` and the rest of `softirq_handler`. -/
  | cli (next : Option TaskId)
  /-- `RESTORE_ALL` after `schedule` came back. -/
  | iret
  /-- A task calls `schedule`. -/
  | schedule (next : TaskId)
  deriving DecidableEq, Repr

namespace State

def stack (s : State) : List Context := s.contexts s.nowTask

def setStack (s : State) (cs : List Context) : State :=
  { s with contexts := Function.update s.contexts s.nowTask cs }

def addPreempt (s : State) (n : Int) : State :=
  { s with preemptCount := Function.update s.preemptCount s.nowTask (s.preemptCount s.nowTask + n) }

end State

/-- The `preempt_count` test of `ret_from_intr`, and what follows it. -/
def leave (s : State) (rest : List Context) : Option TaskId → Option State
  | none => some (s.setStack rest)
  | some next =>
    if s.preemptCount s.nowTask = 0 then
      some { s.setStack (⟨.switched, .outside⟩ :: rest) with nowTask := next }
    else none

/-- One step of the innermost context `c`, with `rest` below it. -/
def stepTop (s : State) (c : Context) (rest : List Context) : Op → Option State
  | .colorPrintk last =>
    if c.position = .outside then
      match c.kind with
      | .handler => some s
      | .task => some ((s.setStack (⟨.task, .label1⟩ :: rest)).addPreempt 1)
      | .doTimer =>
        let kind := if last then .lastPrint else .doTimer
        some ((s.setStack (⟨kind, .label1⟩ :: rest)).addPreempt 1)
      | _ => none
    else none
  | .decq =>
    if c.position = .label1 then
      let (lock, entered) := Spinlock.decq s.printkLock
      some { s.setStack (⟨c.kind, if entered then .holding else .label2⟩ :: rest) with
        printkLock := lock }
    else none
  | .read =>
    if c.position = .label2 then
      some (s.setStack (⟨c.kind, if Spinlock.readPositive s.printkLock then .label1 else .label2⟩ ::
        rest))
    else none
  | .movq =>
    if c.position = .holding then
      some { s.setStack (⟨c.kind, .unlocked⟩ :: rest) with printkLock := Spinlock.movq }
    else none
  | .preemptEnable =>
    if c.position = .unlocked then
      some ((s.setStack (⟨c.kind, .outside⟩ :: rest)).addPreempt (-1))
    else none
  | .interrupt =>
    if c.kind ≠ .handler then some (s.setStack (⟨.handler, .outside⟩ :: c :: rest)) else none
  | .setSoftirqStatus =>
    if c.kind = .handler then some { s with softirqStatus := true } else none
  | .ret next =>
    if c.kind = .handler then
      if s.softirqStatus then some (s.setStack (⟨.softirq, .outside⟩ :: rest))
      else leave s rest next
    else none
  | .testStatus =>
    if c.kind = .softirq then
      let kind := if s.softirqStatus then .doTimer else .softirqDone
      some (s.setStack (⟨kind, .outside⟩ :: rest))
    else none
  | .clearStatus =>
    if c = ⟨.lastPrint, .outside⟩ then
      some { s.setStack (⟨.softirqDone, .outside⟩ :: rest) with softirqStatus := false }
    else none
  | .cli next => if c.kind = .softirqDone then leave s rest next else none
  | .iret => if c.kind = .switched then some (s.setStack rest) else none
  | .schedule next =>
    if c = ⟨.task, .outside⟩ ∧ rest = [] then some { s with nowTask := next } else none

def next (s : State) (op : Op) : Option State :=
  match s.stack with
  | [] => none
  | c :: rest => stepTop s c rest op

def Step (s : State) (op : Op) (t : State) : Prop := next s op = some t

def Initial (s : State) : Prop := ∃ nowTask, s = init nowTask

/-- No context spins while one that it interrupted holds the lock. -/
def Safe (s : State) : Prop :=
  ∀ t, (s.contexts t).Pairwise fun c below => c.position = .label2 → below.position ≠ .holding

/-- A context of the current task holds the lock. -/
def Held (s : State) : Prop := ∃ c ∈ s.stack, c.position = .holding

instance (s : State) : Decidable (Held s) := inferInstanceAs (Decidable (∃ c ∈ s.stack, _))

/-- No interrupt returns through `softirq_handler` while the lock is held. -/
def Good (s : State) : Op → Prop
  | .ret _ => s.softirqStatus = true → ¬ Held s
  | _ => True

instance (s : State) (op : Op) : Decidable (Good s op) := by
  cases op <;> unfold Good <;> infer_instance

end KalinoteOS.Printk
