import Mathlib.Data.List.Sort
import Mathlib.Logic.Function.Basic

/-! # Tasks, the run queue and `schedule`

The ring behind `task_schedule.task_queue.list` is the list of its tasks in `list_next`
order. `task_queue.vrun_time` is the largest `long`, so the walk of `insert_task_queue`
stops at the queue head at the latest.
-/
namespace KalinoteOS.Scheduler
set_option autoImplicit false

/-- The address of a `task_struct`. -/
abbrev TaskId := Nat

/-- `&init_task_union.task`. -/
def initTask : TaskId := 0

/-- The values of `state`. -/
inductive TaskState where
  | running
  | interruptible
  | uninterruptible
  | zombie
  | stopped
  deriving DecidableEq, Repr

/-- Bits of `flags`. -/
def pfKthread : BitVec 64 := 1#64
def needSchedule : BitVec 64 := 2#64

structure TaskStruct where
  state : TaskState
  flags : BitVec 64
  preemptCount : Int
  pid : Int
  priority : Int
  vrunTime : Int
  deriving DecidableEq, Repr

/-- `task_schedule`, `now_task[0]` and the tasks they refer to. -/
structure Schedule where
  runningTaskCount : Int
  cpuExecTaskJiffies : Int
  taskQueue : List TaskId
  nowTask : TaskId
  tasks : TaskId → TaskStruct

/-- `task_queue.vrun_time`. -/
def sentinel : Int := 0x7fffffffffffffff

namespace Schedule

def vrun (s : Schedule) (t : TaskId) : Int := (s.tasks t).vrunTime

def state (s : Schedule) (t : TaskId) : TaskState := (s.tasks t).state

/-- The current task. -/
def now (s : Schedule) : TaskStruct := s.tasks s.nowTask

def modify (s : Schedule) (t : TaskId) (f : TaskStruct → TaskStruct) : Schedule :=
  { s with tasks := Function.update s.tasks t (f (s.tasks t)) }

def setState (s : Schedule) (t : TaskId) (state : TaskState) : Schedule :=
  s.modify t fun tsk => { tsk with state := state }

end Schedule

/-- `schedule_init`: `current` is the task of the boot code. -/
def scheduleInit (current : TaskId) (tasks : TaskId → TaskStruct) : Schedule where
  runningTaskCount := 1
  cpuExecTaskJiffies := 4
  taskQueue := []
  nowTask := current
  tasks := tasks

/-- Take the first task off the queue; the idle task is never queued. -/
def getNextTask (s : Schedule) : TaskId × Schedule :=
  match s.taskQueue with
  | [] => (initTask, s)
  | tsk :: rest => (tsk, { s with taskQueue := rest, runningTaskCount := s.runningTaskCount - 1 })

/-- The walk and the insertion of `insert_task_queue`: in front of the first task that is
not behind `tsk`, or in front of the queue head. -/
def insertBefore (vrun : TaskId → Int) (tsk : TaskId) : List TaskId → List TaskId
  | [] => [tsk]
  | tmp :: rest => if vrun tmp < vrun tsk then tmp :: insertBefore vrun tsk rest else tsk :: tmp :: rest

def insertTaskQueue (s : Schedule) (tsk : TaskId) : Schedule :=
  if tsk = initTask then s
  else
    { s with
      taskQueue := insertBefore s.vrun tsk s.taskQueue
      runningTaskCount := s.runningTaskCount + 1 }

/-- `4/running_task_count` of the two `switch` statements. -/
def timeSlice (priority count : Int) : Int :=
  if priority = 0 ∨ priority = 1 then (4 : Int).tdiv count else (4 : Int).tdiv count * 3

def refillSlice (s : Schedule) (tsk : TaskId) : Schedule :=
  if s.cpuExecTaskJiffies = 0 then
    { s with cpuExecTaskJiffies := timeSlice (s.tasks tsk).priority s.runningTaskCount }
  else s

/-- `switch_to`, as far as it reaches the scheduler: `__switch_to` sets `now_task[0]`. -/
def switchTo (s : Schedule) (next : TaskId) : Schedule := { s with nowTask := next }

/-- The test of `schedule` between the current task and the one taken off the queue. -/
def yields (s : Schedule) (tsk : TaskId) : Prop := s.vrun tsk ≤ s.now.vrunTime ∨ s.now.state ≠ .running

instance (s : Schedule) (tsk : TaskId) : Decidable (yields s tsk) :=
  inferInstanceAs (Decidable (_ ∨ _))

/-- `now_task[0]->flags &= ~NEED_SCHEDULE`. -/
def clearNeedSchedule (s : Schedule) : Schedule :=
  s.modify s.nowTask fun tsk => { tsk with flags := tsk.flags &&& ~~~needSchedule }

def schedule (s : Schedule) : Schedule :=
  let (tsk, s) := getNextTask (clearNeedSchedule s)
  if yields s tsk then
    let s := if s.now.state = .running then insertTaskQueue s s.nowTask else s
    switchTo (refillSlice s tsk) tsk
  else
    refillSlice (insertTaskQueue s tsk) tsk

/-- What `PIT_handler` charges the current task for a tick. -/
def tickCharge (priority : Int) : Int := if priority = 0 ∨ priority = 1 then 1 else 2

/-- A tick that charges the current task `charge`. -/
def charge (s : Schedule) (charge : Int) : Schedule :=
  let s := { s with cpuExecTaskJiffies := s.cpuExecTaskJiffies - charge }
  let s := s.modify s.nowTask fun tsk => { tsk with vrunTime := tsk.vrunTime + charge }
  if s.cpuExecTaskJiffies ≤ 0 then
    s.modify s.nowTask fun tsk => { tsk with flags := tsk.flags ||| needSchedule }
  else s

/-- The scheduling part of `PIT_handler`, on its every hundredth call. -/
def pitHandler (s : Schedule) : Schedule := charge s (tickCharge s.now.priority)

/-- The `task_struct` that `do_fork` fills in, a copy of its caller's. -/
def forkTask (current : TaskStruct) : TaskStruct :=
  { current with priority := 2, pid := current.pid + 1, preemptCount := 0, state := .running }

/-- `do_fork`, called by `current`, with the new structure at `tsk`. -/
def doFork (s : Schedule) (current tsk : TaskId) : Schedule :=
  insertTaskQueue (s.modify tsk fun _ => forkTask (s.tasks current)) tsk

/-- The wake-up that `end_request` and `__up` share. -/
def wakeUp (s : Schedule) (tsk : TaskId) : Schedule := insertTaskQueue (s.setState tsk .running) tsk

/-! ## One lemma per field and update -/

namespace Schedule

@[simp] theorem modify_taskQueue (s : Schedule) (t : TaskId) (f : TaskStruct → TaskStruct) :
    (s.modify t f).taskQueue = s.taskQueue := rfl
@[simp] theorem modify_nowTask (s : Schedule) (t : TaskId) (f : TaskStruct → TaskStruct) :
    (s.modify t f).nowTask = s.nowTask := rfl
@[simp] theorem modify_runningTaskCount (s : Schedule) (t : TaskId) (f : TaskStruct → TaskStruct) :
    (s.modify t f).runningTaskCount = s.runningTaskCount := rfl
@[simp] theorem modify_cpuExecTaskJiffies (s : Schedule) (t : TaskId) (f : TaskStruct → TaskStruct) :
    (s.modify t f).cpuExecTaskJiffies = s.cpuExecTaskJiffies := rfl

@[simp] theorem modify_tasks_self (s : Schedule) (t : TaskId) (f : TaskStruct → TaskStruct) :
    (s.modify t f).tasks t = f (s.tasks t) := by
  simp [modify]

theorem modify_tasks_other (s : Schedule) {t u : TaskId} (f : TaskStruct → TaskStruct) (h : u ≠ t) :
    (s.modify t f).tasks u = s.tasks u := by
  simp [modify, h]

theorem modify_tasks_field {β : Type} (field : TaskStruct → β) (s : Schedule) (t u : TaskId)
    (f : TaskStruct → TaskStruct) (hf : field (f (s.tasks t)) = field (s.tasks t)) :
    field ((s.modify t f).tasks u) = field (s.tasks u) := by
  by_cases h : u = t
  · subst h
    rw [modify_tasks_self, hf]
  · rw [modify_tasks_other s f h]

@[simp] theorem setState_vrun (s : Schedule) (t u : TaskId) (state : TaskState) :
    (s.setState t state).vrun u = s.vrun u :=
  modify_tasks_field TaskStruct.vrunTime s t u _ rfl

@[simp] theorem setState_taskQueue (s : Schedule) (t : TaskId) (state : TaskState) :
    (s.setState t state).taskQueue = s.taskQueue := rfl
@[simp] theorem setState_nowTask (s : Schedule) (t : TaskId) (state : TaskState) :
    (s.setState t state).nowTask = s.nowTask := rfl
@[simp] theorem setState_runningTaskCount (s : Schedule) (t : TaskId) (state : TaskState) :
    (s.setState t state).runningTaskCount = s.runningTaskCount := rfl

@[simp] theorem setState_state_self (s : Schedule) (t : TaskId) (state : TaskState) :
    (s.setState t state).state t = state := by
  simp [setState, Schedule.state]

theorem setState_state_other (s : Schedule) {t u : TaskId} (state : TaskState) (h : u ≠ t) :
    (s.setState t state).state u = s.state u := by
  simp [setState, Schedule.state, modify_tasks_other s _ h]

end Schedule

@[simp] theorem insertTaskQueue_tasks (s : Schedule) (tsk : TaskId) :
    (insertTaskQueue s tsk).tasks = s.tasks := by
  unfold insertTaskQueue
  split <;> rfl
@[simp] theorem insertTaskQueue_nowTask (s : Schedule) (tsk : TaskId) :
    (insertTaskQueue s tsk).nowTask = s.nowTask := by
  unfold insertTaskQueue
  split <;> rfl

@[simp] theorem refillSlice_taskQueue (s : Schedule) (tsk : TaskId) :
    (refillSlice s tsk).taskQueue = s.taskQueue := by
  unfold refillSlice
  split <;> rfl
@[simp] theorem refillSlice_tasks (s : Schedule) (tsk : TaskId) :
    (refillSlice s tsk).tasks = s.tasks := by
  unfold refillSlice
  split <;> rfl
@[simp] theorem refillSlice_nowTask (s : Schedule) (tsk : TaskId) :
    (refillSlice s tsk).nowTask = s.nowTask := by
  unfold refillSlice
  split <;> rfl
@[simp] theorem refillSlice_runningTaskCount (s : Schedule) (tsk : TaskId) :
    (refillSlice s tsk).runningTaskCount = s.runningTaskCount := by
  unfold refillSlice
  split <;> rfl

@[simp] theorem charge_taskQueue (s : Schedule) (c : Int) : (charge s c).taskQueue = s.taskQueue := by
  unfold charge
  dsimp only
  split <;> rfl
@[simp] theorem charge_nowTask (s : Schedule) (c : Int) : (charge s c).nowTask = s.nowTask := by
  unfold charge
  dsimp only
  split <;> rfl
@[simp] theorem charge_runningTaskCount (s : Schedule) (c : Int) :
    (charge s c).runningTaskCount = s.runningTaskCount := by
  unfold charge
  dsimp only
  split <;> rfl

theorem charge_tasks_other (s : Schedule) (c : Int) {t : TaskId} (h : t ≠ s.nowTask) :
    (charge s c).tasks t = s.tasks t := by
  unfold charge
  dsimp only
  split <;> simp [Schedule.modify, h]

theorem charge_state (s : Schedule) (c : Int) (t : TaskId) : (charge s c).state t = s.state t := by
  by_cases h : t = s.nowTask
  · subst h
    unfold charge Schedule.state
    dsimp only
    split <;> simp
  · unfold Schedule.state
    rw [charge_tasks_other s c h]

end KalinoteOS.Scheduler
