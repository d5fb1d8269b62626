import KalinoteOS.Scheduler.Invariant

/-! # Runs of the scheduler

The steps of a run, each with what its callers promise, and the invariant of every run from
`schedule_init`.
-/
namespace KalinoteOS.Scheduler
open Lib
set_option autoImplicit false

inductive Op where
  /-- A tick that charges the current task. -/
  | tick (amount : Int)
  | schedule
  /-- `do_fork` by `current`, with the new structure at `tsk`. -/
  | fork (current tsk : TaskId)
  /-- The current task takes another state and calls `schedule`. -/
  | block (state : TaskState)
  | wakeUp (tsk : TaskId)
  deriving DecidableEq, Repr

def apply (s : Schedule) : Op → Schedule
  | .tick amount => charge s amount
  | .schedule => schedule s
  | .fork current tsk => doFork s current tsk
  | .block state => schedule (s.setState s.nowTask state)
  | .wakeUp tsk => wakeUp s tsk

/-- What holds when a step is taken: the charge is that of some priority and does not reach
the sentinel, a forked task is new, and a woken task is neither queued nor current. -/
def Allowed (s : Schedule) : Op → Prop
  | .tick amount => (amount = 1 ∨ amount = 2) ∧ s.now.vrunTime + amount < sentinel
  | .schedule => True
  | .fork _ tsk => tsk ≠ initTask ∧ tsk ∉ s.taskQueue ∧ tsk ≠ s.nowTask
  | .block state => state ≠ .running
  | .wakeUp tsk => tsk ∉ s.taskQueue ∧ tsk ≠ s.nowTask

instance (s : Schedule) (op : Op) : Decidable (Allowed s op) := by
  cases op <;> unfold Allowed <;> infer_instance

def next (s : Schedule) (op : Op) : Option Schedule := if Allowed s op then some (apply s op) else none

def Step (s : Schedule) (op : Op) (t : Schedule) : Prop := Allowed s op ∧ t = apply s op

/-- After `schedule_init`, with every `vrun_time` below the sentinel. -/
def Initial (s : Schedule) : Prop :=
  ∃ current tasks, (∀ t, (tasks t).vrunTime < sentinel) ∧ s = scheduleInit current tasks

/-- The state in which a step calls `schedule`, if it does. -/
def scheduledFrom (s : Schedule) : Op → Option Schedule
  | .schedule => some s
  | .block state => some (s.setState s.nowTask state)
  | _ => none

theorem pitHandler_eq_apply (s : Schedule) :
    ∃ amount, (amount = 1 ∨ amount = 2) ∧ pitHandler s = apply s (.tick amount) := by
  refine ⟨tickCharge s.now.priority, ?_, rfl⟩
  unfold tickCharge
  split
  · exact Or.inl rfl
  · exact Or.inr rfl

theorem initial_inv {s : Schedule} (h : Initial s) : Inv s := by
  obtain ⟨current, tasks, hBelow, rfl⟩ := h
  exact ⟨⟨List.Pairwise.nil, List.nodup_nil, List.not_mem_nil, List.not_mem_nil, rfl⟩, hBelow⟩

theorem charge_vrun_self (s : Schedule) (amount : Int) :
    (charge s amount).vrun s.nowTask = s.now.vrunTime + amount := by
  unfold charge Schedule.vrun
  dsimp only
  split <;> simp [Schedule.now]

theorem Inv.charge {s : Schedule} (h : Inv s) {amount : Int}
    (hBelow : s.now.vrunTime + amount < sentinel) : Inv (charge s amount) := by
  refine ⟨h.toQueueInv.charge amount, fun u => ?_⟩
  by_cases hu : u = s.nowTask
  · rw [hu, charge_vrun_self]
    exact hBelow
  · have hOther : (Scheduler.charge s amount).vrun u = s.vrun u :=
      congrArg TaskStruct.vrunTime (charge_tasks_other s amount hu)
    rw [hOther]
    exact h.below u

theorem Inv.setState {s : Schedule} (h : Inv s) (t : TaskId) (state : TaskState) :
    Inv (s.setState t state) := by
  refine ⟨h.toQueueInv.setState t state, fun u => ?_⟩
  rw [Schedule.setState_vrun]
  exact h.below u

theorem Inv.insert {s : Schedule} (h : Inv s) {tsk : TaskId} (hNotMem : tsk ∉ s.taskQueue)
    (hNow : tsk ≠ s.nowTask) : Inv (insertTaskQueue s tsk) := by
  refine ⟨h.toQueueInv.insert hNotMem hNow, fun u => ?_⟩
  unfold Schedule.vrun
  rw [insertTaskQueue_tasks]
  exact h.below u

theorem Inv.schedule {s : Schedule} (h : Inv s) : Inv (schedule s) := by
  refine ⟨h.toQueueInv.schedule, fun u => ?_⟩
  rw [schedule_vrun]
  exact h.below u

theorem Inv.doFork {s : Schedule} (h : Inv s) (current : TaskId) {tsk : TaskId}
    (hQueue : tsk ∉ s.taskQueue) (hNow : tsk ≠ s.nowTask) : Inv (doFork s current tsk) := by
  have hOther : ∀ u, u ≠ tsk →
      (s.modify tsk fun _ => forkTask (s.tasks current)).vrun u = s.vrun u := fun u hu =>
    congrArg TaskStruct.vrunTime (Schedule.modify_tasks_other s _ hu)
  have hTask : Inv (s.modify tsk fun _ => forkTask (s.tasks current)) := by
    refine ⟨h.toQueueInv.of_tasks rfl rfl rfl ?_, fun u => ?_⟩
    · intro u hu
      apply hOther
      rintro rfl
      exact hQueue hu
    · by_cases hu : u = tsk
      · rw [hu]
        unfold Schedule.vrun
        rw [Schedule.modify_tasks_self]
        exact h.below current
      · rw [hOther u hu]
        exact h.below u
  exact hTask.insert hQueue hNow

theorem step_inv {s t : Schedule} {op : Op} (h : Inv s) (hStep : Step s op t) : Inv t := by
  obtain ⟨hAllowed, rfl⟩ := hStep
  cases op with
  | tick amount => exact h.charge hAllowed.2
  | schedule => exact h.schedule
  | fork current tsk => exact h.doFork current hAllowed.2.1 hAllowed.2.2
  | block state => exact (h.setState s.nowTask state).schedule
  | wakeUp tsk => exact (h.setState tsk .running).insert hAllowed.1 hAllowed.2

theorem reach_inv {s : Schedule} (h : Reach Initial Step s) : Inv s :=
  Reach.invariant (P := Inv) (fun _ hs => initial_inv hs) (fun _ _ _ hs hStep => step_inv hs hStep) h

/-- Every state of every run has a sound queue, and every `schedule` on the way meets its
specification. -/
theorem run_invariant (s : Schedule) (h : Reach Initial Step s) :
    Inv s ∧ ∀ op t before, Step s op t → scheduledFrom s op = some before → ScheduleSpec before t := by
  have hInv := reach_inv h
  refine ⟨hInv, ?_⟩
  rintro op t before ⟨_, rfl⟩ hBefore
  cases op with
  | tick amount => cases hBefore
  | schedule =>
    cases hBefore
    exact hInv.toQueueInv.scheduleSpec
  | fork current tsk => cases hBefore
  | block state =>
    cases hBefore
    exact (hInv.toQueueInv.setState s.nowTask state).scheduleSpec
  | wakeUp tsk => cases hBefore

/-- The tasks of the boot code: only the idle task runs. -/
def bootTasks : TaskId → TaskStruct :=
  fun _ => ⟨.running, pfKthread, 0, 0, 2, 0⟩

/-- Two forked tasks: the one forked last gets the CPU from the idle task, and after a tick of its own leaves it
to the other. -/
theorem run_invariant_twoForks : ∃ s t, s.nowTask = 2 ∧ s.taskQueue = [1] ∧ Step s .schedule t ∧ t.nowTask = 1 ∧
    Inv s ∧ Inv t ∧ ScheduleSpec s t := by
  have hSome : (runList next (scheduleInit initTask bootTasks)
      [.fork 0 1, .fork 0 2, .tick 2, .schedule, .tick 2]).bind (fun s => (next s .schedule).map fun t =>
        (s.nowTask, s.taskQueue, t.nowTask)) = some (2, [1], 1) := by decide
  obtain ⟨s, hs, hMap⟩ := Option.bind_eq_some_iff.mp hSome
  obtain ⟨t, ht, hEq⟩ := Option.map_eq_some_iff.mp hMap
  simp only [Prod.mk.injEq] at hEq
  obtain ⟨hNow, hQueue, hNext⟩ := hEq
  have hStep : ∀ s op t, next s op = some t → Step s op t := by
    intro s op t hNext
    obtain ⟨hAllowed, hApply⟩ := Option.ite_none_right_eq_some.mp hNext
    exact ⟨hAllowed, (Option.some.inj hApply).symm⟩
  have hInit : Initial (scheduleInit initTask bootTasks) :=
    ⟨initTask, bootTasks, fun _ => (by decide : (0 : Int) < sentinel), rfl⟩
  have hReach : Reach Initial Step s := ⟨_, _, hInit, run_of_runList hStep hs⟩
  have hLast := hStep s .schedule t ht
  obtain ⟨hInv, hSpec⟩ := run_invariant s hReach
  exact ⟨s, t, hNow, hQueue, hLast, hNext, hInv, (run_invariant t (hReach.next hLast)).1,
    hSpec .schedule t s hLast rfl⟩

end KalinoteOS.Scheduler
