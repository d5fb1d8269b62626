import KalinoteOS.Scheduler.Schedule

/-! # The run queue across one call

What `insert_task_queue` and `schedule` do to the queue, the current task and the count is
said once here, in terms of the state before the call. The invariants that other modules
keep across `schedule` start from these equations and unfold nothing.
-/
namespace KalinoteOS.Scheduler
set_option autoImplicit false

/-- The order of the run queue. -/
def VrunLe (s : Schedule) (a b : TaskId) : Prop := s.vrun a ≤ s.vrun b

/-- The insertion is the ordered insertion by `vrun_time`. -/
theorem insertBefore_eq_orderedInsert (vrun : TaskId → Int) (tsk : TaskId) (queue : List TaskId) :
    insertBefore vrun tsk queue = queue.orderedInsert (fun a b => vrun a ≤ vrun b) tsk := by
  induction queue with
  | nil => rfl
  | cons tmp rest ih =>
    rw [insertBefore, List.orderedInsert_cons, ih]
    by_cases h : vrun tmp < vrun tsk
    · rw [if_pos h, if_neg (not_le.mpr h)]
    · rw [if_neg h, if_pos (not_lt.mp h)]

@[simp] theorem mem_insertBefore {vrun : TaskId → Int} {tsk t : TaskId} {queue : List TaskId} :
    t ∈ insertBefore vrun tsk queue ↔ t = tsk ∨ t ∈ queue := by
  rw [insertBefore_eq_orderedInsert, List.mem_orderedInsert]

@[simp] theorem length_insertBefore (vrun : TaskId → Int) (tsk : TaskId) (queue : List TaskId) :
    (insertBefore vrun tsk queue).length = queue.length + 1 := by
  rw [insertBefore_eq_orderedInsert, List.orderedInsert_length]

theorem perm_insertBefore (vrun : TaskId → Int) (tsk : TaskId) (queue : List TaskId) :
    (insertBefore vrun tsk queue).Perm (tsk :: queue) := by
  rw [insertBefore_eq_orderedInsert]
  exact List.perm_orderedInsert _ _ _

theorem nodup_insertBefore {vrun : TaskId → Int} {tsk : TaskId} {queue : List TaskId} :
    (insertBefore vrun tsk queue).Nodup ↔ tsk ∉ queue ∧ queue.Nodup := by
  rw [(perm_insertBefore vrun tsk queue).nodup_iff, List.nodup_cons]

theorem sorted_insertBefore {vrun : TaskId → Int} (tsk : TaskId) {queue : List TaskId}
    (h : queue.Pairwise fun a b => vrun a ≤ vrun b) :
    (insertBefore vrun tsk queue).Pairwise fun a b => vrun a ≤ vrun b := by
  rw [insertBefore_eq_orderedInsert]
  have : Std.Total fun a b : TaskId => vrun a ≤ vrun b := ⟨fun a b => le_total _ _⟩
  have : IsTrans TaskId fun a b => vrun a ≤ vrun b := ⟨fun _ _ _ => le_trans⟩
  exact h.orderedInsert tsk queue

theorem insertBefore_front {vrun : TaskId → Int} {tsk : TaskId} {queue : List TaskId}
    (h : ∀ t ∈ queue, vrun tsk ≤ vrun t) : insertBefore vrun tsk queue = tsk :: queue := by
  cases queue with
  | nil => rfl
  | cons tmp rest => exact if_neg (not_lt.mpr (h tmp List.mem_cons_self))

theorem insertTaskQueue_taskQueue (s : Schedule) (tsk : TaskId) :
    (insertTaskQueue s tsk).taskQueue =
      if tsk = initTask then s.taskQueue else insertBefore s.vrun tsk s.taskQueue := by
  unfold insertTaskQueue
  split <;> rfl

theorem insertTaskQueue_count (s : Schedule) (tsk : TaskId) :
    (insertTaskQueue s tsk).runningTaskCount =
      if tsk = initTask then s.runningTaskCount else s.runningTaskCount + 1 := by
  unfold insertTaskQueue
  split <;> rfl

/-! ## `wake_up` -/

theorem mem_wakeUp {s : Schedule} {tsk t : TaskId} :
    t ∈ (wakeUp s tsk).taskQueue ↔ (t = tsk ∧ tsk ≠ initTask) ∨ t ∈ s.taskQueue := by
  unfold wakeUp
  rw [insertTaskQueue_taskQueue]
  split
  · next hInit =>
    have hNot : ¬ (t = tsk ∧ tsk ≠ initTask) := fun hBoth => hBoth.2 hInit
    exact (or_iff_right hNot).symm
  · next hNe =>
    rw [mem_insertBefore, and_iff_left hNe]
    rfl

@[simp] theorem wakeUp_nowTask (s : Schedule) (tsk : TaskId) : (wakeUp s tsk).nowTask = s.nowTask :=
  insertTaskQueue_nowTask _ _

theorem wakeUp_state (s : Schedule) (tsk t : TaskId) :
    (wakeUp s tsk).state t = (s.setState tsk .running).state t := by
  unfold wakeUp Schedule.state
  rw [insertTaskQueue_tasks]

theorem wakeUp_state_self (s : Schedule) (tsk : TaskId) : (wakeUp s tsk).state tsk = .running := by
  rw [wakeUp_state, Schedule.setState_state_self]

theorem wakeUp_state_of_ne (s : Schedule) {tsk t : TaskId} (h : t ≠ tsk) :
    (wakeUp s tsk).state t = s.state t := by
  rw [wakeUp_state, Schedule.setState_state_other s _ h]

/-! ## `schedule` -/

/-- The task that `get_next_task` returns. -/
def picked (s : Schedule) : TaskId := s.taskQueue.headD initTask

/-- The state that `get_next_task` leaves in `schedule`. -/
def afterPick (s : Schedule) : Schedule :=
  { clearNeedSchedule s with
    taskQueue := s.taskQueue.tail
    runningTaskCount := if s.taskQueue = [] then s.runningTaskCount else s.runningTaskCount - 1 }

theorem getNextTask_eq (s : Schedule) :
    getNextTask (clearNeedSchedule s) = (picked s, afterPick s) := by
  unfold getNextTask picked afterPick clearNeedSchedule
  simp only [Schedule.modify_taskQueue]
  cases hQueue : s.taskQueue <;> simp [Schedule.modify, hQueue]

@[simp] theorem clearNeedSchedule_vrun (s : Schedule) (t : TaskId) :
    (clearNeedSchedule s).vrun t = s.vrun t :=
  Schedule.modify_tasks_field TaskStruct.vrunTime s s.nowTask t _ rfl

@[simp] theorem clearNeedSchedule_state (s : Schedule) (t : TaskId) :
    (clearNeedSchedule s).state t = s.state t :=
  Schedule.modify_tasks_field TaskStruct.state s s.nowTask t _ rfl

@[simp] theorem afterPick_vrun (s : Schedule) : (afterPick s).vrun = s.vrun :=
  funext (clearNeedSchedule_vrun s)

@[simp] theorem afterPick_state (s : Schedule) (t : TaskId) : (afterPick s).state t = s.state t :=
  clearNeedSchedule_state s t

@[simp] theorem afterPick_nowTask (s : Schedule) : (afterPick s).nowTask = s.nowTask := rfl

@[simp] theorem afterPick_taskQueue (s : Schedule) : (afterPick s).taskQueue = s.taskQueue.tail := rfl

theorem yields_afterPick (s : Schedule) (tsk : TaskId) : yields (afterPick s) tsk ↔ yields s tsk := by
  have hVrun : (afterPick s).now.vrunTime = s.now.vrunTime := clearNeedSchedule_vrun s s.nowTask
  have hState : (afterPick s).now.state = s.now.state := clearNeedSchedule_state s s.nowTask
  unfold yields
  rw [hVrun, hState, afterPick_vrun]

/-- Whether `schedule` puts the current task back into the queue. -/
def requeues (s : Schedule) : Prop := s.now.state = .running ∧ s.nowTask ≠ initTask

instance (s : Schedule) : Decidable (requeues s) := inferInstanceAs (Decidable (_ ∧ _))

theorem afterPick_now_state (s : Schedule) : (afterPick s).now.state = s.now.state :=
  clearNeedSchedule_state s s.nowTask

/-- The state in which `schedule` computes the time slice, with its divisor. -/
def sliceState (s : Schedule) : Schedule :=
  if yields s (picked s) then
    if s.now.state = .running then insertTaskQueue (afterPick s) s.nowTask else afterPick s
  else insertTaskQueue (afterPick s) (picked s)

theorem schedule_eq (s : Schedule) :
    schedule s =
      if yields s (picked s) then switchTo (refillSlice (sliceState s) (picked s)) (picked s)
      else refillSlice (sliceState s) (picked s) := by
  unfold schedule sliceState
  rw [getNextTask_eq]
  simp only [yields_afterPick, afterPick_now_state, afterPick_nowTask]
  by_cases hYields : yields s (picked s)
  · simp only [if_pos hYields]
  · simp only [if_neg hYields]

@[simp] theorem sliceState_tasks (s : Schedule) : (sliceState s).tasks = (clearNeedSchedule s).tasks := by
  unfold sliceState
  split
  · split
    · rw [insertTaskQueue_tasks]
      rfl
    · rfl
  · rw [insertTaskQueue_tasks]
    rfl

@[simp] theorem sliceState_nowTask (s : Schedule) : (sliceState s).nowTask = s.nowTask := by
  unfold sliceState
  split
  · split <;> simp
  · simp

theorem schedule_nowTask (s : Schedule) :
    (schedule s).nowTask = if yields s (picked s) then picked s else s.nowTask := by
  rw [schedule_eq]
  split
  · rfl
  · simp

/-- The count that `schedule` leaves is the divisor of its time slice. -/
theorem schedule_runningTaskCount (s : Schedule) :
    (schedule s).runningTaskCount = (sliceState s).runningTaskCount := by
  rw [schedule_eq]
  split <;> simp [switchTo]

theorem schedule_taskQueue (s : Schedule) :
    (schedule s).taskQueue =
      if yields s (picked s) then
        if requeues s then insertBefore s.vrun s.nowTask s.taskQueue.tail else s.taskQueue.tail
      else if picked s = initTask then s.taskQueue.tail
      else insertBefore s.vrun (picked s) s.taskQueue.tail := by
  have hSlice : (schedule s).taskQueue = (sliceState s).taskQueue := by
    rw [schedule_eq]
    split <;> simp [switchTo]
  rw [hSlice]
  unfold sliceState requeues
  by_cases hYields : yields s (picked s)
  · by_cases hRunning : s.now.state = .running <;> by_cases hInit : s.nowTask = initTask <;>
      simp [hYields, hRunning, hInit, insertTaskQueue_taskQueue]
  · simp [hYields, insertTaskQueue_taskQueue]

theorem schedule_count (s : Schedule) :
    (schedule s).runningTaskCount = (afterPick s).runningTaskCount +
      if yields s (picked s) then if requeues s then 1 else 0
      else if picked s = initTask then 0 else 1 := by
  rw [schedule_runningTaskCount]
  unfold sliceState requeues
  by_cases hYields : yields s (picked s)
  · by_cases hRunning : s.now.state = .running <;> by_cases hInit : s.nowTask = initTask <;>
      simp [hYields, hRunning, hInit, insertTaskQueue_count]
  · rw [if_neg hYields, if_neg hYields, insertTaskQueue_count]
    split <;> simp

theorem schedule_tasks (s : Schedule) : (schedule s).tasks = (clearNeedSchedule s).tasks := by
  rw [schedule_eq]
  split <;> simp [switchTo]

@[simp] theorem schedule_vrun (s : Schedule) (t : TaskId) : (schedule s).vrun t = s.vrun t := by
  rw [← clearNeedSchedule_vrun s t]
  unfold Schedule.vrun
  rw [schedule_tasks]

@[simp] theorem schedule_state (s : Schedule) (t : TaskId) : (schedule s).state t = s.state t := by
  rw [← clearNeedSchedule_state s t]
  unfold Schedule.state
  rw [schedule_tasks]

theorem picked_cases (s : Schedule) :
    (s.taskQueue = [] ∧ picked s = initTask) ∨ s.taskQueue = picked s :: s.taskQueue.tail := by
  unfold picked
  cases s.taskQueue with
  | nil => exact Or.inl ⟨rfl, rfl⟩
  | cons tsk rest => exact Or.inr rfl

/-! ## How often a task is on the CPU or in the queue -/

def occurrences (s : Schedule) (t : TaskId) : Nat :=
  s.taskQueue.count t + if s.nowTask = t then 1 else 0

theorem count_insertBefore (vrun : TaskId → Int) (tsk : TaskId) (queue : List TaskId) (t : TaskId) :
    (insertBefore vrun tsk queue).count t = queue.count t + if tsk = t then 1 else 0 := by
  rw [(perm_insertBefore vrun tsk queue).count_eq, List.count_cons]
  simp only [beq_iff_eq]

/-- `schedule` neither loses nor doubles a task that can run, whatever the queue holds. -/
theorem schedule_occurrences (s : Schedule) {t : TaskId} (hInit : initTask ∉ s.taskQueue)
    (ht : t ≠ initTask) (hRunning : s.nowTask = t → s.now.state = .running) :
    occurrences (schedule s) t = occurrences s t := by
  have hCount : s.taskQueue.count t = s.taskQueue.tail.count t + if picked s = t then 1 else 0 := by
    obtain ⟨hEmpty, hPicked⟩ | hQueue := picked_cases s
    · rw [hEmpty, hPicked, if_neg (Ne.symm ht)]
      rfl
    · conv_lhs => rw [hQueue, List.count_cons]
      simp only [beq_iff_eq]
  unfold occurrences
  rw [schedule_taskQueue, schedule_nowTask, hCount]
  by_cases hYields : yields s (picked s)
  · rw [if_pos hYields, if_pos hYields]
    by_cases hRequeue : requeues s
    · rw [if_pos hRequeue, count_insertBefore]
      omega
    · have hNow : s.nowTask ≠ t := fun hEq => hRequeue ⟨hRunning hEq, hEq ▸ ht⟩
      rw [if_neg hRequeue, if_neg hNow]
      omega
  · rw [if_neg hYields, if_neg hYields]
    obtain ⟨hEmpty, hPicked⟩ | hQueue := picked_cases s
    · rw [if_pos hPicked, hPicked, if_neg (Ne.symm ht)]
      omega
    · have hNe : picked s ≠ initTask := by
        intro hEq
        apply hInit
        rw [hQueue, hEq]
        exact List.mem_cons_self
      rw [if_neg hNe, count_insertBefore]

theorem occurrences_le_one {s : Schedule} (hNodup : s.taskQueue.Nodup)
    (hNow : s.nowTask ∉ s.taskQueue) (t : TaskId) : occurrences s t ≤ 1 := by
  have hCount := List.nodup_iff_count_le_one.mp hNodup t
  unfold occurrences
  by_cases hEq : s.nowTask = t
  · rw [if_pos hEq, ← hEq, List.count_eq_zero_of_not_mem hNow]
  · rw [if_neg hEq]
    omega

end KalinoteOS.Scheduler
