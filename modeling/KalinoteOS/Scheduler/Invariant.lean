import KalinoteOS.Lib.Run
import KalinoteOS.Scheduler.RunQueue

/-! # The scheduler over whole runs

Ticks, calls of `schedule`, forks, blocking tasks and wake-ups in any order keep the queue
sorted, without repetitions and apart from the current task, and keep its count. -/
namespace KalinoteOS.Scheduler
open Lib
set_option autoImplicit false

/-- The queue is in order, without repetitions, apart from the current task, and counted. -/
structure QueueInv (s : Schedule) : Prop where
  sorted : s.taskQueue.Pairwise (VrunLe s)
  nodup : s.taskQueue.Nodup
  init_notMem : initTask ∉ s.taskQueue
  now_notMem : s.nowTask ∉ s.taskQueue
  count : s.runningTaskCount = 1 + s.taskQueue.length

structure Inv (s : Schedule) : Prop extends QueueInv s where
  below : ∀ t, s.vrun t < sentinel

/-- The tasks the scheduler knows: queued, current, or idle. -/
def Known (s : Schedule) (t : TaskId) : Prop := t ∈ s.taskQueue ∨ t = s.nowTask ∨ t = initTask

/-- What one call of `schedule` owes to its caller. -/
structure ScheduleSpec (s t : Schedule) : Prop where
  known : ∀ u, Known t u ↔ Known s u ∧ ¬ (u = s.nowTask ∧ u ≠ initTask ∧ s.state u ≠ .running)
  least : ∀ u ∈ t.taskQueue, t.vrun t.nowTask ≤ t.vrun u
  divisor : 0 < (sliceState s).runningTaskCount

/-! ## Insertion and `schedule` -/

theorem QueueInv.insert {s : Schedule} (h : QueueInv s) {tsk : TaskId} (hNotMem : tsk ∉ s.taskQueue)
    (hNow : tsk ≠ s.nowTask) : QueueInv (insertTaskQueue s tsk) := by
  by_cases hInit : tsk = initTask
  · rw [insertTaskQueue, if_pos hInit]
    exact h
  · have hVrun : (insertTaskQueue s tsk).vrun = s.vrun := by
      unfold Schedule.vrun
      rw [insertTaskQueue_tasks]
    have hQueue : (insertTaskQueue s tsk).taskQueue = insertBefore s.vrun tsk s.taskQueue := by
      rw [insertTaskQueue_taskQueue, if_neg hInit]
    refine ⟨?_, ?_, ?_, ?_, ?_⟩
    · unfold VrunLe
      rw [hQueue, hVrun]
      exact sorted_insertBefore tsk h.sorted
    · rw [hQueue, nodup_insertBefore]
      exact ⟨hNotMem, h.nodup⟩
    · rw [hQueue, mem_insertBefore, not_or]
      exact ⟨Ne.symm hInit, h.init_notMem⟩
    · rw [hQueue, mem_insertBefore, not_or, insertTaskQueue_nowTask]
      exact ⟨Ne.symm hNow, h.now_notMem⟩
    · rw [insertTaskQueue_count, if_neg hInit, hQueue, length_insertBefore, h.count]
      omega

/-- An update of one task that keeps the order of the queue. -/
theorem QueueInv.of_tasks {s t : Schedule} (h : QueueInv s) (hQueue : t.taskQueue = s.taskQueue)
    (hNow : t.nowTask = s.nowTask) (hCount : t.runningTaskCount = s.runningTaskCount)
    (hVrun : ∀ u ∈ s.taskQueue, t.vrun u = s.vrun u) : QueueInv t := by
  refine ⟨?_, ?_, ?_, ?_, ?_⟩
  · rw [hQueue]
    refine h.sorted.imp_of_mem ?_
    intro a b ha hb hab
    unfold VrunLe
    rw [hVrun a ha, hVrun b hb]
    exact hab
  · rw [hQueue]
    exact h.nodup
  · rw [hQueue]
    exact h.init_notMem
  · rw [hQueue, hNow]
    exact h.now_notMem
  · rw [hQueue, hCount]
    exact h.count

section
variable {s : Schedule} (h : QueueInv s)
include h

theorem QueueInv.picked_least : ∀ t ∈ s.taskQueue, s.vrun (picked s) ≤ s.vrun t := by
  obtain ⟨hEmpty, _⟩ | hQueue := picked_cases s
  · simp [hEmpty]
  · have hSorted := h.sorted
    rw [hQueue] at hSorted ⊢
    intro t ht
    obtain rfl | ht := List.mem_cons.mp ht
    · exact le_refl _
    · exact (List.pairwise_cons.mp hSorted).1 t ht

theorem QueueInv.picked_ne_init (hQueue : s.taskQueue = picked s :: s.taskQueue.tail) :
    picked s ≠ initTask := by
  intro hInit
  apply h.init_notMem
  rw [hQueue, hInit]
  exact List.mem_cons_self

theorem QueueInv.picked_notMem_tail : picked s ∉ s.taskQueue.tail := by
  obtain ⟨hEmpty, _⟩ | hQueue := picked_cases s
  · simp [hEmpty]
  · have hNodup := h.nodup
    rw [hQueue] at hNodup
    exact (List.nodup_cons.mp hNodup).1

/-- A requeued task is not the one that was picked. -/
theorem QueueInv.picked_ne_now (hRequeue : requeues s) : picked s ≠ s.nowTask := by
  obtain ⟨_, hPicked⟩ | hQueue := picked_cases s
  · rw [hPicked]
    exact Ne.symm hRequeue.2
  · rintro hEq
    apply h.now_notMem
    rw [← hEq, hQueue]
    exact List.mem_cons_self

/-- A call that keeps the current task leaves the queue as it was. -/
theorem QueueInv.schedule_stays (hStay : ¬ yields s (picked s)) : (schedule s).taskQueue = s.taskQueue := by
  rw [schedule_taskQueue, if_neg hStay]
  obtain ⟨hEmpty, hPicked⟩ | hQueue := picked_cases s
  · rw [if_pos hPicked, hEmpty]
    rfl
  · rw [if_neg (h.picked_ne_init hQueue), insertBefore_front, ← hQueue]
    exact fun t ht => h.picked_least t (List.mem_of_mem_tail ht)

theorem QueueInv.schedule_nodup : (schedule s).taskQueue.Nodup := by
  by_cases hYields : yields s (picked s)
  · rw [schedule_taskQueue, if_pos hYields]
    split
    · rw [nodup_insertBefore]
      exact ⟨fun hMem => h.now_notMem (List.mem_of_mem_tail hMem), h.nodup.tail⟩
    · exact h.nodup.tail
  · rw [h.schedule_stays hYields]
    exact h.nodup

theorem QueueInv.schedule_sorted : (schedule s).taskQueue.Pairwise (VrunLe s) := by
  by_cases hYields : yields s (picked s)
  · rw [schedule_taskQueue, if_pos hYields]
    split
    · exact sorted_insertBefore _ h.sorted.tail
    · exact h.sorted.tail
  · rw [h.schedule_stays hYields]
    exact h.sorted

theorem QueueInv.mem_schedule (t : TaskId) : t ∈ (schedule s).taskQueue ↔
    if yields s (picked s) then (t = s.nowTask ∧ requeues s) ∨ t ∈ s.taskQueue.tail
    else t ∈ s.taskQueue := by
  by_cases hYields : yields s (picked s)
  · rw [if_pos hYields, schedule_taskQueue, if_pos hYields]
    by_cases hRequeue : requeues s
    · rw [if_pos hRequeue, mem_insertBefore]
      simp [hRequeue]
    · rw [if_neg hRequeue]
      simp [hRequeue]
  · rw [if_neg hYields, h.schedule_stays hYields]

theorem QueueInv.schedule_now_notMem : (schedule s).nowTask ∉ (schedule s).taskQueue := by
  rw [h.mem_schedule, schedule_nowTask]
  by_cases hYields : yields s (picked s)
  · rw [if_pos hYields, if_pos hYields]
    rintro (⟨hEq, hRequeue⟩ | hMem)
    · exact h.picked_ne_now hRequeue hEq
    · exact h.picked_notMem_tail hMem
  · rw [if_neg hYields, if_neg hYields]
    exact h.now_notMem

theorem QueueInv.schedule_init_notMem : initTask ∉ (schedule s).taskQueue := by
  rw [h.mem_schedule]
  split
  · rintro (⟨hEq, hRequeue⟩ | hMem)
    · exact hRequeue.2 hEq.symm
    · exact h.init_notMem (List.mem_of_mem_tail hMem)
  · exact h.init_notMem

theorem QueueInv.schedule_length : (schedule s).runningTaskCount = 1 + (schedule s).taskQueue.length := by
  by_cases hYields : yields s (picked s)
  · rw [schedule_count, schedule_taskQueue, if_pos hYields, if_pos hYields]
    have hTail : (afterPick s).runningTaskCount = 1 + (s.taskQueue.tail.length : Int) := by
      have hCount := h.count
      unfold afterPick
      cases hQueue : s.taskQueue with
      | nil => simpa [hQueue] using hCount
      | cons tsk rest =>
        rw [hQueue] at hCount
        simp only [List.length_cons] at hCount
        simp only [reduceCtorEq, if_false, List.tail_cons]
        omega
    split
    · rw [hTail, length_insertBefore]
      omega
    · rw [hTail]
      omega
  · rw [schedule_count, h.schedule_stays hYields, if_neg hYields]
    have hCount := h.count
    unfold afterPick
    obtain ⟨hEmpty, hPicked⟩ | hQueue := picked_cases s
    · simp [hEmpty, hPicked, hCount]
    · have hNe : s.taskQueue ≠ [] := by
        rw [hQueue]
        exact List.cons_ne_nil _ _
      rw [if_neg (h.picked_ne_init hQueue), if_neg hNe]
      dsimp only
      omega

theorem QueueInv.schedule : QueueInv (schedule s) where
  sorted := by
    refine h.schedule_sorted.imp ?_
    intro a b hab
    unfold VrunLe
    rw [schedule_vrun, schedule_vrun]
    exact hab
  nodup := h.schedule_nodup
  init_notMem := h.schedule_init_notMem
  now_notMem := h.schedule_now_notMem
  count := h.schedule_length

theorem QueueInv.schedule_known (u : TaskId) : Known (Scheduler.schedule s) u ↔
    Known s u ∧ ¬ (u = s.nowTask ∧ u ≠ initTask ∧ s.state u ≠ .running) := by
  unfold Known
  rw [h.mem_schedule, schedule_nowTask]
  by_cases hYields : yields s (picked s)
  · rw [if_pos hYields, if_pos hYields]
    -- the queue is the picked task and its tail, or empty with the idle task picked
    have hSplit : (u ∈ s.taskQueue ∨ u = initTask) ↔
        (u = picked s ∨ u ∈ s.taskQueue.tail ∨ u = initTask) := by
      obtain ⟨hEmpty, hPicked⟩ | hQueue := picked_cases s
      · rw [hEmpty, hPicked]
        simp
      · conv_lhs => rw [hQueue, List.mem_cons]
        tauto
    have hNow := h.now_notMem
    have hState : s.state s.nowTask = s.now.state := rfl
    by_cases hu : u = s.nowTask
    · subst hu
      have hTail : s.nowTask ∉ s.taskQueue.tail := fun hMem => hNow (List.mem_of_mem_tail hMem)
      rw [hState]
      unfold requeues
      tauto
    · tauto
  · rw [if_neg hYields, if_neg hYields]
    have hState : s.state s.nowTask = .running := by
      by_contra hNot
      exact hYields (Or.inr hNot)
    constructor
    · refine fun hKnown => ⟨hKnown, ?_⟩
      rintro ⟨rfl, _, hNot⟩
      exact hNot hState
    · exact fun hKnown => hKnown.1

/-- After `schedule` nobody in the queue is behind the current task. -/
theorem QueueInv.schedule_least : ∀ u ∈ (Scheduler.schedule s).taskQueue,
    s.vrun (Scheduler.schedule s).nowTask ≤ s.vrun u := by
  intro u hu
  rw [h.mem_schedule] at hu
  rw [schedule_nowTask]
  by_cases hYields : yields s (picked s)
  · rw [if_pos hYields] at hu ⊢
    obtain ⟨rfl, hRequeue⟩ | hMem := hu
    · obtain hLe | hNot := hYields
      · exact hLe
      · exact absurd hRequeue.1 hNot
    · exact h.picked_least u (List.mem_of_mem_tail hMem)
  · rw [if_neg hYields] at hu ⊢
    have hLt : s.vrun s.nowTask < s.vrun (picked s) := by
      by_contra hNot
      exact hYields (Or.inl (not_lt.mp hNot))
    exact hLt.le.trans (h.picked_least u hu)

theorem QueueInv.scheduleSpec : ScheduleSpec s (Scheduler.schedule s) where
  known := h.schedule_known
  least u hu := by
    rw [schedule_vrun, schedule_vrun]
    exact h.schedule_least u hu
  divisor := by
    have hLength := h.schedule_length
    rw [← schedule_runningTaskCount, hLength]
    omega

theorem QueueInv.setState (t : TaskId) (state : TaskState) : QueueInv (s.setState t state) :=
  h.of_tasks rfl rfl rfl fun u _ => by simp

theorem QueueInv.charge (amount : Int) : QueueInv (charge s amount) := by
  refine h.of_tasks (by simp) (by simp) (by simp) ?_
  intro u hu
  have hNe : u ≠ s.nowTask := by
    rintro rfl
    exact h.now_notMem hu
  exact congrArg TaskStruct.vrunTime (charge_tasks_other s amount hNe)

end

end KalinoteOS.Scheduler
