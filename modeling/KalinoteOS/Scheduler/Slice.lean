import KalinoteOS.Scheduler.Fair

/-! # The time slice that `schedule` leaves

A used up slice is refilled when it is exactly 0, with 4 ticks shared out by an integer division.
-/
namespace KalinoteOS.Scheduler
open Lib
set_option autoImplicit false

/-- What `PIT_handler` and the return from an interrupt let through: a tick charges by the
priority of the current task, and `schedule` is called for a task that is flagged. -/
def Gated (s : Schedule) : Op → Prop
  | .tick amount => amount = tickCharge s.now.priority
  | .schedule => s.now.flags &&& needSchedule ≠ 0
  | _ => True

instance (s : Schedule) (op : Op) : Decidable (Gated s op) :=
  match op with
  | .tick amount => Int.instDecidableEq amount (tickCharge s.now.priority)
  | .schedule => @instDecidableNot _ (instDecidableEqBitVec (s.now.flags &&& needSchedule) 0)
  | .fork _ _ | .block _ | .wakeUp _ => instDecidableTrue

/-- The tasks among which a refill shares out 4 ticks: those counted, without the one taken off
the queue, and with the one put back. -/
def shares (s : Schedule) : Int :=
  (if s.taskQueue = [] then s.runningTaskCount else s.runningTaskCount - 1) +
    if yields s (picked s) then if requeues s then 1 else 0
    else if picked s = initTask then 0 else 1

/-- Some of the slice is left, or it is used up exactly and there are at most four shares. -/
def Good (s : Schedule) (op : Op) : Prop :=
  ∀ before, scheduledFrom s op = some before →
    0 < before.cpuExecTaskJiffies ∨ (before.cpuExecTaskJiffies = 0 ∧ shares before ≤ 4)

theorem schedule_shares (s : Schedule) : (schedule s).runningTaskCount = shares s :=
  schedule_count s

theorem timeSlice_pos_iff (priority : Int) {count : Int} (hCount : 1 ≤ count) :
    0 < timeSlice priority count ↔ count ≤ 4 := by
  have hQuot : 0 < (4 : Int).tdiv count ↔ count ≤ 4 := by
    rw [Int.tdiv_eq_ediv_of_nonneg (by decide)]
    constructor
    · intro hPos
      by_contra hMany
      rw [Int.ediv_eq_zero_of_lt (by decide) (not_le.mp hMany)] at hPos
      cases hPos
    · intro hFew
      exact Int.le_ediv_of_mul_le (by omega) (by omega)
  unfold timeSlice
  split
  · exact hQuot
  · rw [← hQuot]
    omega

section
variable {s : Schedule}

theorem QueueInv.shares_pos (h : QueueInv s) : 1 ≤ shares s := by
  rw [← schedule_shares, h.schedule_length]
  omega

/-- What `schedule` leaves of the slice. -/
theorem QueueInv.schedule_slice_pos_iff (h : QueueInv s) :
    0 < (Scheduler.schedule s).cpuExecTaskJiffies ↔
      0 < s.cpuExecTaskJiffies ∨ (s.cpuExecTaskJiffies = 0 ∧ shares s ≤ 4) := by
  rw [schedule_cpuExecTaskJiffies]
  split
  · next hZero =>
    rw [schedule_shares, timeSlice_pos_iff _ h.shares_pos, hZero]
    simp
  · next hNe =>
    constructor
    · exact Or.inl
    · rintro (hPos | ⟨hZero, -⟩)
      · exact hPos
      · exact absurd hZero hNe

theorem Inv.scheduledFrom {op : Op} {before : Schedule} (h : Inv s)
    (hBefore : scheduledFrom s op = some before) :
    QueueInv before ∧ apply s op = Scheduler.schedule before := by
  cases op with
  | tick amount => cases hBefore
  | schedule =>
    cases hBefore
    exact ⟨h.toQueueInv, rfl⟩
  | fork current tsk => cases hBefore
  | block state =>
    cases hBefore
    exact ⟨h.toQueueInv.setState s.nowTask state, rfl⟩
  | wakeUp tsk => cases hBefore

end

/-- As long as every `schedule` finds a slice it can use or refill there is one after it, and a
call leaves one exactly when it finds such a slice. -/
theorem slice_pos_iff_good (s : Schedule) (h : Reach Initial (Guarded Good Step) s) :
    ∀ op t before, Step s op t → scheduledFrom s op = some before →
      (0 < t.cpuExecTaskJiffies ↔ Good s op) := by
  have hInv : Inv s :=
    Reach.invariant (P := Inv) (fun _ hs => initial_inv hs)
      (fun _ _ _ hs hStep => step_inv hs hStep.2) h
  rintro op t before ⟨-, rfl⟩ hBefore
  obtain ⟨hQueue, hApply⟩ := hInv.scheduledFrom hBefore
  rw [hApply, hQueue.schedule_slice_pos_iff]
  constructor
  · intro hSlice other hOther
    cases hBefore.symm.trans hOther
    exact hSlice
  · intro hGood
    exact hGood before hBefore

/-! ## A slice below zero -/

/-- No step gives anything back to a slice below zero. -/
theorem negative_step {s t : Schedule} {op : Op} (h : s.cpuExecTaskJiffies < 0)
    (hStep : Step s op t) : t.cpuExecTaskJiffies < 0 := by
  obtain ⟨hAllowed, rfl⟩ := hStep
  have hSchedule : ∀ r : Schedule, r.cpuExecTaskJiffies < 0 →
      (schedule r).cpuExecTaskJiffies < 0 := by
    intro r hr
    rw [schedule_cpuExecTaskJiffies, if_neg (by omega)]
    exact hr
  have hInsert : ∀ (r : Schedule) (tsk : TaskId), (insertTaskQueue r tsk).cpuExecTaskJiffies =
      r.cpuExecTaskJiffies := by
    intro r tsk
    unfold insertTaskQueue
    split
    · rfl
    · rfl
  cases op with
  | tick amount =>
    have hAmount := hAllowed.1
    change (charge s amount).cpuExecTaskJiffies < 0
    rw [charge_cpuExecTaskJiffies]
    omega
  | schedule => exact hSchedule s h
  | fork current tsk =>
    change (doFork s current tsk).cpuExecTaskJiffies < 0
    unfold doFork
    rw [hInsert]
    exact h
  | block state => exact hSchedule _ h
  | wakeUp tsk =>
    change (wakeUp s tsk).cpuExecTaskJiffies < 0
    unfold wakeUp
    rw [hInsert]
    exact h

/-- From then on no task gets a slice. -/
theorem negative_run {s t : Schedule} {ops : List Op} (h : s.cpuExecTaskJiffies < 0)
    (hRun : Run Step s ops t) : t.cpuExecTaskJiffies < 0 := by
  induction hRun with
  | nil => exact h
  | snoc _ hStep ih => exact negative_step ih hStep

/-! ## Runs of the machine -/

def gatedNext (s : Schedule) (op : Op) : Option Schedule :=
  if Gated s op ∧ Allowed s op then some (apply s op) else none

theorem guarded_of_gatedNext {s t : Schedule} {op : Op} (h : gatedNext s op = some t) :
    Guarded Gated Step s op t := by
  obtain ⟨⟨hGated, hAllowed⟩, hApply⟩ := Option.ite_none_right_eq_some.mp h
  exact ⟨hGated, hAllowed, (Option.some.inj hApply).symm⟩

theorem bootTasks_initial : Initial (scheduleInit initTask bootTasks) :=
  ⟨initTask, bootTasks, fun _ => (by decide : (0 : Int) < sentinel), rfl⟩

/-- With four forked tasks of priority 2 a share is 3, of which two ticks leave -1. -/
theorem schedule_without_slice :
    ¬ ∀ s, Reach Initial (Guarded Gated Step) s → ∀ op t before, Guarded Gated Step s op t →
      scheduledFrom s op = some before → 0 < t.cpuExecTaskJiffies := by
  intro h
  have hFail : ∀ ops slice, slice ≤ 0 →
      ((runList gatedNext (scheduleInit initTask bootTasks) ops).bind
        fun s => (gatedNext s .schedule).map Schedule.cpuExecTaskJiffies) = some slice → False := by
    intro ops slice hSlice hRun
    obtain ⟨s, hs, hMap⟩ := Option.bind_eq_some_iff.mp hRun
    obtain ⟨t, ht, hLeft⟩ := Option.map_eq_some_iff.mp hMap
    have hGated : Run (Guarded Gated Step) (scheduleInit initTask bootTasks) ops s := by
      refine run_of_runList (fun s op t hNext => ?_) hs
      exact guarded_of_gatedNext hNext
    have hReach : Reach Initial (Guarded Gated Step) s := ⟨_, ops, bootTasks_initial, hGated⟩
    have hPos := h s hReach .schedule t s (guarded_of_gatedNext ht) rfl
    omega
  apply hFail [.fork 0 1, .fork 0 2, .fork 0 3, .fork 0 4, .tick 2, .tick 2, .schedule, .tick 2,
    .tick 2] (-1) (by decide)
  decide +kernel

/-- The idle task and one forked task. -/
theorem slice_pos_iff_good_fork : ∃ t : Schedule, 0 < t.cpuExecTaskJiffies := by
  have hReach : Reach Initial (Guarded Good Step)
      (doFork (scheduleInit initTask bootTasks) initTask 1) := by
    apply (Reach.start bootTasks_initial).next (a := .fork initTask 1)
    refine ⟨?_, by decide, rfl⟩
    intro before hBefore
    cases hBefore
  have hStep : Step (doFork (scheduleInit initTask bootTasks) initTask 1) .schedule
      (schedule (doFork (scheduleInit initTask bootTasks) initTask 1)) := ⟨trivial, rfl⟩
  have hGood : Good (doFork (scheduleInit initTask bootTasks) initTask 1) .schedule := by
    intro before hBefore
    cases hBefore
    exact Or.inl (by decide)
  exact ⟨_, (slice_pos_iff_good _ hReach .schedule _ _ hStep rfl).mpr hGood⟩

end KalinoteOS.Scheduler
