import KalinoteOS.Scheduler.Run
import Mathlib.Data.Set.Basic

/-! # The share of each task

A task gets the CPU when nobody in the queue is behind it, and keeps it for at most six units.
So the tasks of a set that stays runnable never drift apart by more than one turn. The counters
are `long` in the source, and a step adds two units at most.
-/
namespace KalinoteOS.Scheduler
open Lib
set_option autoImplicit false

/-- A tick that sets `NEED_SCHEDULE` is followed by `schedule`. -/
def timerTick (s : Schedule) : Schedule :=
  let s := pitHandler s
  if s.cpuExecTaskJiffies ≤ 0 then schedule s else s

/-- Besides the ticks, `schedule` may run at any time: after an interrupt that finds the flag
still set. -/
inductive FairOp where
  | tick
  | schedule
  deriving DecidableEq, Repr

def fairApply (s : Schedule) : FairOp → Schedule
  | .tick => timerTick s
  | .schedule => schedule s

def FairStep (s : Schedule) (op : FairOp) (t : Schedule) : Prop := t = fairApply s op

/-- At least two tasks that are runnable and queued or current. Every reachable state has a
sound queue. -/
structure Members (members : Set TaskId) (s : Schedule) : Prop where
  queue : QueueInv s
  several : members.Nontrivial
  init_notMem : initTask ∉ members
  known : ∀ t ∈ members, t ∈ s.taskQueue ∨ t = s.nowTask
  running : ∀ t ∈ members, s.state t = .running
  slice : s.cpuExecTaskJiffies ≤ 6

/-- The members start level. -/
structure Level (members : Set TaskId) (s : Schedule) : Prop extends Members members s where
  level : ∀ t ∈ members, ∀ u ∈ members, s.vrun t = s.vrun u

/-- The members are within six of `base`. -/
structure Within (members : Set TaskId) (base : Int) (s : Schedule) : Prop
    extends Members members s where
  least : ∀ t ∈ members, base ≤ s.vrun t
  most : ∀ t ∈ members, s.vrun t ≤ base + 6

/-! ## One turn -/

/-- What a task that is charged `amount` a tick still gets before `NEED_SCHEDULE`. -/
def turn (slice amount : Int) : Int := if slice ≤ 0 then amount else slice + slice % amount

theorem tickCharge_cases (priority : Int) : tickCharge priority = 1 ∨ tickCharge priority = 2 := by
  unfold tickCharge
  split
  · exact Or.inl rfl
  · exact Or.inr rfl

theorem turn_le {slice amount : Int} (hAmount : amount = 1 ∨ amount = 2) (hSlice : slice ≤ 6) :
    turn slice amount ≤ 6 := by
  unfold turn
  rcases hAmount with rfl | rfl <;> split <;> omega

theorem le_turn (slice : Int) {amount : Int} (hAmount : amount = 1 ∨ amount = 2) :
    amount ≤ turn slice amount := by
  unfold turn
  rcases hAmount with rfl | rfl <;> split <;> omega

theorem turn_sub {slice amount : Int} (hAmount : amount = 1 ∨ amount = 2)
    (hLeft : 0 < slice - amount) : turn (slice - amount) amount = turn slice amount - amount := by
  unfold turn
  rcases hAmount with rfl | rfl <;> split <;> split <;> omega

theorem timeSlice_le (priority : Int) {count : Int} (hCount : 2 ≤ count) :
    timeSlice priority count ≤ 6 := by
  have hQuot : (4 : Int).tdiv count ≤ 2 := by
    rw [Int.tdiv_eq_ediv_of_nonneg (by decide)]
    exact Int.ediv_le_of_le_mul (by omega) (by omega)
  unfold timeSlice
  split <;> omega

/-- The turn of the current task ends within six of `base`. -/
def TurnWithin (members : Set TaskId) (base : Int) (s : Schedule) : Prop :=
  s.nowTask ∈ members →
    s.vrun s.nowTask + turn s.cpuExecTaskJiffies (tickCharge s.now.priority) ≤ base + 6

/-! ## Ticks -/

theorem charge_cpuExecTaskJiffies (s : Schedule) (amount : Int) :
    (charge s amount).cpuExecTaskJiffies = s.cpuExecTaskJiffies - amount := by
  unfold charge
  dsimp only
  split <;> rfl

theorem charge_priority (s : Schedule) (amount : Int) (t : TaskId) :
    ((charge s amount).tasks t).priority = (s.tasks t).priority := by
  unfold charge
  dsimp only
  split
  · rw [Schedule.modify_tasks_field TaskStruct.priority _ _ _ _ rfl]
    exact Schedule.modify_tasks_field TaskStruct.priority _ _ _ _ rfl
  · exact Schedule.modify_tasks_field TaskStruct.priority _ _ _ _ rfl

theorem pitHandler_vrun (s : Schedule) (t : TaskId) :
    (pitHandler s).vrun t = s.vrun t + if t = s.nowTask then tickCharge s.now.priority else 0 := by
  unfold pitHandler
  split
  · next hEq =>
    rw [hEq, charge_vrun_self]
    rfl
  · next hNe =>
    rw [Int.add_zero]
    exact congrArg TaskStruct.vrunTime (charge_tasks_other s _ hNe)

section
variable {members : Set TaskId} {base : Int} {s : Schedule}

theorem Members.pitHandler (h : Members members s) : Members members (pitHandler s) where
  queue := h.queue.charge _
  several := h.several
  init_notMem := h.init_notMem
  known t ht := by
    unfold Scheduler.pitHandler
    rw [charge_taskQueue, charge_nowTask]
    exact h.known t ht
  running t ht := (charge_state s _ t).trans (h.running t ht)
  slice := by
    have hSlice := h.slice
    have hCharge := tickCharge_cases s.now.priority
    unfold Scheduler.pitHandler
    rw [charge_cpuExecTaskJiffies]
    omega

theorem Within.pitHandler (h : Within members base s) (hTurn : TurnWithin members base s) :
    Within members base (pitHandler s) where
  toMembers := h.toMembers.pitHandler
  least t ht := by
    have hLeast := h.least t ht
    have hCharge := tickCharge_cases s.now.priority
    rw [pitHandler_vrun]
    split <;> omega
  most t ht := by
    have hMost := h.most t ht
    rw [pitHandler_vrun]
    split
    · next hEq =>
      have hEnd := hTurn (hEq ▸ ht)
      have hCharge := le_turn s.cpuExecTaskJiffies (tickCharge_cases s.now.priority)
      rw [hEq]
      omega
    · omega

theorem TurnWithin.pitHandler (hTurn : TurnWithin members base s)
    (hLeft : 0 < (pitHandler s).cpuExecTaskJiffies) : TurnWithin members base (pitHandler s) := by
  intro hNow
  have hEq : (Scheduler.pitHandler s).nowTask = s.nowTask := charge_nowTask s _
  have hPriority : (Scheduler.pitHandler s).now.priority = s.now.priority := by
    unfold Schedule.now
    rw [hEq]
    exact charge_priority s _ _
  have hSlice : (Scheduler.pitHandler s).cpuExecTaskJiffies =
      s.cpuExecTaskJiffies - tickCharge s.now.priority := charge_cpuExecTaskJiffies s _
  rw [hSlice] at hLeft
  rw [hPriority, hSlice, turn_sub (tickCharge_cases _) hLeft, pitHandler_vrun, hEq, if_pos rfl]
  have hEnd := hTurn (hEq ▸ hNow)
  omega

/-! ## `schedule` -/

@[simp] theorem sliceState_cpuExecTaskJiffies (s : Schedule) :
    (sliceState s).cpuExecTaskJiffies = s.cpuExecTaskJiffies := by
  have hInsert : ∀ t, (insertTaskQueue (afterPick s) t).cpuExecTaskJiffies = s.cpuExecTaskJiffies := by
    intro t
    unfold insertTaskQueue
    split <;> rfl
  unfold sliceState
  split
  · split
    · exact hInsert _
    · rfl
  · exact hInsert _

/-- A slice that is used up exactly is refilled for the task that was picked. -/
theorem schedule_cpuExecTaskJiffies (s : Schedule) :
    (schedule s).cpuExecTaskJiffies =
      if s.cpuExecTaskJiffies = 0 then
        timeSlice ((sliceState s).tasks (picked s)).priority (schedule s).runningTaskCount
      else s.cpuExecTaskJiffies := by
  have hRefill : (schedule s).cpuExecTaskJiffies =
      (refillSlice (sliceState s) (picked s)).cpuExecTaskJiffies := by
    rw [schedule_eq]
    split <;> rfl
  rw [hRefill, schedule_runningTaskCount]
  unfold refillSlice
  rw [sliceState_cpuExecTaskJiffies]
  split
  · rfl
  · exact sliceState_cpuExecTaskJiffies s

/-- Somebody waits while a member runs, and two wait while none does. -/
theorem two_le_count (hQueue : QueueInv s) (hSeveral : members.Nontrivial)
    (hKnown : ∀ t ∈ members, t ∈ s.taskQueue ∨ t = s.nowTask) : 2 ≤ s.runningTaskCount := by
  obtain ⟨t, ht, u, hu, hNe⟩ := hSeveral
  have hPos : 0 < s.taskQueue.length := by
    apply List.length_pos_iff_exists_mem.mpr
    obtain hMem | hNow := hKnown t ht
    · exact ⟨t, hMem⟩
    · obtain hMem | hNow' := hKnown u hu
      · exact ⟨u, hMem⟩
      · exact absurd (hNow.trans hNow'.symm) hNe
  rw [hQueue.count]
  omega

theorem Members.schedule (h : Members members s) : Members members (schedule s) := by
  have hKnown : ∀ t ∈ members, t ∈ (Scheduler.schedule s).taskQueue ∨
      t = (Scheduler.schedule s).nowTask := by
    intro t ht
    have hOut : t ≠ initTask := fun hEq => h.init_notMem (hEq ▸ ht)
    have hBefore : Known s t := (h.known t ht).imp_right Or.inl
    rcases (h.queue.schedule_known t).mpr ⟨hBefore, fun hGone => hGone.2.2 (h.running t ht)⟩ with
      hMem | hNow | hInit
    · exact Or.inl hMem
    · exact Or.inr hNow
    · exact absurd hInit hOut
  have hRunning : ∀ t ∈ members, (Scheduler.schedule s).state t = .running := by
    intro t ht
    rw [schedule_state]
    exact h.running t ht
  refine ⟨h.queue.schedule, h.several, h.init_notMem, hKnown, hRunning, ?_⟩
  rw [schedule_cpuExecTaskJiffies]
  split
  · exact timeSlice_le _ (two_le_count h.queue.schedule h.several hKnown)
  · exact h.slice

/-- `schedule` starts a turn of the hindmost task. -/
theorem Within.schedule (h : Within members base s) :
    ∃ next, Within members next (schedule s) ∧ TurnWithin members next (schedule s) := by
  have hMembers := h.toMembers.schedule
  by_cases hNow : (Scheduler.schedule s).nowTask ∈ members
  · refine ⟨s.vrun (Scheduler.schedule s).nowTask, ⟨hMembers, ?_, ?_⟩, fun _ => ?_⟩
    · intro t ht
      rw [schedule_vrun]
      obtain hMem | hEq := hMembers.known t ht
      · exact h.queue.schedule_least t hMem
      · exact le_of_eq (congrArg s.vrun hEq.symm)
    · intro t ht
      have hLeast := h.least _ hNow
      have hMost := h.most t ht
      rw [schedule_vrun]
      omega
    · have hTurn := turn_le (tickCharge_cases (Scheduler.schedule s).now.priority) hMembers.slice
      rw [schedule_vrun]
      omega
  · refine ⟨base, ⟨hMembers, ?_, ?_⟩, fun hMem => absurd hMem hNow⟩
    · intro t ht
      rw [schedule_vrun]
      exact h.least t ht
    · intro t ht
      rw [schedule_vrun]
      exact h.most t ht

end

/-! ## Runs -/

def FairInv (members : Set TaskId) (s : Schedule) : Prop :=
  ∃ base, Within members base s ∧ TurnWithin members base s

theorem Level.fairInv {members : Set TaskId} {s : Schedule} (h : Level members s) :
    FairInv members s := by
  obtain ⟨t, ht⟩ := h.several.nonempty
  refine ⟨s.vrun t, ⟨h.toMembers, ?_, ?_⟩, ?_⟩
  · intro u hu
    exact le_of_eq (h.level t ht u hu)
  · intro u hu
    have hEq := h.level u hu t ht
    omega
  · intro hNow
    have hEq := h.level _ hNow t ht
    have hTurn := turn_le (tickCharge_cases s.now.priority) h.slice
    omega

theorem fairStep_inv {members : Set TaskId} {s t : Schedule} {op : FairOp} (h : FairInv members s)
    (hStep : FairStep s op t) : FairInv members t := by
  obtain ⟨base, hWithin, hTurn⟩ := h
  rw [hStep]
  cases op with
  | tick =>
    have hTick := hWithin.pitHandler hTurn
    show FairInv members (timerTick s)
    unfold timerTick
    dsimp only
    split
    · exact hTick.schedule
    · next hLeft => exact ⟨base, hTick, hTurn.pitHandler (not_le.mp hLeft)⟩
  | schedule => exact hWithin.schedule

/-- A step charges a task two units at most. -/
theorem fairApply_vrun (s : Schedule) (op : FairOp) (t : TaskId) :
    s.vrun t ≤ (fairApply s op).vrun t ∧ (fairApply s op).vrun t ≤ s.vrun t + 2 := by
  have hTick : s.vrun t ≤ (pitHandler s).vrun t ∧ (pitHandler s).vrun t ≤ s.vrun t + 2 := by
    have hCharge := tickCharge_cases s.now.priority
    rw [pitHandler_vrun]
    split <;> omega
  cases op with
  | tick =>
    unfold fairApply timerTick
    dsimp only
    split
    · rw [schedule_vrun]
      exact hTick
    · exact hTick
  | schedule =>
    unfold fairApply
    rw [schedule_vrun]
    omega

theorem fairRun_vrun {start s : Schedule} {ops : List FairOp} (h : Run FairStep start ops s) (t : TaskId) :
    start.vrun t ≤ s.vrun t ∧ s.vrun t ≤ start.vrun t + 2 * ops.length := by
  induction h with
  | nil => simp
  | @snoc r u ops op before last ih =>
    cases last
    have hStep := fairApply_vrun r op t
    rw [List.length_append, List.length_singleton]
    omega

/-- The members of a level set stay within six of each other, whatever is run. A counter grows by two units a
step at most, so that it stays below the sentinel of the queue for as many steps as are left to it. -/
theorem fair_share (members : Set TaskId) (start s : Schedule) (ops : List FairOp) (hLevel : Level members start)
    (hRun : Run FairStep start ops s) :
    (∀ t ∈ members, ∀ u ∈ members, s.vrun t - s.vrun u ≤ 6) ∧
      ∀ t, start.vrun t + 2 * ops.length < sentinel → s.vrun t < sentinel := by
  have hInv : FairInv members s :=
    Reach.invariant (P := FairInv members) (fun _ hs => hs.fairInv)
      (fun _ _ _ hs hStep => fairStep_inv hs hStep) ⟨start, ops, hLevel, hRun⟩
  obtain ⟨base, hWithin, -⟩ := hInv
  constructor
  · intro t ht u hu
    have hMost := hWithin.most t ht
    have hLeast := hWithin.least u hu
    omega
  · intro t hBelow
    exact (fairRun_vrun hRun t).2.trans_lt hBelow

/-- Two tasks that the idle task forked. -/
def twoForked : Schedule := doFork (doFork (scheduleInit initTask bootTasks) initTask 1) initTask 2

theorem twoForked_level : Level {1, 2} twoForked where
  queue := by
    have hInit : Inv (scheduleInit initTask bootTasks) :=
      initial_inv ⟨initTask, bootTasks, fun _ => (by decide : (0 : Int) < sentinel), rfl⟩
    have hFirst : Inv (doFork (scheduleInit initTask bootTasks) initTask 1) :=
      hInit.doFork initTask (by decide) (by decide)
    have hSecond : Inv twoForked := hFirst.doFork initTask (by decide) (by decide)
    exact hSecond.toQueueInv
  several := ⟨1, Or.inl rfl, 2, Or.inr rfl, by decide⟩
  init_notMem := by
    rintro (h | h) <;> cases h
  known := by
    rintro t (rfl | rfl) <;> exact Or.inl (by decide)
  running := by
    rintro t (rfl | rfl) <;> decide
  slice := by decide
  level := by
    rintro t (rfl | rfl) u (rfl | rfl) <;> decide

/-- Five ticks: the idle task's slice, then a whole turn of six. -/
theorem fair_share_twoForked : ∃ s : Schedule, s.vrun 2 = 6 ∧ s.vrun 2 - s.vrun 1 ≤ 6 ∧ s.vrun 2 < sentinel := by
  have hSome : (runList (fun s op => some (fairApply s op)) twoForked
      (List.replicate 5 .tick)).map (fun s => s.vrun 2) = some 6 := by decide +kernel
  obtain ⟨s, hs, hVrun⟩ := Option.map_eq_some_iff.mp hSome
  have hRun : Run FairStep twoForked (List.replicate 5 .tick) s :=
    run_of_runList (fun _ _ _ hNext => (Option.some.inj hNext).symm) hs
  have hFair := fair_share {1, 2} twoForked s (List.replicate 5 .tick) twoForked_level hRun
  exact ⟨s, hVrun, hFair.1 2 (Or.inr rfl) 1 (Or.inl rfl), hFair.2 2 (by decide)⟩

end KalinoteOS.Scheduler
