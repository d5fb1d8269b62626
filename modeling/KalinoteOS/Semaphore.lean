import KalinoteOS.Lib.Run
import KalinoteOS.Scheduler.Run
import Mathlib.Algebra.Order.Ring.Int

/-! # Semaphores

A blocked `semaphore_down` returns when `schedule` gives its task the CPU again, whether
`semaphore_up` woke it or not. Each call is one step, up to its `schedule`.
-/
namespace KalinoteOS.Semaphore
open Scheduler Lib
set_option autoImplicit false

/-- `semaphore_T`, with the tasks of its wait list in `list_next` order. -/
structure SemaphoreT where
  counter : Int
  waitList : List TaskId

/-- `blocked t` says that `t` is in the `schedule` of its `__down`. The other fields count and
record what happened. -/
structure State where
  sched : Schedule
  sem : SemaphoreT
  blocked : TaskId → Bool
  returned : Nat
  ups : Nat
  arrived : List TaskId
  woken : List TaskId

/-- `atomic_inc` of a `long`. -/
def atomicInc (value : Int) : Int := (value + 1).bmod (2 ^ 64)

/-- A blocked task that has the CPU returns from `semaphore_down`. -/
def resume (s : State) : State :=
  if s.blocked s.sched.nowTask then
    { s with
      blocked := Function.update s.blocked s.sched.nowTask false
      returned := s.returned + 1 }
  else s

def reschedule (s : State) : State := resume { s with sched := schedule s.sched }

/-- `__up`, with `tsk` the first task of the wait list. -/
def up (s : State) (tsk : TaskId) (rest : List TaskId) : State :=
  { s with
    sem := { s.sem with waitList := rest }
    sched := wakeUp s.sched tsk
    woken := s.woken ++ [tsk] }

def semaphoreUp (s : State) : State :=
  let s := { s with ups := s.ups + 1 }
  match s.sem.waitList with
  | [] => { s with sem := { s.sem with counter := atomicInc s.sem.counter } }
  | tsk :: rest => up s tsk rest

/-- `__down` up to its `schedule`. -/
def down (s : State) : State :=
  { s with
    sched := s.sched.setState s.sched.nowTask .uninterruptible
    sem := { s.sem with waitList := s.sem.waitList ++ [s.sched.nowTask] }
    blocked := Function.update s.blocked s.sched.nowTask true
    arrived := s.arrived ++ [s.sched.nowTask] }

def semaphoreDown (s : State) : State :=
  if 0 < s.sem.counter then
    { s with sem := { s.sem with counter := s.sem.counter - 1 }, returned := s.returned + 1 }
  else reschedule (down s)

/-- The calls are those of the current task; an interrupt may call `semaphore_up` as well. -/
inductive Action where
  | semaphoreDown
  | semaphoreUp
  | tick
  | schedule
  deriving DecidableEq, Repr

def step (s : State) : Action → State
  | .semaphoreDown => semaphoreDown s
  | .semaphoreUp => semaphoreUp s
  | .tick => { s with sched := pitHandler s.sched }
  | .schedule => reschedule s

def Step (s : State) (a : Action) (t : State) : Prop := t = step s a

/-- After `semaphore_init` with `n`; every task of the scheduler is ready to run. -/
structure Initial (n : Nat) (s : State) : Prop where
  queue : QueueInv s.sched
  running : ∀ t, Known s.sched t → s.sched.state t = .running
  fits : n < 2 ^ 63
  sem : s.sem = ⟨n, []⟩
  blocked : ∀ t, s.blocked t = false
  returned : s.returned = 0
  ups : s.ups = 0
  arrived : s.arrived = []
  woken : s.woken = []

structure Spec (n : Nat) (s : State) : Prop where
  conserved : s.returned ≤ n + s.ups
  nonneg : 0 ≤ s.sem.counter
  empty : s.sem.waitList ≠ [] → s.sem.counter = 0
  order : s.arrived = s.woken ++ s.sem.waitList
  apart : ∀ t ∈ s.sem.waitList, t ≠ s.sched.nowTask ∧ t ∉ s.sched.taskQueue

/-- `schedule` finds nothing but `init_task`. -/
def FallsBack (s : Schedule) : Prop := s.taskQueue = [] ∧ yields s initTask

instance (s : Schedule) : Decidable (FallsBack s) := inferInstanceAs (Decidable (_ ∧ _))

/-- No `schedule` falls back to `init_task` while `init_task` waits, and the counter of a
semaphore without waiting tasks is below the largest `long`. -/
def Good (s : State) : Action → Prop
  | .semaphoreDown =>
    0 < s.sem.counter ∨ s.sched.taskQueue ≠ [] ∨
      (s.sched.nowTask ≠ initTask ∧ initTask ∉ s.sem.waitList)
  | .semaphoreUp => s.sem.waitList ≠ [] ∨ s.sem.counter < 2 ^ 63 - 1
  | .tick => True
  | .schedule => ¬ (FallsBack s.sched ∧ initTask ∈ s.sem.waitList)

instance (s : State) (a : Action) : Decidable (Good s a) :=
  match a with
  | .semaphoreDown => inferInstanceAs (Decidable (_ ∨ _ ∨ _ ∧ _))
  | .semaphoreUp => inferInstanceAs (Decidable (_ ∨ _))
  | .tick => isTrue trivial
  | .schedule => inferInstanceAs (Decidable (¬ _))

/-! ## The invariant -/

/-- `woken` tasks that have not returned yet hold a permit each. -/
structure Permits (n : Nat) (s : State) (ready : List TaskId) : Prop where
  nodup : ready.Nodup
  mem : ∀ t, t ∈ ready ↔ s.blocked t ∧ t ∉ s.sem.waitList
  total : s.sem.counter + s.returned + ready.length = n + s.ups

/-- What holds where `schedule` is called. -/
structure Base (n : Nat) (s : State) : Prop where
  queue : QueueInv s.sched
  nodup : s.sem.waitList.Nodup
  waits : ∀ t ∈ s.sem.waitList,
    t ∉ s.sched.taskQueue ∧ s.blocked t ∧ s.sched.state t = .uninterruptible
  running : ∀ t, Known s.sched t → t ∉ s.sem.waitList → s.sched.state t = .running
  nonneg : 0 ≤ s.sem.counter
  bounded : s.sem.counter < 2 ^ 63
  empty : s.sem.waitList ≠ [] → s.sem.counter = 0
  order : s.arrived = s.woken ++ s.sem.waitList
  permits : ∃ ready, Permits n s ready

/-- Between the steps the current task is not blocked. -/
structure Inv (n : Nat) (s : State) : Prop extends Base n s where
  now_out : s.blocked s.sched.nowTask = false

section
variable {n : Nat} {s : State}

theorem Base.spec (h : Base n s) (hNow : s.sched.nowTask ∉ s.sem.waitList) : Spec n s := by
  constructor
  · obtain ⟨ready, hReady⟩ := h.permits
    have hTotal := hReady.total
    have hCounter := h.nonneg
    omega
  · exact h.nonneg
  · exact h.empty
  · exact h.order
  · intro t ht
    constructor
    · rintro rfl
      exact hNow ht
    · exact (h.waits t ht).1

theorem Inv.now_notMem (h : Inv n s) : s.sched.nowTask ∉ s.sem.waitList := by
  intro hMem
  have hBlocked := (h.waits _ hMem).2.1
  rw [h.now_out] at hBlocked
  cases hBlocked

/-! ## `schedule` -/

/-- A waiting task stays outside the queue, and no task comes in from outside. -/
theorem Base.schedule (h : Base n s) : Base n { s with sched := schedule s.sched } where
  queue := h.queue.schedule
  nodup := h.nodup
  waits t ht := by
    obtain ⟨hOut, hBlocked, hState⟩ := h.waits t ht
    refine ⟨?_, hBlocked, (schedule_state s.sched t).trans hState⟩
    rw [h.queue.mem_schedule]
    split
    · rintro (⟨rfl, hRequeue⟩ | hMem)
      · cases hState.symm.trans hRequeue.1
      · exact hOut (List.mem_of_mem_tail hMem)
    · exact hOut
  running t hKnown ht := by
    rw [schedule_state]
    exact h.running t ((h.queue.schedule_known t).mp hKnown).1 ht
  nonneg := h.nonneg
  bounded := h.bounded
  empty := h.empty
  order := h.order
  permits := by
    obtain ⟨ready, hReady⟩ := h.permits
    exact ⟨ready, hReady.nodup, hReady.mem, hReady.total⟩

theorem Base.resume (h : Base n s) (hNow : s.sched.nowTask ∉ s.sem.waitList) :
    Inv n (resume s) := by
  unfold Semaphore.resume
  split
  · next hBlocked =>
    obtain ⟨ready, hReady⟩ := h.permits
    have hMem : s.sched.nowTask ∈ ready := (hReady.mem _).mpr ⟨hBlocked, hNow⟩
    have hWaits : ∀ t ∈ s.sem.waitList, t ∉ s.sched.taskQueue ∧
        Function.update s.blocked s.sched.nowTask false t ∧
        s.sched.state t = .uninterruptible := by
      intro t ht
      have hNe : t ≠ s.sched.nowTask := fun hEq => hNow (hEq ▸ ht)
      rw [Function.update_of_ne hNe]
      exact h.waits t ht
    have hPermits : Permits n { s with
        blocked := Function.update s.blocked s.sched.nowTask false
        returned := s.returned + 1 } (ready.erase s.sched.nowTask) := by
      constructor
      · exact hReady.nodup.erase _
      · intro t
        rw [hReady.nodup.mem_erase_iff, hReady.mem]
        dsimp only
        by_cases hEq : t = s.sched.nowTask
        · subst hEq
          rw [Function.update_self]
          simp
        · rw [Function.update_of_ne hEq]
          simp [hEq]
      · have hTotal := hReady.total
        have hLength := List.length_erase_of_mem hMem
        have hPos := List.length_pos_of_mem hMem
        dsimp only
        omega
    exact ⟨⟨h.queue, h.nodup, hWaits, h.running, h.nonneg, h.bounded, h.empty, h.order,
      _, hPermits⟩, Function.update_self _ _ _⟩
  · next hBlocked => exact ⟨h, Bool.not_eq_true _ |>.mp hBlocked⟩

/-- Only the fallback gives the CPU to a waiting task. -/
theorem Base.schedule_now (h : Base n s) :
    (Scheduler.schedule s.sched).nowTask ∈ s.sem.waitList ↔
      FallsBack s.sched ∧ initTask ∈ s.sem.waitList := by
  -- a waiting task that had the CPU leaves it
  have hLeaves : ¬ yields s.sched (picked s.sched) → s.sched.nowTask ∉ s.sem.waitList := by
    intro hStays hMem
    have hNot : s.sched.state s.sched.nowTask ≠ .running := by
      rw [(h.waits _ hMem).2.2]
      exact TaskState.noConfusion
    exact hStays (Or.inr hNot)
  rw [schedule_nowTask]
  obtain ⟨hEmpty, hPicked⟩ | hQueue := picked_cases s.sched
  · rw [hPicked] at hLeaves ⊢
    by_cases hYields : yields s.sched initTask
    · rw [if_pos hYields]
      exact ⟨fun hMem => ⟨⟨hEmpty, hYields⟩, hMem⟩, And.right⟩
    · rw [if_neg hYields]
      exact iff_of_false (hLeaves hYields) fun hBack => hYields hBack.1.2
  · have hNonempty : s.sched.taskQueue ≠ [] := by
      rw [hQueue]
      exact List.cons_ne_nil _ _
    refine iff_of_false (fun hMem => ?_) fun hBack => hNonempty hBack.1.1
    by_cases hYields : yields s.sched (picked s.sched)
    · rw [if_pos hYields] at hMem
      refine absurd ?_ (h.waits _ hMem).1
      rw [hQueue]
      exact List.mem_cons_self
    · rw [if_neg hYields] at hMem
      exact hLeaves hYields hMem

theorem resume_sched (s : State) : (resume s).sched = s.sched := by
  unfold Semaphore.resume
  split <;> rfl

theorem resume_sem (s : State) : (resume s).sem = s.sem := by
  unfold Semaphore.resume
  split <;> rfl

/-- `schedule` keeps the law exactly when it does not fall back to a waiting `init_task`. -/
theorem Base.reschedule (h : Base n s) :
    (¬ (FallsBack s.sched ∧ initTask ∈ s.sem.waitList) → Inv n (reschedule s)) ∧
    (FallsBack s.sched ∧ initTask ∈ s.sem.waitList → ¬ Spec n (reschedule s)) := by
  unfold Semaphore.reschedule
  constructor
  · intro hGood
    exact h.schedule.resume fun hMem => hGood (h.schedule_now.mp hMem)
  · intro hBad hSpec
    have hMem := h.schedule_now.mpr hBad
    have hApart := hSpec.apart (Scheduler.schedule s.sched).nowTask
    rw [resume_sem, resume_sched] at hApart
    exact (hApart hMem).1 rfl

/-! ## The calls -/

/-- A task that has to wait enters the list behind the others. -/
theorem Inv.down (h : Inv n s) (hZero : s.sem.counter = 0) : Base n (down s) := by
  have hOld : ∀ t ∈ s.sem.waitList, t ≠ s.sched.nowTask := fun t ht hEq => h.now_notMem (hEq ▸ ht)
  constructor
  · exact h.queue.setState _ _
  · exact List.nodup_append.mpr ⟨h.nodup, List.nodup_singleton _, fun t ht u hu =>
      List.mem_singleton.mp hu ▸ hOld t ht⟩
  · intro t ht
    unfold Semaphore.down
    dsimp only
    obtain ht | ht := List.mem_append.mp ht
    · rw [Function.update_of_ne (hOld t ht), Schedule.setState_state_other _ _ (hOld t ht)]
      exact h.waits t ht
    · cases List.mem_singleton.mp ht
      exact ⟨h.queue.now_notMem, Function.update_self _ _ _, Schedule.setState_state_self _ _ _⟩
  · intro t hKnown ht
    have hNe : t ≠ s.sched.nowTask := fun hEq =>
      ht (List.mem_append_right _ (List.mem_singleton.mpr hEq))
    refine (Schedule.setState_state_other _ _ hNe).trans ?_
    exact h.running t hKnown fun hMem => ht (List.mem_append_left _ hMem)
  · exact h.nonneg
  · exact h.bounded
  · intro _
    exact hZero
  · unfold Semaphore.down
    dsimp only
    rw [h.order, List.append_assoc]
  · obtain ⟨ready, hReady⟩ := h.permits
    refine ⟨ready, hReady.nodup, fun t => ?_, hReady.total⟩
    rw [hReady.mem]
    unfold Semaphore.down
    dsimp only
    obtain rfl | hNe := eq_or_ne t s.sched.nowTask
    · simp [h.now_out]
    · rw [Function.update_of_ne hNe]
      simp [hNe]

theorem Inv.semaphoreDown_pos (h : Inv n s) (hPos : 0 < s.sem.counter) :
    Inv n (semaphoreDown s) := by
  have hEmpty : s.sem.waitList = [] := by
    by_contra hNe
    have hZero := h.empty hNe
    omega
  unfold semaphoreDown
  rw [if_pos hPos]
  obtain ⟨ready, hReady⟩ := h.permits
  refine ⟨⟨h.queue, h.nodup, h.waits, h.running, ?_, ?_, ?_, h.order, ready, hReady.nodup,
    hReady.mem, ?_⟩, h.now_out⟩
  · dsimp only
    omega
  · have hBounded := h.bounded
    dsimp only
    omega
  · intro hNe
    exact absurd hEmpty hNe
  · have hTotal := hReady.total
    dsimp only
    omega

theorem fallsBack_down (hZero : ¬ 0 < s.sem.counter) :
    (FallsBack (down s).sched ∧ initTask ∈ (down s).sem.waitList) ↔ ¬ Good s .semaphoreDown := by
  have hYields : yields (down s).sched initTask := by
    have hState := Schedule.setState_state_self s.sched s.sched.nowTask .uninterruptible
    refine Or.inr ?_
    show (s.sched.setState s.sched.nowTask .uninterruptible).state s.sched.nowTask ≠ .running
    rw [hState]
    exact TaskState.noConfusion
  have hQueue : (down s).sched.taskQueue = s.sched.taskQueue := rfl
  have hMem : initTask ∈ (down s).sem.waitList ↔
      initTask ∈ s.sem.waitList ∨ initTask = s.sched.nowTask := by
    unfold Semaphore.down
    rw [List.mem_append, List.mem_singleton]
  unfold FallsBack Good
  rw [hQueue, hMem]
  constructor
  · rintro ⟨⟨hEmpty, -⟩, hInit⟩ (hPos | hNe | ⟨hNow, hOut⟩)
    · exact hZero hPos
    · exact hNe hEmpty
    · exact hInit.elim hOut fun hEq => hNow hEq.symm
  · intro hBad
    refine ⟨⟨by_contra fun hNe => hBad (Or.inr (Or.inl hNe)), hYields⟩, ?_⟩
    by_contra hOut
    rw [not_or] at hOut
    exact hBad (Or.inr (Or.inr ⟨Ne.symm hOut.2, hOut.1⟩))

/-- The first waiting task is woken and holds the permit until it returns. -/
theorem Inv.up (h : Inv n s) {tsk : TaskId} {rest : List TaskId}
    (hWait : s.sem.waitList = tsk :: rest) : Inv n (up { s with ups := s.ups + 1 } tsk rest) := by
  have hNodup := h.nodup
  have hWaits := h.waits
  have hOrder := h.order
  have hNow := h.now_notMem
  rw [hWait] at hNodup hWaits hOrder hNow
  obtain ⟨hOut, hBlocked, -⟩ := hWaits tsk List.mem_cons_self
  have hNe : ∀ t ∈ rest, t ≠ tsk := fun t ht hEq => (List.nodup_cons.mp hNodup).1 (hEq ▸ ht)
  have hZero : s.sem.counter = 0 := h.empty (by rw [hWait]; exact List.cons_ne_nil _ _)
  have hTskNow : tsk ≠ s.sched.nowTask := fun hEq => hNow (hEq ▸ List.mem_cons_self)
  have hQueue : ∀ t, t ∈ (wakeUp s.sched tsk).taskQueue → t = tsk ∨ t ∈ s.sched.taskQueue :=
    fun t ht => (mem_wakeUp.mp ht).imp_left And.left
  have hState : ∀ t, t ≠ tsk → (wakeUp s.sched tsk).state t = s.sched.state t :=
    fun t ht => wakeUp_state_of_ne s.sched ht
  have hNowTask := wakeUp_nowTask s.sched tsk
  constructor
  · constructor
    · exact (h.queue.setState tsk .running).insert hOut hTskNow
    · exact (List.nodup_cons.mp hNodup).2
    · intro t ht
      obtain ⟨hOutT, hBlockedT, hStateT⟩ := hWaits t (List.mem_cons_of_mem _ ht)
      refine ⟨fun hMem => ?_, hBlockedT, (hState t (hNe t ht)).trans hStateT⟩
      exact (hQueue t hMem).elim (hNe t ht) hOutT
    · intro t hKnown ht
      show (wakeUp s.sched tsk).state t = .running
      obtain rfl | hNeT := eq_or_ne t tsk
      · exact wakeUp_state_self s.sched t
      · rw [hState t hNeT]
        apply h.running t
        · obtain hMem | hEq | hInit := hKnown
          · exact Or.inl ((hQueue t hMem).resolve_left hNeT)
          · exact Or.inr (Or.inl (hEq.trans hNowTask))
          · exact Or.inr (Or.inr hInit)
        · rw [hWait]
          exact fun hMem => (List.mem_cons.mp hMem).elim hNeT ht
    · exact h.nonneg
    · exact h.bounded
    · intro _
      exact hZero
    · show s.arrived = (s.woken ++ [tsk]) ++ rest
      rw [hOrder, List.append_assoc]
      rfl
    · obtain ⟨ready, hReady⟩ := h.permits
      have hNotReady : tsk ∉ ready := by
        rw [hReady.mem, hWait]
        exact fun hMem => hMem.2 List.mem_cons_self
      refine ⟨tsk :: ready, List.nodup_cons.mpr ⟨hNotReady, hReady.nodup⟩, fun t => ?_, ?_⟩
      · show t ∈ tsk :: ready ↔ s.blocked t ∧ t ∉ rest
        rw [List.mem_cons, hReady.mem, hWait, List.mem_cons]
        constructor
        · rintro (rfl | ⟨hB, hOutT⟩)
          · exact ⟨hBlocked, (List.nodup_cons.mp hNodup).1⟩
          · exact ⟨hB, fun hMem => hOutT (Or.inr hMem)⟩
        · rintro ⟨hB, hOutT⟩
          obtain hEq | hNeT := eq_or_ne t tsk
          · exact Or.inl hEq
          · exact Or.inr ⟨hB, fun hMem => hMem.elim hNeT hOutT⟩
      · have hTotal := hReady.total
        show s.sem.counter + s.returned + ((tsk :: ready).length : Int) = n + ((s.ups + 1 : Nat) : Int)
        rw [List.length_cons]
        omega
  · show s.blocked (wakeUp s.sched tsk).nowTask = false
    rw [hNowTask]
    exact h.now_out

theorem atomicInc_eq {value : Int} (hNonneg : 0 ≤ value) (hLt : value < 2 ^ 63) :
    atomicInc value = if value < 2 ^ 63 - 1 then value + 1 else - 2 ^ 63 := by
  unfold atomicInc
  rw [Int.bmod_def]
  split <;> split <;> omega

theorem Inv.semaphoreUp_nil (h : Inv n s) (hWait : s.sem.waitList = []) :
    (Good s .semaphoreUp → Inv n (semaphoreUp s)) ∧
    (¬ Good s .semaphoreUp → ¬ Spec n (semaphoreUp s)) := by
  have hInc := atomicInc_eq h.nonneg h.bounded
  have hEq : semaphoreUp s = { s with
      ups := s.ups + 1, sem := { s.sem with counter := atomicInc s.sem.counter } } := by
    unfold semaphoreUp
    dsimp only
    rw [hWait]
  rw [hEq]
  constructor
  · intro hGood
    have hRoom : s.sem.counter < 2 ^ 63 - 1 := hGood.resolve_left fun hNe => hNe hWait
    rw [hInc, if_pos hRoom]
    obtain ⟨ready, hReady⟩ := h.permits
    have hNonneg := h.nonneg
    have hTotal := hReady.total
    refine ⟨⟨h.queue, h.nodup, h.waits, h.running, ?_, ?_, ?_, h.order, ready, hReady.nodup,
      hReady.mem, ?_⟩, h.now_out⟩
    · dsimp only
      omega
    · dsimp only
      omega
    · intro hNe
      exact absurd hWait hNe
    · dsimp only
      omega
  · intro hBad hSpec
    have hFull : ¬ s.sem.counter < 2 ^ 63 - 1 := fun hLt => hBad (Or.inr hLt)
    have hNonneg := hSpec.nonneg
    dsimp only at hNonneg
    rw [hInc, if_neg hFull] at hNonneg
    exact absurd hNonneg (by decide)

theorem Inv.tick (h : Inv n s) : Inv n { s with sched := pitHandler s.sched } := by
  have hQueue : (pitHandler s.sched).taskQueue = s.sched.taskQueue := charge_taskQueue _ _
  have hNow : (pitHandler s.sched).nowTask = s.sched.nowTask := charge_nowTask _ _
  obtain ⟨ready, hReady⟩ := h.permits
  refine ⟨⟨h.queue.charge _, h.nodup, ?_, ?_, h.nonneg, h.bounded, h.empty, h.order, ready,
    hReady.nodup, hReady.mem, hReady.total⟩, ?_⟩
  · intro t ht
    dsimp only
    rw [hQueue]
    obtain ⟨hOut, hBlocked, hState⟩ := h.waits t ht
    exact ⟨hOut, hBlocked, (charge_state _ _ t).trans hState⟩
  · intro t hKnown ht
    refine (charge_state _ _ t).trans (h.running t ?_ ht)
    unfold Known at hKnown ⊢
    dsimp only at hKnown
    rwa [hQueue, hNow] at hKnown
  · dsimp only
    rw [hNow]
    exact h.now_out

/-! ## Whole runs -/

/-- A step keeps the law exactly when it is good. -/
theorem Inv.step (h : Inv n s) (a : Action) :
    (Good s a → Inv n (step s a)) ∧ (¬ Good s a → ¬ Spec n (step s a)) := by
  cases a with
  | semaphoreDown =>
    by_cases hPos : 0 < s.sem.counter
    · exact ⟨fun _ => h.semaphoreDown_pos hPos, fun hBad => absurd (Or.inl hPos) hBad⟩
    · have hZero : s.sem.counter = 0 := le_antisymm (not_lt.mp hPos) h.nonneg
      have hBlock := (h.down hZero).reschedule
      have hEq : Semaphore.step s .semaphoreDown = Semaphore.reschedule (Semaphore.down s) :=
        if_neg hPos
      rw [fallsBack_down hPos] at hBlock
      rw [hEq]
      exact ⟨fun hGood => hBlock.1 (not_not.mpr hGood), hBlock.2⟩
  | semaphoreUp =>
    cases hWait : s.sem.waitList with
    | nil => exact h.semaphoreUp_nil hWait
    | cons tsk rest =>
      have hNe : s.sem.waitList ≠ [] := by
        rw [hWait]
        exact List.cons_ne_nil _ _
      have hEq : Semaphore.step s .semaphoreUp =
          Semaphore.up { s with ups := s.ups + 1 } tsk rest := by
        unfold Semaphore.step semaphoreUp
        dsimp only
        rw [hWait]
      rw [hEq]
      exact ⟨fun _ => h.up hWait, fun hBad => absurd (Or.inl hNe) hBad⟩
  | tick => exact ⟨fun _ => h.tick, fun hBad => absurd trivial hBad⟩
  | schedule =>
    obtain ⟨hKeep, hBreak⟩ := h.toBase.reschedule
    exact ⟨hKeep, fun hBad => hBreak (not_not.mp hBad)⟩

theorem Initial.inv (h : Initial n s) : Inv n s := by
  obtain ⟨hQueue, hRunning, hFits, hSem, hBlocked, hReturned, hUps, hArrived, hWoken⟩ := h
  refine ⟨⟨hQueue, ?_, ?_, fun t ht _ => hRunning t ht, ?_, ?_, ?_, ?_, [], List.nodup_nil, ?_, ?_⟩,
    hBlocked _⟩
  · rw [hSem]
    exact List.nodup_nil
  · rw [hSem]
    exact fun t ht => absurd ht List.not_mem_nil
  · rw [hSem]
    exact Int.natCast_nonneg n
  · rw [hSem]
    dsimp only
    omega
  · rw [hSem]
    exact fun hNe => absurd rfl hNe
  · rw [hSem, hArrived, hWoken]
    rfl
  · intro t
    rw [hBlocked]
    simp
  · rw [hSem, hReturned, hUps]
    simp

theorem reach_inv (h : Reach (Initial n) (Guarded Good Step) s) : Inv n s := by
  apply Reach.invariant (P := Inv n) _ _ h
  · exact fun s hs => hs.inv
  · rintro s a t hs ⟨hGood, rfl⟩
    exact (hs.step a).1 hGood

end

/-- As long as no call of `schedule` resumes a waiting `init_task` and the counter does not wrap,
the law holds, and the next step keeps it exactly when it meets the same condition. -/
theorem conserved_iff_good (n : Nat) (s : State) (h : Reach (Initial n) (Guarded Good Step) s) :
    Spec n s ∧ ∀ a t, Step s a t → (Spec n t ↔ Good s a) := by
  have hInv := reach_inv h
  refine ⟨hInv.spec hInv.now_notMem, ?_⟩
  rintro a t rfl
  obtain ⟨hKeep, hBreak⟩ := hInv.step a
  constructor
  · intro hSpec
    by_contra hBad
    exact hBreak hBad hSpec
  · intro hGood
    have hNext := hKeep hGood
    exact hNext.spec hNext.now_notMem

/-- A semaphore with `n` permits over a scheduler. -/
def semaphoreInit (sched : Schedule) (n : Nat) : State :=
  ⟨sched, ⟨n, []⟩, fun _ => false, 0, 0, [], []⟩

theorem initial_semaphoreInit {sched : Schedule} {n : Nat} (hQueue : QueueInv sched)
    (hRunning : ∀ t, Known sched t → sched.state t = .running) (hFits : n < 2 ^ 63) :
    Initial n (semaphoreInit sched n) :=
  ⟨hQueue, hRunning, hFits, rfl, fun _ => rfl, rfl, rfl, rfl, rfl⟩

theorem boot_inv : Scheduler.Inv (scheduleInit initTask bootTasks) :=
  initial_inv ⟨initTask, bootTasks, fun _ => (by decide : (0 : Int) < sentinel), rfl⟩

/-- `init_task` alone, without a permit: `schedule` returns to it at once. -/
theorem init_returns : ¬ ∀ s, Reach (Initial 0) Step s → Spec 0 s := by
  intro h
  have hInit : Initial 0 (semaphoreInit (scheduleInit initTask bootTasks) 0) :=
    initial_semaphoreInit boot_inv.toQueueInv (fun _ _ => rfl) (by decide)
  have hStart : Reach (Initial 0) Step _ := .start hInit
  have hConserved := (h _ (hStart.next (a := .semaphoreDown) rfl)).conserved
  exact absurd hConserved (by decide)

/-- Task 1 waits, is woken by `init_task`, and returns. -/
theorem conserved_iff_good_handover : ∃ s, s.woken = [1] ∧ s.returned = 1 ∧ Spec 0 s := by
  let sched := doFork (scheduleInit initTask bootTasks) initTask 1
  have hSched : Scheduler.Inv sched := boot_inv.doFork initTask (by decide) (by decide)
  have hInit : Initial 0 (semaphoreInit sched 0) := by
    apply initial_semaphoreInit hSched.toQueueInv
    · rintro t (ht | rfl | rfl)
      · have hEq : sched.taskQueue = [1] := by decide
        rw [hEq] at ht
        cases List.mem_singleton.mp ht
        decide
      · decide
      · decide
    · decide
  have hRun : (runList (guardedNext Good fun s a => some (step s a)) (semaphoreInit sched 0)
      [.tick, .schedule, .semaphoreDown, .semaphoreUp, .schedule]).map
      (fun s => (s.woken, s.returned)) = some ([1], 1) := by decide +kernel
  obtain ⟨s, hs, hEq⟩ := Option.map_eq_some_iff.mp hRun
  have hStep : ∀ s a t, guardedNext Good (fun s a => some (step s a)) s a = some t →
      Guarded Good Step s a t :=
    guarded_of_next fun _ _ _ hNext => (Option.some.inj hNext).symm
  obtain ⟨hWoken, hReturned⟩ := Prod.mk.inj hEq
  exact ⟨s, hWoken, hReturned,
    (conserved_iff_good 0 s ⟨_, _, hInit, run_of_runList hStep hs⟩).1⟩

end KalinoteOS.Semaphore
