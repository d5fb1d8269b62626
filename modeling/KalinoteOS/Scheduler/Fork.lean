import KalinoteOS.Scheduler.Run

/-! # Process ids

`do_fork` adds one to the pid in its copy of the caller's structure. The ids are the depths of the
tree of forks, so they differ exactly when that tree is a path.
-/
namespace KalinoteOS.Scheduler
open Lib
set_option autoImplicit false

/-- The tasks created so far, in order, and the callers of `do_fork`, in order. -/
structure ForkState where
  sched : Schedule
  created : List TaskId
  forkers : List TaskId

namespace ForkState

def pid (s : ForkState) (t : TaskId) : Int := (s.sched.tasks t).pid

/-- All tasks have different pids. -/
def Distinct (s : ForkState) : Prop := (s.created.map s.pid).Nodup

/-- Any step of the scheduler; a fork adds its task and its caller to the lists. -/
def apply (s : ForkState) : Op → ForkState
  | .fork current tsk => ⟨doFork s.sched current tsk, s.created ++ [tsk], s.forkers ++ [current]⟩
  | op => { s with sched := Scheduler.apply s.sched op }

/-- An existing task forks, and `alloc_pages` returns a page that holds no task. -/
def Allowed (s : ForkState) : Op → Prop
  | .fork current tsk => current ∈ s.created ∧ tsk ∉ s.created
  | _ => True

instance (s : ForkState) : (op : Op) → Decidable (s.Allowed op)
  | .fork current tsk => inferInstanceAs (Decidable (current ∈ s.created ∧ tsk ∉ s.created))
  | .tick _ | .schedule | .block _ | .wakeUp _ => isTrue trivial

def Step (s : ForkState) (op : Op) (t : ForkState) : Prop := s.Allowed op ∧ t = s.apply op

def next (s : ForkState) (op : Op) : Option ForkState := if s.Allowed op then some (s.apply op) else none

/-- After `schedule_init`, with no task but `init_task`, of pid 0. -/
def Initial (s : ForkState) : Prop :=
  ∃ tasks, (tasks initTask).pid = 0 ∧ s = ⟨scheduleInit initTask tasks, [initTask], []⟩

end ForkState

/-! ## No other step changes a pid -/

theorem charge_pid (s : Schedule) (amount : Int) (t : TaskId) :
    ((charge s amount).tasks t).pid = (s.tasks t).pid := by
  unfold charge
  dsimp only
  split
  · rw [Schedule.modify_tasks_field TaskStruct.pid _ _ _ _ rfl]
    exact Schedule.modify_tasks_field TaskStruct.pid _ _ _ _ rfl
  · exact Schedule.modify_tasks_field TaskStruct.pid _ _ _ _ rfl

theorem schedule_pid (s : Schedule) (t : TaskId) : ((schedule s).tasks t).pid = (s.tasks t).pid := by
  rw [schedule_tasks]
  exact Schedule.modify_tasks_field TaskStruct.pid s s.nowTask t _ rfl

theorem setState_pid (s : Schedule) (u : TaskId) (state : TaskState) (t : TaskId) :
    ((s.setState u state).tasks t).pid = (s.tasks t).pid :=
  Schedule.modify_tasks_field TaskStruct.pid s u t _ rfl

theorem wakeUp_pid (s : Schedule) (u t : TaskId) : ((wakeUp s u).tasks t).pid = (s.tasks t).pid := by
  unfold wakeUp
  rw [insertTaskQueue_tasks]
  exact setState_pid s u .running t

theorem doFork_pid_other (s : Schedule) (current : TaskId) {tsk t : TaskId} (h : t ≠ tsk) :
    ((doFork s current tsk).tasks t).pid = (s.tasks t).pid := by
  unfold doFork
  rw [insertTaskQueue_tasks, Schedule.modify_tasks_other s _ h]

theorem doFork_pid_self (s : Schedule) (current tsk : TaskId) :
    ((doFork s current tsk).tasks tsk).pid = (s.tasks current).pid + 1 := by
  unfold doFork
  rw [insertTaskQueue_tasks, Schedule.modify_tasks_self]
  rfl

namespace ForkState

/-- What a step does: it keeps lists and pids, or it adds a task one deeper than its caller. -/
theorem step_cases {s t : ForkState} {op : Op} (h : Step s op t) :
    (t.created = s.created ∧ t.forkers = s.forkers ∧ t.pid = s.pid) ∨
    ∃ current tsk, current ∈ s.created ∧ tsk ∉ s.created ∧ t.created = s.created ++ [tsk] ∧
      t.forkers = s.forkers ++ [current] ∧ t.pid tsk = s.pid current + 1 ∧ ∀ a ≠ tsk, t.pid a = s.pid a := by
  obtain ⟨hAllowed, rfl⟩ := h
  cases op with
  | tick amount => exact Or.inl ⟨rfl, rfl, funext (charge_pid s.sched amount)⟩
  | schedule => exact Or.inl ⟨rfl, rfl, funext (schedule_pid s.sched)⟩
  | fork current tsk =>
    exact Or.inr ⟨current, tsk, hAllowed.1, hAllowed.2, rfl, rfl, doFork_pid_self s.sched current tsk,
      fun a ha => doFork_pid_other s.sched current ha⟩
  | block state =>
    exact Or.inl ⟨rfl, rfl, funext fun a => (schedule_pid _ a).trans (setState_pid s.sched _ state a)⟩
  | wakeUp tsk => exact Or.inl ⟨rfl, rfl, funext (wakeUp_pid s.sched tsk)⟩

/-! ## The tree of forks -/

/-- Every task but `init_task` is one deeper than some caller, and every caller has a task one deeper
than itself. A `long` holds the pids: they do not exceed the number of forks, each of which takes a
page of its own. -/
structure Inv (s : ForkState) : Prop where
  bounds : ∀ a ∈ s.created, 0 ≤ s.pid a ∧ s.pid a ≤ s.forkers.length
  parent : ∀ a ∈ s.created, s.pid a = 0 ∨ ∃ p ∈ s.forkers, s.pid a = s.pid p + 1
  child : ∀ p ∈ s.forkers, p ∈ s.created ∧ ∃ a ∈ s.created, s.pid a = s.pid p + 1
  distinct : s.Distinct ↔ s.forkers.Nodup

theorem Initial.inv {s : ForkState} (h : Initial s) : Inv s := by
  obtain ⟨tasks, hPid, rfl⟩ := h
  have hOnly : ∀ a ∈ [initTask], (tasks a).pid = 0 := by
    intro a ha
    rw [List.mem_singleton.mp ha]
    exact hPid
  constructor
  · intro a ha
    change 0 ≤ (tasks a).pid ∧ (tasks a).pid ≤ 0
    rw [hOnly a ha]
    exact ⟨le_rfl, le_rfl⟩
  · exact fun a ha => Or.inl (hOnly a ha)
  · exact fun p hp => absurd hp List.not_mem_nil
  · exact ⟨fun _ => List.nodup_nil, fun _ => List.nodup_singleton _⟩

/-- The pid of a new task is taken exactly when its caller has forked before, as long as all are different. -/
theorem Inv.taken_iff {s : ForkState} (h : Inv s) (hDistinct : s.Distinct) {current : TaskId}
    (hMem : current ∈ s.created) : s.pid current + 1 ∈ s.created.map s.pid ↔ current ∈ s.forkers := by
  constructor
  · intro hTaken
    obtain ⟨a, ha, hPid⟩ := List.mem_map.mp hTaken
    obtain hRoot | ⟨p, hp, hParent⟩ := h.parent a ha
    · have hNonneg := (h.bounds current hMem).1
      omega
    · have hSame : s.pid p = s.pid current := by omega
      rw [← List.inj_on_of_nodup_map hDistinct (h.child p hp).1 hMem hSame]
      exact hp
  · intro hForked
    obtain ⟨a, ha, hPid⟩ := (h.child current hForked).2
    exact List.mem_map.mpr ⟨a, ha, hPid⟩

theorem Step.inv {s t : ForkState} {op : Op} (hStep : Step s op t) (h : Inv s) : Inv t := by
  obtain ⟨hCreated, hForkers, hPid⟩ | ⟨current, tsk, hMem, hNew, hCreated, hForkers, hSelf, hOther⟩ :=
    step_cases hStep
  · obtain ⟨hBounds, hParent, hChild, hDistinct⟩ := h
    unfold Distinct at hDistinct
    rw [← hCreated, ← hForkers, ← hPid] at hDistinct
    rw [← hCreated, ← hForkers, ← hPid] at hBounds hParent hChild
    exact ⟨hBounds, hParent, hChild, hDistinct⟩
  · have hOld : ∀ a ∈ s.created, t.pid a = s.pid a := fun a ha => hOther a (by rintro rfl; exact hNew ha)
    have hMap : s.created.map t.pid = s.created.map s.pid := List.map_congr_left hOld
    constructor
    · intro a ha
      rw [hForkers, List.length_append, List.length_singleton]
      rw [hCreated, List.mem_append, List.mem_singleton] at ha
      obtain ha | rfl := ha
      · have hBounds := h.bounds a ha
        rw [hOld a ha]
        omega
      · have hBounds := h.bounds current hMem
        rw [hSelf]
        omega
    · intro a ha
      rw [hCreated, List.mem_append, List.mem_singleton] at ha
      obtain ha | rfl := ha
      · rw [hOld a ha]
        refine (h.parent a ha).imp_right ?_
        rintro ⟨p, hp, hParent⟩
        rw [← hOld p (h.child p hp).1] at hParent
        exact ⟨p, hForkers ▸ List.mem_append_left _ hp, hParent⟩
      · refine Or.inr ⟨current, hForkers ▸ List.mem_append_right _ (List.mem_singleton_self _), ?_⟩
        rw [hSelf, hOld current hMem]
    · intro p hp
      rw [hForkers, List.mem_append, List.mem_singleton] at hp
      rw [hCreated]
      obtain hp | rfl := hp
      · obtain ⟨hpMem, a, ha, hChild⟩ := h.child p hp
        rw [← hOld p hpMem, ← hOld a ha] at hChild
        exact ⟨List.mem_append_left _ hpMem, a, List.mem_append_left _ ha, hChild⟩
      · refine ⟨List.mem_append_left _ hMem, tsk, List.mem_append_right _ (List.mem_singleton_self _), ?_⟩
        rw [hSelf, hOld p hMem]
    · unfold Distinct
      rw [hCreated, List.map_append, hMap, List.map_singleton, hSelf, hForkers, ← List.concat_eq_append,
        ← List.concat_eq_append, List.nodup_concat, List.nodup_concat]
      constructor
      · rintro ⟨hFree, hDistinct⟩
        exact ⟨fun hForked => hFree ((h.taken_iff hDistinct hMem).mpr hForked), h.distinct.mp hDistinct⟩
      · rintro ⟨hFirst, hNodup⟩
        have hDistinct := h.distinct.mpr hNodup
        exact ⟨fun hTaken => hFirst ((h.taken_iff hDistinct hMem).mp hTaken), hDistinct⟩

/-- In every run from `init_task` the pids are pairwise different if and only if no task has forked twice. -/
theorem pids_distinct_iff (s : ForkState) (h : Reach Initial Step s) : s.Distinct ↔ s.forkers.Nodup :=
  (Reach.invariant (P := Inv) (fun _ hs => hs.inv) (fun _ _ _ hs hStep => hStep.inv hs) h).distinct

/-- The boot code, then the forks of the list. -/
def forked (ops : List Op) : Option ForkState :=
  runList next ⟨scheduleInit initTask bootTasks, [initTask], []⟩ ops

theorem reach_forked (ops : List Op) {s : ForkState} (h : forked ops = some s) : Reach Initial Step s := by
  refine ⟨_, ops, ⟨bootTasks, rfl, rfl⟩, run_of_runList (fun s op t hNext => ?_) h⟩
  obtain ⟨hAllowed, hApply⟩ := Option.ite_none_right_eq_some.mp hNext
  exact ⟨hAllowed, (Option.some.inj hApply).symm⟩

/-- `init_task` forks, and its child forks. -/
theorem pids_distinct_iff_path : ∃ s, forked [.fork 0 1, .tick 2, .fork 1 2] = some s ∧
    s.forkers = [0, 1] ∧ (s.Distinct ↔ s.forkers.Nodup) :=
  ⟨_, rfl, rfl, pids_distinct_iff _ (reach_forked [.fork 0 1, .tick 2, .fork 1 2] rfl)⟩

/-- `init_task` forks twice: both children have pid 1. -/
theorem pids_not_distinct : ∃ s, Reach Initial Step s ∧ ¬s.Distinct := by
  refine ⟨_, reach_forked [.fork 0 1, .fork 0 2] rfl, ?_⟩
  unfold Distinct
  decide

end ForkState
end KalinoteOS.Scheduler
