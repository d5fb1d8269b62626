import KalinoteOS.Disk.Wait

/-! # The wait protocol: the invariant

A request that has not ended keeps its task in `IDE_transfer`; one that has ended keeps it
known to the scheduler. `Base` holds where `schedule` is called, `Sound` between the steps.
-/
namespace KalinoteOS.Disk.Wait
open Scheduler Lib
set_option autoImplicit false

structure Base (p : System) : Prop where
  disk : ∃ done active, Disk.Inv p.disk done active
  queue : QueueInv p.sched
  queued_running : ∀ t ∈ p.sched.taskQueue, p.sched.state t = .running
  queued_ended : ∀ t ∈ p.sched.taskQueue, ∀ k e, p.phase t = .waiting k e → p.Ended k
  /-- Who waits for a request that has not ended. -/
  owner : ∀ r ∈ p.disk.submitted, ¬ p.Ended r.serial →
    p.phase r.tsk = .submitted r.serial ∨ p.phase r.tsk = .waiting r.serial false
  last_submitted : ∀ t k, p.phase t = .submitted k → p.last t = some k
  last_waiting : ∀ t k e, p.phase t = .waiting k e → p.last t = some k
  mine : ∀ t k, p.last t = some k → ∃ r ∈ p.disk.submitted, r.serial = k ∧ r.tsk = t
  submitted_open : ∀ t k, p.phase t = .submitted k → t ≠ initTask → Known p.sched t ∧ ¬ p.Ended k
  waiting_late : ∀ t k, p.phase t = .waiting k true → t = initTask
  early : ∀ k, p.phase initTask = .waiting k true → p.sched.state initTask ≠ .running
  awake : ∀ t k, p.last t = some k → p.Ended k → Known p.sched t
  init_running : ¬ Stuck p → p.sched.state initTask = .running
  returns : ∀ r ∈ p.returns, r.sectorsLeft = 0 ∧ r.state = .running

/-- Between the steps the current task runs and is not inside `schedule`. -/
structure Sound (p : System) : Prop extends Base p where
  now_running : p.sched.state p.sched.nowTask = .running
  now_out : ∀ k e, p.phase p.sched.nowTask ≠ .waiting k e

/-- Where `schedule` is called: by a task that runs, or by one that waits. -/
structure Leaving (p : System) : Prop extends Base p where
  now : (p.sched.state p.sched.nowTask = .running ∧
      ∀ k e, p.phase p.sched.nowTask ≠ .waiting k e) ∨
    (p.sched.state p.sched.nowTask ≠ .running ∧ ∃ k e, p.phase p.sched.nowTask = .waiting k e ∧
      (p.sched.nowTask ≠ initTask → ¬ p.Ended k))

theorem Sound.leaving {p : System} (h : Sound p) : Leaving p :=
  ⟨h.toBase, Or.inl ⟨h.now_running, h.now_out⟩⟩

theorem Sound.spec {p : System} (h : Sound p) : Spec p :=
  ⟨h.returns, h.queue.nodup, h.queue.now_notMem, h.awake⟩

theorem stuck_waiting {p : System} {k : Nat} {e : Bool} (h : p.phase initTask = .waiting k e) :
    Stuck p ↔ e = true ∨ ¬ p.Ended k := by
  unfold Stuck
  rw [h]

theorem stuck_iff {p : System} :
    Stuck p ↔ ∃ k e, p.phase initTask = .waiting k e ∧ (e = true ∨ ¬ p.Ended k) := by
  constructor
  · intro h
    cases hPhase : p.phase initTask with
    | waiting k e => exact ⟨k, e, rfl, (stuck_waiting hPhase).mp h⟩
    | outside | submitted k =>
      unfold Stuck at h
      rw [hPhase] at h
      exact h.elim
  · rintro ⟨k, e, hPhase, hRest⟩
    exact (stuck_waiting hPhase).mpr hRest

theorem Stuck.transfer {p q : System} (h : Stuck p) (hPhase : q.phase initTask = p.phase initTask)
    (hEnded : ∀ k e, p.phase initTask = .waiting k e → q.Ended k → p.Ended k) : Stuck q := by
  obtain ⟨k, e, hWait, hRest⟩ := stuck_iff.mp h
  exact stuck_iff.mpr ⟨k, e, hPhase.trans hWait, hRest.imp_right (mt (hEnded k e hWait))⟩

theorem Base.ended_iff {p : System} (h : Base p) {t : TaskId} {k : Nat} (hLast : p.last t = some k) :
    p.Ended k ↔ p.sectorsLeft k = 0 := by
  obtain ⟨done, active, hDisk⟩ := h.disk
  obtain ⟨r, hr, rfl, -⟩ := h.mine t k hLast
  unfold System.Ended System.sectorsLeft
  rw [hDisk.finish_iff hr, hDisk.submitted_get hr]

/-- An update of the scheduler that keeps the queue, the current task and the states. -/
theorem Base.of_sched {p : System} (h : Base p) {s : Schedule} (hQueue : s.taskQueue = p.sched.taskQueue)
    (hNow : s.nowTask = p.sched.nowTask) (hState : ∀ t, s.state t = p.sched.state t)
    (hInv : QueueInv s) : Base (p.setSched s) := by
  have hKnown : ∀ t, Known p.sched t → Known s t := fun t => by
    unfold Known
    rw [hQueue, hNow]
    exact id
  exact {
    disk := by
      obtain ⟨done, active, hDisk⟩ := h.disk
      exact ⟨done, active, hDisk.of_sched s⟩
    queue := hInv
    queued_running := fun t ht => (hState t).trans (h.queued_running t (hQueue ▸ ht))
    queued_ended := fun t ht => h.queued_ended t (hQueue ▸ ht)
    owner := h.owner
    last_submitted := h.last_submitted
    last_waiting := h.last_waiting
    mine := h.mine
    submitted_open := fun t k hPhase hNe =>
      ⟨hKnown t (h.submitted_open t k hPhase hNe).1, (h.submitted_open t k hPhase hNe).2⟩
    waiting_late := h.waiting_late
    early := fun k hPhase hRunning => h.early k hPhase ((hState _).symm.trans hRunning)
    awake := fun t k hLast hEnded => hKnown t (h.awake t k hLast hEnded)
    init_running := fun hNot => (hState _).trans (h.init_running hNot)
    returns := h.returns }

/-! ## `schedule` -/

section
variable {p : System} (h : Leaving p)
include h

/-- A task that leaves the scheduler waits for a request that has not ended. -/
theorem Leaving.known_schedule {t : TaskId} (hKnown : Known p.sched t)
    (hEnded : t ≠ initTask → ∀ k e, p.phase t = .waiting k e → p.Ended k) :
    Known (schedule p.sched) t := by
  rw [h.queue.schedule_known]
  refine ⟨hKnown, ?_⟩
  rintro ⟨rfl, hNe, hState⟩
  obtain ⟨hRunning, -⟩ | ⟨-, k, e, hPhase, hOpen⟩ := h.now
  · exact hState hRunning
  · exact hOpen hNe (hEnded hNe k e hPhase)

theorem Leaving.queued {t : TaskId} (ht : t ∈ (schedule p.sched).taskQueue) :
    t ∈ p.sched.taskQueue ∨
      (t = p.sched.nowTask ∧ p.sched.state t = .running ∧ ∀ k e, p.phase t ≠ .waiting k e) := by
  rw [h.queue.mem_schedule] at ht
  split at ht
  · obtain ⟨rfl, hRequeue⟩ | hTail := ht
    · obtain ⟨hRunning, hOut⟩ | ⟨hNot, -⟩ := h.now
      · exact Or.inr ⟨rfl, hRunning, hOut⟩
      · exact absurd hRequeue.1 hNot
    · exact Or.inl (List.mem_of_mem_tail hTail)
  · exact Or.inl ht

theorem Leaving.base_schedule : Base (p.setSched (schedule p.sched)) where
  disk := by
    obtain ⟨done, active, hDisk⟩ := h.disk
    exact ⟨done, active, hDisk.of_sched _⟩
  queue := h.queue.schedule
  queued_running := by
    intro t ht
    change (schedule p.sched).state t = _
    rw [schedule_state]
    obtain hMem | ⟨-, hRunning, -⟩ := h.queued ht
    · exact h.queued_running t hMem
    · exact hRunning
  queued_ended := by
    intro t ht k e hPhase
    obtain hMem | ⟨-, -, hOut⟩ := h.queued ht
    · exact h.queued_ended t hMem k e hPhase
    · exact absurd hPhase (hOut k e)
  owner := h.owner
  last_submitted := h.last_submitted
  last_waiting := h.last_waiting
  mine := h.mine
  submitted_open := by
    intro t k hPhase hNe
    obtain ⟨hKnown, hOpen⟩ := h.submitted_open t k hPhase hNe
    refine ⟨h.known_schedule hKnown fun _ k' e hWait => ?_, hOpen⟩
    exact absurd (hPhase.symm.trans hWait : Phase.submitted k = .waiting k' e) (by simp)
  waiting_late := h.waiting_late
  early := by
    intro k hPhase
    change (schedule p.sched).state _ ≠ _
    rw [schedule_state]
    exact h.early k hPhase
  awake := by
    intro t k hLast hEnded
    refine h.known_schedule (h.awake t k hLast hEnded) fun _ k' e hPhase => ?_
    have hEq := hLast.symm.trans (h.last_waiting t k' e hPhase)
    exact Option.some.inj hEq ▸ hEnded
  init_running := by
    intro hNot
    change (schedule p.sched).state _ = _
    rw [schedule_state]
    exact h.init_running hNot
  returns := h.returns

/-- The task that `schedule` gives the CPU to can run, and does not wait for an open request. -/
theorem Leaving.next_ready (hGood : ¬ (FallsBack p.sched ∧ Stuck p)) :
    p.sched.state (schedule p.sched).nowTask = .running ∧
      ∀ k e, p.phase (schedule p.sched).nowTask = .waiting k e → p.Ended k ∧ e = false := by
  rw [schedule_nowTask]
  by_cases hYields : yields p.sched (picked p.sched)
  · rw [if_pos hYields]
    obtain ⟨hEmpty, hPicked⟩ | hQueue := picked_cases p.sched
    · rw [hPicked] at hYields ⊢
      have hFree : ¬ Stuck p := fun hStuck => hGood ⟨⟨hEmpty, hYields⟩, hStuck⟩
      refine ⟨h.init_running hFree, fun k e hPhase => ?_⟩
      rw [stuck_waiting hPhase, not_or, not_not] at hFree
      exact ⟨hFree.2, Bool.eq_false_iff.mpr hFree.1⟩
    · have hMem : picked p.sched ∈ p.sched.taskQueue := by
        rw [hQueue]
        exact List.mem_cons_self
      refine ⟨h.queued_running _ hMem, fun k e hPhase => ⟨h.queued_ended _ hMem k e hPhase, ?_⟩⟩
      cases e with
      | false => rfl
      | true => exact absurd (h.waiting_late _ k hPhase) (h.queue.picked_ne_init hQueue)
  · rw [if_neg hYields]
    obtain ⟨hRunning, hOut⟩ | ⟨hNot, -⟩ := h.now
    · exact ⟨hRunning, fun k e hPhase => absurd hPhase (hOut k e)⟩
    · exact absurd (Or.inr hNot) hYields

end

/-! ## The return of `IDE_transfer` -/

theorem resume_waiting {p : System} {k : Nat} {e : Bool}
    (hPhase : p.phase p.sched.nowTask = .waiting k e) :
    resume p = { p.setPhase p.sched.nowTask .outside with
      returns := p.returns ++
        [⟨p.sched.nowTask, k, p.sectorsLeft k, p.sched.state p.sched.nowTask⟩] } := by
  unfold resume
  rw [hPhase]

theorem resume_other {p : System} (hPhase : ∀ k e, p.phase p.sched.nowTask ≠ .waiting k e) :
    resume p = p := by
  unfold resume
  split
  · exact absurd ‹_› (hPhase _ _)
  · rfl

theorem setPhase_phase_of_ne {p : System} {t u : TaskId} (phase : Phase) (h : t ≠ u) :
    (p.setPhase u phase).phase t = p.phase t := by
  simp [System.setPhase, h]

theorem setPhase_phase_self (p : System) (t : TaskId) (phase : Phase) :
    (p.setPhase t phase).phase t = phase := by
  simp [System.setPhase]

theorem phase_of_left {p : System} {t u : TaskId} {phase : Phase} (hNe : phase ≠ .outside)
    (h : (p.setPhase u .outside).phase t = phase) : t ≠ u ∧ p.phase t = phase := by
  by_cases hEq : t = u
  · rw [hEq, setPhase_phase_self] at h
    exact absurd h.symm hNe
  · exact ⟨hEq, (setPhase_phase_of_ne _ hEq) ▸ h⟩

theorem Base.resume {p : System} (h : Base p) {k : Nat}
    (hPhase : p.phase p.sched.nowTask = .waiting k false) (hEnded : p.Ended k)
    (hRunning : p.sched.state p.sched.nowTask = .running) : Base (resume p) := by
  rw [resume_waiting hPhase]
  exact {
    disk := h.disk
    queue := h.queue
    queued_running := h.queued_running
    queued_ended := fun t ht k' e hWait =>
      h.queued_ended t ht k' e (phase_of_left (by simp) hWait).2
    owner := by
      intro r hr hOpen
      have hNe : r.tsk ≠ p.sched.nowTask := by
        intro hEq
        obtain hOwn | hOwn := h.owner r hr hOpen
        · rw [hEq, hPhase] at hOwn
          cases hOwn
        · rw [hEq, hPhase] at hOwn
          cases hOwn
          exact hOpen hEnded
      have hSame := setPhase_phase_of_ne (p := p) .outside hNe
      exact (h.owner r hr hOpen).imp hSame.trans hSame.trans
    last_submitted := fun t k' hSub => h.last_submitted t k' (phase_of_left (by simp) hSub).2
    last_waiting := fun t k' e hWait => h.last_waiting t k' e (phase_of_left (by simp) hWait).2
    mine := h.mine
    submitted_open := fun t k' hSub => h.submitted_open t k' (phase_of_left (by simp) hSub).2
    waiting_late := fun t k' hWait => h.waiting_late t k' (phase_of_left (by simp) hWait).2
    early := fun k' hWait => h.early k' (phase_of_left (by simp) hWait).2
    awake := h.awake
    init_running := by
      intro hNot
      by_cases hEq : initTask = p.sched.nowTask
      · rw [hEq]
        exact hRunning
      · exact h.init_running fun hStuck =>
          hNot (hStuck.transfer (setPhase_phase_of_ne _ hEq) fun _ _ _ => id)
    returns := by
      intro r hr
      obtain hr | hr := List.mem_append.mp hr
      · exact h.returns r hr
      · rw [List.mem_singleton.mp hr]
        exact ⟨(h.ended_iff (h.last_waiting _ k false hPhase)).mp hEnded, hRunning⟩ }

/-- A call of `schedule` that does not fall back to a stuck `init_task`. -/
theorem Leaving.reschedule {p : System} (h : Leaving p) (hGood : ¬ (FallsBack p.sched ∧ Stuck p)) :
    Sound (reschedule p) := by
  have hBase := h.base_schedule
  obtain ⟨hRunning, hReady⟩ := h.next_ready hGood
  rw [← schedule_state p.sched] at hRunning
  unfold Wait.reschedule
  cases hPhase : p.phase (schedule p.sched).nowTask with
  | waiting k e =>
    obtain ⟨hEnded, rfl⟩ := hReady k e hPhase
    have hNext := hBase.resume hPhase hEnded hRunning
    have hEq := resume_waiting (p := p.setSched (schedule p.sched)) hPhase
    refine ⟨hNext, ?_, ?_⟩
    · rw [hEq]
      exact hRunning
    · rw [hEq]
      intro k' e' hWait
      exact (phase_of_left (by simp) hWait).1 rfl
  | outside | submitted k =>
    have hOut : ∀ k' e, (p.setSched (schedule p.sched)).phase
        (p.setSched (schedule p.sched)).sched.nowTask ≠ .waiting k' e := by
      intro k' e hWait
      exact absurd (hPhase.symm.trans hWait) (by simp)
    rw [resume_other hOut]
    exact ⟨hBase, hRunning, hOut⟩

/-- A stuck `init_task` returns too early or in the wrong state. -/
theorem Base.reschedule_stuck {p : System} (h : Base p) (hBack : FallsBack p.sched)
    (hStuck : Stuck p) : ∃ r ∈ (Wait.reschedule p).returns, ¬ (r.sectorsLeft = 0 ∧ r.state = .running) := by
  have hPicked : picked p.sched = initTask := by
    unfold picked
    rw [hBack.1]
    rfl
  have hNow : (schedule p.sched).nowTask = initTask := by
    rw [schedule_nowTask, hPicked, if_pos hBack.2]
  obtain ⟨k, e, hPhase, hReason⟩ := stuck_iff.mp hStuck
  have hWait : (p.setSched (schedule p.sched)).phase
      (p.setSched (schedule p.sched)).sched.nowTask = .waiting k e := by
    change p.phase (schedule p.sched).nowTask = _
    rw [hNow]
    exact hPhase
  unfold Wait.reschedule
  rw [resume_waiting hWait]
  refine ⟨_, List.mem_append_right _ (List.mem_singleton_self _), ?_⟩
  rintro ⟨hLeft, hState⟩
  change p.sectorsLeft k = 0 at hLeft
  change (schedule p.sched).state (schedule p.sched).nowTask = _ at hState
  rw [schedule_state, hNow] at hState
  have hEnded := (h.ended_iff (h.last_waiting _ k e hPhase)).mpr hLeft
  obtain rfl | hOpen := hReason
  · exact h.early k hPhase hState
  · exact hOpen hEnded

end KalinoteOS.Disk.Wait
