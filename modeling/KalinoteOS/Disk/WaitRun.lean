import KalinoteOS.Disk.WaitInvariant

/-! # The wait protocol: runs

Each step of a run against its condition. A step that meets it keeps the protocol sound; one
that does not leaves a task twice in the scheduler or a return that came too early.
-/
namespace KalinoteOS.Disk.Wait
open Scheduler Lib
set_option autoImplicit false

theorem initial_sound {p : System} (h : Initial p) : Sound p := by
  obtain ⟨sched, drive, hRest, hDisk⟩ := h.disk
  have hOut : ∀ t k e, p.phase t ≠ .waiting k e := fun t k e hPhase => by
    rw [h.outside t] at hPhase
    cases hPhase
  have hSubmitted : ∀ t k, p.phase t ≠ .submitted k := fun t k hPhase => by
    rw [h.outside t] at hPhase
    cases hPhase
  have hLast : ∀ t k, p.last t ≠ some k := fun t k hEq => by
    rw [h.last t] at hEq
    cases hEq
  have hNow : p.sched.state p.sched.nowTask = .running := h.running _ (Or.inr (Or.inl rfl))
  refine ⟨⟨⟨[], none, ?_⟩, h.queue, fun t ht => h.running t (Or.inl ht), ?_, ?_, ?_, ?_, ?_, ?_, ?_,
    ?_, ?_, fun _ => h.running _ (Or.inr (Or.inr rfl)), ?_⟩, hNow, hOut _⟩
  · rw [hDisk]
    exact diskInit_inv sched hRest
  · exact fun t _ k e hPhase => absurd hPhase (hOut t k e)
  · intro r hr
    rw [hDisk] at hr
    exact absurd hr List.not_mem_nil
  · exact fun t k hPhase => absurd hPhase (hSubmitted t k)
  · exact fun t k e hPhase => absurd hPhase (hOut t k e)
  · exact fun t k hEq => absurd hEq (hLast t k)
  · exact fun t k hPhase => absurd hPhase (hSubmitted t k)
  · exact fun t k hPhase => absurd hPhase (hOut t k true)
  · exact fun k hPhase => absurd hPhase (hOut initTask k true)
  · exact fun t k hEq => absurd hEq (hLast t k)
  · intro r hr
    rw [h.returns] at hr
    exact absurd hr List.not_mem_nil

/-! ## What the log says -/

section
variable {p : System} {done : List BlockBufferNode}

theorem ended_iff_of_done {disk : State} {active next : Option BlockBufferNode}
    (hOld : Disk.Inv p.disk done active) (hNew : Disk.Inv disk done next) (k : Nat) :
    System.Ended { p with disk := disk } k ↔ p.Ended k :=
  hNew.finish_mem.trans hOld.finish_mem.symm

theorem active_submitted {r : BlockBufferNode} (h : Disk.Inv p.disk done (some r)) :
    r ∈ p.disk.submitted := by
  rw [h.submitted]
  simp

theorem active_open {r : BlockBufferNode} (h : Disk.Inv p.disk done (some r)) :
    ¬ p.Ended r.serial := by
  intro hFinish
  obtain ⟨q, hq, hSerial⟩ := h.finish_mem.mp hFinish
  exact h.serial_ne hq hSerial

end

/-! ## `submit` -/

/-- The current task enters `IDE_transfer` with the request `node`. -/
structure Submits (p q : System) (node : BlockBufferNode) : Prop where
  disk : ∃ done active, Disk.Inv q.disk done active
  sched : q.sched = p.sched
  submitted : q.disk.submitted = p.disk.submitted ++ [node]
  tsk : node.tsk = p.sched.nowTask
  ended : ∀ k, q.Ended k ↔ p.Ended k
  fresh : ¬ p.Ended node.serial
  phase_self : q.phase p.sched.nowTask = .submitted node.serial
  phase_other : ∀ t, t ≠ p.sched.nowTask → q.phase t = p.phase t
  last_self : q.last p.sched.nowTask = some node.serial
  last_other : ∀ t, t ≠ p.sched.nowTask → q.last t = p.last t
  returns : q.returns = p.returns

theorem Sound.submits {p q : System} (h : Sound p) {cmd blocks count buffer : Nat}
    (hCmd : cmd = ataReadCmd ∨ cmd = ataWriteCmd) (hPos : 1 ≤ count) (hLe : count ≤ 65535)
    (hCall : submitRequest p cmd blocks count buffer = some q) : ∃ node, Submits p q node := by
  obtain ⟨done, active, hDisk⟩ := h.disk
  let node := makeRequest p.disk cmd blocks count buffer
  have hValid : Valid node := makeRequest_valid p.disk hCmd hPos hLe
  obtain ⟨disk, hSubmit, hSched, hList, hInv, -⟩ := hDisk.submit hValid rfl
  have hFresh : ¬ p.Ended node.serial := by
    intro hFinish
    obtain ⟨r, hr, hSerial⟩ := hDisk.finish_mem.mp hFinish
    have hLt := hDisk.serial_lt (hDisk.done_subset hr)
    rw [hSerial] at hLt
    exact lt_irrefl _ hLt
  rw [submitRequest, hSubmit] at hCall
  cases hCall
  exact ⟨node, {
    disk := ⟨done, _, hInv⟩
    sched := hSched
    submitted := hList
    tsk := rfl
    ended := ended_iff_of_done hDisk hInv
    fresh := hFresh
    phase_self := Function.update_self ..
    phase_other := fun _ ht => Function.update_of_ne ht ..
    last_self := Function.update_self ..
    last_other := fun _ ht => Function.update_of_ne ht ..
    returns := rfl }⟩

theorem Submits.waiting {p q : System} {node : BlockBufferNode} (h : Submits p q node) {t : TaskId}
    {k : Nat} {e : Bool} (hWait : q.phase t = .waiting k e) :
    t ≠ p.sched.nowTask ∧ p.phase t = .waiting k e := by
  by_cases hEq : t = p.sched.nowTask
  · rw [hEq, h.phase_self] at hWait
    cases hWait
  · exact ⟨hEq, (h.phase_other t hEq).symm.trans hWait⟩

theorem Sound.submit {p q : System} (h : Sound p) {cmd blocks count buffer : Nat}
    (hOut : p.phase p.sched.nowTask = .outside) (hCmd : cmd = ataReadCmd ∨ cmd = ataWriteCmd)
    (hPos : 1 ≤ count) (hLe : count ≤ 65535)
    (hCall : submitRequest p cmd blocks count buffer = some q) : Sound q := by
  obtain ⟨node, hNew⟩ := h.submits hCmd hPos hLe hCall
  have hSame := hNew.sched
  refine { disk := hNew.disk, queue := ?_, queued_running := ?_, queued_ended := ?_, owner := ?_,
           last_submitted := ?_, last_waiting := ?_, mine := ?_, submitted_open := ?_,
           waiting_late := ?_, early := ?_, awake := ?_, init_running := ?_, returns := ?_,
           now_running := ?_, now_out := ?_ }
  · rw [hSame]
    exact h.queue
  · rw [hSame]
    exact h.queued_running
  · rw [hSame]
    intro t ht k e hWait
    exact (hNew.ended k).mpr (h.queued_ended t ht k e (hNew.waiting hWait).2)
  · intro r hr hOpen
    rw [hNew.ended] at hOpen
    rw [hNew.submitted, List.mem_append, List.mem_singleton] at hr
    obtain hr | rfl := hr
    · have hNe : r.tsk ≠ p.sched.nowTask := by
        intro hEq
        obtain hOwn | hOwn := h.owner r hr hOpen
        · rw [hEq, hOut] at hOwn
          cases hOwn
        · rw [hEq, hOut] at hOwn
          cases hOwn
      rw [hNew.phase_other _ hNe]
      exact h.owner r hr hOpen
    · rw [hNew.tsk]
      exact Or.inl hNew.phase_self
  · intro t k hSub
    by_cases hEq : t = p.sched.nowTask
    · rw [hEq, hNew.phase_self] at hSub
      cases hSub
      rw [hEq]
      exact hNew.last_self
    · rw [hNew.last_other t hEq]
      exact h.last_submitted t k ((hNew.phase_other t hEq).symm.trans hSub)
  · intro t k e hWait
    obtain ⟨hNe, hOld⟩ := hNew.waiting hWait
    rw [hNew.last_other t hNe]
    exact h.last_waiting t k e hOld
  · intro t k hEq
    rw [hNew.submitted]
    by_cases hSelf : t = p.sched.nowTask
    · rw [hSelf, hNew.last_self] at hEq
      exact ⟨node, List.mem_append_right _ (List.mem_singleton_self _), Option.some.inj hEq,
        hNew.tsk.trans hSelf.symm⟩
    · rw [hNew.last_other t hSelf] at hEq
      obtain ⟨r, hr, hRest⟩ := h.mine t k hEq
      exact ⟨r, List.mem_append_left _ hr, hRest⟩
  · intro t k hSub hNe
    rw [hSame, hNew.ended]
    by_cases hEq : t = p.sched.nowTask
    · rw [hEq, hNew.phase_self] at hSub
      cases hSub
      exact ⟨Or.inr (Or.inl hEq), hNew.fresh⟩
    · exact h.submitted_open t k ((hNew.phase_other t hEq).symm.trans hSub) hNe
  · exact fun t k hWait => h.waiting_late t k (hNew.waiting hWait).2
  · intro k hWait
    rw [hSame]
    exact h.early k (hNew.waiting hWait).2
  · intro t k hEq
    rw [hSame, hNew.ended]
    by_cases hSelf : t = p.sched.nowTask
    · exact fun _ => Or.inr (Or.inl hSelf)
    · rw [hNew.last_other t hSelf] at hEq
      exact h.awake t k hEq
  · intro hFree
    rw [hSame]
    by_cases hSelf : initTask = p.sched.nowTask
    · rw [hSelf]
      exact h.now_running
    · exact h.init_running fun hStuck =>
        hFree (hStuck.transfer (hNew.phase_other _ hSelf) fun k _ _ => (hNew.ended k).mp)
  · rw [hNew.returns]
    exact h.returns
  · rw [hSame]
    exact h.now_running
  · intro k e hWait
    rw [hSame, hNew.phase_self] at hWait
    cases hWait

/-! ## The wake-up of `end_request` -/

/-- What `end_request` does to the scheduler. -/
def woken (s : Schedule) (tsk : TaskId) : Schedule := setNeedSchedule (wakeUp s tsk) tsk

section
variable (s : Schedule) (tsk : TaskId)

theorem woken_taskQueue : (woken s tsk).taskQueue =
    if tsk = initTask then s.taskQueue
    else insertBefore (s.setState tsk .running).vrun tsk s.taskQueue :=
  insertTaskQueue_taskQueue _ _

@[simp] theorem woken_nowTask : (woken s tsk).nowTask = s.nowTask := wakeUp_nowTask s tsk

theorem woken_state (t : TaskId) : (woken s tsk).state t = (wakeUp s tsk).state t :=
  setNeedSchedule_state (wakeUp s tsk) tsk t

theorem woken_state_self : (woken s tsk).state tsk = .running := by
  rw [woken_state, wakeUp_state_self]

theorem woken_state_of_ne {t : TaskId} (h : t ≠ tsk) : (woken s tsk).state t = s.state t := by
  rw [woken_state, wakeUp_state_of_ne s h]

variable {s tsk}

theorem mem_woken {t : TaskId} :
    t ∈ (woken s tsk).taskQueue ↔ (t = tsk ∧ tsk ≠ initTask) ∨ t ∈ s.taskQueue := mem_wakeUp

theorem known_woken {t : TaskId} (h : Known s t) : Known (woken s tsk) t := by
  unfold Known
  rw [mem_woken, woken_nowTask]
  obtain hQueue | hRest := h
  · exact Or.inl (Or.inr hQueue)
  · exact Or.inr hRest

theorem woken_known : Known (woken s tsk) tsk := by
  unfold Known
  rw [mem_woken]
  by_cases hInit : tsk = initTask
  · exact Or.inr (Or.inr hInit)
  · exact Or.inl (Or.inl ⟨rfl, hInit⟩)

theorem woken_queueInv (h : QueueInv s)
    (hNew : tsk = initTask ∨ (tsk ∉ s.taskQueue ∧ tsk ≠ s.nowTask)) : QueueInv (woken s tsk) := by
  have hState := h.setState tsk .running
  have hWake : QueueInv (wakeUp s tsk) := by
    obtain hInit | ⟨hQueue, hNow⟩ := hNew
    · unfold wakeUp insertTaskQueue
      rw [if_pos hInit]
      exact hState
    · exact hState.insert hQueue hNow
  exact hWake.of_tasks rfl rfl rfl fun u _ => setNeedSchedule_vrun (wakeUp s tsk) tsk u

/-- A wake-up puts its task into the queue, wherever it already is. -/
theorem woken_occurrences (hInit : tsk ≠ initTask) :
    occurrences (woken s tsk) tsk = occurrences s tsk + 1 := by
  unfold occurrences
  rw [woken_taskQueue, if_neg hInit, count_insertBefore, woken_nowTask, if_pos rfl]
  omega

end

/-! ## The interrupt -/

theorem Sound.of_disk {p : System} (h : Sound p) {disk : State} {done : List BlockBufferNode}
    {active next : Option BlockBufferNode} (hOld : Disk.Inv p.disk done active)
    (hNew : Disk.Inv disk done next) (hSched : disk.sched = p.disk.sched)
    (hList : disk.submitted = p.disk.submitted) : Sound { p with disk := disk } := by
  have hEnded := ended_iff_of_done hOld hNew
  have hSame : System.sched { p with disk := disk } = p.sched := hSched
  refine { disk := ⟨done, next, hNew⟩, queue := ?_, queued_running := ?_, queued_ended := ?_,
           owner := ?_, last_submitted := h.last_submitted, last_waiting := h.last_waiting,
           mine := ?_, submitted_open := ?_, waiting_late := h.waiting_late, early := ?_,
           awake := ?_, init_running := ?_, returns := h.returns, now_running := ?_,
           now_out := ?_ }
  · rw [hSame]
    exact h.queue
  · rw [hSame]
    exact h.queued_running
  · rw [hSame]
    exact fun t ht k e hWait => (hEnded k).mpr (h.queued_ended t ht k e hWait)
  · intro r hr hOpen
    exact h.owner r (hList ▸ hr) (fun hOld => hOpen ((hEnded _).mpr hOld))
  · intro t k hLast
    obtain ⟨r, hr, hRest⟩ := h.mine t k hLast
    exact ⟨r, hList.symm ▸ hr, hRest⟩
  · intro t k hSub hNe
    rw [hSame, hEnded]
    exact h.submitted_open t k hSub hNe
  · rw [hSame]
    exact h.early
  · intro t k hLast
    rw [hSame, hEnded]
    exact h.awake t k hLast
  · intro hFree
    rw [hSame]
    exact h.init_running fun hStuck => hFree (hStuck.transfer rfl fun k _ _ => (hEnded k).mp)
  · rw [hSame]
    exact h.now_running
  · rw [hSame]
    exact h.now_out

theorem Sound.end_request {p : System} (h : Sound p) {disk : State} {done : List BlockBufferNode}
    {r : BlockBufferNode} {next : Option BlockBufferNode} (hOld : Disk.Inv p.disk done (some r))
    (hNew : Disk.Inv disk (done ++ [r]) next) (hSched : disk.sched = woken p.disk.sched r.tsk)
    (hList : disk.submitted = p.disk.submitted)
    (hGood : p.phase r.tsk = .waiting r.serial false ∨ r.tsk = initTask) :
    Sound { p with disk := disk } := by
  have hr := active_submitted hOld
  have hOpen := active_open hOld
  have hEnded : ∀ k, System.Ended { p with disk := disk } k ↔ p.Ended k ∨ k = r.serial := by
    intro k
    refine hNew.finish_mem.trans ?_
    unfold System.Ended
    rw [hOld.finish_mem]
    constructor
    · rintro ⟨q, hq, rfl⟩
      obtain hq | hq := List.mem_append.mp hq
      · exact Or.inl ⟨q, hq, rfl⟩
      · exact Or.inr (by rw [List.mem_singleton.mp hq])
    · rintro (⟨q, hq, rfl⟩ | rfl)
      · exact ⟨q, List.mem_append_left _ hq, rfl⟩
      · exact ⟨r, List.mem_append_right _ (List.mem_singleton_self _), rfl⟩
  have hSame : System.sched { p with disk := disk } = woken p.sched r.tsk := hSched
  -- whoever is on the request `r` is its task
  have hOwner : ∀ t, p.last t = some r.serial → t = r.tsk := by
    intro t hLast
    obtain ⟨q, hq, hSerial, rfl⟩ := h.mine t _ hLast
    rw [hOld.eq_of_serial hr hq hSerial]
  have hNow : p.sched.state p.sched.nowTask = .running := h.now_running
  refine { disk := ⟨_, next, hNew⟩, queue := ?_, queued_running := ?_, queued_ended := ?_,
           owner := ?_, last_submitted := h.last_submitted, last_waiting := h.last_waiting,
           mine := ?_, submitted_open := ?_, waiting_late := h.waiting_late, early := ?_,
           awake := ?_, init_running := ?_, returns := h.returns, now_running := ?_,
           now_out := ?_ }
  · rw [hSame]
    refine woken_queueInv h.queue ?_
    obtain hWait | hInit := hGood
    · refine Or.inr ⟨fun hMem => hOpen (h.queued_ended _ hMem _ _ hWait), ?_⟩
      intro hEq
      exact h.now_out r.serial false (hEq ▸ hWait)
    · exact Or.inl hInit
  · rw [hSame]
    intro t ht
    by_cases hEq : t = r.tsk
    · rw [hEq, woken_state_self]
    · rw [woken_state_of_ne _ _ hEq]
      exact h.queued_running t ((mem_woken.mp ht).resolve_left fun hSelf => hEq hSelf.1)
  · rw [hSame]
    intro t ht k e hWait
    rw [hEnded]
    obtain ⟨rfl, hNe⟩ | hMem := mem_woken.mp ht
    · have hPhase := hGood.resolve_right hNe
      exact Or.inr (Phase.waiting.inj (hWait.symm.trans hPhase)).1
    · exact Or.inl (h.queued_ended t hMem k e hWait)
  · intro q hq hStill
    exact h.owner q (hList ▸ hq) fun hWas => hStill ((hEnded _).mpr (Or.inl hWas))
  · intro t k hLast
    obtain ⟨q, hq, hRest⟩ := h.mine t k hLast
    exact ⟨q, hList.symm ▸ hq, hRest⟩
  · intro t k hSub hNe
    obtain ⟨hKnown, hWas⟩ := h.submitted_open t k hSub hNe
    rw [hSame, hEnded]
    refine ⟨known_woken hKnown, ?_⟩
    rintro (hNow | rfl)
    · exact hWas hNow
    · have hEq := hOwner t (h.last_submitted t _ hSub)
      subst hEq
      have hPhase := hGood.resolve_right hNe
      exact absurd (hSub.symm.trans hPhase) (by simp)
  · intro k hWait
    rw [hSame]
    have hNe : initTask ≠ r.tsk := by
      intro hEq
      obtain hOwn | hOwn := h.owner r hr hOpen
      · rw [← hEq] at hOwn
        exact absurd (hOwn.symm.trans hWait) (by simp)
      · rw [← hEq] at hOwn
        exact absurd (hOwn.symm.trans hWait) (by simp)
    rw [woken_state_of_ne _ _ hNe]
    exact h.early k hWait
  · intro t k hLast hNow
    rw [hSame]
    obtain hWas | rfl := (hEnded k).mp hNow
    · exact known_woken (h.awake t k hLast hWas)
    · rw [hOwner t hLast]
      exact woken_known
  · intro hFree
    rw [hSame]
    by_cases hEq : initTask = r.tsk
    · rw [hEq]
      exact woken_state_self _ _
    · rw [woken_state_of_ne _ _ hEq]
      refine h.init_running fun hStuck => hFree (hStuck.transfer rfl fun k e hWait hNow => ?_)
      refine ((hEnded k).mp hNow).resolve_right ?_
      rintro rfl
      exact hEq (hOwner _ (h.last_waiting _ _ e hWait))
  · rw [hSame, woken_nowTask]
    by_cases hEq : p.sched.nowTask = r.tsk
    · rw [hEq]
      exact woken_state_self _ _
    · rw [woken_state_of_ne _ _ hEq]
      exact hNow
  · rw [hSame, woken_nowTask]
    exact h.now_out

/-! ## Each step against its condition -/

/-- What a step does to the protocol: it is kept under the condition and broken otherwise. -/
def Settles (good : Prop) (q : System) : Prop := (good → Sound q) ∧ (¬ good → ¬ Spec q)

theorem Leaving.settles {p : System} (h : Leaving p) :
    Settles (¬ (FallsBack p.sched ∧ Stuck p)) (Wait.reschedule p) := by
  refine ⟨h.reschedule, fun hBad hSpec => ?_⟩
  obtain ⟨hBack, hStuck⟩ := not_not.mp hBad
  obtain ⟨r, hr, hNot⟩ := h.reschedule_stuck hBack hStuck
  exact hNot (hSpec.returns r hr)

theorem Sound.retFromIntr {p : System} (h : Sound p) :
    Settles (¬ (Preempts p.sched ∧ FallsBack p.sched ∧ Stuck p)) (Wait.retFromIntr p) := by
  unfold Wait.retFromIntr
  by_cases hPreempts : Preempts p.sched
  · rw [if_pos hPreempts]
    simpa only [hPreempts, true_and] using h.leaving.settles
  · rw [if_neg hPreempts]
    exact ⟨fun _ => h, fun hBad => absurd (fun hAll => hPreempts hAll.1) hBad⟩

theorem resume_sched (p : System) : (resume p).sched = p.sched := by
  unfold resume
  split <;> rfl

/-- A task that is in the scheduler twice stays there twice on the way out of the interrupt. -/
theorem retFromIntr_twice {p : System} {t : TaskId} (hInit : initTask ∉ p.sched.taskQueue)
    (ht : t ≠ initTask) (hRunning : p.sched.state t = .running)
    (hTwice : 1 < occurrences p.sched t) : ¬ Spec (retFromIntr p) := by
  intro hSpec
  have hLe := occurrences_le_one hSpec.nodup hSpec.now_notMem t
  have hSame : occurrences (retFromIntr p).sched t = occurrences p.sched t := by
    unfold retFromIntr
    split
    · rw [reschedule, resume_sched]
      refine schedule_occurrences p.sched hInit ht fun hNow => ?_
      rw [← hNow] at hRunning
      exact hRunning
    · rfl
  omega

theorem occurrences_pos {s : Schedule} {t : TaskId} (h : Known s t) (ht : t ≠ initTask) :
    0 < occurrences s t := by
  unfold occurrences
  obtain hQueue | hNow | hInit := h
  · have hPos := List.count_pos_iff.mpr hQueue
    omega
  · rw [if_pos hNow.symm]
    omega
  · exact absurd hInit ht

theorem inWait_iff {p : System} {t : TaskId} : InWait p t ↔ ∃ k e, p.phase t = .waiting k e := by
  unfold InWait
  split
  · exact iff_of_true trivial ⟨_, _, ‹_›⟩
  · refine iff_of_false id ?_
    rintro ⟨k, e, hPhase⟩
    exact absurd hPhase (by simp_all)

theorem Sound.irq {p q : System} (h : Sound p) {error : Bool} (hStep : Step p (.irq error) q) :
    Settles (Good p (.irq error)) q := by
  obtain ⟨done, active, hDisk⟩ := h.disk
  unfold Step Wait.next at hStep
  obtain ⟨hFlight, hSome⟩ := Option.ite_none_right_eq_some.mp hStep
  obtain ⟨disk, hCall, rfl⟩ := Option.map_eq_some_iff.mp hSome
  obtain ⟨r, t, rfl, hIrq, hList, hNext⟩ := hDisk.irq hFlight error
  have hEq : disk = t := Option.some.inj (hCall.symm.trans hIrq)
  subst hEq
  have hr := active_submitted hDisk
  have hNode : p.disk.inUsing = some (progress r p.disk.drive.irqs) := hDisk.inUsing
  have hEnds : EndsRequest p ↔ r.count - p.disk.drive.irqs = 1 := by
    unfold EndsRequest
    rw [hNode]
    simp [progress]
  obtain ⟨hMore, hSched, hInv, -⟩ | ⟨hLast, hSched, next, hInv, -⟩ := hNext
  · have hSound := h.of_disk hDisk hInv hSched hList
    have hNot : ¬ EndsRequest p := by
      rw [hEnds]
      omega
    have hSame : System.sched { p with disk := disk } = p.sched := hSched
    have hEnded := ended_iff_of_done hDisk hInv
    have hStuck : Stuck { p with disk := disk } ↔ Stuck p :=
      ⟨fun hs => hs.transfer rfl fun k _ _ => (hEnded k).mpr,
        fun hs => hs.transfer rfl fun k _ _ => (hEnded k).mp⟩
    have hSettles := hSound.retFromIntr
    rw [hSame, hStuck] at hSettles
    simpa only [Good, if_neg hNot] using hSettles
  · have hYes : EndsRequest p := by
      rw [hEnds]
      omega
    have hOpen := active_open hDisk
    have hSame : System.sched { p with disk := disk } = woken p.sched r.tsk := hSched
    have hGood : Good p (.irq error) ↔ InWait p r.tsk ∨ r.tsk = initTask := by
      simp [Good, if_pos hYes, hNode]
    rw [hGood]
    constructor
    · intro hReady
      have hPhase : p.phase r.tsk = .waiting r.serial false ∨ r.tsk = initTask := by
        refine hReady.imp_left fun hWait => (h.owner r hr hOpen).resolve_left fun hSub => ?_
        obtain ⟨k, e, hPhase⟩ := inWait_iff.mp hWait
        rw [hSub] at hPhase
        cases hPhase
      have hSound := h.end_request hDisk hInv hSched hList hPhase
      refine hSound.retFromIntr.1 ?_
      rintro ⟨-, ⟨hEmpty, -⟩, hStuck⟩
      rw [hSame] at hEmpty
      by_cases hInit : r.tsk = initTask
      · -- `init_task` waits for `r`, which has just ended
        obtain ⟨k, e, hWait, hReason⟩ := stuck_iff.mp hStuck
        have hOwn := h.owner r hr hOpen
        rw [hInit] at hOwn
        obtain hSub | hWaiting := hOwn
        · exact absurd (hSub.symm.trans hWait) (by simp)
        · obtain ⟨rfl, rfl⟩ := Phase.waiting.inj (hWaiting.symm.trans hWait)
          refine hReason.elim (by simp) fun hStill => hStill ?_
          exact hInv.finish_mem.mpr ⟨r, List.mem_append_right _ (List.mem_singleton_self _), rfl⟩
      · have hMem : r.tsk ∈ (woken p.sched r.tsk).taskQueue := mem_woken.mpr (Or.inl ⟨rfl, hInit⟩)
        rw [hEmpty] at hMem
        exact List.not_mem_nil hMem
    · intro hBad
      rw [not_or] at hBad
      have hSub : p.phase r.tsk = .submitted r.serial :=
        (h.owner r hr hOpen).resolve_right fun hWait => hBad.1 (inWait_iff.mpr ⟨_, _, hWait⟩)
      have hKnown := (h.submitted_open r.tsk r.serial hSub hBad.2).1
      refine retFromIntr_twice (t := r.tsk) ?_ hBad.2 ?_ ?_
      · rw [hSame, mem_woken, not_or]
        exact ⟨fun hInit => hInit.2 hInit.1.symm, h.queue.init_notMem⟩
      · rw [hSame]
        exact woken_state_self _ _
      · rw [hSame, woken_occurrences hBad.2]
        have hPos := occurrences_pos hKnown hBad.2
        omega

/-! ## `wait_for_finish` and the tick -/

theorem block_phase_self (p : System) (k : Nat) :
    (block p k).phase p.sched.nowTask = .waiting k (p.Ended k) :=
  setPhase_phase_self _ _ _

theorem block_state_self (p : System) (k : Nat) :
    (block p k).sched.state p.sched.nowTask ≠ .running := by
  have hBlocked : (block p k).sched.state p.sched.nowTask = .uninterruptible :=
    Schedule.setState_state_self _ _ _
  rw [hBlocked]
  decide

/-- `init_task` is stuck at once: nobody may be left to run until its request ends. -/
theorem block_stuck {p : System} (k : Nat) (hInit : initTask = p.sched.nowTask) :
    Stuck (block p k) := by
  have hSelf := block_phase_self p k
  rw [← hInit] at hSelf
  rw [stuck_waiting hSelf]
  by_cases hEnded : p.Ended k
  · exact Or.inl (decide_eq_true hEnded)
  · exact Or.inr hEnded

theorem Sound.leaving_block {p : System} (h : Sound p) {k : Nat}
    (hSub : p.phase p.sched.nowTask = .submitted k) : Leaving (block p k) := by
  have hSelf := block_phase_self p k
  have hOther : ∀ t, t ≠ p.sched.nowTask → (block p k).phase t = p.phase t := fun t ht =>
    setPhase_phase_of_ne _ ht
  have hState : ∀ t, t ≠ p.sched.nowTask → (block p k).sched.state t = p.sched.state t :=
    fun t ht => Schedule.setState_state_other _ _ ht
  have hOpen : p.sched.nowTask ≠ initTask → ¬ p.Ended k := fun hNe =>
    (h.submitted_open _ k hSub hNe).2
  have hQueued : ∀ t ∈ p.sched.taskQueue, t ≠ p.sched.nowTask := by
    rintro t ht rfl
    exact h.queue.now_notMem ht
  refine { disk := ?_, queue := h.queue.setState _ _, queued_running := ?_, queued_ended := ?_,
           owner := ?_, last_submitted := ?_, last_waiting := ?_, mine := h.mine,
           submitted_open := ?_, waiting_late := ?_, early := ?_, awake := h.awake,
           init_running := ?_, returns := h.returns, now := ?_ }
  · obtain ⟨done, active, hDisk⟩ := h.disk
    exact ⟨done, active, hDisk.of_sched _⟩
  · intro t ht
    rw [hState t (hQueued t ht)]
    exact h.queued_running t ht
  · intro t ht k' e hWait
    rw [hOther t (hQueued t ht)] at hWait
    exact h.queued_ended t ht k' e hWait
  · intro r hr hStill
    by_cases hEq : r.tsk = p.sched.nowTask
    · have hOwn := h.owner r hr hStill
      rw [hEq, hSub] at hOwn
      have hSerial : k = r.serial := by simpa using hOwn
      subst hSerial
      have hStill' : ¬ p.Ended r.serial := hStill
      refine Or.inr ?_
      rw [hEq, hSelf, decide_eq_false hStill']
    · rw [hOther _ hEq]
      exact h.owner r hr hStill
  · intro t k' hOld
    by_cases hEq : t = p.sched.nowTask
    · rw [hEq, hSelf] at hOld
      cases hOld
    · rw [hOther t hEq] at hOld
      exact h.last_submitted t k' hOld
  · intro t k' e hWait
    by_cases hEq : t = p.sched.nowTask
    · rw [hEq, hSelf] at hWait
      obtain ⟨rfl, -⟩ := Phase.waiting.inj hWait
      rw [hEq]
      exact h.last_submitted _ k hSub
    · rw [hOther t hEq] at hWait
      exact h.last_waiting t k' e hWait
  · intro t k' hOld hNe
    by_cases hEq : t = p.sched.nowTask
    · rw [hEq, hSelf] at hOld
      cases hOld
    · rw [hOther t hEq] at hOld
      exact h.submitted_open t k' hOld hNe
  · intro t k' hWait
    by_cases hEq : t = p.sched.nowTask
    · by_contra hNe
      rw [hEq, hSelf] at hWait
      exact hOpen (hEq ▸ hNe) (of_decide_eq_true (Phase.waiting.inj hWait).2)
    · rw [hOther t hEq] at hWait
      exact h.waiting_late t k' hWait
  · intro k' hWait
    by_cases hEq : initTask = p.sched.nowTask
    · rw [hEq]
      exact block_state_self p k
    · rw [hState _ hEq]
      rw [hOther _ hEq] at hWait
      exact h.early k' hWait
  · intro hFree
    by_cases hEq : initTask = p.sched.nowTask
    · exact absurd (block_stuck k hEq) hFree
    · rw [hState _ hEq]
      exact h.init_running fun hStuck =>
        hFree (hStuck.transfer (hOther _ hEq) fun _ _ _ => id)
  · exact Or.inr ⟨block_state_self p k, k, _, hSelf, hOpen⟩

theorem Sound.waitForFinish {p q : System} (h : Sound p) (hStep : Step p .waitForFinish q) :
    Settles (Good p .waitForFinish) q := by
  unfold Step Wait.next at hStep
  cases hPhase : p.phase p.sched.nowTask with
  | outside | waiting =>
    simp only [hPhase] at hStep
    cases hStep
  | submitted k =>
    simp only [hPhase] at hStep
    cases hStep
    have hLeaving := h.leaving_block hPhase
    have hYields : yields (block p k).sched initTask := Or.inr (block_state_self p k)
    have hStuck : Stuck (block p k) ↔ p.sched.nowTask = initTask ∨ Stuck p := by
      by_cases hEq : p.sched.nowTask = initTask
      · exact iff_of_true (block_stuck k hEq.symm) (Or.inl hEq)
      · have hSame : (block p k).phase initTask = p.phase initTask :=
          setPhase_phase_of_ne _ (Ne.symm hEq)
        rw [or_iff_right hEq]
        exact ⟨fun hs => hs.transfer hSame.symm fun _ _ _ => id,
          fun hs => hs.transfer hSame fun _ _ _ => id⟩
    have hSettles := hLeaving.settles
    rw [hStuck] at hSettles
    have hBack : FallsBack (block p k).sched ↔ p.sched.taskQueue = [] :=
      ⟨And.left, fun hEmpty => ⟨hEmpty, hYields⟩⟩
    rw [hBack] at hSettles
    exact hSettles

theorem Sound.tick {p q : System} (h : Sound p) (hStep : Step p .tick q) :
    Settles (Good p .tick) q := by
  cases hStep
  have hState : ∀ t, (pitHandler p.sched).state t = p.sched.state t := charge_state p.sched _
  have hNow : (pitHandler p.sched).nowTask = p.sched.nowTask := charge_nowTask _ _
  have hBase : Base (p.setSched (pitHandler p.sched)) :=
    h.toBase.of_sched (charge_taskQueue _ _) hNow hState (h.queue.charge _)
  have hLeaving : Leaving (p.setSched (pitHandler p.sched)) := by
    refine ⟨hBase, Or.inl ⟨?_, ?_⟩⟩
    · change (pitHandler p.sched).state (pitHandler p.sched).nowTask = _
      rw [hState, hNow]
      exact h.now_running
    · change ∀ k e, p.phase (pitHandler p.sched).nowTask ≠ _
      rw [hNow]
      exact h.now_out
  exact hLeaving.settles

theorem Sound.step {p q : System} (h : Sound p) {op : Op} (hStep : Step p op q) :
    Settles (Good p op) q := by
  cases op with
  | submit cmd blocks count buffer =>
    obtain ⟨⟨hOut, hCmd, hPos, hLe⟩, hCall⟩ := Option.ite_none_right_eq_some.mp hStep
    exact ⟨fun _ => h.submit hOut hCmd hPos hLe hCall, fun hBad => absurd trivial hBad⟩
  | irq error => exact h.irq hStep
  | waitForFinish => exact h.waitForFinish hStep
  | tick => exact h.tick hStep

theorem reach_sound {p : System} (h : Reach Initial (Guarded Good Step) p) : Sound p :=
  Reach.invariant (P := Sound) (fun _ => initial_sound)
    (fun _ _ _ hp hStep => (hp.step hStep.2).1 hStep.1) h

/-- In a run whose steps all meet the condition the protocol is kept, and a further step keeps
it exactly when it meets the condition. -/
theorem spec_iff_good (p : System) (h : Reach Initial (Guarded Good Step) p) :
    Spec p ∧ ∀ op q, Step p op q → (Spec q ↔ Good p op) := by
  have hSound := reach_sound h
  refine ⟨hSound.spec, fun op q hStep => ?_⟩
  obtain ⟨hKeep, hBreak⟩ := hSound.step hStep
  constructor
  · intro hSpec
    by_contra hBad
    exact hBreak hBad hSpec
  · exact fun hGood => (hKeep hGood).spec

/-! ## A completion before `wait_for_finish` -/

/-- Task 1 runs, `init_task` idles, the disk is at rest. -/
def start : System where
  disk := diskInit (scheduleInit 1 fun _ => ⟨.running, pfKthread, 0, 0, 2, 0⟩)
    ⟨⟨0, 0⟩, ⟨0, 0⟩, ⟨0, 0⟩, ⟨0, 0⟩, none, 0, 0⟩
  phase := fun _ => .outside
  last := fun _ => none
  returns := []

theorem start_initial : Initial start where
  disk := ⟨_, _, by simp [Drive.InFlight], rfl⟩
  queue := ⟨List.Pairwise.nil, List.nodup_nil, List.not_mem_nil, List.not_mem_nil, rfl⟩
  running _ _ := rfl
  outside _ := rfl
  last _ := rfl
  returns := rfl

/-- The interrupt of a one-sector read comes before its task has reached `wait_for_finish`: the
task is queued while it runs. -/
theorem early_completion : ¬ ∀ p, Reach Initial Step p → Spec p := by
  intro hAll
  have hSome : ∃ p, runList next start [.submit ataReadCmd 7 1 4096, .irq false] = some p ∧
      p.sched.nowTask = 1 ∧ p.sched.taskQueue = [1] := ⟨_, rfl, rfl, rfl⟩
  obtain ⟨p, hRun, hNow, hQueue⟩ := hSome
  have hReach : Reach Initial Step p :=
    (Reach.start start_initial).run (run_of_runList (fun _ _ _ h => h) hRun)
  apply (hAll p hReach).now_notMem
  rw [hNow, hQueue]
  exact List.mem_singleton_self 1

/-- The same read with the interrupt after `wait_for_finish`. -/
theorem spec_iff_good_read : ∃ p, p.returns = [⟨1, 0, 0, .running⟩] ∧ Spec p := by
  have hSome : ∃ p, runList (guardedNext Good next) start
      [.submit ataReadCmd 7 1 4096, .waitForFinish, .irq false, .tick] = some p ∧
      p.returns = [⟨1, 0, 0, .running⟩] := ⟨_, rfl, rfl⟩
  obtain ⟨p, hRun, hReturns⟩ := hSome
  have hReach : Reach Initial (Guarded Good Step) p :=
    (Reach.start start_initial).run (run_of_runList (guarded_of_next fun _ _ _ h => h) hRun)
  exact ⟨p, hReturns, (spec_iff_good p hReach).1⟩

end KalinoteOS.Disk.Wait
