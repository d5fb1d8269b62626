import KalinoteOS.Task.KernelThread
import KalinoteOS.Lib.Run
import Mathlib.Logic.Relation

/-! # Every task as if it had a processor of its own

`Tasks` is the machine that the tasks are meant to see: each has registers and a stack that only its own steps
change, and a switch changes nothing but which task is current. The processor with `switch_to` refines it.
-/
namespace KalinoteOS.Task
open Lib Memory Entry Strings
set_option autoImplicit false

/-! ## A processor for each task -/

inductive View where
  /-- A task that runs or has run. -/
  | context (c : Context)
  /-- A thread that has not run yet. -/
  | fresh (fn arg : Word)

structure Tasks where
  current : Word
  view : Word → Option View

def Tasks.set (a : Tasks) (t : Word) (v : View) : Tasks :=
  { a with view := Function.update a.view t (some v) }

/-- What happens in a step: the current task goes on and has the context `c` then, it makes a thread, or it gives
up the processor. -/
inductive Label where
  | own (c : Context)
  | kernelThread (c : Context) (t fn arg : Word)
  | switchTo (next : Word)

inductive Tasks.Step (link : Link) : Tasks → Label → Tasks → Prop
  | own (a : Tasks) (c : Context) : Step link a (.own c) (a.set a.current (.context c))
  | kernelThread (a : Tasks) (c : Context) (t fn arg : Word) (hNew : a.view t = none) :
    Step link a (.kernelThread c t fn arg) ((a.set a.current (.context c)).set t (.fresh fn arg))
  | resume (a : Tasks) (t : Word) (c : Context) (hView : a.view t = some (.context c)) :
    Step link a (.switchTo t) { a with current := t }
  | start (a : Tasks) (t fn arg : Word) (hView : a.view t = some (.fresh fn arg)) :
    Step link a (.switchTo t) ({ a with current := t }.set t (.context (startContext link t)))

/-! ## The processor -/

/-- `tasks` are those made so far. -/
structure System where
  cpu : Cpu
  tasks : List Word

namespace System

/-- What the current task may do between two switches: anything with the registers and with all memory but the
stacks of other tasks. Its stack pointer stays on its stack. -/
structure Own (s : System) (cpu : Cpu) : Prop where
  nowTask : cpu.nowTask = s.cpu.nowTask
  thread : ∀ t, t ≠ s.cpu.nowTask → cpu.thread t = s.cpu.thread t
  rsp0 : (cpu.thread s.cpu.nowTask).rsp0 = (s.cpu.thread s.cpu.nowTask).rsp0
  tss : cpu.initTss = s.cpu.initTss ∧ cpu.tss64Table = s.cpu.tss64Table ∧ cpu.sysenterEsp = s.cpu.sysenterEsp
  mem : ∀ t ∈ s.tasks, t ≠ s.cpu.nowTask → ∀ x, InUnion t x → structSize ≤ (x - t).toNat → cpu.mem x = s.cpu.mem x
  room : Room 24 s.cpu.nowTask (cpu.reg .rsp)

/-- The page that `alloc_pages` gives holds no task and is aligned; `body` is the compiled `__switch_to`. -/
inductive Does (link : Link) (env : Env) : System → Label → System → Prop
  | own (s : System) (cpu : Cpu) (h : s.Own cpu) :
    Does link env s (.own (cpu.context s.cpu.nowTask)) { s with cpu := cpu }
  | kernelThread (s : System) (flags regs tsk fn arg : Word) (hFlags : flags &&& pfKthread ≠ 0)
    (hNew : tsk ∉ s.tasks) (hAligned : Aligned tsk) (hRegs : RegsRoom s.cpu.nowTask (s.cpu.reg .rsp) regs) :
    Does link env s
      (.kernelThread ((kernelThread link flags regs tsk fn arg s.cpu).context s.cpu.nowTask) tsk fn arg)
      ⟨kernelThread link flags regs tsk fn arg s.cpu, tsk :: s.tasks⟩
  | switchTo (s : System) (body : Machine → Machine) (next : Word) (cpu : Cpu) (hNext : next ∈ s.tasks)
    (hBody : BodyKeeps s.tasks next body) (hRun : switchTo link env body next s.cpu = some cpu) :
    Does link env s (.switchTo next) { s with cpu := cpu }

def Step (link : Link) (env : Env) (s s' : System) : Prop := ∃ l, Does link env s l s'

end System

/-- The stack pointers for entries from user mode are those of `t`. -/
def Entered (s : Cpu) (t : Word) : Prop :=
  s.initTss.rsp0 = t + stackSize ∧ s.tss64Table.rsp0 = t + stackSize ∧ s.sysenterEsp = t + stackSize

structure Refines (link : Link) (s : System) (a : Tasks) : Prop where
  nowTask : s.cpu.nowTask = a.current
  running : a.view a.current = some (.context (s.cpu.context a.current))
  room : Room 24 a.current (s.cpu.reg .rsp)
  rsp0 : (s.cpu.thread a.current).rsp0 = a.current + stackSize
  entered : Entered s.cpu a.current
  tasks : ∀ t, t ∈ s.tasks ↔ a.view t ≠ none
  aligned : ∀ t ∈ s.tasks, Aligned t
  parked : ∀ t c, t ≠ a.current → a.view t = some (.context c) → Parked link s.cpu t c
  waiting : ∀ t fn arg, a.view t = some (.fresh fn arg) → Waiting link s.cpu t fn arg

section
variable {link : Link} {env : Env} {s s' : System} {a : Tasks}

theorem Refines.current_mem (h : Refines link s a) : a.current ∈ s.tasks := by
  rw [h.tasks, h.running]
  exact Option.some_ne_none _

/-- `get_current` finds the current task on every kernel stack. -/
theorem Refines.getCurrent (h : Refines link s a) : getCurrent (s.cpu.reg .rsp) = a.current :=
  getCurrent_eq (h.aligned _ h.current_mem) h.room.2

theorem Tasks.set_ne (a : Tasks) {t u : Word} (v : View) (h : u ≠ t) : (a.set t v).view u = a.view u :=
  Function.update_of_ne h _ _

theorem Tasks.set_self (a : Tasks) (t : Word) (v : View) : (a.set t v).view t = some v :=
  Function.update_self _ _ _

theorem refines_own (h : Refines link s a) {cpu : Cpu} (hOwn : s.Own cpu) :
    Refines link { s with cpu := cpu } (a.set a.current (.context (cpu.context a.current))) := by
  obtain ⟨hNow, hThread, hRsp0, hTss, hMem, hRoom⟩ := hOwn
  rw [h.nowTask] at hNow hThread hRsp0 hMem hRoom
  refine ⟨hNow, Tasks.set_self _ _ _, hRoom, hRsp0.trans h.rsp0, ?_, fun t => ?_, h.aligned,
    fun t c hNe hView => ?_, fun t fn arg hView => ?_⟩
  · obtain ⟨hInit, hTable, hEsp⟩ := hTss
    unfold Entered
    rw [hInit, hTable, hEsp]
    exact h.entered
  · by_cases hEq : t = a.current
    · rw [hEq, Tasks.set_self]
      exact iff_of_true h.current_mem (Option.some_ne_none _)
    · rw [Tasks.set_ne a _ hEq]
      exact h.tasks t
  · have hOld : a.view t = some (.context c) := (Tasks.set_ne a _ hNe).symm.trans hView
    have hMember : t ∈ s.tasks := (h.tasks t).mpr (by rw [hOld]; exact Option.some_ne_none _)
    exact (h.parked t c hNe hOld).keep (hThread t hNe) (hMem t hMember hNe)
  · have hNe : t ≠ a.current := by
      rintro rfl
      rw [Tasks.set_self] at hView
      exact View.noConfusion (Option.some.inj hView)
    have hOld : a.view t = some (.fresh fn arg) := (Tasks.set_ne a _ hNe).symm.trans hView
    have hMember : t ∈ s.tasks := (h.tasks t).mpr (by rw [hOld]; exact Option.some_ne_none _)
    exact (h.waiting t fn arg hOld).keep (hThread t hNe) (hMem t hMember hNe)

theorem refines_kernelThread (h : Refines link s a) {flags regs tsk : Word} (fn arg : Word)
    (hFlags : flags &&& pfKthread ≠ 0)
    (hNew : tsk ∉ s.tasks) (hAligned : Aligned tsk) (hRegs : RegsRoom s.cpu.nowTask (s.cpu.reg .rsp) regs) :
    a.view tsk = none ∧ Refines link ⟨kernelThread link flags regs tsk fn arg s.cpu, tsk :: s.tasks⟩
      ((a.set a.current (.context ((kernelThread link flags regs tsk fn arg s.cpu).context a.current))).set tsk
        (.fresh fn arg)) := by
  have hCurrent := h.aligned _ h.current_mem
  have hNone : a.view tsk = none := by
    by_contra hSome
    exact hNew ((h.tasks tsk).mpr hSome)
  have hNe : tsk ≠ a.current := by
    rintro rfl
    exact hNew h.current_mem
  rw [← h.nowTask] at hNe hCurrent
  have hIn : InUnion s.cpu.nowTask (s.cpu.reg .rsp) := by
    rw [h.nowTask]
    exact h.room.2
  obtain ⟨mem, thd, hEq, hThd, hWords, hMem⟩ := kernelThread_spec link fn arg hFlags
    hCurrent hAligned hNe hRegs hIn
  rw [h.nowTask] at hNe hMem hCurrent
  refine ⟨hNone, ?_⟩
  rw [hEq]
  have hRsp : (({ s.cpu.machine with mem := mem } : Machine).set .rax 1).reg .rsp = s.cpu.reg .rsp :=
    set_reg _ _ (by decide)
  have hThreads : ∀ t, t ≠ tsk → Function.update s.cpu.thread tsk thd t = s.cpu.thread t :=
    fun t ht => Function.update_of_ne ht _ _
  refine ⟨h.nowTask, ?_, hRsp.symm ▸ h.room, ?_, h.entered, fun t => ?_, fun t ht => ?_,
    fun t c hOther hView => ?_, fun t fn' arg' hView => ?_⟩
  · exact (Tasks.set_ne _ _ hNe.symm).trans (Tasks.set_self _ _ _)
  · exact (congrArg Thread.rsp0 (hThreads _ hNe.symm)).trans h.rsp0
  · by_cases hEqT : t = tsk
    · rw [hEqT, Tasks.set_self]
      exact iff_of_true List.mem_cons_self (Option.some_ne_none _)
    · rw [Tasks.set_ne _ _ hEqT, List.mem_cons]
      by_cases hCur : t = a.current
      · rw [hCur, Tasks.set_self]
        exact iff_of_true (.inr h.current_mem) (Option.some_ne_none _)
      · rw [Tasks.set_ne _ _ hCur, ← h.tasks t]
        exact or_iff_right hEqT
  · obtain rfl | ht := List.mem_cons.mp ht
    · exact hAligned
    · exact h.aligned t ht
  · have hNotNew : t ≠ tsk := by
      rintro rfl
      rw [Tasks.set_self] at hView
      exact View.noConfusion (Option.some.inj hView)
    have hOld : a.view t = some (.context c) :=
      ((Tasks.set_ne a _ hOther).symm.trans (Tasks.set_ne _ _ hNotNew).symm).trans hView
    have hMember : t ∈ s.tasks := (h.tasks t).mpr (by rw [hOld]; exact Option.some_ne_none _)
    refine (h.parked t c hOther hOld).keep (hThreads t hNotNew) fun x hx _ => ?_
    exact hMem t x (h.aligned t hMember) hNotNew hx fun hSame => absurd hSame hOther
  · by_cases hEqT : t = tsk
    · subst hEqT
      rw [Tasks.set_self] at hView
      obtain ⟨rfl, rfl⟩ := View.fresh.inj (Option.some.inj hView)
      refine ⟨?_, hWords⟩
      rw [← hThd]
      exact Function.update_self _ _ _
    · rw [Tasks.set_ne _ _ hEqT] at hView
      have hOther : t ≠ a.current := by
        rintro rfl
        rw [Tasks.set_self] at hView
        exact View.noConfusion (Option.some.inj hView)
      rw [Tasks.set_ne _ _ hOther] at hView
      have hMember : t ∈ s.tasks := (h.tasks t).mpr (by rw [hView]; exact Option.some_ne_none _)
      refine (h.waiting t fn' arg' hView).keep (hThreads t hEqT) fun x hx _ => ?_
      exact hMem t x (h.aligned t hMember) hEqT hx fun hSame => absurd hSame hOther

/-! ## A switch -/

/-- With the current task parked, every task that has run is. -/
theorem Refines.all_parked (h : Refines link s a) {t : Word} {c : Context}
    (hView : a.view t = some (.context c)) :
    Parked link (park link s.cpu) t c := by
  have hCurrent := h.aligned _ h.current_mem
  have hRoom := h.room
  have hTop := h.rsp0
  have hRunning := h.running
  rw [← h.nowTask] at hCurrent hRoom hTop hRunning
  by_cases hEq : t = s.cpu.nowTask
  · subst hEq
    rw [hRunning] at hView
    rw [← View.context.inj (Option.some.inj hView)]
    exact park_parked hCurrent hRoom hTop
  · have hMember : t ∈ s.tasks := (h.tasks t).mpr (by rw [hView]; exact Option.some_ne_none _)
    obtain ⟨hThread, hMem⟩ := park_other link hEq hCurrent (h.aligned t hMember) (hRoom.less (by decide))
    exact (h.parked t c (h.nowTask ▸ hEq) hView).keep hThread fun x hx _ => hMem x hx

theorem Refines.all_waiting (h : Refines link s a) {t fn arg : Word} (hView : a.view t = some (.fresh fn arg)) :
    Waiting link (park link s.cpu) t fn arg := by
  have hCurrent := h.aligned _ h.current_mem
  have hRoom := h.room
  rw [← h.nowTask] at hCurrent hRoom
  have hNe : t ≠ s.cpu.nowTask := by
    rw [h.nowTask]
    rintro rfl
    rw [h.running] at hView
    exact View.noConfusion (Option.some.inj hView)
  have hMember : t ∈ s.tasks := (h.tasks t).mpr (by rw [hView]; exact Option.some_ne_none _)
  obtain ⟨hThread, hMem⟩ := park_other link hNe hCurrent (h.aligned t hMember) (hRoom.less (by decide))
  exact (h.waiting t fn arg hView).keep hThread fun x hx _ => hMem x hx

/-- What is left to say once `next` has arrived with the context `c`. -/
theorem Refines.arrive (h : Refines link s a) {next : Word} {u v : Cpu} {c : Context} {b : Tasks}
    (hNext : next ∈ s.tasks) (hLeft : Left link s.tasks s.cpu v next) (hArrived : Arrived v u next)
    (hContext : u.context next = c) (hRoom : Room 24 next c.rsp)
    (hTop : ((park link s.cpu).thread next).rsp0 = next + stackSize) (hCurrent : b.current = next)
    (hView : b.view next = some (.context c)) (hOthers : ∀ t, t ≠ next → b.view t = a.view t) :
    Refines link ⟨u, s.tasks⟩ b := by
  have hThread : u.thread = (park link s.cpu).thread := hArrived.thread.trans hLeft.thread
  have hMem : ∀ t ∈ s.tasks, t ≠ next → ∀ x, InUnion t x → u.mem x = (park link s.cpu).mem x := by
    intro t ht hNe x hx
    rw [hArrived.mem t x (h.aligned t ht) (h.aligned next hNext) hNe hx]
    exact hLeft.mem t ht x hx fun hSame => absurd hSame hNe
  have hRsp : u.reg .rsp = c.rsp := congrArg Context.rsp hContext
  have hTss : Entered u next := by
    obtain ⟨hInit, hTable, hEsp⟩ := hArrived.rsp0
    obtain ⟨hInit', hTable', hEsp'⟩ := hLeft.rsp0
    rw [hLeft.thread, hTop] at hInit' hTable' hEsp'
    unfold Entered
    rw [hInit, hTable, hEsp]
    exact ⟨hInit', hTable', hEsp'⟩
  subst hCurrent
  refine ⟨hArrived.nowTask, ?_, ?_, ?_, hTss, fun t => ?_, h.aligned, fun t c' hNe hOther => ?_,
    fun t fn arg hFresh => ?_⟩
  · rw [hView, hContext]
  · change Room 24 _ (u.reg .rsp)
    rw [hRsp]
    exact hRoom
  · exact (congrArg Thread.rsp0 (congrFun hThread _)).trans hTop
  · by_cases hEq : t = b.current
    · rw [hEq, hView]
      exact iff_of_true hNext (Option.some_ne_none _)
    · rw [hOthers t hEq]
      exact h.tasks t
  · rw [hOthers t hNe] at hOther
    have hMember : t ∈ s.tasks := (h.tasks t).mpr (by rw [hOther]; exact Option.some_ne_none _)
    exact (h.all_parked hOther).keep (congrFun hThread t) fun x hx _ => hMem t hMember hNe x hx
  · have hNe : t ≠ b.current := by
      rintro rfl
      rw [hView] at hFresh
      exact View.noConfusion (Option.some.inj hFresh)
    rw [hOthers t hNe] at hFresh
    have hMember : t ∈ s.tasks := (h.tasks t).mpr (by rw [hFresh]; exact Option.some_ne_none _)
    exact (h.all_waiting hFresh).keep (congrFun hThread t) fun x hx _ => hMem t hMember hNe x hx

/-- Switching to a task that has run: its context is as it was. -/
theorem refines_resume (env : Env) (h : Refines link s a) {body : Machine → Machine} {next : Word} {c : Context}
    (hBody : BodyKeeps s.tasks next body) (hView : a.view next = some (.context c)) :
    ∃ u, switchTo link env body next s.cpu = some u ∧ Refines link ⟨u, s.tasks⟩ { a with current := next } ∧
      u.context next = c ∧ u.rip = link.afterSwitch ∧ u.machine.interrupts = true := by
  have hNext : next ∈ s.tasks := (h.tasks next).mpr (by rw [hView]; exact Option.some_ne_none _)
  have hParked := h.all_parked hView
  have hRoom : Room 8 next ((park link s.cpu).thread next).rsp := by
    rw [hParked.thread]
    exact hParked.room.push (k := 16)
  have hLeft := switchAway_left env hBody h.aligned hNext hRoom
  obtain ⟨u, hArrive, hArrived, hContext, hRip, hFlag⟩ := hLeft.resume env hNext hParked
  refine ⟨u, hArrive, ?_, hContext, hRip, hFlag⟩
  refine h.arrive hNext hLeft hArrived hContext hParked.room ?_ rfl hView fun _ _ => rfl
  rw [hParked.thread]

/-- Switching to a new thread: it enters its function. -/
theorem refines_start (env : Env) (hLink : link.kernelThreadFunc ≠ link.afterSwitch) (h : Refines link s a)
    {body : Machine → Machine} {next fn arg : Word} (hBody : BodyKeeps s.tasks next body)
    (hView : a.view next = some (.fresh fn arg)) :
    ∃ u, switchTo link env body next s.cpu = some u ∧
      Refines link ⟨u, s.tasks⟩ (({ a with current := next } : Tasks).set next
        (.context (startContext link next))) ∧
      u.context next = startContext link next ∧ u.rip = fn ∧ u.reg .rdi = arg ∧
      u.machine.seg = (fun _ => 0x10) ∧ u.machine.interrupts = false := by
  have hNext : next ∈ s.tasks := (h.tasks next).mpr (by rw [hView]; exact Option.some_ne_none _)
  have hWaiting := h.all_waiting hView
  have hRoom : Room 8 next ((park link s.cpu).thread next).rsp := by
    rw [hWaiting.thread]
    unfold Room InUnion structSize stackSize ptRegsSize
    bv_omega
  have hLeft := switchAway_left env hBody h.aligned hNext hRoom
  obtain ⟨u, hArrive, hArrived, hContext, hState⟩ := hLeft.start env hLink hNext hWaiting
  refine ⟨u, hArrive, ?_, hContext, hState⟩
  refine h.arrive hNext hLeft hArrived hContext ?_ ?_ rfl (Tasks.set_self _ _ _) fun t ht => Tasks.set_ne _ _ ht
  · unfold Room InUnion structSize startContext stackSize
    bv_omega
  · rw [hWaiting.thread]

/-! ## Runs -/

theorem view_cases (h : Refines link s a) {t : Word} (ht : t ∈ s.tasks) :
    (∃ c, a.view t = some (.context c)) ∨ ∃ fn arg, a.view t = some (.fresh fn arg) := by
  obtain ⟨v, hv⟩ := Option.ne_none_iff_exists'.mp ((h.tasks t).mp ht)
  cases v with
  | context c => exact .inl ⟨c, hv⟩
  | fresh fn arg => exact .inr ⟨fn, arg, hv⟩

/-- No switch to a task fails. -/
theorem switchTo_succeeds (env : Env) (hLink : link.kernelThreadFunc ≠ link.afterSwitch) (h : Refines link s a)
    {body : Machine → Machine} {next : Word} (hBody : BodyKeeps s.tasks next body) (hNext : next ∈ s.tasks) :
    ∃ u, switchTo link env body next s.cpu = some u := by
  obtain ⟨c, hView⟩ | ⟨fn, arg, hView⟩ := view_cases h hNext
  · obtain ⟨u, hRun, -⟩ := refines_resume env h hBody hView
    exact ⟨u, hRun⟩
  · obtain ⟨u, hRun, -⟩ := refines_start env hLink h hBody hView
    exact ⟨u, hRun⟩

/-- A switch is a step of the tasks, by which only the task that is entered changes. -/
theorem refines_switch (hLink : link.kernelThreadFunc ≠ link.afterSwitch) (h : Refines link s a)
    {body : Machine → Machine} {next : Word} {cpu : Cpu} (hNext : next ∈ s.tasks)
    (hBody : BodyKeeps s.tasks next body) (hRun : switchTo link env body next s.cpu = some cpu) :
    ∃ b, Tasks.Step link a (.switchTo next) b ∧ Refines link ⟨cpu, s.tasks⟩ b ∧ b.current = next ∧
      ∀ t, t ≠ next → b.view t = a.view t := by
  obtain ⟨c, hView⟩ | ⟨fn, arg, hView⟩ := view_cases h hNext
  · obtain ⟨u, hRun', hRefines, -⟩ := refines_resume env h hBody hView
    obtain rfl := Option.some.inj (hRun.symm.trans hRun')
    exact ⟨_, .resume a next c hView, hRefines, rfl, fun _ _ => rfl⟩
  · obtain ⟨u, hRun', hRefines, -⟩ := refines_start env hLink h hBody hView
    obtain rfl := Option.some.inj (hRun.symm.trans hRun')
    exact ⟨_, .start a next fn arg hView, hRefines, rfl, fun t ht => Tasks.set_ne _ _ ht⟩

/-- Each step of the processor is a step of the tasks, of the same kind. -/
theorem step_refines (hLink : link.kernelThreadFunc ≠ link.afterSwitch) (h : Refines link s a) {l : Label}
    (hStep : System.Does link env s l s') : ∃ a', Tasks.Step link a l a' ∧ Refines link s' a' := by
  cases hStep with
  | own cpu hOwn =>
    rw [h.nowTask]
    exact ⟨_, .own a _, refines_own h hOwn⟩
  | kernelThread flags regs tsk fn arg hFlags hNew hAligned hRegs =>
    obtain ⟨hNone, hRefines⟩ := refines_kernelThread h fn arg hFlags hNew hAligned hRegs
    rw [h.nowTask]
    exact ⟨_, .kernelThread a _ tsk fn arg hNone, hRefines⟩
  | switchTo body next cpu hNext hBody hRun =>
    obtain ⟨b, hB, hRefines, -⟩ := refines_switch hLink h hNext hBody hRun
    exact ⟨b, hB, hRefines⟩

theorem run_refines (hLink : link.kernelThreadFunc ≠ link.afterSwitch) (h : Refines link s a)
    {labels : List Label}
    (hRun : Run (System.Does link env) s labels s') :
    ∃ a', Run (Tasks.Step link) a labels a' ∧ Refines link s' a' := by
  induction hRun with
  | nil => exact ⟨a, .nil a, h⟩
  | snoc _ hStep ih =>
    obtain ⟨b, hB, hRefines⟩ := ih
    obtain ⟨a', hA', hRefines'⟩ := step_refines hLink hRefines hStep
    exact ⟨a', hB.snoc hA', hRefines'⟩

/-- A step by which `t` does not come to run changes nothing for `t`. -/
theorem step_keeps_view {b : Tasks} {l : Label} {t : Word} (hStep : Tasks.Step link a l b)
    (hBefore : a.current ≠ t)
    (hAfter : b.current ≠ t) (hSome : a.view t ≠ none) : b.view t = a.view t := by
  cases hStep with
  | own c => exact Tasks.set_ne _ _ hBefore.symm
  | kernelThread c u fn arg hNew =>
    have hNe : t ≠ u := by
      rintro rfl
      exact hSome hNew
    exact (Tasks.set_ne _ _ hNe).trans (Tasks.set_ne _ _ hBefore.symm)
  | resume u c hView => rfl
  | start u fn arg hView => exact Tasks.set_ne _ _ (Ne.symm hAfter)

/-- Steps after which `t` is not current. -/
def Away (link : Link) (env : Env) (t : Word) : System → System → Prop :=
  Relation.ReflTransGen fun s s' => System.Step link env s s' ∧ s'.cpu.nowTask ≠ t

theorem away_keeps_view (hLink : link.kernelThreadFunc ≠ link.afterSwitch) {t : Word} {v : View}
    (h : Refines link s a) (hNot : s.cpu.nowTask ≠ t) (hView : a.view t = some v) (hAway : Away link env t s s') :
    ∃ a', Refines link s' a' ∧ a'.view t = some v ∧ s'.cpu.nowTask ≠ t := by
  induction hAway with
  | refl => exact ⟨a, h, hView, hNot⟩
  | tail _ hStep ih =>
    obtain ⟨b, hRefines, hViewB, hNotB⟩ := ih
    obtain ⟨⟨l, hDoes⟩, hNotLater⟩ := hStep
    obtain ⟨a', hA', hRefines'⟩ := step_refines hLink hRefines hDoes
    refine ⟨a', hRefines', ?_, hNotLater⟩
    rw [hRefines.nowTask] at hNotB
    rw [step_keeps_view hA' hNotB (hRefines'.nowTask ▸ hNotLater) (by rw [hViewB]; exact Option.some_ne_none _),
      hViewB]

/-- Away and back: the registers and the stack are those that the task had. -/
theorem switch_back (hLink : link.kernelThreadFunc ≠ link.afterSwitch) (h : Refines link s a) {t next : Word}
    (hNow : s.cpu.nowTask = t) (hNe : next ≠ t) {body body' : Machine → Machine} {u v : Cpu}
    (hNext : next ∈ s.tasks)
    (hBody : BodyKeeps s.tasks next body) (hLeave : switchTo link env body next s.cpu = some u)
    (hAway : Away link env t ⟨u, s.tasks⟩ s') (hBody' : BodyKeeps s'.tasks t body')
    (hBack : switchTo link env body' t s'.cpu = some v) :
    ∃ a' : Tasks, a'.current = t ∧ Refines link ⟨v, s'.tasks⟩ a' ∧ v.context t = s.cpu.context t ∧
      v.rip = link.afterSwitch ∧ v.machine.interrupts = true := by
  have hRunning : a.view t = some (.context (s.cpu.context t)) := by
    rw [← hNow, h.nowTask]
    exact h.running
  obtain ⟨b, -, hRefines, hCurrent, hOthers⟩ := refines_switch hLink h hNext hBody hLeave
  have hView : b.view t = some (.context (s.cpu.context t)) := (hOthers t hNe.symm).trans hRunning
  have hNot : u.nowTask ≠ t := by
    rw [hRefines.nowTask, hCurrent]
    exact hNe
  obtain ⟨a', hRefines', hView', -⟩ := away_keeps_view hLink hRefines hNot hView hAway
  obtain ⟨w, hRun, hEnd, hState⟩ := refines_resume env hRefines' hBody' hView'
  obtain rfl := Option.some.inj (hBack.symm.trans hRun)
  exact ⟨{ a' with current := t }, rfl, hEnd, hState⟩

end

/-! ## A first task -/

def firstLink : Link := ⟨1, 2, 3, 4⟩

def firstEnv : Env := ⟨fun _ => 0, fun _ m => m, 0⟩

/-- A task at 0x8000 with its stack pointer in the middle of its stack. -/
def firstSystem : System where
  cpu :=
    { machine := ⟨fun r => if r = .rsp then 0xc000 else 0, fun _ => 0x10, fun _ => 0, false, false, true⟩
      rip := 0
      fs := 0
      gs := 0
      thread := fun _ => ⟨0x10000, 0, 0x10000, 0x10, 0x10⟩
      initTss := ⟨0x10000, 0, 0, 0, 0, 0, 0, 0, 0, 0⟩
      tss64Table := ⟨0x10000, 0, 0, 0, 0, 0, 0, 0, 0, 0⟩
      sysenterEsp := 0x10000
      nowTask := 0x8000 }
  tasks := [0x8000]

def firstTasks : Tasks where
  current := 0x8000
  view := fun t => if t = 0x8000 then some (.context (firstSystem.cpu.context 0x8000)) else none

theorem firstTasks_only {t : Word} {v : View} (hView : firstTasks.view t = some v) : t = 0x8000 := by
  by_contra hNe
  exact Option.some_ne_none v (hView.symm.trans (if_neg hNe))

theorem firstSystem_refines : Refines firstLink firstSystem firstTasks := by
  have hAligned : ∀ t ∈ firstSystem.tasks, Aligned t := by
    intro t ht
    rw [List.mem_singleton.mp ht]
    rfl
  refine ⟨rfl, rfl, by decide, rfl, ⟨rfl, rfl, rfl⟩, fun t => ?_, hAligned, fun t c hNe hView => ?_,
    fun t fn arg hView => ?_⟩
  · by_cases hEq : t = 0x8000
    · subst hEq
      exact iff_of_true List.mem_cons_self (Option.some_ne_none _)
    · exact iff_of_false (fun h => hEq (List.mem_singleton.mp h)) (not_not.mpr (if_neg hEq))
  · exact absurd (firstTasks_only hView) hNe
  · obtain rfl := firstTasks_only hView
    exact View.noConfusion (Option.some.inj hView)

/-- It makes a thread at 0x18000. -/
def secondSystem : System :=
  ⟨kernelThread firstLink 1 0xa000 0x18000 7 5 firstSystem.cpu, [0x18000, 0x8000]⟩

theorem secondSystem_step : System.Does firstLink firstEnv firstSystem
    (.kernelThread (secondSystem.cpu.context 0x8000) 0x18000 7 5) secondSystem :=
  .kernelThread firstSystem 1 0xa000 0x18000 7 5 (by decide) (by decide) (by decide) (by decide)

/-- The current task loads `rax`. -/
def System.load (s : System) (w : Word) : System :=
  { s with cpu := { s.cpu with machine := s.cpu.machine.set .rax w } }

theorem Refines.load {link : Link} (env : Env) {s : System} {a : Tasks} (h : Refines link s a) (w : Word) :
    System.Step link env s (s.load w) := by
  refine ⟨_, .own s (s.load w).cpu ⟨rfl, fun _ _ => rfl, rfl, ⟨rfl, rfl, rfl⟩, fun _ _ _ _ _ _ => rfl, ?_⟩⟩
  have hRsp : (s.load w).cpu.reg .rsp = s.cpu.reg .rsp := set_reg _ _ (by decide)
  rw [hRsp, h.nowTask]
  exact h.room

theorem keeps_id (tasks : List Word) (next : Word) : BodyKeeps tasks next id :=
  ⟨fun _ => rfl, fun _ => rfl, fun _ _ _ _ _ _ _ => rfl⟩

section
variable {link : Link} {env : Env} {s s' : System} {a : Tasks}

/-- The processor that is shared refines one processor for each task: whatever the tasks do on their own stacks
and with the memory that is no task's, whatever threads are made, and in whatever order the tasks are switched,
each step is one of the tasks with the same label. In every state reached, `get_current` is `now_task[0]`,
entries from user mode find the stack of the current task, and a switch to any task succeeds. -/
theorem processor_refines_tasks (hLink : link.kernelThreadFunc ≠ link.afterSwitch) (h : Refines link s a)
    {labels : List Label} (hRun : Run (System.Does link env) s labels s') :
    (∃ a', Run (Tasks.Step link) a labels a' ∧ Refines link s' a') ∧
      getCurrent (s'.cpu.reg .rsp) = s'.cpu.nowTask ∧ Entered s'.cpu s'.cpu.nowTask ∧
      ∀ next ∈ s'.tasks, ∀ body, BodyKeeps s'.tasks next body → ∃ u, switchTo link env body next s'.cpu =
        some u := by
  obtain ⟨a', hTasks, hRefines⟩ := run_refines hLink h hRun
  refine ⟨⟨a', hTasks, hRefines⟩, ?_, ?_, fun next hNext body hBody => switchTo_succeeds env hLink hRefines
    hBody hNext⟩
  · rw [hRefines.getCurrent, hRefines.nowTask]
  · rw [hRefines.nowTask]
    exact hRefines.entered

theorem processor_refines_tasks_thread : ∃ u, switchTo firstLink firstEnv id 0x18000 secondSystem.cpu = some u ∧
    getCurrent (u.reg .rsp) = u.nowTask := by
  have hRun := processor_refines_tasks (by decide) firstSystem_refines (.single secondSystem_step)
  obtain ⟨u, hSwitch⟩ := hRun.2.2.2 0x18000 (by decide) id (keeps_id _ _)
  have hMore := processor_refines_tasks (by decide) firstSystem_refines
    ((Run.single secondSystem_step).snoc
      (.switchTo secondSystem id 0x18000 u (by decide) (keeps_id _ _) hSwitch))
  exact ⟨u, hSwitch, hMore.2.1⟩

/-- A task that is switched away from, and after any number of steps of others switched to, finds `rsp`, `rbp`,
`rax`, `fs` and `gs` and the whole of its stack as it left them, with interrupts on. -/
theorem resumed_as_left (hLink : link.kernelThreadFunc ≠ link.afterSwitch) (h : Refines link s a) {t next : Word}
    (hNow : s.cpu.nowTask = t) (hNe : next ≠ t) {body body' : Machine → Machine} {u v : Cpu}
    (hNext : next ∈ s.tasks) (hBody : BodyKeeps s.tasks next body)
    (hLeave : switchTo link env body next s.cpu = some u) (hAway : Away link env t ⟨u, s.tasks⟩ s')
    (hBody' : BodyKeeps s'.tasks t body') (hBack : switchTo link env body' t s'.cpu = some v) :
    v.context t = s.cpu.context t ∧ v.rip = link.afterSwitch ∧ v.machine.interrupts = true ∧ v.nowTask = t ∧
      getCurrent (v.reg .rsp) = t ∧ Entered v t := by
  obtain ⟨a', rfl, hEnd, hContext, hRip, hFlag⟩ :=
    switch_back hLink h hNow hNe hNext hBody hLeave hAway hBody' hBack
  exact ⟨hContext, hRip, hFlag, hEnd.nowTask, hEnd.getCurrent, hEnd.entered⟩

/-- The thread loads `rax` before the first task goes on. -/
theorem resumed_as_left_first : ∃ u v, switchTo firstLink firstEnv id 0x18000 secondSystem.cpu = some u ∧
    switchTo firstLink firstEnv id 0x8000 ((⟨u, secondSystem.tasks⟩ : System).load 9).cpu = some v ∧
    v.context 0x8000 = secondSystem.cpu.context 0x8000 := by
  obtain ⟨b, -, hRefines⟩ := step_refines (by decide) firstSystem_refines secondSystem_step
  obtain ⟨u, hLeave⟩ := switchTo_succeeds firstEnv (by decide) hRefines
    (keeps_id secondSystem.tasks 0x18000) (by decide)
  obtain ⟨b', -, hRefines', hCurrent, -⟩ := refines_switch (by decide) hRefines (by decide) (keeps_id _ _) hLeave
  have hNow : u.nowTask = 0x18000 := hRefines'.nowTask.trans hCurrent
  have hLoad := hRefines'.load firstEnv 9
  have hAway : Away firstLink firstEnv 0x8000 ⟨u, secondSystem.tasks⟩
    ((⟨u, secondSystem.tasks⟩ : System).load 9) := by
    refine .single ⟨hLoad, ?_⟩
    change u.nowTask ≠ 0x8000
    rw [hNow]
    decide
  obtain ⟨l, hDoes⟩ := hLoad
  obtain ⟨c, -, hLoaded⟩ := step_refines (by decide) hRefines' hDoes
  have hFirst : (0x8000 : Word) ∈ secondSystem.tasks := by decide
  obtain ⟨v, hBack⟩ := switchTo_succeeds firstEnv (by decide) hLoaded (keeps_id _ _) hFirst
  have hEnd := resumed_as_left (t := 0x8000) (by decide) hRefines rfl (by decide) (by decide) (keeps_id _ _)
    hLeave hAway
    (keeps_id _ _) hBack
  exact ⟨u, v, hLeave, hBack, hEnd.1⟩

/-- A thread that `kernel_thread` has made, after any number of steps of others switched to, enters its function
with its argument on an empty stack, with the segments of the kernel and with interrupts off. -/
theorem thread_enters_function (hLink : link.kernelThreadFunc ≠ link.afterSwitch) (h : Refines link s a)
    {flags regs tsk fn arg : Word} (hFlags : flags &&& pfKthread ≠ 0) (hNew : tsk ∉ s.tasks)
    (hAligned : Aligned tsk)
    (hRegs : RegsRoom s.cpu.nowTask (s.cpu.reg .rsp) regs) {body : Machine → Machine} {u : Cpu}
    (hAway : Away link env tsk ⟨kernelThread link flags regs tsk fn arg s.cpu, tsk :: s.tasks⟩ s')
    (hBody : BodyKeeps s'.tasks tsk body) (hRun : switchTo link env body tsk s'.cpu = some u) :
    u.context tsk = startContext link tsk ∧ u.rip = fn ∧ u.reg .rdi = arg ∧ u.machine.seg = (fun _ => 0x10) ∧
      u.machine.interrupts = false ∧ u.nowTask = tsk ∧ getCurrent (u.reg .rsp) = tsk ∧ Entered u tsk := by
  obtain ⟨-, hRefines⟩ := refines_kernelThread h fn arg hFlags hNew hAligned hRegs
  have hNot : (kernelThread link flags regs tsk fn arg s.cpu).nowTask ≠ tsk := by
    rw [hRefines.nowTask]
    intro hSame
    exact hNew (hSame ▸ h.current_mem)
  obtain ⟨a', hRefines', hView, -⟩ := away_keeps_view hLink hRefines hNot (Tasks.set_self _ _ _) hAway
  obtain ⟨w, hRun', hEnd, hContext, hRip, hRdi, hSeg, hFlag⟩ := refines_start env hLink hRefines' hBody hView
  obtain rfl := Option.some.inj (hRun.symm.trans hRun')
  exact ⟨hContext, hRip, hRdi, hSeg, hFlag, hEnd.nowTask, hEnd.getCurrent, hEnd.entered⟩

theorem thread_enters_function_second : ∃ u,
    switchTo firstLink firstEnv id 0x18000 (secondSystem.load 9).cpu = some u ∧ u.rip = 7 ∧ u.reg .rdi = 5 := by
  obtain ⟨b, -, hRefines⟩ := step_refines (by decide) firstSystem_refines secondSystem_step
  have hLoad := hRefines.load firstEnv 9
  have hAway : Away firstLink firstEnv 0x18000 secondSystem (secondSystem.load 9) := .single ⟨hLoad, by decide⟩
  obtain ⟨l, hDoes⟩ := hLoad
  obtain ⟨c, -, hLoaded⟩ := step_refines (by decide) hRefines hDoes
  obtain ⟨u, hRun⟩ := switchTo_succeeds firstEnv (by decide) hLoaded
    (keeps_id secondSystem.tasks 0x18000) (by decide)
  have hEnd := thread_enters_function (by decide) firstSystem_refines (by decide) (by decide) (by decide)
    (by decide)
    hAway (keeps_id _ _) hRun
  exact ⟨u, hRun, hEnd.2.1, hEnd.2.2.1⟩

end
end KalinoteOS.Task
