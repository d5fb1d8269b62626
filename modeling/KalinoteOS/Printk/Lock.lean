import KalinoteOS.Printk.Context

/-! # The lock of `color_printk`

Without a `softirq_handler` on top of it, a holder is interrupted by handlers only, and these
do not take the lock. So nobody ever finds the lock taken.
-/
namespace KalinoteOS.Printk
open Scheduler Lib
set_option autoImplicit false

def Busy (c : Context) : Prop := c.position ≠ .outside

instance (c : Context) : Decidable (Busy c) := inferInstanceAs (Decidable (_ ≠ _))

/-- A context of a stack whose interrupts are enabled. -/
structure Quiet (c : Context) : Prop where
  enabled : c.kind ≠ .handler
  notSpinning : c.position ≠ .label2
  printing : Busy c → c.kind = .task ∨ c.kind = .doTimer ∨ c.kind = .lastPrint

/-- A stack without a handler: only its innermost context can hold the lock. -/
structure Core (cs : List Context) : Prop where
  quiet : ∀ c ∈ cs, Quiet c
  below : ∀ c ∈ cs.tail, c.position ≠ .holding

/-- The stack of the current task: with a handler on top, or without. -/
def Form (cs : List Context) : Prop := Core cs ∨ ∃ rest, cs = ⟨.handler, .outside⟩ :: rest ∧ Core rest

/-- The word that a stack calls for. -/
def wordOf (cs : List Context) : Spinlock.Word :=
  if ∃ c ∈ cs, c.position = .holding then 0#64 else 1#64

structure Inv (s : State) : Prop where
  form : Form s.stack
  word : s.printkLock = wordOf s.stack
  /-- A task that was switched out is not in `color_printk`. -/
  others : ∀ t, t ≠ s.nowTask → ∀ c ∈ s.contexts t, c.kind ≠ .handler ∧ c.position = .outside
  count : ∀ t, s.preemptCount t = (s.contexts t).countP Busy

theorem init_inv {s : State} (h : Initial s) : Inv s := by
  obtain ⟨nowTask, rfl⟩ := h
  refine ⟨Or.inl ⟨?_, by simp [State.stack, init]⟩, ?_, ?_, ?_⟩
  · intro c hc
    have hEq : c = ⟨.task, .outside⟩ := by simpa [State.stack, init] using hc
    subst hEq
    exact ⟨by decide, by decide, fun hBusy => absurd rfl hBusy⟩
  · rfl
  · intro t _ c hc
    have hEq : c = ⟨.task, .outside⟩ := by simpa [init] using hc
    subst hEq
    exact ⟨by decide, rfl⟩
  · intro t
    simp [init, Busy]

theorem Core.safe {cs : List Context} (h : Core cs) :
    cs.Pairwise fun c below => c.position = .label2 → below.position ≠ .holding :=
  List.pairwise_of_forall_mem_list fun c hc _ _ hSpin => absurd hSpin (h.quiet c hc).notSpinning

theorem Inv.safe {s : State} (h : Inv s) : Safe s := by
  intro t
  by_cases ht : t = s.nowTask
  · subst ht
    obtain hCore | ⟨rest, hStack, hCore⟩ := h.form
    · exact hCore.safe
    · change s.stack.Pairwise _
      rw [hStack]
      exact List.pairwise_cons.mpr ⟨fun _ _ hSpin => absurd hSpin (by decide), hCore.safe⟩
  · refine List.pairwise_of_forall_mem_list fun c hc _ _ hSpin => ?_
    rw [(h.others t ht c hc).2] at hSpin
    cases hSpin

/-! ## Changes of the innermost context -/

theorem Core.tail {c : Context} {rest : List Context} (h : Core (c :: rest)) : Core rest where
  quiet d hd := h.quiet d (List.mem_cons_of_mem c hd)
  below d hd := h.below d (List.mem_of_mem_tail hd)

theorem Core.replace {c d : Context} {rest : List Context} (h : Core (c :: rest)) (hd : Quiet d) :
    Core (d :: rest) where
  quiet e he := by
    obtain rfl | he := List.mem_cons.mp he
    · exact hd
    · exact h.quiet e (List.mem_cons_of_mem c he)
  below := h.below

theorem Core.push {d : Context} {rest : List Context} (h : Core rest) (hd : Quiet d)
    (hFree : ∀ c ∈ rest, c.position ≠ .holding) : Core (d :: rest) where
  quiet e he := by
    obtain rfl | he := List.mem_cons.mp he
    · exact hd
    · exact h.quiet e he
  below := hFree

theorem wordOf_free {cs : List Context} (h : ∀ c ∈ cs, c.position ≠ .holding) : wordOf cs = 1#64 := by
  refine if_neg ?_
  rintro ⟨c, hc, hHold⟩
  exact h c hc hHold

/-- Only the innermost context of a stack without a handler decides about the word. -/
theorem Core.wordOf_cons {c : Context} {rest : List Context} (h : Core (c :: rest)) :
    wordOf (c :: rest) = if c.position = .holding then 0#64 else 1#64 := by
  by_cases hHold : c.position = .holding
  · rw [if_pos hHold]
    exact if_pos ⟨c, List.mem_cons_self, hHold⟩
  · rw [if_neg hHold]
    refine wordOf_free fun d hd => ?_
    obtain rfl | hd := List.mem_cons.mp hd
    · exact hHold
    · exact h.below d hd

theorem wordOf_handler (rest : List Context) : wordOf (⟨.handler, .outside⟩ :: rest) = wordOf rest := by
  unfold wordOf
  simp

section
variable {s t : State} (h : Inv s)
include h

theorem Inv.core {c : Context} {rest : List Context} (hStack : s.stack = c :: rest)
    (hKind : c.kind ≠ .handler) : Core (c :: rest) := by
  obtain hCore | ⟨below, hHandler, -⟩ := h.form
  · exact hStack ▸ hCore
  · rw [hStack] at hHandler
    rw [(List.cons.inj hHandler).1] at hKind
    exact absurd rfl hKind

theorem Inv.core_of_handler {c : Context} {rest : List Context} (hStack : s.stack = c :: rest)
    (hKind : c.kind = .handler) : c = ⟨.handler, .outside⟩ ∧ Core rest := by
  obtain hCore | ⟨below, hHandler, hCore⟩ := h.form
  · rw [hStack] at hCore
    exact absurd hKind (hCore.quiet c List.mem_cons_self).enabled
  · rw [hStack] at hHandler
    obtain ⟨rfl, rfl⟩ := List.cons.inj hHandler
    exact ⟨rfl, hCore⟩

/-- A step of the current task that changes its stack to `cs`. -/
theorem Inv.update {cs : List Context} (hNow : t.nowTask = s.nowTask)
    (hContexts : t.contexts = Function.update s.contexts s.nowTask cs) (hForm : Form cs)
    (hWord : t.printkLock = wordOf cs)
    (hOthers : ∀ u, u ≠ s.nowTask → t.preemptCount u = s.preemptCount u)
    (hCount : t.preemptCount s.nowTask = cs.countP Busy) : Inv t := by
  have hStack : t.stack = cs := by
    unfold State.stack
    rw [hContexts, hNow, Function.update_self]
  refine ⟨hStack.symm ▸ hForm, ?_, ?_, ?_⟩
  · rw [hStack]
    exact hWord
  · intro u hu
    rw [hNow] at hu
    rw [hContexts, Function.update_of_ne hu]
    exact h.others u hu
  · intro u
    by_cases hu : u = s.nowTask
    · rw [hu, hContexts, Function.update_self]
      exact hCount
    · rw [hOthers u hu, hContexts, Function.update_of_ne hu]
      exact h.count u

theorem Inv.count_stack {c : Context} {rest : List Context} (hStack : s.stack = c :: rest) :
    s.preemptCount s.nowTask = (c :: rest).countP Busy := by
  rw [h.count, ← hStack]
  rfl

theorem Inv.move {c d : Context} {rest : List Context} (hStack : s.stack = c :: rest)
    (hKind : c.kind ≠ .handler) (hd : Quiet d) (hBusy : Busy d ↔ Busy c)
    (hNow : t.nowTask = s.nowTask)
    (hContexts : t.contexts = Function.update s.contexts s.nowTask (d :: rest))
    (hWord : t.printkLock = if d.position = .holding then 0#64 else 1#64)
    (hPreempt : t.preemptCount = s.preemptCount) : Inv t := by
  have hCore := (h.core hStack hKind).replace hd
  refine h.update hNow hContexts (Or.inl hCore) (hWord.trans hCore.wordOf_cons.symm)
    (fun u _ => by rw [hPreempt]) ?_
  rw [hPreempt, h.count_stack hStack, List.countP_cons, List.countP_cons]
  simp only [hBusy]

/-- `preempt_disable` or `preempt_enable` with the move of the innermost context. -/
theorem Inv.addPreempt {c d : Context} {rest : List Context} {n : Int}
    (hStack : s.stack = c :: rest) (hKind : c.kind ≠ .handler) (hd : Quiet d)
    (hc : c.position ≠ .holding) (hHold : d.position ≠ .holding)
    (hCount : ((if Busy c then 1 else 0 : Nat) : Int) + n = (if Busy d then 1 else 0 : Nat)) :
    Inv ((s.setStack (d :: rest)).addPreempt n) := by
  have hOld := h.core hStack hKind
  have hCore := hOld.replace hd
  refine h.update rfl rfl (Or.inl hCore) ?_ (fun u hu => ?_) ?_
  · rw [hCore.wordOf_cons, if_neg hHold]
    change s.printkLock = _
    rw [h.word, hStack, hOld.wordOf_cons, if_neg hc]
  · exact Function.update_of_ne hu ..
  · change Function.update s.preemptCount s.nowTask _ s.nowTask = _
    rw [Function.update_self]
    change s.preemptCount s.nowTask + n = _
    rw [h.count_stack hStack, List.countP_cons, List.countP_cons]
    simp only [decide_eq_true_eq]
    omega

/-- The innermost context, not in `color_printk`, is gone. -/
theorem Inv.pop {c : Context} {rest : List Context} (hStack : s.stack = c :: rest)
    (hc : c.position = .outside) (hCore : Core rest) : Inv (s.setStack rest) := by
  have hFree : wordOf (c :: rest) = wordOf rest := by
    unfold wordOf
    simp [hc]
  refine h.update rfl rfl (Or.inl hCore) ?_ (fun _ _ => rfl) ?_
  · change s.printkLock = _
    rw [h.word, hStack, hFree]
  · change s.preemptCount s.nowTask = _
    rw [h.count_stack hStack, List.countP_cons]
    simp [Busy, hc]

/-- The current task, not in `color_printk`, gives the CPU to `next`. -/
theorem Inv.switch (next : TaskId)
    (hOut : ∀ c ∈ s.stack, c.kind ≠ .handler ∧ c.position = .outside) :
    Inv { s with nowTask := next } := by
  have hAll : ∀ u, ∀ c ∈ s.contexts u, c.kind ≠ .handler ∧ c.position = .outside := by
    intro u
    by_cases hu : u = s.nowTask
    · rw [hu]
      exact hOut
    · exact h.others u hu
  have hNone : ∀ u, ∀ c ∈ s.contexts u, c.position ≠ .holding := fun u c hc => by
    rw [(hAll u c hc).2]
    decide
  refine ⟨Or.inl ⟨fun c hc => ?_, fun c hc => hNone next c (List.mem_of_mem_tail hc)⟩, ?_,
    fun u _ => hAll u, h.count⟩
  · obtain ⟨hKind, hPosition⟩ := hAll next c hc
    refine ⟨hKind, ?_, fun hBusy => absurd hPosition hBusy⟩
    rw [hPosition]
    decide
  · change s.printkLock = wordOf (s.contexts next)
    rw [h.word, wordOf_free (hNone next)]
    exact wordOf_free (hNone s.nowTask)

theorem Inv.leave {c : Context} {rest : List Context} (hStack : s.stack = c :: rest)
    (hc : c.position = .outside) (hCore : Core rest) {next : Option TaskId}
    (hStep : leave s rest next = some t) : Inv t := by
  cases next with
  | none =>
    cases hStep
    exact h.pop hStack hc hCore
  | some next =>
    obtain ⟨hZero, hEq⟩ := Option.ite_none_right_eq_some.mp hStep
    cases hEq
    have hCount := h.count_stack hStack
    rw [hZero] at hCount
    have hNone : (c :: rest).countP Busy = 0 := by omega
    have hOut : ∀ d ∈ rest, d.position = .outside := fun d hd => by
      by_contra hBusy
      exact List.countP_eq_zero.mp hNone d (List.mem_cons_of_mem c hd) (decide_eq_true hBusy)
    have hQuiet : Quiet ⟨.switched, .outside⟩ := ⟨by decide, by decide, fun hBusy => absurd rfl hBusy⟩
    have hPush : Core (⟨.switched, .outside⟩ :: rest) :=
      hCore.push hQuiet fun d hd => by rw [hOut d hd]; decide
    have hInv : Inv (s.setStack (⟨.switched, .outside⟩ :: rest)) := by
      refine h.update rfl rfl (Or.inl hPush) ?_ (fun _ _ => rfl) ?_
      · change s.printkLock = _
        rw [h.word, hStack]
        unfold wordOf
        simp [hc]
      · change s.preemptCount s.nowTask = _
        rw [h.count_stack hStack, List.countP_cons, List.countP_cons]
        simp [Busy, hc]
    refine hInv.switch next fun d hd => ?_
    have hMem : d ∈ (⟨.switched, .outside⟩ : Context) :: rest := by
      simpa [State.stack, State.setStack] using hd
    refine ⟨(hPush.quiet d hMem).enabled, ?_⟩
    obtain rfl | hd := List.mem_cons.mp hMem
    · rfl
    · exact hOut d hd

end

/-! ## The steps -/

theorem Quiet.outside {kind : Kind} (h : kind ≠ .handler) : Quiet ⟨kind, .outside⟩ :=
  ⟨h, by simp, fun hBusy => absurd rfl hBusy⟩

theorem Quiet.moved {c : Context} (h : Quiet c) (hBusy : Busy c) {position : Position}
    (hNext : position ≠ .label2) : Quiet ⟨c.kind, position⟩ :=
  ⟨h.enabled, hNext, fun _ => h.printing hBusy⟩

section
variable {s t : State} (h : Inv s) {c : Context} {rest : List Context} (hStack : s.stack = c :: rest)
include h hStack

theorem Inv.position_handler (hKind : c.kind = .handler) : c.position = .outside := by
  rw [(h.core_of_handler hStack hKind).1]

/-- A context inside `color_printk` has its interrupts enabled. -/
theorem Inv.quiet_of_busy (hBusy : Busy c) : c.kind ≠ .handler ∧ Quiet c := by
  have hKind : c.kind ≠ .handler := fun hKind => hBusy (h.position_handler hStack hKind)
  exact ⟨hKind, (h.core hStack hKind).quiet c List.mem_cons_self⟩

theorem Inv.colorPrintk {last : Bool} (hStep : stepTop s c rest (.colorPrintk last) = some t) :
    Inv t := by
  obtain ⟨hOut, hMatch⟩ := Option.ite_none_right_eq_some.mp hStep
  have hFree : c.position ≠ .holding := by
    rw [hOut]
    decide
  have hIdle : ¬ Busy c := fun hBusy => hBusy hOut
  split at hMatch
  case h_1 =>
    cases hMatch
    exact h
  case h_2 hKind =>
    cases hMatch
    refine h.addPreempt hStack (by rw [hKind]; decide) ?_ hFree (by decide) ?_
    · exact ⟨by decide, by decide, fun _ => Or.inl rfl⟩
    · rw [if_neg hIdle]
      rfl
  case h_3 hKind =>
    cases hMatch
    refine h.addPreempt hStack (by rw [hKind]; decide) ?_ hFree (by simp) ?_
    · cases last
      · exact ⟨by decide, by decide, fun _ => Or.inr (Or.inl rfl)⟩
      · exact ⟨by decide, by decide, fun _ => Or.inr (Or.inr rfl)⟩
    · rw [if_neg hIdle]
      rfl
  case h_4 => cases hMatch

/-- The lock is free for whoever comes to its `decq`. -/
theorem Inv.decq (hStep : stepTop s c rest .decq = some t) : Inv t := by
  obtain ⟨hLabel, -⟩ := Option.ite_none_right_eq_some.mp hStep
  have hBusy : Busy c := by
    rw [Busy, hLabel]
    decide
  obtain ⟨hKind, hQuiet⟩ := h.quiet_of_busy hStack hBusy
  have hWord : s.printkLock = 1#64 := by
    rw [h.word, hStack, (h.core hStack hKind).wordOf_cons, hLabel, if_neg (by decide)]
  have hTaken : Printk.stepTop s c rest .decq = some
      { s.setStack (⟨c.kind, .holding⟩ :: rest) with printkLock := 0#64 } := by
    rw [Printk.stepTop, if_pos hLabel, hWord]
    rfl
  cases hTaken.symm.trans hStep
  refine h.move hStack hKind (hQuiet.moved hBusy ?_) ?_ rfl rfl rfl rfl
  · simp
  · exact iff_of_true (by simp [Busy]) hBusy

theorem Inv.movq (hStep : stepTop s c rest .movq = some t) : Inv t := by
  obtain ⟨hHold, hSome⟩ := Option.ite_none_right_eq_some.mp hStep
  have hBusy : Busy c := by
    rw [Busy, hHold]
    decide
  obtain ⟨hKind, hQuiet⟩ := h.quiet_of_busy hStack hBusy
  cases hSome
  refine h.move hStack hKind (hQuiet.moved hBusy ?_) ?_ rfl rfl rfl rfl
  · simp
  · exact iff_of_true (by simp [Busy]) hBusy

theorem Inv.preemptEnable (hStep : stepTop s c rest .preemptEnable = some t) : Inv t := by
  obtain ⟨hUnlocked, hSome⟩ := Option.ite_none_right_eq_some.mp hStep
  have hBusy : Busy c := by
    rw [Busy, hUnlocked]
    decide
  obtain ⟨hKind, hQuiet⟩ := h.quiet_of_busy hStack hBusy
  cases hSome
  refine h.addPreempt hStack hKind (Quiet.outside hKind) ?_ (by simp) ?_
  · rw [hUnlocked]
    decide
  · rw [if_pos hBusy]
    rfl

theorem Inv.interrupt (hStep : stepTop s c rest .interrupt = some t) : Inv t := by
  obtain ⟨hKind, hSome⟩ := Option.ite_none_right_eq_some.mp hStep
  cases hSome
  have hCore := h.core hStack hKind
  refine h.update rfl rfl (Or.inr ⟨c :: rest, rfl, hCore⟩) ?_ (fun _ _ => rfl) ?_
  · rw [wordOf_handler, ← hStack]
    exact h.word
  · change s.preemptCount s.nowTask = _
    rw [h.count_stack hStack]
    simp [List.countP_cons, Busy]

/-- The return of a handler, through `softirq_handler` only while the lock is free. -/
theorem Inv.ret {next : Option TaskId} (hGood : Good s (.ret next))
    (hStep : stepTop s c rest (.ret next) = some t) : Inv t := by
  obtain ⟨hKind, hSome⟩ := Option.ite_none_right_eq_some.mp hStep
  obtain ⟨rfl, hCore⟩ := h.core_of_handler hStack hKind
  by_cases hStatus : s.softirqStatus = true
  · rw [if_pos hStatus] at hSome
    cases hSome
    have hFree : ∀ d ∈ rest, d.position ≠ .holding := fun d hd hHold =>
      hGood hStatus ⟨d, by rw [hStack]; exact List.mem_cons_of_mem _ hd, hHold⟩
    have hPush : Core (⟨.softirq, .outside⟩ :: rest) :=
      hCore.push (Quiet.outside (by decide)) hFree
    refine h.update rfl rfl (Or.inl hPush) ?_ (fun _ _ => rfl) ?_
    · change s.printkLock = _
      rw [h.word, hStack, wordOf_handler, wordOf_free hFree, hPush.wordOf_cons, if_neg (by decide)]
    · change s.preemptCount s.nowTask = _
      rw [h.count_stack hStack, List.countP_cons_of_neg (by decide),
        List.countP_cons_of_neg (by decide)]
  · rw [if_neg hStatus] at hSome
    exact h.leave hStack rfl hCore hSome

/-- A step of `do_softirq` outside `color_printk`. -/
theorem Inv.softirqMove {kind : Kind} (hKind : c.kind ≠ .handler) (hOut : c.position = .outside)
    (hNext : kind ≠ .handler) (status : Bool) :
    Inv { s.setStack (⟨kind, .outside⟩ :: rest) with softirqStatus := status } := by
  have hCore := h.core hStack hKind
  refine h.move hStack hKind (Quiet.outside hNext) ?_ rfl rfl ?_ rfl
  · exact iff_of_false (fun hBusy => hBusy rfl) (fun hBusy => hBusy hOut)
  · change s.printkLock = _
    rw [h.word, hStack, hCore.wordOf_cons, hOut]

/-- A context that cannot print is outside `color_printk`. -/
theorem Inv.outside_of_kind (hKind : c.kind ≠ .handler)
    (hOther : ¬ (c.kind = .task ∨ c.kind = .doTimer ∨ c.kind = .lastPrint)) :
    c.position = .outside := by
  by_contra hBusy
  exact hOther (((h.core hStack hKind).quiet c List.mem_cons_self).printing hBusy)

theorem Inv.stepTop {op : Op} (hGood : Good s op) (hStep : stepTop s c rest op = some t) : Inv t := by
  cases op with
  | colorPrintk last => exact h.colorPrintk hStack hStep
  | decq => exact h.decq hStack hStep
  | read =>
    obtain ⟨hSpin, -⟩ := Option.ite_none_right_eq_some.mp hStep
    have hBusy : Busy c := by
      rw [Busy, hSpin]
      decide
    exact absurd hSpin (h.quiet_of_busy hStack hBusy).2.notSpinning
  | movq => exact h.movq hStack hStep
  | preemptEnable => exact h.preemptEnable hStack hStep
  | interrupt => exact h.interrupt hStack hStep
  | setSoftirqStatus =>
    obtain ⟨-, hSome⟩ := Option.ite_none_right_eq_some.mp hStep
    cases hSome
    exact ⟨h.form, h.word, h.others, h.count⟩
  | ret next => exact h.ret hStack hGood hStep
  | testStatus =>
    obtain ⟨hKind, hSome⟩ := Option.ite_none_right_eq_some.mp hStep
    cases hSome
    have hEnabled : c.kind ≠ .handler := by
      rw [hKind]
      decide
    refine h.softirqMove hStack hEnabled (h.outside_of_kind hStack hEnabled ?_) ?_ s.softirqStatus
    · rw [hKind]
      decide
    · split <;> decide
  | clearStatus =>
    obtain ⟨hc, hSome⟩ := Option.ite_none_right_eq_some.mp hStep
    cases hSome
    subst hc
    exact h.softirqMove hStack (by decide) rfl (by decide) false
  | cli next =>
    obtain ⟨hKind, hSome⟩ := Option.ite_none_right_eq_some.mp hStep
    have hEnabled : c.kind ≠ .handler := by
      rw [hKind]
      decide
    refine h.leave hStack (h.outside_of_kind hStack hEnabled ?_) (h.core hStack hEnabled).tail hSome
    rw [hKind]
    decide
  | iret =>
    obtain ⟨hKind, hSome⟩ := Option.ite_none_right_eq_some.mp hStep
    cases hSome
    have hEnabled : c.kind ≠ .handler := by
      rw [hKind]
      decide
    refine h.pop hStack (h.outside_of_kind hStack hEnabled ?_) (h.core hStack hEnabled).tail
    rw [hKind]
    decide
  | schedule next =>
    obtain ⟨⟨hc, hRest⟩, hSome⟩ := Option.ite_none_right_eq_some.mp hStep
    cases hSome
    refine h.switch next fun d hd => ?_
    rw [hStack, hRest, List.mem_singleton] at hd
    rw [hd, hc]
    decide

end

theorem step_inv {s t : State} (h : Inv s) {op : Op} (hGood : Good s op) (hStep : Step s op t) :
    Inv t := by
  unfold Step next at hStep
  split at hStep
  · cases hStep
  · exact h.stepTop ‹_› hGood hStep

theorem reach_inv {s : State} (h : Reach Initial (Guarded Good Step) s) : Inv s :=
  Reach.invariant (P := Inv) (fun _ hs => init_inv hs)
    (fun _ _ _ hs hStep => step_inv hs hStep.1 hStep.2) h

/-! ## The step that does not meet the condition -/

/-- The steps of `do_softirq` and `do_timer` up to the spin loop. -/
def toSpin : List Op := [.testStatus, .colorPrintk true, .decq]

/-- Once `softirq_handler` is entered over a holder, its own steps lead into the deadlock. -/
theorem Inv.deadlock {s t : State} (h : Inv s) {next : Option TaskId} (hStep : Step s (.ret next) t)
    (hBad : ¬ Good s (.ret next)) : ∃ u, Run Step t toSpin u ∧ ¬ Safe u := by
  have hStatus : s.softirqStatus = true := by
    by_contra hClear
    exact hBad fun hSet => absurd hSet hClear
  obtain ⟨d, hd, hHold⟩ : Held s := by
    by_contra hFree
    exact hBad fun _ => hFree
  unfold Step Printk.next at hStep
  split at hStep
  · cases hStep
  · next c rest hStack =>
    obtain ⟨hKind, hSome⟩ := Option.ite_none_right_eq_some.mp hStep
    obtain ⟨rfl, -⟩ := h.core_of_handler hStack hKind
    rw [if_pos hStatus] at hSome
    cases hSome
    have hRest : d ∈ rest := by
      rw [hStack] at hd
      refine (List.mem_cons.mp hd).resolve_left ?_
      rintro rfl
      cases hHold
    have hWord : s.printkLock = 0#64 := by
      rw [h.word, wordOf, if_pos ⟨d, hd, hHold⟩]
    have hTimer : Step (s.setStack (⟨.softirq, .outside⟩ :: rest)) .testStatus
        (s.setStack (⟨.doTimer, .outside⟩ :: rest)) := by
      simp [Step, Printk.next, Printk.stepTop, State.stack, State.setStack, hStatus]
    have hPrint : Step (s.setStack (⟨.doTimer, .outside⟩ :: rest)) (.colorPrintk true)
        ((s.setStack (⟨.lastPrint, .label1⟩ :: rest)).addPreempt 1) := by
      simp [Step, Printk.next, Printk.stepTop, State.stack, State.setStack, State.addPreempt]
    have hNegative : Spinlock.decq s.printkLock = (-1#64, false) := by
      rw [hWord]
      decide
    have hSpin : Step ((s.setStack (⟨.lastPrint, .label1⟩ :: rest)).addPreempt 1) .decq
        { (s.setStack (⟨.lastPrint, .label2⟩ :: rest)).addPreempt 1 with printkLock := -1#64 } := by
      simp [Step, Printk.next, Printk.stepTop, State.stack, State.setStack, State.addPreempt, hNegative]
    refine ⟨_, .cons hTimer (.cons hPrint (.single hSpin)), fun hSafe => ?_⟩
    have hPair := hSafe s.nowTask
    simp only [State.addPreempt, State.setStack, Function.update_self] at hPair
    exact (List.pairwise_cons.mp hPair).1 d hRest rfl hHold

/-- In a run whose steps all meet the condition nobody spins on a lock that it interrupted; from
a step that does not meet it, the softirq runs into the deadlock. -/
theorem safe_iff_good (s : State) (h : Reach Initial (Guarded Good Step) s) :
    Safe s ∧ ∀ op t, Step s op t →
      (Good s op → Safe t) ∧ (¬ Good s op → ∃ u, Run Step t toSpin u ∧ ¬ Safe u) := by
  have hInv := reach_inv h
  refine ⟨hInv.safe, fun op t hStep => ⟨fun hGood => (step_inv hInv hGood hStep).safe, ?_⟩⟩
  intro hBad
  cases op with
  | ret next => exact hInv.deadlock hStep hBad
  | _ => exact absurd trivial hBad

/-- A timer expires while task 0 prints. -/
theorem timer_deadlock : ¬ ∀ s, Reach Initial Step s → Safe s := by
  intro hAll
  have hSome : ∃ s, runList next (init 0)
      ([.colorPrintk false, .decq, .interrupt, .setSoftirqStatus, .ret none] ++ toSpin) = some s ∧
      s.contexts 0 = [⟨.lastPrint, .label2⟩, ⟨.task, .holding⟩] := ⟨_, rfl, rfl⟩
  obtain ⟨s, hRun, hContexts⟩ := hSome
  have hReach : Reach Initial Step s :=
    (Reach.start ⟨0, rfl⟩).run (run_of_runList (fun _ _ _ h => h) hRun)
  have hPair := hAll s hReach 0
  rw [hContexts] at hPair
  exact (List.pairwise_cons.mp hPair).1 ⟨.task, .holding⟩ (List.mem_singleton_self _) rfl rfl

/-- The timer expires after task 0 has printed: `do_timer` gets the lock. -/
theorem safe_iff_good_timer : ∃ s, s.contexts 0 = [⟨.lastPrint, .holding⟩, ⟨.task, .outside⟩] ∧
    Safe s := by
  have hSome : ∃ s, runList (guardedNext Good next) (init 0)
      [.colorPrintk false, .decq, .movq, .preemptEnable, .interrupt, .setSoftirqStatus, .ret none,
        .testStatus, .colorPrintk true, .decq] = some s ∧
      s.contexts 0 = [⟨.lastPrint, .holding⟩, ⟨.task, .outside⟩] := ⟨_, rfl, rfl⟩
  obtain ⟨s, hRun, hContexts⟩ := hSome
  have hReach : Reach Initial (Guarded Good Step) s :=
    (Reach.start ⟨0, rfl⟩).run (run_of_runList (guarded_of_next fun _ _ _ h => h) hRun)
  exact ⟨s, hContexts, (safe_iff_good s hReach).1⟩

end KalinoteOS.Printk
