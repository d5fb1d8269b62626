import KalinoteOS.Entry.Frame

/-! # From the entry to `iretq` and `sysexit`

The C functions on the path are arbitrary, as long as they return with the stack and the saved frame
as they found them.
-/
namespace KalinoteOS.Entry
open Lib Memory
set_option autoImplicit false

/-- The function returned, with the 24 words of the frame unchanged. -/
structure Call.Keeps (c : Call) : Prop where
  rsp : c.after.reg .rsp = c.before.reg .rsp + 8
  frame : c.after.mem.words (c.before.reg .rsp + 8) 24 = c.before.mem.words (c.before.reg .rsp + 8) 24

/-- `t` has the registers of `saved`, and on top of its stack what the processor pushed; `m` had the
frame on top, and it is still in the memory. -/
structure Restored (saved m t : Machine) (hardware : List Word) : Prop where
  reg : ∀ r, r ≠ .rsp → t.reg r = saved.reg r
  seg : t.seg = saved.seg
  rsp : t.reg .rsp = m.reg .rsp + 152
  stack : t.stack 5 = hardware
  frame : t.mem.words (m.reg .rsp) 24 = m.stack 24

/-- Code that restores whatever was saved on top of the stack. -/
def Restores (env : Env) (k : Code) : Prop :=
  ∀ m, ∃ calls t, exec env k m = some (calls, t) ∧
    ∀ saved func errcode hardware, (∀ c ∈ calls, c.Keeps) →
      m.stack 24 = saved.saved ++ func :: errcode :: hardware → Restored saved m t hardware

section
variable {env : Env}

/-! ## Back to the interrupted code -/

/-- `addq` on the stack pointer drops words. -/
theorem drop_stack (m : Machine) {k : Nat} {a b : Word} {ws : List Word}
    (h : m.stack (k + 1 + 1) = a :: b :: ws) :
    ((m.set .rsp (m.reg .rsp + 0x10)).reg .rsp = m.reg .rsp + 16) ∧
      (m.set .rsp (m.reg .rsp + 0x10)).stack k = ws := by
  have hRsp := set_reg_self m (m.reg .rsp + 0x10) .rsp
  refine ⟨hRsp, ?_⟩
  have hTwo : m.reg .rsp + 8 + 8 = m.reg .rsp + 0x10 := by bv_omega
  unfold Machine.stack at h ⊢
  rw [words, words, hTwo] at h
  rw [hRsp]
  exact (List.cons.inj (List.cons.inj h).2).2

theorem restores_restoreAll : Restores env restoreAll := by
  intro m
  have hExec : exec env restoreAll m =
      some ([], run env [.addImm 0x10 .rsp] (run env restoreFrame m)) := by
    rw [← run_append]
    rfl
  refine ⟨[], _, hExec, fun saved func errcode hardware _ hFrame => ?_⟩
  obtain ⟨hReg, hSeg, hRsp, hStack⟩ := restoreFrame_spec env (n := 7) hFrame
  have hMem : (run env restoreFrame m).mem = m.mem := rfl
  generalize run env restoreFrame m = a at *
  obtain ⟨hRspEnd, hStackEnd⟩ := drop_stack a hStack
  constructor
  · intro r hr
    exact (set_reg _ _ hr).trans (hReg r hr)
  · exact hSeg
  · refine hRspEnd.trans ?_
    rw [hRsp]
    bv_omega
  · exact hStackEnd
  · exact congrArg (Memory.words · (m.reg .rsp) 24) hMem

/-- What a function that keeps the frame leaves to the code behind the call. -/
theorem call_keeps {m : Machine} {target : Word} (h : (env.call m target).Keeps) :
    (env.call m target).after.reg .rsp = m.reg .rsp ∧
      (env.call m target).after.stack 24 = m.stack 24 := by
  obtain ⟨hRsp, hFrame⟩ := h
  have hBack : (env.call m target).before.reg .rsp + 8 = m.reg .rsp := by
    refine (congrArg (· + 8) (push_reg_rsp m env.returnAddress)).trans ?_
    bv_omega
  rw [hBack] at hRsp hFrame
  refine ⟨hRsp, ?_⟩
  unfold Machine.stack
  rw [hRsp, hFrame]
  exact words_store (by bv_omega) (by bv_omega)

theorem Restores.call {k : Code} (h : Restores env k) (target : Target) :
    Restores env (.call target k) := by
  intro m
  let call := env.call m (target.address env m)
  obtain ⟨calls, t, hExec, hRestored⟩ := h call.after
  refine ⟨call :: calls, t, ?_, fun saved func errcode hardware hKeeps hFrame => ?_⟩
  · rw [exec, hExec]
    rfl
  · obtain ⟨hRsp, hStack⟩ := call_keeps (hKeeps _ List.mem_cons_self)
    have hEnd := hRestored saved func errcode hardware
      (fun c hc => hKeeps c (List.mem_cons_of_mem _ hc)) (hStack.trans hFrame)
    refine ⟨hEnd.reg, hEnd.seg, hEnd.rsp.trans (congrArg (· + 152) hRsp), hEnd.stack, ?_⟩
    rw [← hStack, ← hEnd.frame, hRsp]

theorem Restores.jnz {taken next : Code} (hTaken : Restores env taken) (hNext : Restores env next) :
    Restores env (.jnz taken next) := by
  intro m
  rw [exec]
  split
  · exact hNext m
  · exact hTaken m

/-- Straight-line code that leaves stack pointer and memory alone. -/
theorem Restores.block {k : Code} (h : Restores env k) {is : List Instr}
    (hRsp : ∀ m, (run env is m).reg .rsp = m.reg .rsp) (hMem : ∀ m, (run env is m).mem = m.mem) :
    Restores env (.block is k) := by
  intro m
  obtain ⟨calls, t, hExec, hRestored⟩ := h (run env is m)
  refine ⟨calls, t, hExec, fun saved func errcode hardware hKeeps hFrame => ?_⟩
  have hStack : (run env is m).stack 24 = m.stack 24 := by
    unfold Machine.stack
    rw [hRsp, hMem]
  have hEnd := hRestored saved func errcode hardware hKeeps (hStack.trans hFrame)
  refine ⟨hEnd.reg, hEnd.seg, hEnd.rsp.trans (congrArg (· + 152) (hRsp m)), hEnd.stack, ?_⟩
  rw [← hStack, ← hEnd.frame, hRsp]

theorem restores_checkSchedule : Restores env checkSchedule := by
  have hReschedule : Restores env reschedule := restores_restoreAll.call _
  refine Restores.block (.jnz restores_restoreAll (.block (.jnz hReschedule restores_restoreAll)
    (fun m => ?_) fun m => rfl)) (fun m => ?_) fun m => rfl
  · simp [run, step, set_reg]
  · simp [run, step, set_reg]

theorem restores_retFromIntr (env : Env) : Restores env retFromIntr := by
  refine Restores.block (.jnz (restores_checkSchedule.call _) restores_checkSchedule)
    (fun m => ?_) fun m => rfl
  simp [run, step, set_reg]

/-- Behind every call of the code is code that restores whatever is on top of the stack. -/
def RestoresAfter (env : Env) : Code → Prop
  | .block _ next => RestoresAfter env next
  | .call _ next | .tailCall _ _ next => Restores env next ∧ RestoresAfter env next
  | .jnz taken next => RestoresAfter env taken ∧ RestoresAfter env next
  | .iretq | .sysexit => True

/-- A call is the first one, and the others are those of the code behind it. -/
theorem exec_behind {next : Code} {c : Call} {calls : List Call} {t : Machine}
    (h : (exec env next c.after).map (fun r => (c :: r.1, r.2)) = some (calls, t)) :
    ∃ rest, calls = c :: rest ∧ exec env next c.after = some (rest, t) := by
  obtain ⟨r, hRest, hPair⟩ := Option.map_eq_some_iff.mp h
  obtain ⟨rfl, rfl⟩ := Prod.mk.inj hPair
  exact ⟨r.1, rfl, hRest⟩

/-- What is done behind one of the calls. -/
theorem RestoresAfter.resume {k : Code} (h : RestoresAfter env k) {m t : Machine} {before rest : List Call}
    {d : Call} (hExec : exec env k m = some (before ++ d :: rest, t)) :
    ∃ k', Restores env k' ∧ exec env k' d.after = some (rest, t) := by
  have hBehind : ∀ {next : Code} {c : Call} {before : List Call}, Restores env next →
      (∀ {m : Machine} {before : List Call}, exec env next m = some (before ++ d :: rest, t) →
        ∃ k', Restores env k' ∧ exec env k' d.after = some (rest, t)) →
      (exec env next c.after).map (fun r => (c :: r.1, r.2)) = some (before ++ d :: rest, t) →
      ∃ k', Restores env k' ∧ exec env k' d.after = some (rest, t) := by
    intro next c before hNext ih h
    obtain ⟨more, hCalls, hRest⟩ := exec_behind h
    cases before with
    | nil =>
      obtain ⟨rfl, rfl⟩ := List.cons.inj hCalls
      exact ⟨next, hNext, hRest⟩
    | cons b before =>
      obtain ⟨-, rfl⟩ := List.cons.inj hCalls
      exact ih hRest
  induction k generalizing m before with
  | block is next ih => exact ih h hExec
  | call target next ih => exact hBehind h.1 (ih h.2) hExec
  | tailCall target ret next ih =>
    rw [exec] at hExec
    dsimp only at hExec
    split at hExec
    · exact hBehind h.1 (ih h.2) hExec
    · exact absurd hExec.symm (Option.some_ne_none _)
  | jnz taken next ihTaken ihNext =>
    rw [exec] at hExec
    split at hExec
    · exact ihNext h.2 hExec
    · exact ihTaken h.1 hExec
  | iretq | sysexit =>
    have hNil : [] = before ++ d :: rest := (Prod.mk.inj (Option.some.inj hExec)).1
    exact absurd hNil.symm (List.append_ne_nil_of_right_ne_nil _ (List.cons_ne_nil _ _))

theorem restoresAfter_retFromIntr (env : Env) : RestoresAfter env retFromIntr := by
  have hCheck : RestoresAfter env checkSchedule := ⟨trivial, ⟨restores_restoreAll, trivial⟩, trivial⟩
  exact ⟨⟨restores_checkSchedule, hCheck⟩, hCheck⟩

/-- `ret_system_call`: `%rax` comes from its slot, and four registers are exchanged in pairs. -/
theorem exec_retSystemCall (env : Env) (m : Machine) :
    ∃ t, exec env retSystemCall m = some ([], t) ∧ ∀ (saved : Machine) rest, m.stack 24 = saved.saved ++ rest →
      t.seg = saved.seg ∧ t.reg .rsp = m.reg .rsp + 192 ∧ t.reg .rdx = saved.reg .r10 ∧
      t.reg .r10 = saved.reg .rdx ∧ t.reg .rcx = saved.reg .r11 ∧ t.reg .r11 = saved.reg .rcx ∧
      ∀ r, r ∉ [Reg.rsp, .rdx, .r10, .rcx, .r11] → t.reg r = saved.reg r := by
  have hExec : exec env retSystemCall m = some ([], run env
      [.addImm 0x38 .rsp, .xchg .rdx .r10, .xchg .rcx .r11, .sti] (run env restoreFrame m)) := by
    rw [← run_append]
    rfl
  refine ⟨_, hExec, fun saved rest hFrame => ?_⟩
  obtain ⟨hReg, hSeg, hRsp, -⟩ := restoreFrame_spec env (n := 7) hFrame
  generalize run env restoreFrame m = a at *
  refine ⟨hSeg, ?_, ?_, ?_, ?_, ?_, ?_⟩
  · simp [run, step, set_reg, set_reg_self, hRsp]
    bv_omega
  · simp [run, step, set_reg, set_reg_self, hReg]
  · simp [run, step, set_reg, set_reg_self, hReg]
  · simp [run, step, set_reg, set_reg_self, hReg]
  · simp [run, step, set_reg, set_reg_self, hReg]
  · intro r hr
    simp only [List.mem_cons, List.not_mem_nil, or_false, not_or] at hr
    obtain ⟨h₁, h₂, h₃, h₄, h₅⟩ := hr
    simp [run, step, set_reg, h₁, h₂, h₃, h₄, h₅, hReg]

/-! ## From the entry to the handler -/

/-- The frame over the registers of `m`, with what the processor pushed at `hardware`. -/
def frame (m : Machine) (func errcode hardware : Word) : PtRegs where
  r15 := m.reg .r15
  r14 := m.reg .r14
  r13 := m.reg .r13
  r12 := m.reg .r12
  r11 := m.reg .r11
  r10 := m.reg .r10
  r9 := m.reg .r9
  r8 := m.reg .r8
  rbx := m.reg .rbx
  rcx := m.reg .rcx
  rdx := m.reg .rdx
  rsi := m.reg .rsi
  rdi := m.reg .rdi
  rbp := m.reg .rbp
  ds := (m.seg .ds).setWidth 64
  es := (m.seg .es).setWidth 64
  rax := m.reg .rax
  func := func
  errcode := errcode
  rip := m.mem.load hardware
  cs := m.mem.load (hardware + 8)
  rflags := m.mem.load (hardware + 16)
  rsp := m.mem.load (hardware + 24)
  ss := m.mem.load (hardware + 32)

theorem frame_words (m : Machine) (func errcode hardware : Word) :
    (frame m func errcode hardware).words =
      m.saved ++ func :: errcode :: m.mem.words hardware 5 := by
  have h₂ : hardware + 8 + 8 = hardware + 16 := by bv_omega
  have h₃ : hardware + 16 + 8 = hardware + 24 := by bv_omega
  have h₄ : hardware + 24 + 8 = hardware + 32 := by bv_omega
  simp only [words, h₂, h₃, h₄]
  rfl

/-- What a stub did before the seventeen words: `func` and `errcode` are on the stack, in front of
what the processor pushed. -/
structure Prepared (m t : Machine) (func errcode hardware : Word) : Prop where
  stack : t.stack 7 = func :: errcode :: m.mem.words hardware 5
  rsp : t.reg .rsp + 16 = hardware
  reg : ∀ r, r ≠ .rsp → t.reg r = m.reg r
  seg : t.seg = m.seg

/-- The whole frame is on the stack. -/
structure Framed (m t : Machine) (func errcode hardware : Word) : Prop where
  stack : t.stack 24 = (frame m func errcode hardware).words
  rsp : t.reg .rsp + 152 = hardware
  reg : ∀ r, r ≠ .rsp → r ≠ .rax → t.reg r = m.reg r
  seg : t.seg = m.seg

theorem Prepared.save (env : Env) {m t : Machine} {func errcode hardware : Word}
    (h : Prepared m t func errcode hardware) :
    Framed m (run env saveFrame t) func errcode hardware := by
  obtain ⟨hStack, hReg, hRsp, hSeg⟩ := saveFrame_spec env t (n := 7) (by decide)
  have hSaved : t.saved = m.saved := by
    have hRegs : savedRegs.reverse.map t.reg = savedRegs.reverse.map m.reg := by
      apply List.map_congr_left
      intro r hr
      apply h.reg
      rintro rfl
      exact absurd hr (by decide)
    unfold Machine.saved
    rw [hRegs, h.seg, h.reg .rax (by decide)]
  constructor
  · rw [frame_words, ← hSaved, ← h.stack]
    exact hStack
  · rw [hRsp, ← h.rsp]
    bv_omega
  · intro r hNeRsp hNeRax
    exact (hReg r hNeRsp hNeRax).trans (h.reg r hNeRsp)
  · exact hSeg.trans h.seg

/-- The word `i` of the frame, as the code reads it. -/
theorem Framed.load {m t : Machine} {func errcode hardware v : Word}
    (h : Framed m t func errcode hardware) {i : Nat} (hLt : i < 24)
    (hWord : (frame m func errcode hardware).words[i]? = some v) :
    t.mem.load (t.reg .rsp + BitVec.ofNat 64 (8 * i)) = v := by
  have hLoad := getElem?_words (m := t.mem) (a := t.reg .rsp) hLt
  have hStack : t.mem.words (t.reg .rsp) 24 = (frame m func errcode hardware).words := h.stack
  rw [hStack, hWord] at hLoad
  exact (Option.some.inj hLoad).symm

/-- `leaq` and `xchgq`: the handler goes onto the stack in the place of `%rax`, which comes back. -/
theorem swap_spec (env : Env) (m : Machine) (x : Symbol) {n : Nat} {v : Word} {ws : List Word}
    (hRoom : 8 * (1 + n) ≤ 2 ^ 64) (hTop : m.stack (1 + n) = v :: ws) :
    let t := run env [.lea x .rax, .xchgTop .rax] m
    t.stack (1 + n) = env.address x :: ws ∧ t.reg .rax = v ∧ (∀ r, r ≠ .rax → t.reg r = m.reg r) ∧
      t.seg = m.seg := by
  intro t
  have hRax : Reg.rsp ≠ .rax := by decide
  have hReg : ∀ r, r ≠ .rax → t.reg r = m.reg r := by
    intro r hr
    simp [t, run, step, set_reg, hr]
  have hLoad : m.mem.load (m.reg .rsp) = v := by
    unfold Machine.stack at hTop
    rw [Nat.add_comm, words] at hTop
    exact (List.cons.inj hTop).1
  refine ⟨?_, ?_, hReg, rfl⟩
  · have hMem : t.mem = m.mem.store (m.reg .rsp + BitVec.ofNat 64 (8 * 0)) (env.address x) := by
      have hHere : m.reg .rsp + BitVec.ofNat 64 (8 * 0) = m.reg .rsp := BitVec.add_zero _
      rw [hHere]
      simp [t, run, step, hRax, Machine.set]
    unfold Machine.stack at hTop ⊢
    rw [hMem, hReg .rsp hRax]
    have hSet := words_store_at (m := m.mem) (a := m.reg .rsp) (v := env.address x) (k := 0) (n := n)
      (by omega)
    rw [Nat.zero_add, hTop] at hSet
    exact hSet
  · simp [t, run, step, set_reg_self, set_reg, hRax]
    exact hLoad

section
variable (env : Env) (m : Machine)

theorem prepared_irq :
    Prepared m (run env [.pushImm 0, .cld, .push .rax] m) (m.reg .rax) 0 (m.reg .rsp) := by
  constructor
  · have hFirst : (m.push 0).stack 6 = 0 :: m.stack 5 := push_stack _ _ (by decide)
    have hSecond := push_stack { m.push 0 with df := false } ((m.push 0).reg .rax) (n := 6) (by decide)
    rw [push_reg _ _ (by decide)] at hSecond
    exact hSecond.trans (congrArg (List.cons _) hFirst)
  · simp [run, step]
    bv_omega
  · intro r hr
    simp [run, step, push_reg, hr]
  · rfl

theorem prepared_noCode (x : Symbol) :
    Prepared m (run env [.pushImm 0, .push .rax, .lea x .rax, .xchgTop .rax] m) (env.address x) 0
      (m.reg .rsp) := by
  have hFirst : (m.push 0).stack 6 = 0 :: m.stack 5 := push_stack _ _ (by decide)
  have hSecond := push_stack (m.push 0) ((m.push 0).reg .rax) (n := 6) (by decide)
  rw [push_reg _ _ (by decide), hFirst] at hSecond
  obtain ⟨hStack, hRax, hReg, hSeg⟩ := swap_spec env _ x (n := 6) (by decide) hSecond
  constructor
  · exact hStack
  · refine (congrArg (· + 16) (hReg .rsp (by decide))).trans ?_
    simp
    bv_omega
  · intro r hr
    by_cases hEq : r = .rax
    · rw [hEq]
      exact hRax
    · refine (hReg r hEq).trans ?_
      simp [push_reg, hr]
  · exact hSeg

theorem prepared_withCode (x : Symbol) :
    Prepared m (run env [.push .rax, .lea x .rax, .xchgTop .rax] m) (env.address x)
      (m.mem.load (m.reg .rsp)) (m.reg .rsp + 8) := by
  have hFirst := push_stack m (m.reg .rax) (n := 6) (by decide)
  obtain ⟨hStack, hRax, hReg, hSeg⟩ := swap_spec env _ x (n := 6) (by decide) hFirst
  constructor
  · exact hStack
  · refine (congrArg (· + 16) (hReg .rsp (by decide))).trans ?_
    simp
    bv_omega
  · intro r hr
    by_cases hEq : r = .rax
    · rw [hEq]
      exact hRax
    · exact (hReg r hEq).trans (push_reg _ _ hr)
  · exact hSeg

theorem prepared_nmi :
    Prepared m (run env [.push .rax, .cld, .push .rax] m) (m.reg .rax) (m.reg .rax) (m.reg .rsp) := by
  constructor
  · have hFirst : (m.push (m.reg .rax)).stack 6 = m.reg .rax :: m.stack 5 := push_stack _ _ (by decide)
    have hSecond := push_stack { m.push (m.reg .rax) with df := false }
      ((m.push (m.reg .rax)).reg .rax) (n := 6) (by decide)
    rw [push_reg _ _ (by decide)] at hSecond
    exact hSecond.trans (congrArg (List.cons _) hFirst)
  · simp [run, step]
    bv_omega
  · intro r hr
    simp [run, step, push_reg, hr]
  · rfl

/-- `system_call` leaves room for the seven words that it does not fill. -/
theorem prepared_systemCall :
    Prepared m (run env [.sti, .subImm 0x38 .rsp, .cld] m) (m.mem.load (m.reg .rsp - 0x38))
      (m.mem.load (m.reg .rsp - 0x30)) (m.reg .rsp - 0x28) := by
  have hRsp : (run env [.sti, .subImm 0x38 .rsp, .cld] m).reg .rsp = m.reg .rsp - 0x38 := by
    simp [run, step, set_reg_self]
  have h₁ : m.reg .rsp - 0x38 + 8 = m.reg .rsp - 0x30 := by bv_omega
  have h₂ : m.reg .rsp - 0x30 + 8 = m.reg .rsp - 0x28 := by bv_omega
  constructor
  · unfold Machine.stack
    rw [hRsp, words, words, h₁, h₂]
    rfl
  · rw [hRsp]
    bv_omega
  · intro r hr
    exact set_reg _ _ hr
  · rfl

end

/-- The machine at the call of the handler, behind the last instructions of the prologue. -/
structure AtCall (m t : Machine) (func errcode hardware : Word) : Prop where
  stack : t.stack 24 = (frame m func errcode hardware).words
  rsp : t.reg .rsp + 152 = hardware

theorem Framed.atCall {m t u : Machine} {func errcode hardware : Word}
    (h : Framed m t func errcode hardware) (hMem : u.mem = t.mem) (hRsp : u.reg .rsp = t.reg .rsp) :
    AtCall m u func errcode hardware := by
  constructor
  · unfold Machine.stack
    rw [hMem, hRsp]
    exact h.stack
  · rw [hRsp]
    exact h.rsp

/-- What is said of the handler of a path and of the machine the path ends with. The path restores the frame that
the handler comes back to, whatever that is. -/
structure Serves (m : Machine) (func errcode hardware : Word) (c : Call) (calls : List Call)
    (t : Machine) : Prop where
  frame : c.before.mem.words (c.before.reg .rsp + 8) 24 = (frame m func errcode hardware).words
  argument : c.before.reg .rdi = c.before.reg .rsp + 8
  top : c.before.reg .rsp + 8 + 152 = hardware
  returns : ∀ saved func errcode words, c.after.reg .rsp = c.before.reg .rsp + 8 →
    c.after.mem.words (c.before.reg .rsp + 8) 24 = saved.saved ++ func :: errcode :: words →
    (∀ d ∈ calls, d.Keeps) → Restored saved c.after t words

theorem Serves.restored {m t : Machine} {func errcode hardware : Word} {c : Call} {calls : List Call}
    (h : Serves m func errcode hardware c calls t) (hKeeps : ∀ d ∈ c :: calls, d.Keeps) :
    (∀ r, r ≠ .rsp → t.reg r = m.reg r) ∧ t.seg = m.seg ∧ t.reg .rsp = hardware ∧
      t.stack 5 = m.mem.words hardware 5 ∧
      t.mem.words (c.before.reg .rsp + 8) 24 = c.before.mem.words (c.before.reg .rsp + 8) 24 := by
  obtain ⟨hRsp, hFrame⟩ := hKeeps c List.mem_cons_self
  have hEnd := h.returns m _ _ _ hRsp (hFrame.trans (h.frame.trans (frame_words m func errcode hardware)))
    fun d hd => hKeeps d (List.mem_cons_of_mem _ hd)
  refine ⟨hEnd.reg, hEnd.seg, ?_, hEnd.stack, ?_⟩
  · rw [hEnd.rsp, hRsp, h.top]
  · have hStill := hEnd.frame
    unfold Machine.stack at hStill
    rw [hRsp] at hStill
    exact hStill.trans hFrame

theorem AtCall.call {m u : Machine} {func errcode hardware : Word}
    (h : AtCall m u func errcode hardware) (hRdi : u.reg .rdi = u.reg .rsp) {k : Code}
    (hk : Restores env k) (target : Target) :
    ∃ calls t, exec env (.call target k) u = some (env.call u (target.address env u) :: calls, t) ∧
      Serves m func errcode hardware (env.call u (target.address env u)) calls t := by
  obtain ⟨calls, t, hExec, hRestored⟩ := hk (env.call u (target.address env u)).after
  have hBack : (env.call u (target.address env u)).before.reg .rsp + 8 = u.reg .rsp := by
    refine (congrArg (· + 8) (push_reg_rsp u env.returnAddress)).trans ?_
    bv_omega
  refine ⟨calls, t, ?_, ?_, ?_, ?_, fun saved func' errcode' words hRsp hWords hKeeps => ?_⟩
  · rw [exec, hExec]
    rfl
  · rw [hBack, ← h.stack]
    exact words_store (by bv_omega) (by bv_omega)
  · rw [hBack, ← hRdi]
    exact push_reg _ _ (by decide)
  · rw [hBack, h.rsp]
  · refine hRestored saved func' errcode' words hKeeps ?_
    unfold Machine.stack
    rw [hRsp]
    exact hWords

end

end KalinoteOS.Entry
