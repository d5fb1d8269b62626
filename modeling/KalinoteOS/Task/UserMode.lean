import KalinoteOS.Entry.Descent
import KalinoteOS.Task.Run

/-! # To user mode and back

The system call of `user_level_function` with `system_call` and `system_call_table`, and the way of `init` through
`do_execve` into user mode.
-/
namespace KalinoteOS.Task
open Lib Memory Entry
set_option autoImplicit false

/-! ## The code -/

/-- The addresses that the user's program and `system_call_table` have in them. -/
structure UserLink where
  sysexitReturnAddress : Word
  noSystemCall : Word
  sysPutstring : Word

def maxSystemCallNr : Nat := 128
def nrPutstring : Nat := 1
def enosys : Word := 55

def systemCallTable (user : UserLink) : List Word :=
  (List.range maxSystemCallNr).map fun nr => if nr = nrPutstring then user.sysPutstring else user.noSystemCall

/-- What `no_system_call` and `sys_putstring` return. -/
def noSystemCall : Word := -enosys
def sysPutstring : Word := 0

/-- `sysenter`, with the stack pointer that `__switch_to` has put into its register. -/
def sysenter (esp : Word) (m : Machine) : Machine := { m.set .rsp esp with interrupts := false }

/-- `sysexit`: where it goes, and the machine there. -/
def sysexit (m : Machine) : Word × Machine := (m.reg .rdx, m.set .rsp (m.reg .rcx))

/-- `user_level_function` in front of its `sysenter`. -/
def beforeSysenter (user : UserLink) : List Instr :=
  [.push .r10, .push .r11, .movImm user.sysexitReturnAddress .r10, .mov .rsp .r11]

/-- `user_level_function` from `sysexit_return_address` on. -/
def afterSysexit : List Instr := [.xchg .rdx .r10, .xchg .rcx .r11, .pop .r11, .pop .r10]

/-- The calls in the kernel and the user's machine behind the system call, if it gets there. -/
def userSystemCall (user : UserLink) (env : Env) (esp : Word) (m : Machine) : Option (List Call × Machine) :=
  (exec env systemCall (sysenter esp (run env (beforeSysenter user) m))).bind fun r =>
    let (rip, m) := sysexit r.2
    if rip = user.sysexitReturnAddress then some (r.1, run env afterSysexit m) else none

/-- `init` from `current->thread->rip` on, up to `do_execve`. -/
def initJump (link : Link) (s : Cpu) : Cpu :=
  let current := getCurrent (s.reg .rsp)
  let s := s.setThread current fun thread => { thread with rip := link.retSystemCall }
  let s := s.setThread current fun thread => { thread with rsp := current + stackSize - ptRegsSize }
  let regs := (s.thread current).rsp
  let m := (s.machine.set .rdi regs).set .rsp (s.thread current).rsp
  s.withMachine (m.push (s.thread current).rip)

/-- The assignments of `do_execve` to `*regs`. -/
def execveRegs (m : Memory) (regs : Word) : Memory :=
  let m := m.store (regs + 0x28) 0x800000
  let m := m.store (regs + 0x20) 0xa00000
  let m := m.store (regs + 0x80) 1
  let m := m.store (regs + 0x70) 0
  m.store (regs + 0x78) 0

/-- `do_execve` up to its `ret`; `body` is what follows the assignments, its use of registers and stack
included. -/
def doExecve (body : Machine → Machine) (m : Machine) : Machine :=
  body { m with mem := execveRegs m.mem (m.reg .rdi) }

/-- Where `init` goes, if that is user mode. -/
def init (link : Link) (env : Env) (body : Machine → Machine) (s : Cpu) : Option (Word × Machine) :=
  let m := doExecve body (initJump link s).machine
  if m.mem.load (m.reg .rsp) = link.retSystemCall then
    (exec env retSystemCall (m.set .rsp (m.reg .rsp + 8))).map fun r => sysexit r.2
  else none

/-! ## The system call -/

section

def systemCallPrologue : List Instr :=
  [.sti, .subImm 0x38 .rsp, .cld] ++ saveFrame ++
    [.movImm 0x10 .rax, .movToSeg .rax .ds, .movToSeg .rax .es, .load offsetRAX .rsp .rax,
      .lea .systemCallTable .rbx]

theorem systemCall_split : systemCall =
    .block systemCallPrologue (.call (.table .rbx .rax) (.block [.store .rax offsetRAX .rsp] retSystemCall)) :=
      rfl

theorem systemCallPrologue_spec (env : Env) (m : Machine) :
    ∃ u, run env systemCallPrologue m = u ∧ u.reg .rsp = m.reg .rsp - 192 ∧ u.reg .rax = m.reg .rax ∧
      u.reg .rbx = env.address .systemCallTable ∧
      (∀ r, r ∉ [Reg.rsp, .rax, .rbx] → u.reg r = m.reg r) ∧ u.interrupts = true ∧
      ∀ x, 192 ≤ (x - (m.reg .rsp - 192)).toNat → u.mem x = m.mem x := by
  obtain ⟨hRsp, hMem⟩ := run_descent env m (by decide : descent 0 systemCallPrologue = some 192)
    (by decide)
  have hFramed := (prepared_systemCall env m).save env
  have hRax := hFramed.load (i := 16) (by decide) rfl
  refine ⟨_, rfl, hRsp, ?_, ?_, fun r hr => ?_, rfl, hMem⟩
  · unfold systemCallPrologue
    rw [run_append, run_append]
    generalize run env saveFrame (run env [.sti, .subImm 0x38 .rsp, .cld] m) = a at hRax
    exact (tail_systemCall env a).2.2.2.trans hRax
  · unfold systemCallPrologue
    rw [run_append, run_append]
    exact (tail_systemCall env _).2.2.1
  · simp only [List.mem_cons, List.not_mem_nil, or_false, not_or] at hr
    obtain ⟨hNeRsp, hNeRax, hNeRbx⟩ := hr
    unfold systemCallPrologue
    rw [run_append, run_append, ← hFramed.reg r hNeRsp hNeRax]
    simp [run, step, set_reg, hNeRax, hNeRbx]

theorem beforeSysenter_spec (user : UserLink) (env : Env) (m : Machine) :
    ∃ u, run env (beforeSysenter user) m = u ∧ u.reg .rsp = m.reg .rsp - 16 ∧
      u.reg .r10 = user.sysexitReturnAddress ∧ u.reg .r11 = m.reg .rsp - 16 ∧
      (∀ r, r ∉ [Reg.rsp, .r10, .r11] → u.reg r = m.reg r) ∧ u.seg = m.seg ∧
      u.mem.words (m.reg .rsp - 16) 2 = [m.reg .r11, m.reg .r10] ∧
      ∀ x, 16 ≤ (x - (m.reg .rsp - 16)).toNat → u.mem x = m.mem x := by
  obtain ⟨hRsp, hMem⟩ := run_descent env m (rfl : descent 0 (beforeSysenter user) = some 16)
    (by decide)
  have hOne : (m.push (m.reg .r10)).reg .r11 = m.reg .r11 := push_reg _ _ (by decide)
  have hStack : ((m.push (m.reg .r10)).push (m.reg .r11)).stack 2 = [m.reg .r11, m.reg .r10] := by
    rw [push_stack _ _ (by decide), push_stack _ _ (by decide)]
    rfl
  have hTop : ((m.push (m.reg .r10)).push (m.reg .r11)).reg .rsp = m.reg .rsp - 16 := by
    rw [push_reg_rsp, push_reg_rsp]
    bv_omega
  refine ⟨_, rfl, hRsp, ?_, ?_, fun r hr => ?_, rfl, ?_, hMem⟩
  · simp [beforeSysenter, run, step, set_reg, set_reg_self]
  · simp [beforeSysenter, run, step, set_reg, set_reg_self]
    bv_omega
  · simp only [List.mem_cons, List.not_mem_nil, or_false, not_or] at hr
    simp [beforeSysenter, run, step, set_reg, push_reg, hr]
  · unfold Machine.stack at hStack
    rw [hTop] at hStack
    rw [← hStack, ← hOne]
    rfl

theorem afterSysexit_spec (env : Env) {m : Machine} {a b : Word} (hStack : m.stack 2 = [a, b]) :
    ∃ u, run env afterSysexit m = u ∧ u.reg .rsp = m.reg .rsp + 16 ∧ u.reg .r10 = b ∧ u.reg .r11 = a ∧
      u.reg .rdx = m.reg .r10 ∧ u.reg .rcx = m.reg .r11 ∧
      (∀ r, r ∉ [Reg.rsp, .r10, .r11, .rdx, .rcx] → u.reg r = m.reg r) ∧ u.seg = m.seg ∧ u.mem = m.mem ∧
      u.interrupts = m.interrupts := by
  obtain ⟨x, hx⟩ : ∃ x, x = run env [.xchg .rdx .r10, .xchg .rcx .r11] m := ⟨_, rfl⟩
  have hTop : x.stack 2 = [a, b] := by
    rw [← hStack, hx]
    simp [Machine.stack, run, step, set_reg]
  have hReg : x.reg .rsp = m.reg .rsp ∧ x.reg .rdx = m.reg .r10 ∧ x.reg .rcx = m.reg .r11 ∧
      ∀ r, r ∉ [Reg.rsp, .r10, .r11, .rdx, .rcx] → x.reg r = m.reg r := by
    rw [hx]
    refine ⟨?_, ?_, ?_, fun r hr => ?_⟩
    · simp [run, step, set_reg]
    · simp [run, step, set_reg, set_reg_self]
    · simp [run, step, set_reg, set_reg_self]
    · simp only [List.mem_cons, List.not_mem_nil, or_false, not_or] at hr
      simp [run, step, set_reg, hr]
  obtain ⟨hRsp, hRdx, hRcx, hOthers⟩ := hReg
  have hRun : run env afterSysexit m = (x.pop .r11).pop .r10 := by
    rw [hx]
    rfl
  have hSame : x.seg = m.seg ∧ x.mem = m.mem ∧ x.interrupts = m.interrupts := by
    rw [hx]
    exact ⟨rfl, rfl, rfl⟩
  clear hx
  obtain ⟨hR11, hOthers₁, hRsp₁, hStack₁⟩ := pop_spec x a (by decide : Reg.r11 ≠ .rsp) hTop
  obtain ⟨hR10, hOthers₂, hRsp₂, -⟩ := pop_spec (x.pop .r11) b (by decide : Reg.r10 ≠ .rsp) hStack₁
  have hPops : ∀ r, r ≠ .r10 → r ≠ .r11 → r ≠ .rsp → ((x.pop .r11).pop .r10).reg r = x.reg r :=
    fun r h₁ h₂ h₃ => (hOthers₂ r h₁ h₃).trans (hOthers₁ r h₂ h₃)
  refine ⟨_, hRun, ?_, hR10, ?_, ?_, ?_, fun r hr => ?_, hSame⟩
  · rw [hRsp₂, hRsp₁, hRsp]
    bv_omega
  · exact (hOthers₂ .r11 (by decide) (by decide)).trans hR11
  · exact (hPops .rdx (by decide) (by decide) (by decide)).trans hRdx
  · exact (hPops .rcx (by decide) (by decide) (by decide)).trans hRcx
  · have hAll := hr
    simp only [List.mem_cons, List.not_mem_nil, or_false, not_or] at hr
    exact (hPops r hr.2.1 hr.2.2.1 hr.1).trans (hOthers r hAll)

/-- What `sysexit` finds in the memory and in the flag. -/
theorem exec_retSystemCall_mem {env : Env} {m t : Machine} {calls : List Call}
    (h : exec env retSystemCall m = some (calls, t)) : t.mem = m.mem ∧ t.interrupts = true := by
  have hExec : exec env retSystemCall m = some ([], run env
      [.addImm 0x38 .rsp, .xchg .rdx .r10, .xchg .rcx .r11, .sti] (run env restoreFrame m)) := by
    rw [← run_append]
    rfl
  obtain ⟨-, rfl⟩ := Prod.mk.inj (Option.some.inj (h.symm.trans hExec))
  exact ⟨rfl, rfl⟩

/-- `system_call` from the stack pointer `rsp` on: what the function from the table finds, and what comes back. -/
structure Called (env : Env) (m t : Machine) (c : Call) : Prop where
  target : (∀ i < 8, 200 ≤ (env.address .systemCallTable + m.reg .rax * 8 +
    BitVec.ofNat 64 i - (m.reg .rsp - 200)).toNat) →
    c.target = m.mem.load (env.address .systemCallTable + m.reg .rax * 8)
  after : c.after = env.function c.target c.before
  rsp : c.before.reg .rsp = m.reg .rsp - 200
  interrupts : c.before.interrupts = true
  reg : ∀ r, r ∉ [Reg.rsp, .rax, .rbx] → c.before.reg r = m.reg r
  mem : ∀ x, 200 ≤ (x - (m.reg .rsp - 200)).toNat → c.before.mem x = m.mem x
  memEnd : c.Keeps → ∀ x, 200 ≤ (x - (m.reg .rsp - 200)).toNat → t.mem x = c.after.mem x

theorem exec_systemCall_called (env : Env) (m : Machine) {c : Call} {t : Machine}
    (h : exec env systemCall m = some ([c], t)) : Called env m t c ∧ t.interrupts = true := by
  obtain ⟨u, hu, hRsp, hRax, hRbx, hReg, hFlag, hMem⟩ := systemCallPrologue_spec env m
  rw [systemCall_split, exec, hu, exec] at h
  obtain ⟨rest, hCalls, hRest⟩ := exec_behind h
  have hCall := (List.cons.inj hCalls).1.symm
  obtain ⟨hMemEnd, hFlagEnd⟩ := exec_retSystemCall_mem hRest
  have hTarget : c.target = u.mem.load (u.reg .rbx + u.reg .rax * 8) := by
    rw [← hCall]
    rfl
  have hBefore : c.before = u.push env.returnAddress := by
    rw [← hCall]
    rfl
  have hAfter : c.after = env.function c.target c.before := by
    rw [← hCall]
    rfl
  have hFar : ∀ x, 200 ≤ (x - (m.reg .rsp - 200)).toNat → 192 ≤ (x - (m.reg .rsp - 192)).toNat := by
    intro x hx
    bv_omega
  have hTop : c.before.reg .rsp = m.reg .rsp - 200 := by
    rw [hBefore, push_reg_rsp, hRsp]
    bv_omega
  refine ⟨⟨fun hTable => ?_, hAfter, hTop, ?_, fun r hr => ?_, fun x hx => ?_, fun hKeeps x hx => ?_⟩, hFlagEnd⟩
  · rw [hTarget, hRax, hRbx]
    exact load_congr fun i hi => hMem _ (hFar _ (hTable i hi))
  · rw [hBefore]
    exact hFlag
  · rw [hBefore, push_reg _ _ (by simp only [List.mem_cons, not_or] at hr; exact hr.1)]
    exact hReg r hr
  · rw [hBefore]
    refine (store_outside _ ?_).trans (hMem x (hFar x hx))
    rw [hRsp]
    bv_omega
  · have hRspAfter : (env.call u (Target.address env u (.table .rbx .rax))).after.reg .rsp =
      m.reg .rsp - 192 := by
      rw [hCall, hKeeps.rsp, hTop]
      bv_omega
    rw [hMemEnd]
    refine (store_outside _ ?_).trans (congrArg (fun d : Call => d.after.mem x) hCall)
    rw [hRspAfter]
    unfold offsetRAX
    bv_omega

end

section
variable {user : UserLink} {env : Env} {s : Cpu} {t : Word}

/-- `system_call_table` lies outside of the kernel stack and of what the user's program pushes. -/
structure TableAt (user : UserLink) (env : Env) (s : Cpu) (t : Word) : Prop where
  words : s.mem.words (env.address .systemCallTable) maxSystemCallNr = systemCallTable user
  apart : ∀ i < 8 * maxSystemCallNr, ¬InUnion t (env.address .systemCallTable + BitVec.ofNat 64 i) ∧
    16 ≤ (env.address .systemCallTable + BitVec.ofNat 64 i - (s.reg .rsp - 16)).toNat

theorem kernel_window {x : Word} (hx : ¬InUnion t x) : 200 ≤ (x - (t + stackSize - 200)).toNat := by
  unfold InUnion stackSize at *
  bv_omega

theorem TableAt.load (h : TableAt user env s t) {nr : Word} (hNr : nr.toNat < maxSystemCallNr) :
    s.mem.load (env.address .systemCallTable + nr * 8) =
      if nr.toNat = nrPutstring then user.sysPutstring else user.noSystemCall := by
  have hWord := getElem?_words (m := s.mem) (a := env.address .systemCallTable) hNr
  have hOffset : BitVec.ofNat 64 (8 * nr.toNat) = nr * 8 := by bv_omega
  rw [h.words, hOffset] at hWord
  unfold systemCallTable at hWord
  rw [List.getElem?_map, List.getElem?_range hNr] at hWord
  exact (Option.some.inj hWord).symm

theorem TableAt.entry_apart (h : TableAt user env s t) {nr : Word} (hNr : nr.toNat < maxSystemCallNr) {i : Nat}
    (hi : i < 8) : ¬InUnion t (env.address .systemCallTable + nr * 8 + BitVec.ofNat 64 i) ∧
      16 ≤ (env.address .systemCallTable + nr * 8 + BitVec.ofNat 64 i - (s.reg .rsp - 16)).toNat := by
  have hOffset : nr * 8 + BitVec.ofNat 64 i = BitVec.ofNat 64 (8 * nr.toNat + i) := by bv_omega
  rw [BitVec.add_assoc, hOffset]
  exact h.apart _ (by omega)

/-- A system call of a user's program: the function from the table runs on the kernel stack of the task with
the arguments of the program and interrupts on. If it keeps the frame and what the program has pushed, the
program goes on behind its `sysenter` with the result in `rax` and everything else as it was. -/
theorem system_call_returns (hEsp : s.sysenterEsp = t + stackSize) (hNr : (s.reg .rax).toNat < maxSystemCallNr)
    (hTable : TableAt user env s t) (hUser : ∀ i < 16, ¬InUnion t (s.reg .rsp - 16 + BitVec.ofNat 64 i))
    (hReturns : ∀ m, (env.function user.noSystemCall m).reg .rax = noSystemCall ∧
      (env.function user.sysPutstring m).reg .rax = sysPutstring) :
    ∃ c : Call, c.after = env.function c.target c.before ∧
      c.target = (if (s.reg .rax).toNat = nrPutstring then user.sysPutstring else user.noSystemCall) ∧
      c.before.reg .rsp = t + stackSize - 200 ∧ c.before.interrupts = true ∧
      (∀ r, r ∉ [Reg.rsp, .rax, .rbx, .r10, .r11] → c.before.reg r = s.reg r) ∧
      (∀ x, ¬InUnion t x → 16 ≤ (x - (s.reg .rsp - 16)).toNat → c.before.mem x = s.mem x) ∧
      (c.Keeps → (∀ i < 16, c.after.mem (s.reg .rsp - 16 + BitVec.ofNat 64 i) =
          c.before.mem (s.reg .rsp - 16 + BitVec.ofNat 64 i)) →
        ∃ m, userSystemCall user env s.sysenterEsp s.machine = some ([c], m) ∧
          m.reg .rax = (if (s.reg .rax).toNat = nrPutstring then sysPutstring else noSystemCall) ∧
          (∀ r, r ≠ .rax → m.reg r = s.reg r) ∧ m.seg = s.machine.seg ∧ m.interrupts = true ∧
          ∀ x, ¬InUnion t x → m.mem x = c.after.mem x) := by
  obtain ⟨p, hp, hRspP, hR10P, hR11P, hRegP, hSegP, hWordsP, hMemP⟩ := beforeSysenter_spec user env s.machine
  obtain ⟨k, hk⟩ : ∃ k, k = sysenter s.sysenterEsp p := ⟨_, rfl⟩
  have hRspK : k.reg .rsp = t + stackSize := by
    rw [hk, ← hEsp]
    exact set_reg_self p s.sysenterEsp .rsp
  have hRegK : ∀ r, r ≠ .rsp → k.reg r = p.reg r := by
    intro r hr
    rw [hk]
    exact set_reg _ _ hr
  have hSameK : k.mem = p.mem ∧ k.seg = p.seg := by
    rw [hk]
    exact ⟨rfl, rfl⟩
  obtain ⟨c, e, hExec, -, hEnd⟩ := exec_systemCall env k
  obtain ⟨hCalled, hFlag⟩ := exec_systemCall_called env k hExec
  have hRaxK : k.reg .rax = s.reg .rax := (hRegK _ (by decide)).trans (hRegP _ (by decide))
  have hMemK : ∀ x, 16 ≤ (x - (s.reg .rsp - 16)).toNat → k.mem x = s.mem x := by
    intro x hx
    rw [hSameK.1]
    exact hMemP x hx
  have hWindow : ∀ x, ¬InUnion t x → 200 ≤ (x - (k.reg .rsp - 200)).toNat := by
    intro x hx
    rw [hRspK]
    exact kernel_window hx
  have hUserWindow := fun i hi => hWindow _ (hUser i hi)
  have hTarget : c.target = if (s.reg .rax).toNat = nrPutstring then user.sysPutstring else
    user.noSystemCall := by
    rw [hCalled.target fun i hi => ?_, hRaxK, ← hTable.load hNr]
    · exact load_congr fun i hi => hMemK _ (hTable.entry_apart hNr hi).2
    · rw [hRaxK]
      exact hWindow _ (hTable.entry_apart hNr hi).1
  refine ⟨c, hCalled.after, hTarget, ?_, hCalled.interrupts, fun r hr => ?_, fun x hx hFar => ?_,
    fun hKeeps hPushed => ?_⟩
  · rw [hCalled.rsp, hRspK]
  · simp only [List.mem_cons, List.not_mem_nil, or_false, not_or] at hr
    rw [hCalled.reg r (by simp [hr]), hRegK r hr.1]
    exact hRegP r (by simp [hr])
  · exact (hCalled.mem x (hWindow x hx)).trans (hMemK x hFar)
  · obtain ⟨hSeg, -, hRax, hRdx, hR10, hRcx, hR11, hOthers⟩ := hEnd hKeeps
    obtain ⟨x, hx⟩ : ∃ x, x = e.set .rsp (e.reg .rcx) := ⟨_, rfl⟩
    have hRspX : x.reg .rsp = s.reg .rsp - 16 := by
      rw [hx, set_reg_self, hRcx, hRegK _ (by decide)]
      exact hR11P
    have hRegX : ∀ r, r ≠ .rsp → x.reg r = e.reg r := by
      intro r hr
      rw [hx]
      exact set_reg _ _ hr
    have hSameX : x.mem = e.mem ∧ x.seg = e.seg ∧ x.interrupts = e.interrupts := by
      rw [hx]
      exact ⟨rfl, rfl, rfl⟩
    have hStack : x.stack 2 = [s.reg .r11, s.reg .r10] := by
      unfold Machine.stack
      rw [hRspX, hSameX.1]
      refine Eq.trans (words_congr fun i hi => ?_) hWordsP
      rw [hCalled.memEnd hKeeps _ (hUserWindow i (by omega)), hPushed i (by omega),
        hCalled.mem _ (hUserWindow i (by omega)), hSameK.1]
      rfl
    obtain ⟨m, hm, hRspM, hR10M, hR11M, hRdxM, hRcxM, hOthersM, hSegM, hMemM, hFlagM⟩ :=
      afterSysexit_spec env hStack
    have hRip : e.reg .rdx = user.sysexitReturnAddress := by
      rw [hRdx, hRegK _ (by decide), hR10P]
    refine ⟨m, ?_, ?_, fun r hr => ?_, ?_, ?_, fun y hy => ?_⟩
    · unfold userSystemCall
      rw [hp, ← hk, hExec, Option.bind_some]
      unfold sysexit
      dsimp only
      rw [if_pos hRip, ← hx, hm]
    · rw [hOthersM .rax (by decide), hRegX _ (by decide), hRax, hCalled.after, hTarget]
      split
      · exact (hReturns _).2
      · exact (hReturns _).1
    · have hBack : ∀ q, q ∉ [Reg.rsp, .r10, .r11] → k.reg q = s.reg q := by
        intro q hq
        have hNe : q ≠ .rsp := fun h => hq (by rw [h]; exact List.mem_cons_self)
        exact (hRegK q hNe).trans (hRegP q hq)
      cases r
      case rsp =>
        rw [hRspM, hRspX]
        bv_omega
      case r10 => exact hR10M
      case r11 => exact hR11M
      case rdx => rw [hRdxM, hRegX _ (by decide), hR10, hBack _ (by decide)]
      case rcx => rw [hRcxM, hRegX _ (by decide), hR11, hBack _ (by decide)]
      case rax => exact absurd rfl hr
      all_goals rw [hOthersM _ (by decide), hRegX _ (by decide), hOthers _ (by decide), hBack _ (by decide)]
    · rw [hSegM, hSameX.2.1, hSeg, hSameK.2, hSegP]
    · rw [hFlagM, hSameX.2.2, hFlag]
    · rw [hMemM, hSameX.1]
      exact hCalled.memEnd hKeeps y (hWindow y hy)

end

def userLink : UserLink := ⟨0x800100, 0, 8⟩

def userEnv : Env where
  address := fun _ => 0x100000
  function := fun target m => (m.set .rsp (m.reg .rsp + 8)).set .rax
    (if target = 0 then noSystemCall else sysPutstring)
  returnAddress := 0

/-- A program whose task is at 0x8000 asks for `sys_putstring`. -/
def userProgram : Cpu :=
  { firstSystem.cpu with
    machine := ⟨fun r => if r = .rsp then 0xa00000 else 1, fun _ => 0, Memory.store (fun _ => 0) 0x100008 8,
      false, false, true⟩ }

theorem userProgram_table : TableAt userLink userEnv userProgram 0x8000 := by
  refine ⟨by decide +kernel, fun i hi => ?_⟩
  unfold maxSystemCallNr at hi
  have hAddress : userEnv.address .systemCallTable = 0x100000 := rfl
  have hRsp : userProgram.reg .rsp = 0xa00000 := rfl
  rw [hAddress, hRsp]
  unfold InUnion
  bv_omega

theorem system_call_returns_userProgram : ∃ c m, userSystemCall userLink userEnv 0x10000 userProgram.machine =
    some ([c], m) ∧
    c.target = 8 ∧ m.reg .rax = 0 := by
  have hUser : ∀ i < 16, ¬InUnion 0x8000 (userProgram.reg .rsp - 16 + BitVec.ofNat 64 i) := by
    intro i hi
    have hRsp : userProgram.reg .rsp = 0xa00000 := rfl
    rw [hRsp]
    unfold InUnion
    bv_omega
  obtain ⟨c, hAfter, hTarget, hRsp, -, -, -, hReturn⟩ :=
    system_call_returns (s := userProgram) (t := 0x8000) rfl (by decide)
    userProgram_table hUser fun m => ⟨set_reg_self _ _ _, set_reg_self _ _ _⟩
  have hMem : c.after.mem = c.before.mem := by
    rw [hAfter]
    rfl
  have hBack : c.after.reg .rsp = c.before.reg .rsp + 8 := by
    rw [hAfter]
    exact (set_reg _ _ (by decide)).trans (set_reg_self _ _ _)
  obtain ⟨m, hRun, hRax, -⟩ := hReturn ⟨hBack, by rw [hMem]⟩ fun i _ => by rw [hMem]
  exact ⟨c, m, hRun, hTarget, hRax⟩

/-! ## The first program -/

/-- What is relied on of the rest of `do_execve`: its return address and the frame behind it stay. -/
structure ExecveKeeps (body : Machine → Machine) : Prop where
  rsp : ∀ m, (body m).reg .rsp = m.reg .rsp
  mem : ∀ m, ∀ i < 200, (body m).mem (m.reg .rsp + BitVec.ofNat 64 i) = m.mem (m.reg .rsp + BitVec.ofNat 64 i)

def execveFields : List (Nat × Word) := [(5, 0x800000), (4, 0xa00000), (16, 1), (14, 0), (15, 0)]

theorem execveRegs_eq (m : Memory) (regs : Word) : execveRegs m regs = stores regs execveFields m := rfl

theorem execveFields_lt : ∀ p ∈ execveFields, p.1 < 24 := by decide

/-- A frame with segments that are 0 is one that `RESTORE_ALL` can take back. -/
theorem exists_saved (m : Machine) (ws : List Word) (hLength : ws.length = 24) (hDs : ws[14]? = some 0)
    (hEs : ws[15]? = some 0) : ∃ (saved : Machine) (rest : List Word), ws = saved.saved ++ rest ∧
      saved.seg = (fun _ => 0) ∧ ws[5]? = some (saved.reg .r10) ∧ ws[4]? = some (saved.reg .r11) ∧
      ws[16]? = some (saved.reg .rax) := by
  match ws, hLength with
  | [r15, r14, r13, r12, r11, r10, r9, r8, rbx, rcx, rdx, rsi, rdi, rbp, ds, es, rax, w₁, w₂, w₃, w₄, w₅, w₆,
      w₇], _ =>
    obtain rfl := Option.some.inj hDs
    obtain rfl := Option.some.inj hEs
    refine ⟨{ m with reg := ?_, seg := fun _ => 0 }, [w₁, w₂, w₃, w₄, w₅, w₆, w₇], ?_, rfl, ?_, ?_, ?_⟩
    · exact fun
        | .r15 => r15
        | .r14 => r14
        | .r13 => r13
        | .r12 => r12
        | .r11 => r11
        | .r10 => r10
        | .r9 => r9
        | .r8 => r8
        | .rbx => rbx
        | .rcx => rcx
        | .rdx => rdx
        | .rsi => rsi
        | .rdi => rdi
        | .rbp => rbp
        | .rax => rax
        | .rsp => 0
    all_goals rfl

section
variable {link : Link} {env : Env} {s : System} {a : Tasks}

/-- `init` goes to user mode, to the copied function and its stack, whatever else is in the frame. -/
theorem init_enters_user_mode (env : Env) (h : Refines link s a) {body : Machine → Machine}
    (hBody : ExecveKeeps body) :
    ∃ m, init link env body s.cpu = some (0x800000, m) ∧ m.reg .rsp = 0xa00000 ∧ m.reg .rax = 1 ∧
      m.seg = (fun _ => 0) ∧ m.interrupts = true := by
  obtain ⟨regs, hRegs⟩ : ∃ regs, regs = a.current + stackSize - ptRegsSize := ⟨_, rfl⟩
  obtain ⟨j, hj⟩ : ∃ j, j = (initJump link s.cpu).machine := ⟨_, rfl⟩
  have hJump : j.reg .rsp = regs - 8 ∧ j.reg .rdi = regs ∧ j.mem.load (regs - 8) = link.retSystemCall := by
    have hMachine : j = (((s.cpu.machine.set .rdi regs).set .rsp regs).push link.retSystemCall) := by
      rw [hj]
      unfold initJump
      rw [h.getCurrent, hRegs]
      simp [Cpu.setThread, Cpu.withMachine]
    rw [hMachine]
    refine ⟨?_, ?_, ?_⟩
    · rw [push_reg_rsp, set_reg_self]
    · rw [push_reg _ _ (by decide), set_reg _ _ (by decide), set_reg_self]
    · have hStore : (((s.cpu.machine.set .rdi regs).set .rsp regs).push link.retSystemCall).mem =
          s.cpu.mem.store (regs - 8) link.retSystemCall := by
        simp [Machine.push, set_reg_self, Cpu.mem]
      rw [hStore, load_store]
  obtain ⟨hRsp, hRdi, hReturn⟩ := hJump
  obtain ⟨e, he⟩ : ∃ e, e = doExecve body j := ⟨_, rfl⟩
  obtain ⟨x, hx⟩ : ∃ x : Machine, x = { j with mem := stores regs execveFields j.mem } := ⟨_, rfl⟩
  have hBodyAt : e = body x := by
    rw [he, hx, ← execveRegs_eq, ← hRdi]
    rfl
  have hRspX : x.reg .rsp = regs - 8 := by
    rw [hx]
    exact hRsp
  have hRspE : e.reg .rsp = regs - 8 := by rw [hBodyAt, hBody.rsp, hRspX]
  have hMemE : ∀ i < 200, e.mem (regs - 8 + BitVec.ofNat 64 i) = stores regs execveFields j.mem
    (regs - 8 + BitVec.ofNat 64 i) := by
    intro i hi
    have hKept := hBody.mem x i hi
    rw [hRspX, ← hBodyAt] at hKept
    rw [hKept, hx]
  have hBack : e.mem.load (e.reg .rsp) = link.retSystemCall := by
    rw [hRspE, ← hReturn]
    refine load_congr fun i hi => (hMemE i (by omega)).trans (stores_outside execveFields_lt ?_)
    bv_omega
  have hTop : regs - 8 + 8 = regs := by bv_omega
  have hWords : (e.set .rsp (e.reg .rsp + 8)).stack 24 = execveFields.foldl (fun ws p => ws.set p.1 p.2)
    (j.mem.words regs 24) := by
    unfold Machine.stack
    rw [set_reg_self, set_mem, hRspE, hTop, ← stores_words (by decide) execveFields_lt]
    refine words_congr fun i hi => ?_
    have hSplit : regs + BitVec.ofNat 64 i = regs - 8 + BitVec.ofNat 64 (8 + i) := by
      rw [BitVec.ofNat_add, ← BitVec.add_assoc]
      exact congrArg (· + BitVec.ofNat 64 i) hTop.symm
    rw [hSplit]
    exact hMemE (8 + i) (by omega)
  obtain ⟨ws, hws⟩ : ∃ ws, ws = j.mem.words regs 24 := ⟨_, rfl⟩
  have hLength : ws.length = 24 := by
    rw [hws]
    rfl
  rw [← hws] at hWords
  obtain ⟨saved, rest, hSaved, hSeg, hR10, hR11, hRax⟩ := exists_saved e
    (execveFields.foldl (fun ws p => ws.set p.1 p.2) ws) (by simp [execveFields, hLength])
    (by simp [execveFields, hLength]) (by simp [execveFields, hLength])
  obtain ⟨t, hExec, hSpec⟩ := exec_retSystemCall env (e.set .rsp (e.reg .rsp + 8))
  obtain ⟨hSegT, -, hRdx, -, hRcx, -, hOthers⟩ := hSpec saved rest (hWords.trans hSaved)
  have hTen : saved.reg .r10 = 0x800000 := by
    simpa [execveFields, hLength] using hR10.symm
  have hEleven : saved.reg .r11 = 0xa00000 := by
    simpa [execveFields, hLength] using hR11.symm
  have hOne : saved.reg .rax = 1 := by
    simpa [execveFields, hLength] using hRax.symm
  refine ⟨t.set .rsp (t.reg .rcx), ?_, ?_, ?_, ?_, ?_⟩
  · unfold init
    rw [← hj, ← he]
    dsimp only
    rw [if_pos hBack, hExec, Option.map_some]
    unfold sysexit
    rw [hRdx, hTen]
  · rw [set_reg_self, hRcx, hEleven]
  · rw [set_reg _ _ (by decide), hOthers .rax (by decide), hOne]
  · exact hSegT.trans hSeg
  · exact (exec_retSystemCall_mem hExec).2

end

/-- In the thread that the first task has made and gone to. -/
theorem init_enters_user_mode_thread : ∃ u m, switchTo firstLink firstEnv id 0x18000 secondSystem.cpu = some u ∧
    init firstLink firstEnv id ((⟨u, secondSystem.tasks⟩ : System).load 9).cpu = some (0x800000, m) ∧
    m.reg .rsp = 0xa00000 := by
  obtain ⟨b, -, hRefines⟩ := step_refines (by decide) firstSystem_refines secondSystem_step
  obtain ⟨u, hSwitch⟩ := switchTo_succeeds firstEnv (by decide) hRefines (keeps_id secondSystem.tasks 0x18000)
    (by decide)
  obtain ⟨b', -, hRefines', -, -⟩ := refines_switch (by decide) hRefines (by decide) (keeps_id _ _) hSwitch
  obtain ⟨l, hDoes⟩ := hRefines'.load firstEnv 9
  obtain ⟨c, -, hLoaded⟩ := step_refines (by decide) hRefines' hDoes
  obtain ⟨m, hRun, hRsp, -⟩ := init_enters_user_mode firstEnv hLoaded
    (⟨fun _ => rfl, fun _ _ _ => rfl⟩ : ExecveKeeps id)
  exact ⟨u, m, hSwitch, hRun, hRsp⟩

end KalinoteOS.Task
