import KalinoteOS.Entry.Descent
import KalinoteOS.Idt.Vectors

/-! # Interrupts from the processor to the handler and back

What the processor does with a gate, the stub behind it, and where the frames lie.
-/
namespace KalinoteOS.Idt
open Lib Memory Entry KalinoteOS.Task
set_option autoImplicit false

/-! ## The processor -/

/-- The code that is interrupted; the stack pointer is in the machine. -/
structure Interrupted where
  machine : Machine
  rip : Word
  cs : Word
  rflags : Word
  ss : Word

/-- What the processor pushes, from the top on. -/
def Interrupted.hardware (i : Interrupted) : List Word := [i.rip, i.cs, i.rflags, i.machine.reg .rsp, i.ss]

/-- The stack of a gate with an `ist` other than 0. -/
def istStack (tss : Tss) (ist : BitVec 3) : Option Word :=
  match ist.toNat with
  | 0 => none
  | 1 => some tss.ist1
  | 2 => some tss.ist2
  | 3 => some tss.ist3
  | 4 => some tss.ist4
  | 5 => some tss.ist5
  | 6 => some tss.ist6
  | _ => some tss.ist7

/-- The vectors with an error code. -/
def pushesError (n : Nat) : Bool := n ∈ [8, 10, 11, 12, 13, 14, 17]

/-- The vector `n` is delivered: where the processor goes on, and the machine there. -/
def deliver (idt : IdtTable) (tss : Tss) (n : Nat) (errcode : Word) (i : Interrupted) : Word × Machine :=
  let gate := (idt n).gate
  let rsp := match istStack tss gate.ist with
    | some rsp => rsp
    | none => if i.cs.setWidth 2 = 0#2 then i.machine.reg .rsp else tss.rsp0
  let m := i.machine.set .rsp (rsp &&& ~~~0xf)
  let m := ((((m.push i.ss).push (i.machine.reg .rsp)).push i.rflags).push i.cs).push i.rip
  let m := if pushesError n then m.push errcode else m
  (gate.offset, if gate.type = 0xE then { m with interrupts := false } else m)

/-! ## In front of the handler -/

/-- The instructions of a path in front of its first call. -/
def prologue : Path → List Instr
  | .irq nr =>
    [.pushImm 0, .cld, .push .rax] ++ saveFrame ++
      [.movImm 0x10 .rdx, .movToSeg .rdx .ds, .movToSeg .rdx .es, .mov .rsp .rdi, .lea .retFromIntr .rax,
        .push .rax,
        .movImm nr .rsi]
  | .exception e =>
    (if e.pushesCode then [] else [.pushImm 0]) ++ [.push .rax, .lea (.handler e) .rax, .xchgTop .rax] ++
      saveFrame ++
      [.cld, .load offsetERRCODE .rsp .rsi, .load offsetFUNC .rsp .rdx, .movImm 0x10 .rdi, .movToSeg .rdi .ds,
        .movToSeg .rdi .es, .mov .rsp .rdi]
  | .nmi =>
    [.push .rax, .cld, .push .rax] ++ saveFrame ++
      [.movImm 0x10 .rdx, .movToSeg .rdx .ds, .movToSeg .rdx .es, .movImm 0 .rsi, .mov .rsp .rdi]
  | .systemCall => []

section
variable {env : Env} {m : Machine} {c : Call} {calls : List Call} {e : Machine}

theorem before_tailCall {is : List Instr} {target ret : Symbol} {k : Code}
    (h : exec env (.block is (.tailCall target ret k)) m = some (c :: calls, e)) : c.before = run env is m := by
  rw [exec, exec] at h
  dsimp only at h
  split at h
  · obtain ⟨rest, hCalls, -⟩ := exec_behind h
    rw [(List.cons.inj hCalls).1]
  · exact absurd h.symm (Option.some_ne_none _)

theorem before_call {is : List Instr} {target : Target} {k : Code}
    (h : exec env (.block is (.call target k)) m = some (c :: calls, e)) :
    c.before = (run env is m).push env.returnAddress := by
  rw [exec, exec] at h
  obtain ⟨rest, hCalls, -⟩ := exec_behind h
  rw [(List.cons.inj hCalls).1]
  rfl

/-- What a prologue of `n` bytes with a return address behind it leaves alone. -/
theorem before_window {is : List Instr} {n : Nat} {hardware : Word} (hDescent : descent 0 is = some n)
    (hSmall : n < 2 ^ 32) (hTop : m.reg .rsp = hardware - 152 + BitVec.ofNat 64 n) (hn : n ≤ 152) :
    ((run env is m).push env.returnAddress).reg .rsp + 8 = hardware - 152 ∧
      ∀ x, 160 ≤ (x - (hardware - 160)).toNat → ((run env is m).push env.returnAddress).mem x = m.mem x := by
  obtain ⟨hRsp, hMem⟩ := run_descent env m hDescent (by omega)
  have hEnd : (run env is m).reg .rsp = hardware - 152 := by
    rw [hRsp, hTop]
    abel
  refine ⟨?_, fun x hx => ?_⟩
  · rw [push_reg_rsp, hEnd]
    bv_omega
  · refine (store_outside _ ?_).trans (hMem x ?_)
    · rw [hEnd]
      bv_omega
    · rw [← hRsp, hEnd]
      bv_omega

theorem exec_exception_prologue (x : Exception) : exec env (Path.exception x).code m =
    exec env (.block (prologue (.exception x)) (.call (.reg .rdx) retFromIntr)) m := by
  cases x <;> rfl

theorem descent_exception (x : Exception) :
    descent 0 (prologue (.exception x)) = some (if x.pushesCode then 144 else 152) := by
  cases x <;> rfl

theorem rsp_exception (x : Exception) : m.reg .rsp =
    (Path.exception x).hardware m - 152 + BitVec.ofNat 64 (if x.pushesCode then 144 else 152) := by
  change m.reg .rsp = (if x.pushesCode then m.reg .rsp + 8 else m.reg .rsp) - 152 + _
  split
  · bv_omega
  · bv_omega

/-- Whatever the path, its frame ends where the processor's words begin, and nothing but the frame and a return
address is written. -/
theorem before_handler {p : Path} (hp : p ≠ .systemCall) (h : exec env p.code m = some (c :: calls, e)) :
    c.before.reg .rsp + 8 = p.hardware m - 152 ∧
      ∀ x, 160 ≤ (x - (p.hardware m - 160)).toNat → c.before.mem x = m.mem x := by
  cases p with
  | irq nr =>
    have hExec : exec env (Path.irq nr).code m =
        exec env (.block (prologue (.irq nr)) (.tailCall .doIRQ .retFromIntr retFromIntr)) m := rfl
    rw [hExec] at h
    obtain ⟨hRsp, hMem⟩ := run_descent env m (rfl : descent 0 (prologue (.irq nr)) = some 160) (by decide)
    rw [before_tailCall h]
    refine ⟨?_, hMem⟩
    rw [hRsp]
    change m.reg .rsp - 160 + 8 = m.reg .rsp - 152
    bv_omega
  | exception x =>
    rw [exec_exception_prologue] at h
    rw [before_call h]
    exact before_window (descent_exception x) (by split <;> decide) (rsp_exception x) (by split <;> decide)
  | nmi =>
    have hExec : exec env Path.nmi.code m = exec env (.block (prologue .nmi) (.call (.sym .doNmi) restoreAll))
      m := rfl
    rw [hExec] at h
    rw [before_call h]
    refine before_window (rfl : descent 0 (prologue .nmi) = some 152) (by decide) ?_ (by decide)
    change m.reg .rsp = m.reg .rsp - 152 + 152
    bv_omega
  | systemCall => exact absurd rfl hp

theorem exec_served (env : Env) (m : Machine) {p : Path} (hp : p ≠ .systemCall) :
    ∃ func errcode c calls e, exec env p.code m = some (c :: calls, e) ∧
      (∀ x ∈ p.handler, c.target = env.address x) ∧
      Serves m func errcode (p.hardware m) c calls e := by
  cases p with
  | irq nr =>
    obtain ⟨c, calls, e, hExec, hTarget, hServes⟩ := exec_irq env m nr
    exact ⟨_, _, c, calls, e, hExec, by rintro x ⟨rfl⟩; exact hTarget, hServes⟩
  | exception x =>
    obtain ⟨c, calls, e, hExec, hTarget, hServes⟩ := exec_exceptionEntry env m x
    exact ⟨_, _, c, calls, e, hExec, by rintro y ⟨rfl⟩; exact hTarget, hServes⟩
  | nmi =>
    obtain ⟨c, calls, e, hExec, hTarget, hServes⟩ := exec_nmi env m
    exact ⟨_, _, c, calls, e, hExec, by rintro x ⟨rfl⟩; exact hTarget, hServes⟩
  | systemCall => exact absurd rfl hp

end

/-! ## One vector -/

section
variable {tss : Tss} {stack : Word} {v : GateEntry} {i : Interrupted}

/-- Both stacks that the gates use begin at one address. -/
structure SharedStack (tss : Tss) (stack : Word) : Prop where
  ist1 : tss.ist1 = stack
  ist2 : tss.ist2 = stack
  aligned : stack &&& ~~~0xf = stack

theorem istStack_vector (hTss : SharedStack tss stack) (hv : v ∈ vectors) :
    istStack tss (v.ist.setWidth 3) = some stack := by
  have hIst : ∀ v ∈ vectors, v.ist = 1 ∨ v.ist = 2 := by decide
  obtain h | h := hIst v hv
  · rw [h]
    exact congrArg some hTss.ist1
  · rw [h]
    exact congrArg some hTss.ist2

theorem pushesError_vector (hv : v ∈ vectors) : v.path ≠ .systemCall ∧
    ∀ m, v.path.hardware m = if pushesError v.nr then m.reg .rsp + 8 else m.reg .rsp := by
  unfold vectors at hv
  obtain hv | hv := List.mem_append.mp hv
  · simp only [List.mem_cons, List.not_mem_nil, or_false] at hv
    obtain rfl | rfl | rfl | rfl | rfl | rfl | rfl | rfl | rfl | rfl | rfl | rfl | rfl | rfl | rfl | rfl | rfl | rfl |
      rfl | rfl := hv
    all_goals exact ⟨nofun, fun m => rfl⟩
  · obtain ⟨k, hk, rfl⟩ := List.mem_map.mp hv
    refine ⟨nofun, fun m => ?_⟩
    have hNone : pushesError (32 + k) = false := by
      have hAll : ∀ k ∈ List.range 24, pushesError (32 + k) = false := by decide
      exact hAll k hk
    dsimp only
    rw [hNone]
    rfl

/-- The five words, seen from the machine that has the shared stack. -/
theorem pushed_hardware (i : Interrupted) (stack : Word) :
    ∃ m, m = (((((i.machine.set .rsp stack).push i.ss).push (i.machine.reg
      .rsp)).push i.rflags).push i.cs).push i.rip ∧
      m.reg .rsp = stack - 40 ∧ m.stack 5 = i.hardware ∧ (∀ r, r ≠ .rsp → m.reg r = i.machine.reg r) ∧
      m.seg = i.machine.seg ∧ ∀ x, 40 ≤ (x - (stack - 40)).toNat → m.mem x = i.machine.mem x := by
  refine ⟨_, rfl, ?_, ?_, fun r hr => ?_, rfl, fun x hx => ?_⟩
  · simp only [push_reg_rsp, set_reg_self]
    bv_omega
  · rw [push_stack _ _ (by decide), push_stack _ _ (by decide), push_stack _ _ (by decide),
      push_stack _ _ (by decide),
      push_stack _ _ (by decide)]
    rfl
  · rw [push_reg _ _ hr, push_reg _ _ hr, push_reg _ _ hr, push_reg _ _ hr, push_reg _ _ hr, set_reg _ _ hr]
  · simp only [Machine.push, set_reg_self, Function.update_self]
    rw [store_outside _ (by bv_omega), store_outside _ (by bv_omega), store_outside _ (by bv_omega),
      store_outside _ (by bv_omega), store_outside _ (by bv_omega)]
    rfl

/-- The machine at the first instruction of the code of a path. -/
structure AtEntry (i : Interrupted) (p : Path) (stack : Word) (m : Machine) : Prop where
  hardware : p.hardware m = stack - 40
  words : m.mem.words (stack - 40) 5 = i.hardware
  reg : ∀ r, r ≠ .rsp → m.reg r = i.machine.reg r
  seg : m.seg = i.machine.seg
  mem : ∀ x, 48 ≤ (x - (stack - 48)).toNat → m.mem x = i.machine.mem x

theorem deliver_spec (ignoreInt : Word) (address : Path → Word) (hTss : SharedStack tss stack)
    (hv : v ∈ vectors) (errcode : Word) (i : Interrupted) :
    (deliver (bootIdt ignoreInt address) tss v.nr errcode i).1 = address v.path ∧
      AtEntry i v.path stack (deliver (bootIdt ignoreInt address) tss v.nr errcode i).2 := by
  have hGate := bootIdt_vector ignoreInt address hv
  obtain ⟨m, hm, hRsp, hStack, hReg, hSeg, hMem⟩ := pushed_hardware i stack
  obtain ⟨-, hHardware⟩ := pushesError_vector hv
  obtain ⟨n, hn⟩ : ∃ n : Machine, n = if pushesError v.nr then m.push errcode else m := ⟨_, rfl⟩
  have hDeliver : deliver (bootIdt ignoreInt address) tss v.nr errcode i =
      (address v.path, if (gateOf v.attr v.ist (address v.path)).type = 0xE then { n with interrupts :=
        false } else n) := by
    unfold deliver
    rw [hGate]
    dsimp only
    rw [show (gateOf v.attr v.ist (address v.path)).ist = v.ist.setWidth 3 from rfl, istStack_vector hTss hv]
    dsimp only
    rw [hTss.aligned, ← hm, ← hn]
    rfl
  have hEntry : AtEntry i v.path stack n := by
    cases hCode : pushesError v.nr with
    | false =>
      rw [hCode] at hn hHardware
      have hSame : n = m := hn
      rw [hSame]
      refine ⟨(hHardware m).trans hRsp, ?_, hReg, hSeg, fun x hx => hMem x (by bv_omega)⟩
      unfold Machine.stack at hStack
      rwa [hRsp] at hStack
    | true =>
      rw [hCode] at hn hHardware
      have hSame : n = m.push errcode := hn
      rw [hSame]
      refine ⟨?_, ?_, fun r hr => (push_reg _ _ hr).trans (hReg r hr), hSeg, fun x hx => ?_⟩
      · refine (hHardware _).trans ?_
        rw [if_pos rfl, push_reg_rsp, hRsp]
        bv_omega
      · unfold Machine.stack at hStack
        rw [hRsp] at hStack
        rw [← hStack]
        refine words_store ?_ ?_
        · rw [hRsp]
          bv_omega
        · rw [hRsp]
          bv_omega
      · refine (store_outside _ ?_).trans (hMem x (by bv_omega))
        rw [hRsp]
        bv_omega
  rw [hDeliver]
  refine ⟨rfl, ?_⟩
  dsimp only
  split
  · exact ⟨(hHardware _).trans ((hHardware n).symm.trans hEntry.hardware), hEntry.words, hEntry.reg, hEntry.seg,
      hEntry.mem⟩
  · exact hEntry

theorem saved_congr {m m' : Machine} (hReg : ∀ r, r ≠ .rsp → m.reg r = m'.reg r) (hSeg : m.seg = m'.seg) :
    m.saved = m'.saved := by
  have hRegs : savedRegs.reverse.map m.reg = savedRegs.reverse.map m'.reg := by
    apply List.map_congr_left
    intro r hr
    apply hReg
    rintro rfl
    exact absurd hr (by decide)
  unfold Machine.saved
  rw [hRegs, hSeg, hReg .rax (by decide)]

/-- What is on the shared stack when the handler of a path is called. -/
structure Handled (env : Env) (p : Path) (stack : Word) (i : Interrupted) (c : Call) : Prop where
  target : ∀ x ∈ p.handler, c.target = env.address x ∧ c.before.reg .rdi = stack - 192
  frame : ∃ func errcode, c.before.mem.words (stack - 192) 24 = i.machine.saved ++ func :: errcode :: i.hardware
  mem : ∀ x, 200 ≤ (x - (stack - 200)).toNat → c.before.mem x = i.machine.mem x

/-- How a path ends: with the registers and the processor's words of whoever's frame one of its functions comes
back to, if the functions behind that keep the frame. -/
structure Ends (stack : Word) (i : Interrupted) (c : Call) (calls : List Call) (e : Machine) : Prop where
  restored : (∀ d ∈ c :: calls, d.Keeps) →
    (∀ r, r ≠ .rsp → e.reg r = i.machine.reg r) ∧ e.seg = i.machine.seg ∧ e.stack 5 = i.hardware
  still : (∀ d ∈ c :: calls, d.Keeps) → e.mem.words (stack - 192) 24 = c.before.mem.words (stack - 192) 24
  returns : ∀ (j : Interrupted) (func errcode : Word) (before rest : List Call) (d : Call),
    c :: calls = before ++ d :: rest → d.after.reg .rsp = stack - 192 →
    d.after.mem.words (stack - 192) 24 = j.machine.saved ++ func :: errcode :: j.hardware →
    (∀ b ∈ rest, b.Keeps) →
    (∀ r, r ≠ .rsp → e.reg r = j.machine.reg r) ∧ e.seg = j.machine.seg ∧ e.stack 5 = j.hardware

theorem restoresAfter_path (env : Env) {p : Path} (hp : p ≠ .systemCall) : RestoresAfter env p.code := by
  have hIntr := restoresAfter_retFromIntr env
  cases p with
  | irq nr => exact ⟨restores_retFromIntr env, hIntr⟩
  | exception x => cases x <;> exact ⟨restores_retFromIntr env, hIntr⟩
  | nmi => exact ⟨restores_restoreAll, trivial⟩
  | systemCall => exact absurd rfl hp

theorem deliver_handled (ignoreInt : Word) (address : Path → Word) (env : Env) (hTss : SharedStack tss stack)
    (hv : v ∈ vectors) (errcode : Word) (i : Interrupted) :
    ∃ c calls e, exec env v.path.code (deliver (bootIdt ignoreInt address) tss v.nr errcode i).2 =
      some (c :: calls, e) ∧
      Handled env v.path stack i c ∧ Ends stack i c calls e := by
  obtain ⟨-, hEntry⟩ := deliver_spec ignoreInt address hTss hv errcode i
  generalize (deliver (bootIdt ignoreInt address) tss v.nr errcode i).2 = m at hEntry
  obtain ⟨hPath, -⟩ := pushesError_vector hv
  obtain ⟨func, error, c, calls, e, hExec, hTarget, hServes⟩ := exec_served env m hPath
  obtain ⟨hTop, hMem⟩ := before_handler hPath hExec
  rw [hEntry.hardware] at hTop hMem
  have hFrame : c.before.reg .rsp + 8 = stack - 192 := by
    rw [hTop]
    bv_omega
  refine ⟨c, calls, e, hExec, ⟨fun x hx => ⟨hTarget x hx, hServes.argument.trans hFrame⟩,
    ⟨func, error, ?_⟩, fun x hx => ?_⟩, fun hKeeps => ?_, fun hKeeps => ?_,
    fun j f x before rest d hSplit hRsp hWords hKeeps => ?_⟩
  · have hWords := hServes.frame
    rw [hFrame, frame_words, hEntry.hardware, hEntry.words, saved_congr hEntry.reg hEntry.seg] at hWords
    exact hWords
  · rw [hMem x (by bv_omega)]
    exact hEntry.mem x (by bv_omega)
  · obtain ⟨hReg, hSeg, -, hStack, -⟩ := hServes.restored hKeeps
    refine ⟨fun r hr => (hReg r hr).trans (hEntry.reg r hr), hSeg.trans hEntry.seg, ?_⟩
    rw [hStack, hEntry.hardware, hEntry.words]
  · obtain ⟨-, -, -, -, hStill⟩ := hServes.restored hKeeps
    rwa [hFrame] at hStill
  · rw [hSplit] at hExec
    obtain ⟨k, hRestores, hRest⟩ := (restoresAfter_path env hPath).resume hExec
    obtain ⟨rest', e', hExec', hRestored⟩ := hRestores d.after
    obtain ⟨rfl, rfl⟩ := Prod.mk.inj (Option.some.inj (hRest.symm.trans hExec'))
    have hStack : d.after.stack 24 = j.machine.saved ++ f :: x :: j.hardware := by
      unfold Machine.stack
      rw [hRsp, hWords]
    have hEnd := hRestored j.machine f x j.hardware hKeeps hStack
    exact ⟨hEnd.reg, hEnd.seg, hEnd.stack⟩

end

/-! ## Over every run of the tasks -/

section
variable {link : Link} {env env' : Env} {s s' : System} {stack : Word}

/-- `init_tss[0]` and the segment that is in use have the shared stack. -/
def Shared (s : Cpu) (stack : Word) : Prop := SharedStack s.initTss stack ∧ SharedStack s.tss64Table stack

theorem kernelThread_tss (link : Link) (flags regs tsk fn arg : Word) (s : Cpu) :
    (kernelThread link flags regs tsk fn arg s).initTss = s.initTss ∧
      (kernelThread link flags regs tsk fn arg s).tss64Table = s.tss64Table := by
  unfold kernelThread doFork
  dsimp only
  split
  · exact ⟨rfl, rfl⟩
  · exact ⟨rfl, rfl⟩

theorem arrive_tss {s u : Cpu} (h : arrive link env s = some u) : u.initTss = s.initTss ∧
    u.tss64Table = s.tss64Table := by
  unfold arrive at h
  split at h
  · obtain rfl := Option.some.inj h
    exact ⟨rfl, rfl⟩
  · split at h
    · obtain rfl := Option.some.inj h
      exact ⟨rfl, rfl⟩
    · exact absurd h.symm (Option.some_ne_none _)

/-- A switch changes `rsp0` only. -/
theorem switchTo_shared {body : Machine → Machine} {next : Word} {s u : Cpu}
    (h : switchTo link env body next s = some u)
    (hShared : Shared s stack) : Shared u stack := by
  obtain ⟨hInit, hTable⟩ := arrive_tss h
  obtain ⟨m, -, hAway⟩ := switchAway_spec link env body next s
  have hInitAway := congrArg Cpu.initTss hAway
  have hTableAway := congrArg Cpu.tss64Table hAway
  obtain ⟨⟨hIst1, hIst2, hAligned⟩, -⟩ := hShared
  unfold Shared
  rw [hInit, hTable, hInitAway, hTableAway]
  exact ⟨⟨hIst1, hIst2, hAligned⟩, ⟨hIst1, hIst2, hAligned⟩⟩

theorem step_shared (h : System.Step link env s s') (hShared : Shared s.cpu stack) : Shared s'.cpu stack := by
  obtain ⟨l, h⟩ := h
  cases h with
  | own cpu hOwn =>
    obtain ⟨hInit, hTable, -⟩ := hOwn.tss
    unfold Shared
    rw [hInit, hTable]
    exact hShared
  | kernelThread flags regs tsk fn arg =>
    obtain ⟨hInit, hTable⟩ := kernelThread_tss link flags regs tsk fn arg s.cpu
    unfold Shared
    dsimp only
    rw [hInit, hTable]
    exact hShared
  | switchTo body next cpu hNext hBody hRun => exact switchTo_shared hRun hShared

theorem run_shared (h : Relation.ReflTransGen (System.Step link env) s s') (hShared : Shared s.cpu stack) :
    Shared s'.cpu stack := by
  induction h with
  | refl => exact hShared
  | tail _ hStep ih => exact step_shared hStep ih

/-- What is on top of the stack is what `RESTORE_ALL` restores. -/
theorem exec_restoreAll {m saved : Machine} {func errcode : Word} {hardware : List Word}
    (hStack : m.stack 24 = saved.saved ++ func :: errcode :: hardware) :
    ∃ e, exec env' restoreAll m = some ([], e) ∧ (∀ r, r ≠ .rsp → e.reg r = saved.reg r) ∧ e.seg = saved.seg ∧
      e.stack 5 = hardware := by
  obtain ⟨calls, e, hExec, hRestored⟩ := (restores_restoreAll : Restores env' restoreAll) m
  have hNone : calls = [] := by
    have hRun : exec env' restoreAll m = some ([], run env' [.addImm 0x10 .rsp] (run env' restoreFrame m)) := by
      rw [← run_append]
      rfl
    exact (Prod.mk.inj (Option.some.inj (hExec.symm.trans hRun))).1
  subst hNone
  have hEnd := hRestored saved func errcode hardware (fun c hc => absurd hc List.not_mem_nil) hStack
  exact ⟨e, hExec, hEnd.reg, hEnd.seg, hEnd.stack⟩

/-- Every interrupt and exception, in every state that the tasks reach: its gate leads to its own stub, its own
handler is called over the registers of the interrupted code and the processor's words, nothing but the shared
stack is written, and if the functions called keep the frame, `iretq` finds all as it was. -/
theorem interrupt_delivered (env' : Env) (ignoreInt : Word) (address : Path → Word) (hShared : Shared s.cpu stack)
    (hRun : Relation.ReflTransGen (System.Step link env) s s') {v : GateEntry} (hv : v ∈ vectors) (errcode : Word)
    (i : Interrupted) :
    (deliver (bootIdt ignoreInt address) s'.cpu.tss64Table v.nr errcode i).1 = address v.path ∧
      ∃ c calls e, exec env' v.path.code
        (deliver (bootIdt ignoreInt address) s'.cpu.tss64Table v.nr errcode i).2 =
          some (c :: calls, e) ∧
        Handled env' v.path stack i c ∧
        ((∀ d ∈ c :: calls, d.Keeps) →
          (∀ r, r ≠ .rsp → e.reg r = i.machine.reg r) ∧ e.seg = i.machine.seg ∧ e.stack 5 = i.hardware) := by
  obtain ⟨-, hTss⟩ := run_shared hRun hShared
  obtain ⟨c, calls, e, hExec, hHandled, hEnds⟩ := deliver_handled ignoreInt address env' hTss hv errcode i
  exact ⟨(deliver_spec ignoreInt address hTss hv errcode i).1, c, calls, e, hExec, hHandled, hEnds.restored⟩

end

/-- The first task, with the stack for interrupts below 0x7c00. -/
def sharedSystem : System :=
  { firstSystem with
    cpu := { firstSystem.cpu with
      initTss := setTss64 0x10000 0 0 0x7c00 0x7c00 0x7c00 0x7c00 0x7c00 0x7c00 0x7c00
      tss64Table := setTss64 0x10000 0 0 0x7c00 0x7c00 0x7c00 0x7c00 0x7c00 0x7c00 0x7c00 } }

theorem sharedSystem_shared : Shared sharedSystem.cpu 0x7c00 := ⟨⟨rfl, rfl, rfl⟩, ⟨rfl, rfl, rfl⟩⟩

theorem sharedSystem_refines : Refines firstLink sharedSystem firstTasks := by
  have h := firstSystem_refines
  refine ⟨h.nowTask, h.running, h.room, h.rsp0, ⟨rfl, rfl, rfl⟩, h.tasks, h.aligned, fun t c hNe hView => ?_,
    fun t fn arg hView => ?_⟩
  · exact absurd (firstTasks_only hView) hNe
  · obtain rfl := firstTasks_only hView
    exact View.noConfusion (Option.some.inj hView)

/-- The first task makes a thread and goes to it. -/
theorem sharedSystem_run : ∃ s', Relation.ReflTransGen (System.Step firstLink firstEnv) sharedSystem s' ∧
    s'.cpu.nowTask = 0x18000 := by
  have hThread : System.Does firstLink firstEnv sharedSystem _ _ :=
    .kernelThread sharedSystem 1 0xa000 0x18000 7 5 (by decide) (by decide) (by decide) (by decide)
  obtain ⟨b, -, hRefines⟩ := step_refines (by decide) sharedSystem_refines hThread
  obtain ⟨u, hSwitch⟩ := switchTo_succeeds firstEnv (by decide) hRefines (keeps_id _ 0x18000) List.mem_cons_self
  obtain ⟨b', -, hRefines', hCurrent, -⟩ :=
    refines_switch (by decide) hRefines List.mem_cons_self (keeps_id _ _) hSwitch
  exact ⟨_, .tail (.single ⟨_, hThread⟩) ⟨_, .switchTo _ id 0x18000 u List.mem_cons_self (keeps_id _ _) hSwitch⟩,
    hRefines'.nowTask.trans hCurrent⟩

/-- The vector of the timer. -/
theorem timer_vector : (⟨32, .irq 0x20, 0x8E, 2⟩ : GateEntry) ∈ vectors :=
  List.mem_append_right _ (List.mem_map.mpr ⟨0, by decide, rfl⟩)

def firstInterrupted : Interrupted := ⟨firstSystem.cpu.machine, 0x1000, 8, 0x200, 0x10⟩

/-- The timer, while the thread runs. -/
theorem interrupt_delivered_thread : ∃ s' : System, s'.cpu.nowTask = 0x18000 ∧
    (deliver (bootIdt 1 fun _ => 2) s'.cpu.tss64Table 32 0 firstInterrupted).1 = 2 := by
  obtain ⟨s', hRun, hNow⟩ := sharedSystem_run
  exact ⟨s', hNow,
    (interrupt_delivered firstEnv 1 (fun _ => 2) sharedSystem_shared hRun timer_vector 0 firstInterrupted).1⟩

section
variable {link : Link} {env env' : Env} {s s' : System} {stack : Word}

/-- Two interrupts, with any run of the tasks in between, have their frames at one address: code that comes back
to the first frame behind the second interrupt, a task that was preempted in its handler or a handler that was
itself interrupted, gets the registers of the code that was interrupted last, and returns there. So ends the whole
first path: whichever of its functions the second interrupt came in, where that one comes back it has the frame
that the second path has left. -/
theorem frame_of_last_interrupt (env' : Env) (ignoreInt : Word) (address : Path → Word)
    (hShared : Shared s.cpu stack)
    (hRun : Relation.ReflTransGen (System.Step link env) s s') {v₁ v₂ : GateEntry} (hv₁ : v₁ ∈ vectors)
    (hv₂ : v₂ ∈ vectors)
    (errcode₁ errcode₂ : Word) (i₁ i₂ : Interrupted) :
    ∃ c₁ calls₁ e₁ c₂ calls₂ e₂,
      exec env' v₁.path.code (deliver (bootIdt ignoreInt address) s.cpu.tss64Table v₁.nr errcode₁ i₁).2 =
        some (c₁ :: calls₁, e₁) ∧
      exec env' v₂.path.code (deliver (bootIdt ignoreInt address) s'.cpu.tss64Table v₂.nr errcode₂ i₂).2 =
        some (c₂ :: calls₂, e₂) ∧
      (∃ rest, c₁.before.mem.words (stack - 192) 24 = i₁.machine.saved ++ rest) ∧
      (∃ rest, c₂.before.mem.words (stack - 192) 24 = i₂.machine.saved ++ rest) ∧
      (∀ m : Machine, m.reg .rsp = stack - 192 →
        m.mem.words (stack - 192) 24 = c₂.before.mem.words (stack - 192) 24 →
        ∃ e, exec env' restoreAll m = some ([], e) ∧ (∀ r, r ≠ .rsp → e.reg r = i₂.machine.reg r) ∧
          e.seg = i₂.machine.seg ∧ e.stack 5 = i₂.hardware) ∧
      ((∀ d ∈ c₂ :: calls₂, d.Keeps) →
        e₂.mem.words (stack - 192) 24 = c₂.before.mem.words (stack - 192) 24 ∧
        ∀ before d rest, c₁ :: calls₁ = before ++ d :: rest → d.after.reg .rsp = stack - 192 →
          d.after.mem.words (stack - 192) 24 = e₂.mem.words (stack - 192) 24 → (∀ b ∈ rest, b.Keeps) →
          (∀ r, r ≠ .rsp → e₁.reg r = i₂.machine.reg r) ∧ e₁.seg = i₂.machine.seg ∧
            e₁.stack 5 = i₂.hardware) := by
  have hTss₁ := hShared.2
  obtain ⟨-, hTss₂⟩ := run_shared hRun hShared
  obtain ⟨c₁, calls₁, e₁, hExec₁, ⟨-, ⟨f₁, r₁, hFrame₁⟩, -⟩, hEnds₁⟩ :=
    deliver_handled ignoreInt address env' hTss₁ hv₁ errcode₁ i₁
  obtain ⟨c₂, calls₂, e₂, hExec₂, ⟨-, ⟨f₂, r₂, hFrame₂⟩, -⟩, hEnds₂⟩ :=
    deliver_handled ignoreInt address env' hTss₂ hv₂ errcode₂ i₂
  refine ⟨c₁, calls₁, e₁, c₂, calls₂, e₂, hExec₁, hExec₂, ⟨_, hFrame₁⟩, ⟨_, hFrame₂⟩, fun m hRsp hWords => ?_,
    fun hKeeps₂ => ⟨hEnds₂.still hKeeps₂, fun before d rest hSplit hRsp hWords hKeeps₁ => ?_⟩⟩
  · have hStack : m.stack 24 = i₂.machine.saved ++ f₂ :: r₂ :: i₂.hardware := by
      unfold Machine.stack
      rw [hRsp, hWords, hFrame₂]
    exact exec_restoreAll hStack
  · have hLast : d.after.mem.words (stack - 192) 24 = i₂.machine.saved ++ f₂ :: r₂ :: i₂.hardware := by
      rw [hWords, hEnds₂.still hKeeps₂, hFrame₂]
    exact hEnds₁.returns i₂ f₂ r₂ before rest d hSplit hRsp hLast hKeeps₁

end

def secondInterrupted : Interrupted :=
  ⟨{ firstSystem.cpu.machine with reg := fun _ => 7 }, 0x2000, 8, 0x200, 0x10⟩

/-- `do_nmi` comes back with the memory `after`; every other function changes nothing. -/
def nmiEnv (after : Memory) : Env :=
  ⟨fun x => if x = .doNmi then 1 else 0,
    fun target m => { m.set .rsp (m.reg .rsp + 8) with mem := if target = 1 then after else m.mem }, 0⟩

theorem nmiEnv_rsp (after : Memory) (target : Word) (m : Machine) :
    ((nmiEnv after).function target m).reg .rsp = m.reg .rsp + 8 := set_reg_self m (m.reg .rsp + 8) .rsp

/-- Without a call it does not matter what the functions do. -/
theorem run_nmiEnv (after after' : Memory) (is : List Instr) (m : Machine) :
    run (nmiEnv after) is m = run (nmiEnv after') is m := by
  induction is generalizing m with
  | nil => rfl
  | cons i is ih =>
    have hStep : step (nmiEnv after) m i = step (nmiEnv after') m i := by cases i <;> rfl
    rw [run, run, hStep, ih]

/-- The calls of functions by their names; not of `do_nmi`. -/
def NoNmi : Code → Prop
  | .block _ next => NoNmi next
  | .call (.sym x) next | .tailCall x _ next => x ≠ .doNmi ∧ NoNmi next
  | .call _ _ => False
  | .jnz taken next => NoNmi taken ∧ NoNmi next
  | .iretq | .sysexit => True

theorem keeps_noNmi {after : Memory} {k : Code} (h : NoNmi k) {m e : Machine} {calls : List Call}
    (hExec : exec (nmiEnv after) k m = some (calls, e)) : ∀ d ∈ calls, d.Keeps := by
  have hSame : ∀ {x : Symbol} (u : Machine), x ≠ .doNmi → Call.Keeps ⟨(nmiEnv after).address x, u,
      (nmiEnv after).function ((nmiEnv after).address x) u⟩ := by
    intro x u hNe
    have hAddress : (nmiEnv after).address x = 0 := if_neg hNe
    rw [hAddress]
    exact ⟨nmiEnv_rsp after 0 u, rfl⟩
  induction k generalizing m e calls with
  | block is next ih => exact ih h hExec
  | call target next ih =>
    cases target with
    | sym x =>
      obtain ⟨rest, rfl, hRest⟩ := exec_behind hExec
      exact List.forall_mem_cons.mpr ⟨hSame _ h.1, ih h.2 hRest⟩
    | reg r => exact absurd h id
    | table b i => exact absurd h id
  | tailCall x ret next ih =>
    rw [exec] at hExec
    dsimp only at hExec
    split at hExec
    · obtain ⟨rest, rfl, hRest⟩ := exec_behind hExec
      exact List.forall_mem_cons.mpr ⟨hSame m h.1, ih h.2 hRest⟩
    · exact absurd hExec.symm (Option.some_ne_none _)
  | jnz taken next ihTaken ihNext =>
    rw [exec] at hExec
    split at hExec
    · exact ihNext h.2 hExec
    · exact ihTaken h.1 hExec
  | iretq | sysexit =>
    obtain ⟨rfl, -⟩ := Prod.mk.inj (Option.some.inj hExec)
    exact fun d hd => absurd hd List.not_mem_nil

theorem exec_nmiEnv {after : Memory} {m e : Machine} {c : Call} {calls : List Call}
    (h : exec (nmiEnv after) Path.nmi.code m = some (c :: calls, e)) :
    calls = [] ∧ c.after.reg .rsp = c.before.reg .rsp + 8 ∧ c.after.mem = after := by
  have hCode : exec (nmiEnv after) Path.nmi.code m =
      exec (nmiEnv after) (.block (prologue .nmi) (.call (.sym .doNmi) restoreAll)) m := rfl
  rw [hCode, exec] at h
  generalize run (nmiEnv after) (prologue .nmi) m = u at h
  rw [exec] at h
  obtain ⟨rest, hCalls, hRest⟩ := exec_behind h
  obtain ⟨rfl, rfl⟩ := List.cons.inj hCalls
  exact ⟨(Prod.mk.inj (Option.some.inj hRest)).1.symm, nmiEnv_rsp after _ _, rfl⟩

/-- An NMI of the first task, and the keyboard while the thread runs: where `do_nmi` comes back with the frame
that the keyboard has left, its path ends with the registers of the thread and its address. -/
theorem frame_of_last_interrupt_thread : ∃ (after : Memory) (c : Call) (e : Machine),
    exec (nmiEnv after) Path.nmi.code
      (deliver (bootIdt 1 fun _ => 2) sharedSystem.cpu.tss64Table 2 0 firstInterrupted).2 = some ([c], e) ∧
    e.reg .rbx = 7 ∧ e.stack 5 = [0x2000, 8, 0x200, 7, 0x10] := by
  obtain ⟨s', hRun, -⟩ := sharedSystem_run
  have hNmi : (⟨2, .nmi, 0x8E, 1⟩ : GateEntry) ∈ vectors := by simp [vectors]
  have hKeyboard : (⟨33, .irq 0x21, 0x8E, 2⟩ : GateEntry) ∈ vectors :=
    List.mem_append_right _ (List.mem_map.mpr ⟨1, by decide, rfl⟩)
  obtain ⟨after, hAfter⟩ : ∃ after, after = (run (nmiEnv fun _ => 0) (prologue (.irq 0x21))
    (deliver (bootIdt 1 fun _ => 2) s'.cpu.tss64Table 33 0 secondInterrupted).2).mem := ⟨_, rfl⟩
  obtain ⟨c₁, calls₁, e₁, c₂, calls₂, e₂, hExec₁, hExec₂, -, -, -, hLast⟩ :=
    frame_of_last_interrupt (nmiEnv after) 1 (fun _ => 2) sharedSystem_shared hRun hNmi hKeyboard 0 0
      firstInterrupted secondInterrupted
  have hNamed : NoNmi (irqInterrupt 0x21) := by
    refine ⟨by decide, ⟨by decide, ?_⟩, ?_⟩
    all_goals exact ⟨trivial, ⟨by decide, trivial⟩, trivial⟩
  obtain ⟨hStill, hReturns⟩ := hLast (keeps_noNmi hNamed hExec₂)
  obtain ⟨rfl, hRsp, hMem⟩ := exec_nmiEnv hExec₁
  have hKeyboardCode : exec (nmiEnv after)
    (.block (prologue (.irq 0x21)) (.tailCall .doIRQ .retFromIntr retFromIntr))
      (deliver (bootIdt 1 fun _ => 2) s'.cpu.tss64Table 33 0 secondInterrupted).2 = some (c₂ :: calls₂, e₂) :=
        hExec₂
  have hBefore : c₂.before.mem = after := by
    rw [before_tailCall hKeyboardCode, run_nmiEnv after fun _ => 0, ← hAfter]
  have hTop : c₁.before.reg .rsp + 8 = 0x7c00 - 192 := by
    obtain ⟨-, hEntry⟩ := deliver_spec 1 (fun _ => 2) sharedSystem_shared.2 hNmi 0 firstInterrupted
    have hHardware := hEntry.hardware
    dsimp only at hExec₁ hHardware
    rw [(before_handler (p := .nmi) nofun hExec₁).1, hHardware]
    decide
  obtain ⟨hReg, -, hStack⟩ := hReturns [] c₁ [] rfl (hRsp.trans hTop) (by rw [hMem, hStill, hBefore])
    fun b hb => absurd hb List.not_mem_nil
  exact ⟨after, c₁, e₁, hExec₁, hReg .rbx (by decide), hStack⟩

end KalinoteOS.Idt
