import KalinoteOS.Entry.Restore

/-! # Every entry path

The interrupt stubs, the exceptions with and without an error code, `nmi` and `system_call`: one
frame for the handler, and the registers back at the end.
-/
namespace KalinoteOS.Entry
open Lib Memory
set_option autoImplicit false

section
variable {env : Env}

/-! ## Behind the pushes -/

theorem tail_irq (env : Env) (a : Machine) (nr : Word) :
    let u := run env [.movImm 0x10 .rdx, .movToSeg .rdx .ds, .movToSeg .rdx .es, .mov .rsp .rdi,
      .lea .retFromIntr .rax, .push .rax, .movImm nr .rsi] a
    u.reg .rsp + 8 = a.reg .rsp ∧ u.reg .rdi = a.reg .rsp ∧
      u.mem = a.mem.store (a.reg .rsp - 8) (env.address .retFromIntr) := by
  intro u
  have hRsp : u.reg .rsp = a.reg .rsp - 8 := by simp [u, run, step, set_reg]
  refine ⟨?_, ?_, ?_⟩
  · rw [hRsp]
    bv_omega
  · simp [u, run, step, set_reg, set_reg_self, push_reg]
  · simp [u, run, step, set_reg, set_reg_self, Machine.push]

theorem tail_errorCode (env : Env) (a : Machine) :
    let u := run env [.cld, .load offsetERRCODE .rsp .rsi, .load offsetFUNC .rsp .rdx,
      .movImm 0x10 .rdi, .movToSeg .rdi .ds, .movToSeg .rdi .es, .mov .rsp .rdi] a
    u.mem = a.mem ∧ u.reg .rsp = a.reg .rsp ∧ u.reg .rdi = u.reg .rsp ∧
      u.reg .rdx = a.mem.load (a.reg .rsp + offsetFUNC) := by
  intro u
  refine ⟨rfl, ?_, ?_, ?_⟩
  · simp [u, run, step, set_reg]
  · simp [u, run, step, set_reg, set_reg_self]
  · simp [u, run, step, set_reg, set_reg_self]

theorem tail_nmi (env : Env) (a : Machine) :
    let u := run env [.movImm 0x10 .rdx, .movToSeg .rdx .ds, .movToSeg .rdx .es, .movImm 0 .rsi,
      .mov .rsp .rdi] a
    u.mem = a.mem ∧ u.reg .rsp = a.reg .rsp ∧ u.reg .rdi = u.reg .rsp := by
  intro u
  refine ⟨rfl, ?_, ?_⟩
  · simp [u, run, step, set_reg]
  · simp [u, run, step, set_reg, set_reg_self]

theorem tail_systemCall (env : Env) (a : Machine) :
    let u := run env [.movImm 0x10 .rax, .movToSeg .rax .ds, .movToSeg .rax .es,
      .load offsetRAX .rsp .rax, .lea .systemCallTable .rbx] a
    u.mem = a.mem ∧ u.reg .rsp = a.reg .rsp ∧ u.reg .rbx = env.address .systemCallTable ∧
      u.reg .rax = a.mem.load (a.reg .rsp + offsetRAX) := by
  intro u
  refine ⟨rfl, ?_, ?_, ?_⟩
  · simp [u, run, step, set_reg]
  · simp [u, run, step, set_reg_self]
  · simp [u, run, step, set_reg, set_reg_self]

theorem exec_irq (env : Env) (m : Machine) (nr : Word) :
    ∃ c calls t, exec env (irqInterrupt nr) m = some (c :: calls, t) ∧ c.target = env.address .doIRQ ∧
      Serves m (m.reg .rax) 0 (m.reg .rsp) c calls t := by
  have hFramed := (prepared_irq env m).save env
  have hExec : ∀ r, exec env (.tailCall .doIRQ .retFromIntr retFromIntr)
      (run env [.movImm 0x10 .rdx, .movToSeg .rdx .ds, .movToSeg .rdx .es, .mov .rsp .rdi,
        .lea .retFromIntr .rax, .push .rax, .movImm nr .rsi]
        (run env saveFrame (run env [.pushImm 0, .cld, .push .rax] m))) = r →
      exec env (irqInterrupt nr) m = r := by
    intro r h
    rw [← h]
    simp only [← run_append]
    rfl
  generalize run env saveFrame (run env [.pushImm 0, .cld, .push .rax] m) = a at hFramed hExec
  obtain ⟨hBack, hRdi, hMem⟩ := tail_irq env a nr
  generalize run env [.movImm 0x10 .rdx, .movToSeg .rdx .ds, .movToSeg .rdx .es, .mov .rsp .rdi,
    .lea .retFromIntr .rax, .push .rax, .movImm nr .rsi] a = u at hExec hBack hRdi hMem
  have hTop : a.reg .rsp - 8 = u.reg .rsp := by
    rw [← hBack]
    bv_omega
  have hFrame : u.mem.words (a.reg .rsp) 24 = a.stack 24 := by
    rw [hMem]
    exact words_store (by bv_omega) (by bv_omega)
  have hReturn : u.mem.load (u.reg .rsp) = env.address .retFromIntr := by
    rw [hMem, hTop, load_store]
  let c : Call := ⟨env.address .doIRQ, u, env.function (env.address .doIRQ) u⟩
  obtain ⟨calls, t, hRest, hRestored⟩ := restores_retFromIntr env c.after
  have hSame : c.before.reg .rsp + 8 = a.reg .rsp := hBack
  refine ⟨c, calls, t, hExec _ ?_, rfl, ?_, ?_, ?_, fun saved func errcode words hRsp hWords hKeeps => ?_⟩
  · rw [exec]
    dsimp only
    rw [if_pos hReturn, hRest]
    rfl
  · exact (congrArg (u.mem.words · 24) hBack).trans (hFrame.trans hFramed.stack)
  · exact hRdi.trans hBack.symm
  · rw [hSame, hFramed.rsp]
  · refine hRestored saved func errcode words hKeeps ?_
    unfold Machine.stack
    rw [hRsp]
    exact hWords

/-- `error_code`, behind a stub that put the handler onto the stack. -/
theorem exec_errorCode {m p : Machine} {x : Symbol} {errcode hardware : Word}
    (h : Prepared m p (env.address x) errcode hardware) :
    ∃ c calls t, exec env errorCode p = some (c :: calls, t) ∧ c.target = env.address x ∧
      Serves m (env.address x) errcode hardware c calls t := by
  have hFramed := h.save env
  have hExec : exec env errorCode p = exec env (.call (.reg .rdx) retFromIntr)
      (run env [.cld, .load offsetERRCODE .rsp .rsi, .load offsetFUNC .rsp .rdx,
        .movImm 0x10 .rdi, .movToSeg .rdi .ds, .movToSeg .rdi .es, .mov .rsp .rdi]
        (run env saveFrame p)) := by
    simp only [← run_append]
    rfl
  rw [hExec]
  generalize run env saveFrame p = a at hFramed
  obtain ⟨hMem, hRsp, hRdi, hRdx⟩ := tail_errorCode env a
  obtain ⟨calls, t, hCall, hServes⟩ :=
    (hFramed.atCall hMem hRsp).call hRdi (restores_retFromIntr env) (.reg .rdx)
  refine ⟨_, calls, t, hCall, ?_, hServes⟩
  exact hRdx.trans (hFramed.load (i := 17) (by decide) rfl)

theorem exec_entryNoCode (env : Env) (m : Machine) (e : Exception) :
    ∃ c calls t, exec env (entryNoCode e) m = some (c :: calls, t) ∧
      c.target = env.address (.handler e) ∧
      Serves m (env.address (.handler e)) 0 (m.reg .rsp) c calls t :=
  exec_errorCode (prepared_noCode env m (.handler e))

theorem exec_entryWithCode (env : Env) (m : Machine) (e : Exception) :
    ∃ c calls t, exec env (entryWithCode e) m = some (c :: calls, t) ∧
      c.target = env.address (.handler e) ∧
      Serves m (env.address (.handler e)) (m.mem.load (m.reg .rsp)) (m.reg .rsp + 8) c calls t :=
  exec_errorCode (prepared_withCode env m (.handler e))

theorem exec_nmi (env : Env) (m : Machine) :
    ∃ c calls t, exec env nmi m = some (c :: calls, t) ∧ c.target = env.address .doNmi ∧
      Serves m (m.reg .rax) (m.reg .rax) (m.reg .rsp) c calls t := by
  have hFramed := (prepared_nmi env m).save env
  have hExec : exec env nmi m = exec env (.call (.sym .doNmi) restoreAll)
      (run env [.movImm 0x10 .rdx, .movToSeg .rdx .ds, .movToSeg .rdx .es, .movImm 0 .rsi,
        .mov .rsp .rdi] (run env saveFrame (run env [.push .rax, .cld, .push .rax] m))) := by
    simp only [← run_append]
    rfl
  rw [hExec]
  generalize run env saveFrame (run env [.push .rax, .cld, .push .rax] m) = a at hFramed
  obtain ⟨hMem, hRsp, hRdi⟩ := tail_nmi env a
  obtain ⟨calls, t, hCall, hServes⟩ :=
    (hFramed.atCall hMem hRsp).call hRdi restores_restoreAll (.sym .doNmi)
  exact ⟨_, calls, t, hCall, rfl, hServes⟩

theorem saved_set_rax (m : Machine) (v : Word) (rest : List Word) :
    (m.saved ++ rest).set 16 v = (m.set .rax v).saved ++ rest := by
  have hRegs : savedRegs.reverse.map (m.set .rax v).reg = savedRegs.reverse.map m.reg := by
    apply List.map_congr_left
    intro r hr
    apply set_reg
    rintro rfl
    exact absurd hr (by decide)
  unfold Machine.saved
  rw [hRegs, set_reg_self, set_seg]
  rfl

theorem exec_systemCall (env : Env) (m : Machine) :
    ∃ c t, exec env systemCall m = some ([c], t) ∧
      c.before.mem.words (c.before.reg .rsp + 8) 24 =
        (frame m (m.mem.load (m.reg .rsp - 0x38)) (m.mem.load (m.reg .rsp - 0x30))
          (m.reg .rsp - 0x28)).words ∧
      (c.Keeps → t.seg = m.seg ∧ t.reg .rsp = m.reg .rsp ∧ t.reg .rax = c.after.reg .rax ∧
        t.reg .rdx = m.reg .r10 ∧ t.reg .r10 = m.reg .rdx ∧ t.reg .rcx = m.reg .r11 ∧
        t.reg .r11 = m.reg .rcx ∧
        ∀ r, r ∉ [Reg.rsp, .rax, .rdx, .r10, .rcx, .r11] → t.reg r = m.reg r) := by
  have hFramed := (prepared_systemCall env m).save env
  have hExec : exec env systemCall m = exec env (.call (.table .rbx .rax)
      (.block [.store .rax offsetRAX .rsp] retSystemCall))
      (run env [.movImm 0x10 .rax, .movToSeg .rax .ds, .movToSeg .rax .es,
        .load offsetRAX .rsp .rax, .lea .systemCallTable .rbx]
        (run env saveFrame (run env [.sti, .subImm 0x38 .rsp, .cld] m))) := by
    simp only [← run_append]
    rfl
  rw [hExec]
  generalize run env saveFrame (run env [.sti, .subImm 0x38 .rsp, .cld] m) = a at hFramed
  obtain ⟨hMem, hRsp, -, -⟩ := tail_systemCall env a
  have hAt := hFramed.atCall hMem hRsp
  generalize run env [.movImm 0x10 .rax, .movToSeg .rax .ds, .movToSeg .rax .es,
    .load offsetRAX .rsp .rax, .lea .systemCallTable .rbx] a = u at hAt
  let c := env.call u (Target.address env u (.table .rbx .rax))
  let b : Machine :=
    { c.after with mem := c.after.mem.store (c.after.reg .rsp + offsetRAX) (c.after.reg .rax) }
  obtain ⟨t, hRet, hSpec⟩ := exec_retSystemCall env b
  have hBack : c.before.reg .rsp + 8 = u.reg .rsp := by
    refine (congrArg (· + 8) (push_reg_rsp u env.returnAddress)).trans ?_
    bv_omega
  refine ⟨c, t, ?_, ?_, fun hKeeps => ?_⟩
  · have hEnd : exec env (.block [.store .rax offsetRAX .rsp] retSystemCall) c.after =
        exec env retSystemCall b := rfl
    rw [exec, hEnd, hRet]
    rfl
  · rw [hBack, ← hAt.stack]
    exact words_store (by bv_omega) (by bv_omega)
  · obtain ⟨hRspAfter, hStack⟩ := call_keeps hKeeps
    have hFrame : b.stack 24 = (m.set .rax (c.after.reg .rax)).saved ++
        m.mem.load (m.reg .rsp - 0x38) :: m.mem.load (m.reg .rsp - 0x30) ::
          m.mem.words (m.reg .rsp - 0x28) 5 := by
      refine (words_store_at (k := 16) (n := 7) (by decide)).trans ?_
      rw [← saved_set_rax, ← frame_words, ← hAt.stack, ← hStack]
      rfl
    obtain ⟨hSeg, hRspEnd, hRdx, hR10, hRcx, hR11, hOthers⟩ := hSpec _ _ hFrame
    refine ⟨hSeg, ?_, ?_, hRdx, hR10, hRcx, hR11, fun r hr => ?_⟩
    · have hTop : b.reg .rsp = u.reg .rsp := hRspAfter
      have hHardware := hAt.rsp
      rw [hRspEnd, hTop]
      bv_omega
    · exact (hOthers .rax (by decide)).trans (set_reg_self _ _ _)
    · rw [List.mem_cons, List.mem_cons, not_or, not_or] at hr
      refine (hOthers r ?_).trans (set_reg _ _ hr.2.1)
      rw [List.mem_cons, not_or]
      exact ⟨hr.1, hr.2.2⟩

/-! ## One statement for all -/

inductive Path where
  | irq (nr : Word)
  | exception (e : Exception)
  | nmi
  | systemCall

end

def Path.code : Path → Code
  | .irq nr => irqInterrupt nr
  | .exception e => exceptionEntry e
  | .nmi => KalinoteOS.Entry.nmi
  | .systemCall => KalinoteOS.Entry.systemCall

/-- The C function of the path; for `system_call` it comes from the table. -/
def Path.handler : Path → Option Symbol
  | .irq _ => some .doIRQ
  | .exception e => some (.handler e)
  | .nmi => some .doNmi
  | .systemCall => none

/-- Where the `iretq` of the path finds what the processor pushed. -/
def Path.hardware (m : Machine) : Path → Word
  | .exception e => if e.pushesCode then m.reg .rsp + 8 else m.reg .rsp
  | .systemCall => m.reg .rsp - 0x28
  | _ => m.reg .rsp

def Path.frame (env : Env) (m : Machine) : Path → PtRegs
  | .exception e =>
    Entry.frame m (env.address (.handler e)) (if e.pushesCode then m.mem.load (m.reg .rsp) else 0)
      (Path.hardware m (.exception e))
  | .irq nr => Entry.frame m (m.reg .rax) 0 (Path.hardware m (.irq nr))
  | .nmi => Entry.frame m (m.reg .rax) (m.reg .rax) (Path.hardware m .nmi)
  | .systemCall =>
    Entry.frame m (m.mem.load (m.reg .rsp - 0x38)) (m.mem.load (m.reg .rsp - 0x30))
      (Path.hardware m .systemCall)

/-- The registers at the end of the path, with `result` the handler's `%rax`. -/
def Path.registers (m : Machine) (result : Word) : Path → Reg → Word
  | .systemCall, .rax => result
  | .systemCall, .rdx => m.reg .r10
  | .systemCall, .r10 => m.reg .rdx
  | .systemCall, .rcx => m.reg .r11
  | .systemCall, .r11 => m.reg .rcx
  | .exception e, .rsp => Path.hardware m (.exception e)
  | _, r => m.reg r

section
variable {env : Env} {m : Machine}

theorem exec_exceptionEntry (env : Env) (m : Machine) (e : Exception) :
    ∃ c calls t, exec env (exceptionEntry e) m = some (c :: calls, t) ∧
      c.target = env.address (.handler e) ∧
      Serves m (env.address (.handler e)) (if e.pushesCode then m.mem.load (m.reg .rsp) else 0)
        (Path.hardware m (.exception e)) c calls t := by
  cases e
  case doubleFault | invalidTSS | segmentNotPresent | stackSegmentFault | generalProtection |
    pageFault | alignmentCheck => exact exec_entryWithCode env m _
  all_goals exact exec_entryNoCode env m _

theorem Serves.registers {func errcode hardware : Word} {c : Call} {calls : List Call} {t : Machine}
    (h : Serves m func errcode hardware c calls t) (hKeeps : ∀ d ∈ c :: calls, d.Keeps) {f : Reg → Word}
    (hRsp : f .rsp = hardware) (hOthers : ∀ r, r ≠ .rsp → f r = m.reg r) :
    t.reg = f ∧ t.seg = m.seg ∧ t.stack 5 = m.mem.words hardware 5 := by
  obtain ⟨hReg, hSeg, hRspEnd, hStack, -⟩ := h.restored hKeeps
  refine ⟨?_, hSeg, hStack⟩
  funext r
  by_cases hEq : r = .rsp
  · rw [hEq, hRspEnd, hRsp]
  · rw [hReg r hEq, hOthers r hEq]

theorem Serves.path {func errcode hardware : Word} {c : Call} {calls : List Call} {t : Machine}
    (h : Serves m func errcode hardware c calls t) {k : Code} (hExec : exec env k m = some (c :: calls, t))
    {x : Symbol} (hTarget : c.target = env.address x) {f : Word → Reg → Word}
    (hRsp : ∀ v, f v .rsp = hardware) (hOthers : ∀ v r, r ≠ .rsp → f v r = m.reg r) (p : Path) :
    ∃ c calls t, exec env k m = some (c :: calls, t) ∧
      (∀ y ∈ some x, c.target = env.address y ∧ c.before.reg .rdi = c.before.reg .rsp + 8) ∧
      c.before.mem.words (c.before.reg .rsp + 8) 24 = (Entry.frame m func errcode hardware).words ∧
      ((∀ d ∈ c :: calls, d.Keeps) →
        t.reg = f (c.after.reg .rax) ∧ t.seg = m.seg ∧
        (p ≠ .systemCall → t.stack 5 = m.mem.words hardware 5)) := by
  refine ⟨c, calls, t, hExec, ?_, h.frame, fun hKeeps => ?_⟩
  · rintro y ⟨rfl⟩
    exact ⟨hTarget, h.argument⟩
  · obtain ⟨hReg, hSeg, hStack⟩ := h.registers hKeeps (hRsp _) (hOthers _)
    exact ⟨hReg, hSeg, fun _ => hStack⟩

/-- Whatever the path, the handler runs over a `struct pt_regs` of the interrupted code, and if the
functions called return with the frame unchanged, every register and segment comes back. -/
theorem entry_path_restores (env : Env) (p : Path) (m : Machine) :
    ∃ c calls t, exec env p.code m = some (c :: calls, t) ∧
      (∀ x ∈ p.handler, c.target = env.address x ∧ c.before.reg .rdi = c.before.reg .rsp + 8) ∧
      c.before.mem.words (c.before.reg .rsp + 8) 24 = (p.frame env m).words ∧
      ((∀ d ∈ c :: calls, d.Keeps) →
        t.reg = p.registers m (c.after.reg .rax) ∧ t.seg = m.seg ∧
        (p ≠ .systemCall → t.stack 5 = m.mem.words (p.hardware m) 5)) := by
  cases p with
  | irq nr =>
    obtain ⟨c, calls, t, hExec, hTarget, hServes⟩ := exec_irq env m nr
    exact hServes.path hExec hTarget (fun _ => rfl) (fun _ r _ => by cases r <;> rfl) (.irq nr)
  | exception e =>
    obtain ⟨c, calls, t, hExec, hTarget, hServes⟩ := exec_exceptionEntry env m e
    have hOthers : ∀ v r, r ≠ .rsp → (Path.exception e).registers m v r = m.reg r := by
      intro v r hr
      cases r
      case rsp => exact absurd rfl hr
      all_goals rfl
    exact hServes.path hExec hTarget (fun _ => rfl) hOthers (.exception e)
  | nmi =>
    obtain ⟨c, calls, t, hExec, hTarget, hServes⟩ := exec_nmi env m
    exact hServes.path hExec hTarget (fun _ => rfl) (fun _ r _ => by cases r <;> rfl) .nmi
  | systemCall =>
    obtain ⟨c, t, hExec, hFrame, hRestored⟩ := exec_systemCall env m
    refine ⟨c, [], t, hExec, by rintro x ⟨⟩, hFrame, fun hKeeps => ?_⟩
    obtain ⟨hSeg, hRsp, hRax, hRdx, hR10, hRcx, hR11, hOthers⟩ := hRestored (hKeeps c List.mem_cons_self)
    refine ⟨?_, hSeg, fun h => absurd rfl h⟩
    funext r
    cases r
    case rsp => exact hRsp
    case rax => exact hRax
    case rdx => exact hRdx
    case r10 => exact hR10
    case rcx => exact hRcx
    case r11 => exact hR11
    all_goals exact hOthers _ (by decide)

end

end KalinoteOS.Entry
