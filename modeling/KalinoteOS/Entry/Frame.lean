import KalinoteOS.Entry.Stubs

/-! # What the entry paths save they restore

Seventeen words go onto the stack on every path, in one order; the pops are the pushes backwards.
-/
namespace KalinoteOS.Entry
open Lib Memory
set_option autoImplicit false

/-! ## Single instructions -/

section
variable (m : Machine) (v : Word)

@[simp] theorem push_reg_rsp : (m.push v).reg .rsp = m.reg .rsp - 8 := by
  simp [Machine.push]

theorem push_reg {r : Reg} (h : r ≠ .rsp) : (m.push v).reg r = m.reg r := by
  simp [Machine.push, h]

@[simp] theorem push_seg : (m.push v).seg = m.seg := rfl

theorem push_stack {n : Nat} (hRoom : 8 * (n + 1) ≤ 2 ^ 64) :
    (m.push v).stack (n + 1) = v :: m.stack n := by
  unfold Machine.stack
  rw [push_reg_rsp]
  exact words_push hRoom

theorem set_reg_self (r : Reg) : (m.set r v).reg r = v := by simp [Machine.set]

theorem set_reg {r s : Reg} (h : r ≠ s) : (m.set s v).reg r = m.reg r := by
  simp [Machine.set, h]

@[simp] theorem set_seg (r : Reg) : (m.set r v).seg = m.seg := rfl

@[simp] theorem set_mem (r : Reg) : (m.set r v).mem = m.mem := rfl

@[simp] theorem setSeg_reg (s : Seg) (w : BitVec 16) : (m.setSeg s w).reg = m.reg := rfl

@[simp] theorem setSeg_mem (s : Seg) (w : BitVec 16) : (m.setSeg s w).mem = m.mem := rfl

theorem setSeg_stack (s : Seg) (w : BitVec 16) (n : Nat) : (m.setSeg s w).stack n = m.stack n := by
  unfold Machine.stack
  rw [setSeg_mem, setSeg_reg]

theorem set_stack {r : Reg} (h : r ≠ .rsp) (n : Nat) : (m.set r v).stack n = m.stack n := by
  unfold Machine.stack
  rw [set_reg _ _ h.symm]
  rfl

theorem pop_spec {r : Reg} (h : r ≠ .rsp) {n : Nat} {ws : List Word} (hTop : m.stack (n + 1) = v :: ws) :
    (m.pop r).reg r = v ∧ (∀ s, s ≠ r → s ≠ .rsp → (m.pop r).reg s = m.reg s) ∧
      (m.pop r).reg .rsp = m.reg .rsp + 8 ∧ (m.pop r).stack n = ws := by
  obtain ⟨hLoad, hRest⟩ := List.cons.inj hTop
  have hRsp : (m.pop r).reg .rsp = m.reg .rsp + 8 := by
    unfold Machine.pop
    rw [set_reg _ _ h.symm]
    simp
  refine ⟨?_, ?_, hRsp, ?_⟩
  · unfold Machine.pop
    rw [set_reg_self]
    exact hLoad
  · intro s hs hsRsp
    unfold Machine.pop
    rw [set_reg _ _ hs]
    simp [hsRsp]
  · unfold Machine.stack
    rw [hRsp]
    exact hRest

/-- A segment comes back through `%rax`. -/
theorem pop_segment (env : Env) (s : Seg) {n : Nat} {ws : List Word}
    (hTop : m.stack (n + 1) = v :: ws) :
    (∀ r, r ≠ .rax → r ≠ .rsp → (run env [.pop .rax, .movToSeg .rax s] m).reg r = m.reg r) ∧
      (run env [.pop .rax, .movToSeg .rax s] m).reg .rsp = m.reg .rsp + 8 ∧
      (run env [.pop .rax, .movToSeg .rax s] m).stack n = ws ∧
      (run env [.pop .rax, .movToSeg .rax s] m).seg s = v.setWidth 16 ∧
      ∀ s', s' ≠ s → (run env [.pop .rax, .movToSeg .rax s] m).seg s' = m.seg s' := by
  have hRax : Reg.rax ≠ .rsp := by decide
  obtain ⟨hTopReg, hOthers, hRsp, hStack⟩ := pop_spec m v hRax hTop
  have hRun : run env [.pop .rax, .movToSeg .rax s] m =
      (m.pop .rax).setSeg s (((m.pop .rax).reg .rax).setWidth 16) := rfl
  rw [hRun, setSeg_reg, setSeg_stack, hTopReg]
  refine ⟨hOthers, hRsp, hStack, ?_, fun s' hs => ?_⟩
  · exact Function.update_self _ _ _
  · exact Function.update_of_ne hs _ _

end

theorem run_append (env : Env) (is js : List Instr) (m : Machine) :
    run env (is ++ js) m = run env js (run env is m) := by
  induction is generalizing m with
  | nil => rfl
  | cons i is ih => exact ih _

/-! ## The seventeen words -/

/-- The general registers, first pushed first. -/
def savedRegs : List Reg :=
  [.rbp, .rdi, .rsi, .rdx, .rcx, .rbx, .r8, .r9, .r10, .r11, .r12, .r13, .r14, .r15]

/-- The part that all five sequences of pushes have in common. -/
def saveFrame : List Instr :=
  [.push .rax, .movFromSeg .es .rax, .push .rax, .movFromSeg .ds .rax, .push .rax, .xor .rax .rax] ++
    savedRegs.map .push

/-- The part that both sequences of pops have in common. -/
def restoreFrame : List Instr :=
  savedRegs.reverse.map .pop ++
    [.pop .rax, .movToSeg .rax .ds, .pop .rax, .movToSeg .rax .es, .pop .rax]

/-- What `saveFrame` leaves on the stack, from the top on. -/
def Machine.saved (m : Machine) : List Word :=
  (savedRegs.reverse.map m.reg) ++
    [(m.seg .ds).setWidth 64, (m.seg .es).setWidth 64, m.reg .rax]

theorem run_pushes (env : Env) (rs : List Reg) (hRsp : .rsp ∉ rs) (m : Machine) {n : Nat}
    (hRoom : 8 * (rs.length + n) ≤ 2 ^ 64) :
    (run env (rs.map .push) m).stack (rs.length + n) = rs.reverse.map m.reg ++ m.stack n ∧
      (∀ r, r ≠ .rsp → (run env (rs.map .push) m).reg r = m.reg r) ∧
      (run env (rs.map .push) m).reg .rsp = m.reg .rsp - BitVec.ofNat 64 (8 * rs.length) ∧
      (run env (rs.map .push) m).seg = m.seg := by
  induction rs generalizing m n with
  | nil =>
    refine ⟨by rw [List.length_nil, Nat.zero_add]; rfl, fun _ _ => rfl, ?_, rfl⟩
    exact (BitVec.sub_zero _).symm
  | cons r rs ih =>
    rw [List.mem_cons, not_or] at hRsp
    rw [List.length_cons] at hRoom
    obtain ⟨hStack, hReg, hTop, hSeg⟩ := ih hRsp.2 (m.push (m.reg r)) (n := n + 1) (by omega)
    have hLength : rs.length + 1 + n = rs.length + (n + 1) := by omega
    have hSame : rs.reverse.map (m.push (m.reg r)).reg = rs.reverse.map m.reg := by
      apply List.map_congr_left
      intro s hs
      apply push_reg
      rintro rfl
      exact hRsp.2 (List.mem_reverse.mp hs)
    refine ⟨?_, ?_, ?_, hSeg⟩
    · rw [List.length_cons, hLength]
      refine hStack.trans ?_
      rw [hSame, push_stack _ _ (by omega), List.reverse_cons, List.map_append, List.append_assoc]
      rfl
    · intro s hs
      exact (hReg s hs).trans (push_reg _ _ hs)
    · refine hTop.trans ?_
      rw [push_reg_rsp, List.length_cons]
      bv_omega

theorem run_pops (env : Env) (rs : List Reg) (hRsp : .rsp ∉ rs) (hNodup : rs.Nodup) (m : Machine)
    {n : Nat} {f : Reg → Word} {ws : List Word} (h : m.stack (rs.length + n) = rs.map f ++ ws) :
    (∀ r ∈ rs, (run env (rs.map .pop) m).reg r = f r) ∧
      (∀ r, r ∉ rs → r ≠ .rsp → (run env (rs.map .pop) m).reg r = m.reg r) ∧
      (run env (rs.map .pop) m).reg .rsp = m.reg .rsp + BitVec.ofNat 64 (8 * rs.length) ∧
      (run env (rs.map .pop) m).seg = m.seg ∧ (run env (rs.map .pop) m).stack n = ws := by
  induction rs generalizing m with
  | nil =>
    rw [List.length_nil, Nat.zero_add] at h
    exact ⟨fun _ hr => absurd hr List.not_mem_nil, fun _ _ _ => rfl, (BitVec.add_zero _).symm, rfl, h⟩
  | cons r rs ih =>
    rw [List.mem_cons, not_or] at hRsp
    obtain ⟨hNotIn, hNodup⟩ := List.nodup_cons.mp hNodup
    rw [List.length_cons, Nat.add_right_comm] at h
    obtain ⟨hR, hOthers, hTop, hRest⟩ := pop_spec m (f r) (Ne.symm hRsp.1) h
    obtain ⟨hIn, hOut, hRspEnd, hSeg, hStack⟩ := ih hRsp.2 hNodup (m.pop r) hRest
    refine ⟨?_, ?_, ?_, hSeg, hStack⟩
    · intro s hs
      obtain rfl | hs := List.mem_cons.mp hs
      · exact (hOut s hNotIn (Ne.symm hRsp.1)).trans hR
      · exact hIn s hs
    · intro s hs hsRsp
      rw [List.mem_cons, not_or] at hs
      exact (hOut s hs.2 hsRsp).trans (hOthers s hs.1 hsRsp)
    · refine hRspEnd.trans ?_
      rw [hTop, List.length_cons]
      bv_omega

/-- The pushes of `%rax` and of the segments, which go through `%rax`. -/
theorem save_segments (env : Env) (m : Machine) {n : Nat} (hRoom : 8 * (3 + n) ≤ 2 ^ 64) :
    let t := run env [.push .rax, .movFromSeg .es .rax, .push .rax, .movFromSeg .ds .rax, .push .rax,
      .xor .rax .rax] m
    t.stack (3 + n) =
        [(m.seg .ds).setWidth 64, (m.seg .es).setWidth 64, m.reg .rax] ++ m.stack n ∧
      (∀ r, r ≠ .rsp → r ≠ .rax → t.reg r = m.reg r) ∧ t.reg .rsp = m.reg .rsp - 24 ∧
      t.seg = m.seg := by
  have hRax : Reg.rax ≠ .rsp := by decide
  have hLength : 3 + n = n + 1 + 1 + 1 := by omega
  intro t
  let a := (m.push (m.reg .rax)).set .rax ((m.seg .es).setWidth 64)
  let b := (a.push (a.reg .rax)).set .rax ((m.seg .ds).setWidth 64)
  have hA : a.stack (n + 1) = m.reg .rax :: m.stack n := by
    rw [set_stack _ _ hRax, push_stack _ _ (by omega)]
  have hB : b.stack (n + 1 + 1) = (m.seg .es).setWidth 64 :: m.reg .rax :: m.stack n := by
    rw [set_stack _ _ hRax, push_stack _ _ (by omega), hA, set_reg_self]
  let c := b.push (b.reg .rax)
  have hC : c.stack (n + 1 + 1 + 1) =
      (m.seg .ds).setWidth 64 :: (m.seg .es).setWidth 64 :: m.reg .rax :: m.stack n := by
    rw [push_stack _ _ (by omega), hB, set_reg_self]
  have hT : t = { c.set .rax (c.reg .rax ^^^ c.reg .rax) with
    zf := c.reg .rax ^^^ c.reg .rax == 0 } := rfl
  refine ⟨?_, ?_, ?_, rfl⟩
  · rw [hLength, hT]
    exact (set_stack c (c.reg .rax ^^^ c.reg .rax) hRax _).trans hC
  · intro r hRsp hNe
    rw [hT]
    simp [a, b, c, set_reg, push_reg, hRsp, hNe]
  · rw [hT]
    simp [a, b, c, set_reg, hRax.symm]
    bv_omega

theorem saveFrame_spec (env : Env) (m : Machine) {n : Nat} (hRoom : 8 * (17 + n) ≤ 2 ^ 64) :
    (run env saveFrame m).stack (17 + n) = m.saved ++ m.stack n ∧
      (∀ r, r ≠ .rsp → r ≠ .rax → (run env saveFrame m).reg r = m.reg r) ∧
      (run env saveFrame m).reg .rsp = m.reg .rsp - 136 ∧ (run env saveFrame m).seg = m.seg := by
  unfold saveFrame
  rw [run_append]
  obtain ⟨hStack, hReg, hRsp, hSeg⟩ := save_segments env m (n := n) (by omega)
  have hLength : 17 + n = savedRegs.length + (3 + n) := by
    rw [show savedRegs.length = 14 from rfl]
    omega
  obtain ⟨hStack', hReg', hRsp', hSeg'⟩ := run_pushes env savedRegs (by decide)
    (run env [.push .rax, .movFromSeg .es .rax, .push .rax, .movFromSeg .ds .rax, .push .rax,
      .xor .rax .rax] m) (n := 3 + n) (by omega)
  refine ⟨?_, ?_, ?_, hSeg'.trans hSeg⟩
  · have hSame : savedRegs.reverse.map (run env [.push .rax, .movFromSeg .es .rax, .push .rax,
        .movFromSeg .ds .rax, .push .rax, .xor .rax .rax] m).reg = savedRegs.reverse.map m.reg := by
      apply List.map_congr_left
      intro r hr
      apply hReg r
      · rintro rfl
        exact absurd hr (by decide)
      · rintro rfl
        exact absurd hr (by decide)
    rw [hLength, hStack', hStack, hSame]
    unfold Machine.saved
    rw [List.append_assoc]
  · intro r hNeRsp hNeRax
    exact (hReg' r hNeRsp).trans (hReg r hNeRsp hNeRax)
  · rw [hRsp', hRsp, show savedRegs.length = 14 from rfl]
    bv_omega

theorem restoreFrame_spec (env : Env) {m saved : Machine} {n : Nat} {ws : List Word}
    (h : m.stack (17 + n) = saved.saved ++ ws) :
    (∀ r, r ≠ .rsp → (run env restoreFrame m).reg r = saved.reg r) ∧
      (run env restoreFrame m).seg = saved.seg ∧
      (run env restoreFrame m).reg .rsp = m.reg .rsp + 136 ∧
      (run env restoreFrame m).stack n = ws := by
  have hRax : Reg.rax ≠ .rsp := by decide
  have hLength : 17 + n = savedRegs.reverse.length + (n + 1 + 1 + 1) := by
    rw [show savedRegs.reverse.length = 14 from rfl]
    omega
  unfold Machine.saved at h
  rw [hLength, List.append_assoc] at h
  obtain ⟨hIn, -, hRsp, -, hStack⟩ := run_pops env savedRegs.reverse (by decide) (by decide) m h
  unfold restoreFrame
  rw [run_append]
  have hSplit : [Instr.pop .rax, .movToSeg .rax .ds, .pop .rax, .movToSeg .rax .es, .pop .rax] =
      [.pop .rax, .movToSeg .rax .ds] ++ ([.pop .rax, .movToSeg .rax .es] ++ [.pop .rax]) := rfl
  rw [hSplit, run_append, run_append]
  generalize run env (savedRegs.reverse.map .pop) m = a at *
  obtain ⟨hRegDs, hRspDs, hStackDs, hDs, -⟩ := pop_segment a _ env .ds hStack
  generalize run env [.pop .rax, .movToSeg .rax .ds] a = b at *
  obtain ⟨hRegEs, hRspEs, hStackEs, hEs, hSegEs⟩ := pop_segment b _ env .es hStackDs
  generalize run env [.pop .rax, .movToSeg .rax .es] b = c at *
  obtain ⟨hLast, hRegEnd, hRspEnd, hStackEnd⟩ := pop_spec c _ hRax hStackEs
  have hEnd : run env [.pop .rax] c = c.pop .rax := rfl
  have hSeg : (c.pop .rax).seg = c.seg := rfl
  rw [hEnd]
  refine ⟨?_, ?_, ?_, hStackEnd⟩
  · intro r hr
    by_cases hEq : r = .rax
    · rw [hEq]
      exact hLast
    · rw [hRegEnd r hEq hr, hRegEs r hEq hr, hRegDs r hEq hr]
      apply hIn r
      revert hEq hr
      cases r <;> decide
  · rw [hSeg]
    funext s
    cases s with
    | ds =>
      rw [hSegEs .ds (by decide), hDs]
      simp
    | es =>
      rw [hEs]
      simp
  · rw [hRspEnd, hRspEs, hRspDs, hRsp, show savedRegs.reverse.length = 14 from rfl]
    bv_omega

end KalinoteOS.Entry
