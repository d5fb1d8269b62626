import KalinoteOS.Entry.Paths
import KalinoteOS.Lib.Region

/-! # Code that only goes down the stack

The prologues of the entry paths store nothing but what they push: below the stack pointer they start with, and
for a known number of bytes.
-/
namespace KalinoteOS.Entry
open Lib Memory
set_option autoImplicit false

/-- By how much an instruction lowers the stack pointer, where `pushed` bytes have been pushed before it; `none`
for one that raises it, or that stores elsewhere than into what has been pushed. -/
def descentOf (pushed : Nat) : Instr → Option Nat
  | .pushImm _ | .push _ => some 8
  | .cld | .sti | .movToSeg _ _ => some 0
  | .movImm _ dst | .mov _ dst | .movFromSeg _ dst | .load _ _ dst | .lea _ dst | .xor _ dst =>
    if dst = .rsp then none else some 0
  | .subImm v dst => some (if dst = .rsp then v.toNat else 0)
  | .xchgTop r => if r = .rsp ∨ pushed < 8 then none else some 0
  | _ => none

def descent (pushed : Nat) : List Instr → Option Nat
  | [] => some 0
  | i :: is => (descentOf pushed i).bind fun k => (descent (pushed + k) is).map (k + ·)

section
variable (env : Env) (m : Machine) {n w : Nat}

theorem step_descent {i : Instr} (h : descentOf w i = some n) (hSmall : n + w < 2 ^ 64) :
    (step env m i).reg .rsp = m.reg .rsp - BitVec.ofNat 64 n ∧
      ∀ x, n + w ≤ (x - (m.reg .rsp - BitVec.ofNat 64 n)).toNat → (step env m i).mem x = m.mem x := by
  have hPush : ∀ v x, 8 + w ≤ (x - (m.reg .rsp - BitVec.ofNat 64 8)).toNat → (m.push v).mem x = m.mem x :=
    fun v x hx => store_outside _ (Nat.le_trans (Nat.le_add_right 8 w) hx)
  have hZero : m.reg .rsp - BitVec.ofNat 64 0 = m.reg .rsp := BitVec.sub_zero _
  have hKeep : ∀ (dst : Reg) (v : Word), dst ≠ .rsp → (m.set dst v).reg .rsp = m.reg .rsp := by
    intro dst v hNe
    exact set_reg _ _ hNe.symm
  cases i with
  | pushImm v =>
    obtain rfl := Option.some.inj h
    exact ⟨push_reg_rsp m v, hPush v⟩
  | push r =>
    obtain rfl := Option.some.inj h
    exact ⟨push_reg_rsp m _, hPush _⟩
  | cld | sti | movToSeg src s =>
    obtain rfl := Option.some.inj h
    exact ⟨hZero.symm, fun _ _ => rfl⟩
  | movImm v dst | mov src dst | movFromSeg s dst | load o b dst | lea x dst | xor src dst =>
    obtain ⟨hNe, hSome⟩ := (Option.ite_none_left_eq_some).mp h
    obtain rfl := Option.some.inj hSome
    exact ⟨(hKeep dst _ hNe).trans hZero.symm, fun _ _ => rfl⟩
  | subImm v dst =>
    obtain rfl := Option.some.inj h
    refine ⟨?_, fun _ _ => rfl⟩
    by_cases hEq : dst = .rsp
    · subst hEq
      rw [if_pos rfl, BitVec.ofNat_toNat, BitVec.setWidth_eq]
      exact set_reg_self m (m.reg .rsp - v) .rsp
    · rw [if_neg hEq, hZero]
      exact hKeep dst _ hEq
  | xchgTop r =>
    obtain ⟨hNot, hSome⟩ := (Option.ite_none_left_eq_some).mp h
    obtain rfl := Option.some.inj hSome
    rw [not_or, Nat.not_lt] at hNot
    refine ⟨(hKeep r _ hNot.1).trans hZero.symm, fun x hx => store_outside _ ?_⟩
    rw [hZero] at hx
    omega
  | _ => exact absurd h.symm (Option.some_ne_none n)

theorem run_descent {is : List Instr} (h : descent w is = some n) (hSmall : n + w < 2 ^ 64) :
    (run env is m).reg .rsp = m.reg .rsp - BitVec.ofNat 64 n ∧
      ∀ x, n + w ≤ (x - (m.reg .rsp - BitVec.ofNat 64 n)).toNat → (run env is m).mem x = m.mem x := by
  induction is generalizing m n w with
  | nil =>
    obtain rfl := Option.some.inj h
    exact ⟨(BitVec.sub_zero _).symm, fun _ _ => rfl⟩
  | cons i is ih =>
    obtain ⟨k, hk, hRest⟩ := Option.bind_eq_some_iff.mp h
    obtain ⟨l, hl, rfl⟩ := Option.map_eq_some_iff.mp hRest
    obtain ⟨hRsp, hMem⟩ := step_descent env m hk (by omega)
    obtain ⟨hRspEnd, hMemEnd⟩ := ih (step env m i) hl (by omega)
    have hTwo : m.reg .rsp - BitVec.ofNat 64 k - BitVec.ofNat 64 l = m.reg .rsp - BitVec.ofNat 64 (k + l) := by
      rw [BitVec.ofNat_add]
      abel
    rw [hRsp, hTwo] at hRspEnd hMemEnd
    refine ⟨hRspEnd, fun x hx => ?_⟩
    have hOne : (x - (m.reg .rsp - BitVec.ofNat 64 k)).toNat =
        (x - (m.reg .rsp - BitVec.ofNat 64 (k + l))).toNat - l := by
      have hSwap : x - (m.reg .rsp - BitVec.ofNat 64 k) =
          x - (m.reg .rsp - BitVec.ofNat 64 (k + l)) - BitVec.ofNat 64 l := by
        rw [← hTwo]
        abel
      rw [hSwap, BitVec.toNat_sub, BitVec.toNat_ofNat]
      omega
    exact (hMemEnd x (by omega)).trans (hMem x (by omega))

end
end KalinoteOS.Entry
