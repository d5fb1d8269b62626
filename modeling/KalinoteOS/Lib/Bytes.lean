import Mathlib.Logic.Function.Basic
import Mathlib.Algebra.Group.Nat.Defs

/-! # Little-endian numbers in a byte memory -/
namespace KalinoteOS.Lib
set_option autoImplicit false

abbrev Bytes := Nat → BitVec 8

namespace Bytes

/-- The number in the `n` bytes from `a` on. -/
def load (m : Bytes) (a : Nat) : Nat → Nat
  | 0 => 0
  | n + 1 => (m a).toNat + 256 * load m (a + 1) n

/-- Write the low `n` bytes of `v` from `a` on. -/
def store (m : Bytes) (a : Nat) : Nat → Nat → Bytes
  | 0, _ => m
  | n + 1, v => Function.update (store m (a + 1) n (v / 256)) a (BitVec.ofNat 8 v)

theorem store_other (m : Bytes) {a n x : Nat} (v : Nat) (h : x < a ∨ a + n ≤ x) :
    store m a n v x = m x := by
  induction n generalizing a v with
  | zero => rfl
  | succ n ih =>
    have hNe : x ≠ a := by omega
    rw [store, Function.update_of_ne hNe]
    apply ih
    omega

theorem load_congr {m m' : Bytes} {a n : Nat} (h : ∀ x, a ≤ x → x < a + n → m x = m' x) :
    load m a n = load m' a n := by
  induction n generalizing a with
  | zero => rfl
  | succ n ih =>
    rw [load, load, h a (Nat.le_refl a) (by omega)]
    congr 2
    apply ih
    intro x hLow hHigh
    exact h x (by omega) (by omega)

theorem load_store_other (m : Bytes) {a b n k : Nat} (v : Nat) (h : b + k ≤ a ∨ a + n ≤ b) :
    load (store m a n v) b k = load m b k := by
  apply load_congr
  intro x hLow hHigh
  apply store_other
  omega

theorem load_store (m : Bytes) (a n v : Nat) : load (store m a n v) a n = v % 256 ^ n := by
  induction n generalizing a v with
  | zero => rw [Nat.pow_zero, Nat.mod_one, load]
  | succ n ih =>
    have hTail : load (store m a (n + 1) v) (a + 1) n = load (store m (a + 1) n (v / 256)) (a + 1) n := by
      apply load_congr
      intro x hLow _
      exact Function.update_of_ne (by omega) _ _
    have hHead : (store m a (n + 1) v a).toNat = v % 256 := by
      rw [store, Function.update_self, BitVec.toNat_ofNat]
    rw [load, hHead, hTail, ih, Nat.pow_succ, Nat.mul_comm (256 ^ n) 256, Nat.mod_mul]

/-- The same bytes at two places. -/
theorem load_window {m m' : Bytes} {a b n : Nat} (h : ∀ x < n, m (a + x) = m' (b + x)) :
    load m a n = load m' b n := by
  induction n generalizing a b with
  | zero => rfl
  | succ n ih =>
    have hHead : m a = m' b := h 0 (Nat.succ_pos n)
    rw [load, load, hHead]
    congr 2
    apply ih
    intro x hx
    have hShift : ∀ c : Nat, c + 1 + x = c + (x + 1) := fun c => by omega
    rw [hShift, hShift]
    exact h (x + 1) (by omega)

theorem load_lt (m : Bytes) (a n : Nat) : load m a n < 256 ^ n := by
  induction n generalizing a with
  | zero => exact Nat.one_pos
  | succ n ih =>
    have hHead := (m a).isLt
    have hTail := ih (a + 1)
    rw [load, Nat.pow_succ]
    omega

/-- Writing what is there changes nothing. -/
theorem store_load (m : Bytes) (a n : Nat) : store m a n (load m a n) = m := by
  induction n generalizing a with
  | zero => rfl
  | succ n ih =>
    have hByte : BitVec.ofNat 8 (load m a (n + 1)) = m a := by
      apply BitVec.eq_of_toNat_eq
      rw [BitVec.toNat_ofNat, load, Nat.add_mul_mod_self_left]
      exact Nat.mod_eq_of_lt (m a).isLt
    have hRest : load m a (n + 1) / 256 = load m (a + 1) n := by
      have hHead := (m a).isLt
      rw [load]
      omega
    rw [store, hByte, hRest, ih, Function.update_eq_self]

end Bytes

/-! ## Two fields of a word -/

section
variable {hi q k w : Nat}

theorem testBit_field (k w i : Nat) :
    Nat.testBit ((2 ^ w - 1) <<< k) i = (decide (k ≤ i) && decide (i - k < w)) := by
  rw [Nat.testBit_shiftLeft, Nat.testBit_two_pow_sub_one]

/-- The upper `w` bits of the one number, with the lower `k` of the other. -/
theorem upper_or_lower (hHi : hi < 2 ^ (k + w)) (hq : q < 2 ^ k) :
    hi &&& (2 ^ w - 1) <<< k ||| q = hi / 2 ^ k * 2 ^ k + q := by
  have hHigh : hi &&& (2 ^ w - 1) <<< k = (hi >>> k) <<< k := by
    apply Nat.eq_of_testBit_eq
    intro i
    rw [Nat.testBit_and, testBit_field, Nat.testBit_shiftLeft, Nat.testBit_shiftRight]
    by_cases hLow : k ≤ i
    · have hIndex : k + (i - k) = i := by omega
      rw [hIndex]
      by_cases hTop : i - k < w
      · simp [hLow, hTop]
      · have hPow : 2 ^ (k + w) ≤ 2 ^ i := Nat.pow_le_pow_right (by decide) (by omega)
        have hZero : hi.testBit i = false := Nat.testBit_lt_two_pow (Nat.lt_of_lt_of_le hHi hPow)
        simp [hZero]
    · simp [hLow]
  rw [hHigh, ← Nat.shiftLeft_add_eq_or_of_lt hq, Nat.shiftLeft_eq, Nat.shiftRight_eq_div_pow]

end

end KalinoteOS.Lib
