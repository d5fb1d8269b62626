import KalinoteOS.Lib.WordStack
import Mathlib.Data.BitVec
import Mathlib.Tactic.Abel

/-! # `rep movs`

One round moves `width` bytes from `rsi` to `rdi`, upwards, and counts `rcx` down; the rounds go on
until it is 0. The machine keeps the addresses it has read from and written to.
-/
namespace KalinoteOS.Lib
set_option autoImplicit false

/-- The `n` addresses from `a` on. -/
def addresses (a : Word) (n : Nat) : List Word := (List.range n).map fun i => a + BitVec.ofNat 64 i

structure StringMachine where
  mem : Memory
  rsi : Word
  rdi : Word
  rcx : Word
  reads : List Word
  writes : List Word

namespace StringMachine

def movs (width : Nat) (s : StringMachine) : StringMachine where
  mem := fun a => if (a - s.rdi).toNat < width then s.mem (s.rsi + (a - s.rdi)) else s.mem a
  rsi := s.rsi + BitVec.ofNat 64 width
  rdi := s.rdi + BitVec.ofNat 64 width
  rcx := s.rcx - 1
  reads := s.reads ++ addresses s.rsi width
  writes := s.writes ++ addresses s.rdi width

/-- `n` rounds. -/
def rounds (width : Nat) : Nat → StringMachine → StringMachine
  | 0, s => s
  | n + 1, s => rounds width n (movs width s)

def repMovs (width : Nat) (s : StringMachine) : StringMachine := rounds width s.rcx.toNat s

end StringMachine

theorem addresses_add (a : Word) (m n : Nat) :
    addresses a (m + n) = addresses a m ++ addresses (a + BitVec.ofNat 64 m) n := by
  unfold addresses
  rw [List.range_add, List.map_append, List.map_map]
  congr 1
  apply List.map_congr_left
  intro i _
  rw [Function.comp_apply, BitVec.ofNat_add, BitVec.add_assoc]

namespace StringMachine

section
variable (width n : Nat) (s : StringMachine)

theorem rounds_rcx : (rounds width n s).rcx = s.rcx - BitVec.ofNat 64 n := by
  induction n generalizing s with
  | zero => simp [rounds]
  | succ n ih =>
    rw [rounds, ih]
    change s.rcx - 1 - BitVec.ofNat 64 n = _
    rw [Nat.add_comm, BitVec.ofNat_add, sub_add_eq_sub_sub]
    rfl

theorem rounds_rsi : (rounds width n s).rsi = s.rsi + BitVec.ofNat 64 (width * n) := by
  induction n generalizing s with
  | zero => simp [rounds]
  | succ n ih =>
    rw [rounds, ih]
    change s.rsi + BitVec.ofNat 64 width + _ = _
    rw [Nat.mul_succ, Nat.add_comm (width * n), BitVec.ofNat_add, BitVec.add_assoc]

theorem rounds_rdi : (rounds width n s).rdi = s.rdi + BitVec.ofNat 64 (width * n) := by
  induction n generalizing s with
  | zero => simp [rounds]
  | succ n ih =>
    rw [rounds, ih]
    change s.rdi + BitVec.ofNat 64 width + _ = _
    rw [Nat.mul_succ, Nat.add_comm (width * n), BitVec.ofNat_add, BitVec.add_assoc]

theorem rounds_reads : (rounds width n s).reads = s.reads ++ addresses s.rsi (width * n) := by
  induction n generalizing s with
  | zero => simp [rounds, addresses]
  | succ n ih =>
    rw [rounds, ih, Nat.mul_succ, Nat.add_comm (width * n), addresses_add, ← List.append_assoc]
    rfl

theorem rounds_writes : (rounds width n s).writes = s.writes ++ addresses s.rdi (width * n) := by
  induction n generalizing s with
  | zero => simp [rounds, addresses]
  | succ n ih =>
    rw [rounds, ih, Nat.mul_succ, Nat.add_comm (width * n), addresses_add, ← List.append_assoc]
    rfl

theorem repMovs_rcx : (repMovs width s).rcx = 0 := by
  unfold repMovs
  rw [rounds_rcx, BitVec.ofNat_toNat, BitVec.setWidth_eq]
  exact BitVec.sub_self _

end

/-- No address of the `n` from `a` on is one of those from `b` on. -/
def Apart (a b : Word) (n : Nat) : Prop :=
  ∀ i < n, ∀ j < n, a + BitVec.ofNat 64 i ≠ b + BitVec.ofNat 64 j

theorem Apart.skip {a b : Word} {k n : Nat} (h : Apart a b (k + n)) :
    Apart (a + BitVec.ofNat 64 k) (b + BitVec.ofNat 64 k) n := by
  intro i hi j hj hSame
  refine h (k + i) (by omega) (k + j) (by omega) ?_
  rw [BitVec.ofNat_add, BitVec.ofNat_add, ← BitVec.add_assoc, ← BitVec.add_assoc]
  exact hSame

/-- `m'` is `m` with the `n` bytes from `source` on copied to `dest`. -/
def Moved (m m' : Memory) (source dest : Word) (n : Nat) : Prop :=
  ∀ a, m' a = if (a - dest).toNat < n then m (source + (a - dest)) else m a

/-- Between ranges that do not overlap two moves in a row are one. -/
theorem Moved.append {m m₁ m₂ : Memory} {source dest : Word} {k n : Nat} (hFirst : Moved m m₁ source dest k)
    (hSecond : Moved m₁ m₂ (source + BitVec.ofNat 64 k) (dest + BitVec.ofNat 64 k) n)
    (hApart : Apart source dest (k + n)) (hSize : k + n < 2 ^ 64) : Moved m m₂ source dest (k + n) := by
  intro a
  have hNext : a - (dest + BitVec.ofNat 64 k) = a - dest - BitVec.ofNat 64 k := sub_add_eq_sub_sub a dest _
  rw [hSecond a, hNext]
  by_cases hLow : (a - dest).toNat < k
  · have hOffset : (a - dest - BitVec.ofNat 64 k).toNat = (a - dest).toNat + 2 ^ 64 - k := by
      rw [BitVec.toNat_sub, BitVec.toNat_ofNat]
      omega
    rw [hOffset, if_neg (by omega), if_pos (by omega), hFirst a, if_pos hLow]
  · have hOffset : (a - dest - BitVec.ofNat 64 k).toNat = (a - dest).toNat - k := by
      rw [BitVec.toNat_sub, BitVec.toNat_ofNat]
      omega
    rw [hOffset]
    by_cases hIn : (a - dest).toNat < k + n
    · -- the byte read by the second move is none that the first one wrote
      have hSource : source + BitVec.ofNat 64 k + (a - dest - BitVec.ofNat 64 k) = source + (a - dest) := by
        abel
      have hKept : ¬(source + (a - dest) - dest).toNat < k := by
        intro hWritten
        apply hApart (a - dest).toNat hIn (source + (a - dest) - dest).toNat (by omega)
        rw [BitVec.ofNat_toNat, BitVec.ofNat_toNat, BitVec.setWidth_eq, BitVec.setWidth_eq]
        abel
      rw [if_pos (by omega), if_pos hIn, hSource, hFirst, if_neg hKept]
    · rw [if_neg (by omega), if_neg hIn, hFirst a, if_neg hLow]

theorem rounds_moved {width n : Nat} {s : StringMachine} {source dest : Word} (hSource : s.rsi = source)
    (hDest : s.rdi = dest) (hApart : Apart source dest (width * n)) (hSize : width * n < 2 ^ 64) :
    Moved s.mem (rounds width n s).mem source dest (width * n) := by
  subst hSource hDest
  induction n generalizing s with
  | zero => exact fun a => (if_neg (Nat.not_lt_zero _)).symm
  | succ n ih =>
    rw [Nat.mul_succ, Nat.add_comm (width * n)] at hApart hSize ⊢
    have hOne : Moved s.mem (movs width s).mem s.rsi s.rdi width := fun a => rfl
    exact hOne.append (ih (by omega) hApart.skip) hApart hSize

end StringMachine
end KalinoteOS.Lib
