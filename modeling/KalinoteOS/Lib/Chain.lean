import Mathlib.Data.Finset.Card
import Mathlib.Data.Set.Finite.Basic

/-! # Following a partial function

A chain of a partial function either ends or comes back to where it was, if there are only finitely
many places to go.
-/
namespace KalinoteOS.Lib
set_option autoImplicit false

section
variable {α : Type} {next : α → Option α} {a b : α}

/-- What is reached from `a` after `k` steps. -/
def chain (next : α → Option α) (a : α) : Nat → Option α
  | 0 => some a
  | k + 1 => (chain next a k).bind next

/-- The chain comes to no place twice. -/
def NoRepeat (next : α → Option α) (a : α) : Prop :=
  ∀ k l b, chain next a k = some b → chain next a l = some b → k = l

theorem chain_succ {k : Nat} (h : chain next a k = some b) : chain next a (k + 1) = next b := by
  rw [chain, h, Option.bind_some]

theorem chain_add {k : Nat} (h : chain next a k = some b) (n : Nat) :
    chain next a (k + n) = chain next b n := by
  induction n with
  | zero => exact h
  | succ n ih => rw [← Nat.add_assoc, chain, ih, chain]

theorem chain_next {c : α} (h : next a = some c) (n : Nat) : chain next a (n + 1) = chain next c n := by
  have hFirst : chain next a 1 = some c := h
  rw [Nat.add_comm, chain_add hFirst]

theorem chain_pred {k : Nat} (h : chain next a (k + 1) = some b) :
    ∃ c, chain next a k = some c ∧ next c = some b :=
  Option.bind_eq_some_iff.mp h

theorem chain_none {k l : Nat} (h : chain next a k = none) (hLe : k ≤ l) : chain next a l = none := by
  induction l, hLe using Nat.le_induction with
  | base => exact h
  | succ l _ ih => rw [chain, ih, Option.bind_none]

theorem chain_loop {d : Nat} (h : chain next b d = some b) (m : Nat) : chain next b (m * d) = some b := by
  induction m with
  | zero => rw [Nat.zero_mul, chain]
  | succ m ih => rw [Nat.succ_mul, chain_add ih, h]

theorem chain_no_loop {e d : Nat} (hEnd : chain next a e = none) (hPos : 0 < d) {k : Nat}
    (h : chain next a k = some b) : chain next a (k + d) ≠ some b := by
  intro hBack
  rw [chain_add h] at hBack
  have hAgain : chain next a (k + e * d) = some b := by
    rw [chain_add h]
    exact chain_loop hBack e
  have hFar : e ≤ k + e * d := by
    have hMul := Nat.le_mul_of_pos_right e hPos
    omega
  rw [chain_none hEnd hFar] at hAgain
  cases hAgain

theorem noRepeat_of_ends {e : Nat} (hEnd : chain next a e = none) : NoRepeat next a := by
  intro k l b hk hl
  obtain hLt | rfl | hLt := Nat.lt_trichotomy k l
  · have hNot := chain_no_loop hEnd (d := l - k) (by omega) hk
    rw [Nat.add_sub_cancel' (Nat.le_of_lt hLt)] at hNot
    exact absurd hl hNot
  · rfl
  · have hNot := chain_no_loop hEnd (d := k - l) (by omega) hl
    rw [Nat.add_sub_cancel' (Nat.le_of_lt hLt)] at hNot
    exact absurd hk hNot

/-- In a finite set a chain that does not repeat ends. -/
theorem ends_of_noRepeat {s : Set α} (hFinite : s.Finite)
    (hStay : ∀ k b, chain next a k = some b → b ∈ s) (hOnce : NoRepeat next a) :
    ∃ e, chain next a e = none := by
  by_contra hNever
  have hSome : ∀ k, ∃ b, chain next a k = some b := by
    intro k
    exact Option.ne_none_iff_exists'.mp fun hNone => hNever ⟨k, hNone⟩
  choose f hf using hSome
  have hInjective : Function.Injective f := by
    intro k l hEq
    refine hOnce k l (f k) (hf k) ?_
    rw [hEq]
    exact hf l
  exact Set.infinite_of_injective_forall_mem hInjective (fun k => hStay k (f k) (hf k)) hFinite

/-- A chain that ends is no longer than the set it runs through. -/
theorem length_le_card {s : Finset α} {n : Nat} (hEnd : chain next a n = none)
    (hStay : ∀ k < n, ∃ b ∈ s, chain next a k = some b) : n ≤ s.card := by
  rw [← Finset.card_range n, ← s.card_map Function.Embedding.some]
  refine Finset.card_le_card_of_injOn (chain next a) ?_ ?_
  · intro k hk
    obtain ⟨b, hb, hChain⟩ := hStay k (Finset.mem_range.mp hk)
    exact Finset.mem_map.mpr ⟨b, hb, hChain.symm⟩
  · intro k hk l hl hSame
    obtain ⟨b, -, hChain⟩ := hStay l (Finset.mem_range.mp hl)
    exact noRepeat_of_ends hEnd k l b (hSame.trans hChain) hChain

end

end KalinoteOS.Lib
