import Mathlib.Data.List.Basic

/-! # Readers that wait

A reader takes what it needs from the front of a stream, and has no result as long as that has not come.
-/
namespace KalinoteOS.Lib
set_option autoImplicit false

universe u v w

/-- The result, with what is left of the stream. -/
abbrev Reader (τ : Type u) (α : Type v) := List τ → Option (α × List τ)

namespace Reader
variable {τ : Type u} {α : Type v} {β : Type w}

def next : Reader τ τ
  | [] => none
  | x :: stream => some (x, stream)

def done (a : α) : Reader τ α := fun stream => some (a, stream)

def bind (p : Reader τ α) (f : α → Reader τ β) : Reader τ β := fun stream => (p stream).bind fun r => f r.1 r.2

/-- What comes later makes no difference to a result, and a reader that waits ends with the very next
token that it needs. -/
structure Incremental (p : Reader τ α) : Prop where
  more : ∀ {stream a left}, p stream = some (a, left) → ∀ rest, p (stream ++ rest) = some (a, left ++ rest)
  nothing : ∀ {a left}, p [] = some (a, left) → left = []
  last : ∀ {stream x a left}, p stream = none → p (stream ++ [x]) = some (a, left) → left = []

theorem incremental_next : Incremental (next : Reader τ τ) where
  more := by
    intro stream a left h rest
    cases stream with
    | nil => cases h
    | cons x stream =>
      cases h
      rfl
  nothing h := by cases h
  last := by
    intro stream x a left hNone h
    cases stream with
    | nil =>
      cases h
      rfl
    | cons y stream => cases hNone

theorem incremental_done (a : α) : Incremental (done a : Reader τ α) where
  more := by
    intro stream b left h rest
    cases h
    rfl
  nothing h := by
    cases h
    rfl
  last hNone _ := by cases hNone

namespace Incremental

theorem bind {p : Reader τ α} {f : α → Reader τ β} (hp : Incremental p) (hf : ∀ a, Incremental (f a)) :
    Incremental (p.bind f) where
  more := by
    intro stream b left h rest
    obtain ⟨⟨a, middle⟩, hFirst, hSecond⟩ := Option.bind_eq_some_iff.mp h
    unfold Reader.bind
    rw [hp.more hFirst rest]
    exact (hf a).more hSecond rest
  nothing := by
    intro b left h
    obtain ⟨⟨a, middle⟩, hFirst, hSecond⟩ := Option.bind_eq_some_iff.mp h
    obtain rfl := hp.nothing hFirst
    exact (hf a).nothing hSecond
  last := by
    intro stream x b left hNone h
    obtain ⟨⟨a, middle⟩, hFirst, hSecond⟩ := Option.bind_eq_some_iff.mp h
    cases hBefore : p stream with
    | none =>
      -- the first reader waits for this token
      obtain rfl := hp.last hBefore hFirst
      exact (hf a).nothing hSecond
    | some r =>
      obtain ⟨a', middle'⟩ := r
      have hSame := (hp.more hBefore [x]).symm.trans hFirst
      cases hSame
      have hWaits : f a middle' = none := by
        unfold Reader.bind at hNone
        rw [hBefore] at hNone
        exact hNone
      exact (hf a).last hWaits hSecond

theorem ite {c : Prop} [Decidable c] {p q : Reader τ α} (hp : Incremental p) (hq : Incremental q) :
    Incremental (if c then p else q) := by
  by_cases h : c
  · rwa [if_pos h]
  · rwa [if_neg h]

/-- The token that a reader has waited for, with the stream behind it. -/
theorem ends {p : Reader τ α} (hp : Incremental p) {stream left : List τ} {x : τ} {a : α}
    (hNone : p stream = none) (h : p (stream ++ [x]) = some (a, left)) (rest : List τ) :
    p (stream ++ x :: rest) = some (a, rest) := by
  obtain rfl := hp.last hNone h
  have hMore := hp.more h rest
  rwa [List.append_assoc] at hMore

end Incremental

end Reader

end KalinoteOS.Lib
