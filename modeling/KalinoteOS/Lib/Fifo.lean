import Mathlib.Data.List.Basic

/-! # A bounded queue

What a ring buffer is for: at most `size` elements wait, they leave in the order in which they
came, and an element is refused only by a full queue.
-/
namespace KalinoteOS.Lib
set_option autoImplicit false

universe u

/-- The queue with all that was offered to it and all that left it. -/
structure BoundedFifo (α : Type u) (size : Nat) where
  received : List α
  taken : List α
  queue : List α
  bounded : queue.length ≤ size
  order : (taken ++ queue).Sublist received

namespace BoundedFifo
variable {α : Type u} {size : Nat}

def empty : BoundedFifo α size := ⟨[], [], [], Nat.zero_le size, List.Sublist.refl []⟩

/-- A full queue refuses. -/
def put (f : BoundedFifo α size) (x : α) : BoundedFifo α size :=
  if h : f.queue.length < size then
    { received := f.received ++ [x]
      taken := f.taken
      queue := f.queue ++ [x]
      bounded := by
        rw [List.length_append, List.length_singleton]
        exact h
      order := by
        rw [← List.append_assoc]
        exact f.order.append (List.Sublist.refl [x]) }
  else
    { f with
      received := f.received ++ [x]
      order := f.order.trans (List.sublist_append_left f.received [x]) }

def take (f : BoundedFifo α size) : BoundedFifo α size :=
  match h : f.queue with
  | [] => f
  | x :: rest =>
    { received := f.received
      taken := f.taken ++ [x]
      queue := rest
      bounded := by
        have hBounded := f.bounded
        rw [h, List.length_cons] at hBounded
        exact Nat.le_of_succ_le hBounded
      order := by
        have hOrder := f.order
        rw [h] at hOrder
        rw [List.append_assoc]
        exact hOrder }

variable (f : BoundedFifo α size)

@[simp] theorem put_received (x : α) : (f.put x).received = f.received ++ [x] := by
  unfold put
  split <;> rfl

@[simp] theorem put_taken (x : α) : (f.put x).taken = f.taken := by
  unfold put
  split <;> rfl

theorem put_queue {x : α} (h : f.queue.length < size) : (f.put x).queue = f.queue ++ [x] := by
  rw [put, dif_pos h]

@[simp] theorem take_received : f.take.received = f.received := by
  unfold take
  split <;> rfl

theorem take_cons {x : α} {rest : List α} (h : f.queue = x :: rest) :
    f.take.taken = f.taken ++ [x] ∧ f.take.queue = rest := by
  unfold take
  split
  · rename_i hNil
    rw [h] at hNil
    cases hNil
  · rename_i y ys hCons
    rw [h] at hCons
    cases hCons
    exact ⟨rfl, rfl⟩

end BoundedFifo

end KalinoteOS.Lib
