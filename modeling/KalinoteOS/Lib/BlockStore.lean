import Mathlib.Data.List.Basic
import Mathlib.Logic.Function.Basic

/-! # Block stores and their histories

A store of numbered blocks, its reads and writes of consecutive blocks, and what a sequence of them may
have returned when they were performed one after the other.
-/
namespace KalinoteOS.Lib.BlockStore
set_option autoImplicit false

universe u
variable {α : Type u}

/-- The `n` blocks from `start` on. -/
def read (store : Nat → α) (start n : Nat) : List α := (List.range n).map fun i => store (start + i)

def write (store : Nat → α) (start : Nat) (data : List α) : Nat → α :=
  fun x => if start ≤ x then data[x - start]?.getD (store x) else store x

/-- Two ranges of blocks do not meet. -/
def Apart (a m b n : Nat) : Prop := a + m ≤ b ∨ b + n ≤ a

section
variable {store store' : Nat → α} {start a n : Nat} {data : List α}

@[simp] theorem length_read (store : Nat → α) (start n : Nat) : (read store start n).length = n := by
  simp [read]

theorem read_succ (store : Nat → α) (start n : Nat) :
    read store start (n + 1) = read store start n ++ [store (start + n)] := by
  simp [read, List.range_succ]

theorem read_congr (h : ∀ x, start ≤ x → x < start + n → store x = store' x) :
    read store start n = read store' start n := by
  apply List.map_congr_left
  intro i hi
  exact h _ (Nat.le_add_right _ _) (Nat.add_lt_add_left (List.mem_range.mp hi) _)

@[simp] theorem write_nil (store : Nat → α) (start : Nat) : write store start [] = store := by
  funext x
  simp [write]

theorem write_outside {x : Nat} (h : x < start ∨ start + data.length ≤ x) :
    write store start data x = store x := by
  unfold write
  split
  · rw [List.getElem?_eq_none (by omega)]
    rfl
  · rfl

theorem write_inside {i : Nat} (hi : i < data.length) : write store start data (start + i) = data[i] := by
  simp [write, hi]

theorem write_snoc (store : Nat → α) (start : Nat) (data : List α) (b : α) :
    write store start (data ++ [b]) = Function.update (write store start data) (start + data.length) b := by
  have hLength : (data ++ [b]).length = data.length + 1 := List.length_append
  funext x
  by_cases hx : x = start + data.length
  · subst hx
    simp [write]
  · rw [Function.update_of_ne hx]
    by_cases hIn : start ≤ x ∧ x < start + data.length
    · obtain ⟨i, rfl⟩ := Nat.exists_eq_add_of_le hIn.1
      have hi : i < data.length := by omega
      rw [write_inside hi, write_inside (by omega), List.getElem_append_left hi]
    · rw [write_outside (by omega), write_outside (by omega)]

theorem write_singleton (store : Nat → α) (start : Nat) (b : α) :
    write store start [b] = Function.update store start b := by
  simpa using write_snoc store start [] b

theorem read_write : read (write store start data) start data.length = data := by
  apply List.ext_getElem
  · simp
  · intro i hi hi'
    simp only [read, List.getElem_map, List.getElem_range]
    exact write_inside hi'

theorem read_write_apart (h : Apart start n a data.length) :
    read (write store a data) start n = read store start n := by
  apply read_congr
  intro x hLe hLt
  apply write_outside
  unfold Apart at h
  omega

end

/-! ## Histories -/

/-- One operation and the blocks it was given or returned. -/
inductive Op (α : Type u) where
  | read (start : Nat) (data : List α)
  | write (start : Nat) (data : List α)

def Op.perform (store : Nat → α) : Op α → Nat → α
  | .read _ _ => store
  | .write start data => BlockStore.write store start data

/-- What an operation returns is in the store. -/
def Op.Returns (store : Nat → α) : Op α → Prop
  | .read start data => data = BlockStore.read store start data.length
  | .write _ _ => True

/-- An operation that leaves the blocks alone. -/
def Op.Keeps (start n : Nat) : Op α → Prop
  | .read _ _ => True
  | .write a data => BlockStore.Apart start n a data.length

def after (store : Nat → α) (ops : List (Op α)) : Nat → α := ops.foldl Op.perform store

/-- Performed one after the other, the operations return what they say. -/
def Legal (store : Nat → α) : List (Op α) → Prop
  | [] => True
  | op :: ops => op.Returns store ∧ Legal (op.perform store) ops

section
variable {store : Nat → α} {ops front : List (Op α)}

theorem after_snoc (store : Nat → α) (ops : List (Op α)) (op : Op α) :
    after store (ops ++ [op]) = op.perform (after store ops) := by
  simp [after]

theorem after_append (store : Nat → α) (front ops : List (Op α)) :
    after store (front ++ ops) = after (after store front) ops := by
  simp [after]

theorem legal_append : Legal store (front ++ ops) ↔ Legal store front ∧ Legal (after store front) ops := by
  induction front generalizing store with
  | nil => simp [Legal, after]
  | cons op front ih => simp [Legal, after, ih, and_assoc]

theorem legal_snoc {op : Op α} :
    Legal store (ops ++ [op]) ↔ Legal store ops ∧ op.Returns (after store ops) := by
  simp [legal_append, Legal]

theorem read_after {start n : Nat} (h : ∀ op ∈ ops, op.Keeps start n) :
    read (after store ops) start n = read store start n := by
  induction ops generalizing store with
  | nil => rfl
  | cons op ops ih =>
    change read (after (op.perform store) ops) start n = read store start n
    rw [ih fun op hop => h op (List.mem_cons_of_mem _ hop)]
    have hOp := h op List.mem_cons_self
    cases op with
    | read => rfl
    | write => exact read_write_apart hOp

theorem take_split {β : Type u} {l : List β} {i j : Nat} {a b : β} (hi : l[i]? = some a) (hj : l[j]? = some b)
    (hOrder : i < j) : l.take (j + 1) = l.take i ++ (a :: (l.take j).drop (i + 1)) ++ [b] := by
  have hFront : (l.take j)[i]? = some a := by rwa [List.getElem?_take_of_lt hOrder]
  obtain ⟨hLt, hGet⟩ := List.getElem?_eq_some_iff.mp hFront
  have hDrop : (l.take j).drop i = a :: (l.take j).drop (i + 1) := by
    rw [List.drop_eq_getElem_cons hLt, hGet]
  have hTake : (l.take j).take i = l.take i := by rw [List.take_take, Nat.min_eq_left (Nat.le_of_lt hOrder)]
  rw [List.take_add_one, hj, ← hDrop, ← hTake, List.take_append_drop]
  rfl

/-- A read returns what the last write of these blocks was given. -/
theorem Legal.read_of_last {start i j : Nat} {data seen : List α} (h : Legal store ops)
    (hi : ops[i]? = some (.write start data)) (hj : ops[j]? = some (.read start seen)) (hOrder : i < j)
    (hLength : seen.length = data.length)
    (hBetween : ∀ k op, i < k → k < j → ops[k]? = some op → op.Keeps start data.length) : seen = data := by
  have hSplit := take_split hi hj hOrder
  rw [← List.take_append_drop (j + 1) ops, hSplit] at h
  have hSeen : seen = read (after store (ops.take i ++ (.write start data :: (ops.take j).drop (i + 1))))
      start seen.length := (legal_snoc.mp (legal_append.mp h).1).2
  have hMiddle : ∀ op ∈ (ops.take j).drop (i + 1), op.Keeps start data.length := by
    intro op hop
    obtain ⟨k, hk⟩ := List.mem_iff_getElem?.mp hop
    rw [List.getElem?_drop] at hk
    have hLt : i + 1 + k < j := by
      have hIn := (List.getElem?_eq_some_iff.mp hk).1
      rw [List.length_take] at hIn
      omega
    rw [List.getElem?_take_of_lt hLt] at hk
    exact hBetween _ op (by omega) hLt hk
  rw [hLength, after_append] at hSeen
  apply hSeen.trans
  change read (after (write (after store (ops.take i)) start data) ((ops.take j).drop (i + 1))) start
    data.length = data
  rw [read_after hMiddle, read_write]

end

end KalinoteOS.Lib.BlockStore
