import KalinoteOS.Lib.Run
import Mathlib.Algebra.Group.Nat.Defs
import Mathlib.Data.Fintype.Card
import Mathlib.Data.Fin.Basic
import Mathlib.Tactic.DeriveFintype

/-! # Spin locks

One step is one instruction on the lock word, as the inline assembly of `spin_lock`,
`spin_trylock` and `spin_unlock` issues them. The counters of `preempt_disable` are private
to a CPU and play no part here.
-/
namespace KalinoteOS.Spinlock
open Lib
set_option autoImplicit false

/-- `spinlock_T.lock`. 1: unlock, 0: lock. -/
abbrev Word := BitVec 64

/-- The value `spin_init` stores. -/
def spinInit : Word := 1#64

/-- `lock decq`, and whether the `jns` after it is taken. -/
def decq (lock : Word) : Word × Bool := (lock - 1#64, !(lock - 1#64).msb)

/-- `cmpq $0, lock; jle 2b` falls through. -/
def readPositive (lock : Word) : Bool := !lock.sle 0#64

/-- `xchgq` with 0: the new word, and the value that `spin_trylock` returns. -/
def xchgq (lock : Word) : Word × Word := (0#64, lock)

/-- `movq $1`. -/
def movq : Word := 1#64

/-- Where a CPU is: outside, at label 1 or label 2 of `spin_lock`, or holding the lock. -/
inductive Pc where
  | outside
  | label1
  | label2
  | holding
  deriving DecidableEq, Repr

structure State (n : Nat) where
  lock : Word
  pc : Fin n → Pc

def init (n : Nat) : State n := ⟨spinInit, fun _ => .outside⟩

inductive Action (n : Nat) where
  /-- Call `spin_lock`. -/
  | enter (i : Fin n)
  /-- The `lock decq` of `spin_lock` with the jump after it. -/
  | decq (i : Fin n)
  /-- One turn of the `pause` loop. -/
  | read (i : Fin n)
  /-- `spin_trylock`. -/
  | xchgq (i : Fin n)
  /-- `spin_unlock`. -/
  | movq (i : Fin n)
  deriving DecidableEq, Repr

variable {n : Nat}

def State.goto (s : State n) (i : Fin n) (pc : Pc) : State n :=
  { s with pc := Function.update s.pc i pc }

/-- One instruction of CPU `i`; `none` where the CPU is not at that instruction. -/
def step (s : State n) : Action n → Option (State n)
  | .enter i => if s.pc i = .outside then some (s.goto i .label1) else none
  | .decq i =>
    if s.pc i = .label1 then
      let (lock, entered) := decq s.lock
      some { s.goto i (if entered then .holding else .label2) with lock := lock }
    else none
  | .read i =>
    if s.pc i = .label2 then
      some (s.goto i (if readPositive s.lock then .label1 else .label2))
    else none
  | .xchgq i =>
    if s.pc i = .outside then
      let (lock, value) := xchgq s.lock
      some { s.goto i (if value ≠ 0#64 then .holding else .outside) with lock := lock }
    else none
  | .movq i =>
    if s.pc i = .holding then some { s.goto i .outside with lock := movq } else none

def Step (s : State n) (a : Action n) (t : State n) : Prop := step s a = some t

/-- At most one CPU holds the lock. -/
def Exclusive (s : State n) : Prop := ∀ i j, s.pc i = .holding → s.pc j = .holding → i = j

/-- No `spin_trylock` meets a negative word, and no `decq` wraps around at `-2^63`. -/
def Good (s : State n) : Action n → Prop
  | .xchgq _ => s.lock.msb = false
  | .decq _ => s.lock ≠ BitVec.intMin 64
  | _ => True

/-! ## The word and the holder -/

structure Inv (s : State n) : Prop where
  exclusive : Exclusive s
  free : (∀ i, s.pc i ≠ .holding) → s.lock = 1#64
  held : ∀ i, s.pc i = .holding → s.lock.sle 0#64 = true

@[simp] theorem goto_lock (s : State n) (i : Fin n) (pc : Pc) : (s.goto i pc).lock = s.lock := rfl

@[simp] theorem goto_pc_self (s : State n) (i : Fin n) (pc : Pc) : (s.goto i pc).pc i = pc := by
  simp [State.goto]

theorem goto_pc_other (s : State n) {i j : Fin n} (pc : Pc) (h : j ≠ i) :
    (s.goto i pc).pc j = s.pc j := by
  simp [State.goto, h]

theorem free_or_held (s : State n) : (∀ i, s.pc i ≠ .holding) ∨ ∃ i, s.pc i = .holding := by
  by_cases h : ∃ i, s.pc i = .holding
  · exact Or.inr h
  · exact Or.inl (fun i hi => h ⟨i, hi⟩)

/-- A move between two places that do not hold the lock, with the word kept in its range. -/
theorem Inv.move {s : State n} (h : Inv s) {i : Fin n} {pc : Pc} {lock : Word}
    (hFrom : s.pc i ≠ .holding) (hTo : pc ≠ .holding)
    (hFree : s.lock = 1#64 → (∀ j, s.pc j ≠ .holding) → lock = 1#64)
    (hHeld : s.lock.sle 0#64 = true → lock.sle 0#64 = true) :
    Inv { s.goto i pc with lock := lock } := by
  have hSame : ∀ j, (s.goto i pc).pc j = .holding ↔ s.pc j = .holding := by
    intro j
    by_cases hj : j = i
    · subst hj
      simp [hFrom, hTo]
    · rw [goto_pc_other s pc hj]
  refine ⟨?_, ?_, ?_⟩
  · intro j k hj hk
    exact h.exclusive j k ((hSame j).mp hj) ((hSame k).mp hk)
  · intro hNone
    have hNone' : ∀ j, s.pc j ≠ .holding := fun j hj => hNone j ((hSame j).mpr hj)
    exact hFree (h.free hNone') hNone'
  · intro j hj
    exact hHeld (h.held j ((hSame j).mp hj))

theorem Inv.take {s : State n} (i : Fin n) (hNone : ∀ j, s.pc j ≠ .holding) :
    Inv { s.goto i .holding with lock := 0#64 } := by
  have hOnly : ∀ j, (s.goto i .holding).pc j = .holding → j = i := by
    intro j hj
    by_contra hji
    rw [goto_pc_other s _ hji] at hj
    exact hNone j hj
  refine ⟨?_, ?_, ?_⟩
  · intro j k hj hk
    exact (hOnly j hj).trans (hOnly k hk).symm
  · intro hFree
    exact absurd (goto_pc_self s i .holding) (hFree i)
  · intro j _
    rfl

theorem Inv.release {s : State n} (h : Inv s) {i : Fin n} (hi : s.pc i = .holding) :
    Inv { s.goto i .outside with lock := 1#64 } := by
  have hNone : ∀ j, (s.goto i .outside).pc j ≠ .holding := by
    intro j hj
    by_cases hji : j = i
    · subst hji
      simp at hj
    · rw [goto_pc_other s _ hji] at hj
      exact hji (h.exclusive j i hj hi)
  exact ⟨fun j k hj _ => absurd hj (hNone j), fun _ => rfl, fun j hj => absurd hj (hNone j)⟩

/-! ## One instruction -/

theorem sle_zero_iff (lock : Word) : lock.sle 0#64 = true ↔ lock.toNat = 0 ∨ 2 ^ 63 ≤ lock.toNat := by
  have := lock.isLt
  simp only [BitVec.sle, BitVec.toInt_eq_toNat_cond, decide_eq_true_eq, BitVec.toNat_ofNat]
  omega

theorem msb_iff (lock : Word) : lock.msb = true ↔ 2 ^ 63 ≤ lock.toNat := by
  rw [BitVec.msb_eq_decide, decide_eq_true_eq]

theorem sle_of_msb {lock : Word} (h : lock.msb = true) : lock.sle 0#64 = true :=
  (sle_zero_iff lock).mpr (Or.inr ((msb_iff lock).mp h))

theorem eq_zero_of_sle {lock : Word} (h : lock.sle 0#64 = true) (hMsb : lock.msb = false) :
    lock = 0#64 := by
  obtain hZero | hNeg := (sle_zero_iff lock).mp h
  · exact BitVec.eq_of_toNat_eq hZero
  · rw [(msb_iff lock).mpr hNeg] at hMsb
    cases hMsb

/-- A `decq` of a word that is not positive gives a negative one, unless it wraps around. -/
theorem decq_of_nonpos {lock : Word} (h : lock.sle 0#64 = true) (hWrap : lock ≠ BitVec.intMin 64) :
    (lock - 1#64).msb = true := by
  have hWrap' : lock.toNat ≠ 2 ^ 63 := by
    intro hEq
    apply hWrap
    apply BitVec.eq_of_toNat_eq
    rw [hEq]
    decide
  rw [sle_zero_iff] at h
  rw [msb_iff, BitVec.toNat_sub, BitVec.toNat_ofNat]
  have := lock.isLt
  omega

theorem step_cases {s t : State n} {a : Action n} (h : Step s a t) :
    (∃ i, a = .enter i ∧ s.pc i = .outside ∧ t = s.goto i .label1) ∨
    (∃ i, a = .decq i ∧ s.pc i = .label1 ∧
      t = { s.goto i (if (decq s.lock).2 then .holding else .label2) with lock := (decq s.lock).1 }) ∨
    (∃ i, a = .read i ∧ s.pc i = .label2 ∧
      t = s.goto i (if readPositive s.lock then .label1 else .label2)) ∨
    (∃ i, a = .xchgq i ∧ s.pc i = .outside ∧
      t = { s.goto i (if s.lock ≠ 0#64 then .holding else .outside) with lock := 0#64 }) ∨
    (∃ i, a = .movq i ∧ s.pc i = .holding ∧ t = { s.goto i .outside with lock := movq }) := by
  cases a with
  | enter i =>
    simp only [Step, step, Option.ite_none_right_eq_some, Option.some.injEq] at h
    exact Or.inl ⟨i, rfl, h.1, h.2.symm⟩
  | decq i =>
    simp only [Step, step, Option.ite_none_right_eq_some, Option.some.injEq] at h
    exact Or.inr (Or.inl ⟨i, rfl, h.1, h.2.symm⟩)
  | read i =>
    simp only [Step, step, Option.ite_none_right_eq_some, Option.some.injEq] at h
    exact Or.inr (Or.inr (Or.inl ⟨i, rfl, h.1, h.2.symm⟩))
  | xchgq i =>
    simp only [Step, step, Option.ite_none_right_eq_some, Option.some.injEq] at h
    exact Or.inr (Or.inr (Or.inr (Or.inl ⟨i, rfl, h.1, h.2.symm⟩)))
  | movq i =>
    simp only [Step, step, Option.ite_none_right_eq_some, Option.some.injEq] at h
    exact Or.inr (Or.inr (Or.inr (Or.inr ⟨i, rfl, h.1, h.2.symm⟩)))

/-- Every step that meets the condition keeps the holder alone. -/
theorem step_inv {s t : State n} {a : Action n} (h : Inv s) (hGood : Good s a) (hStep : Step s a t) :
    Inv t := by
  rcases step_cases hStep with ⟨i, rfl, hi, rfl⟩ | ⟨i, rfl, hi, rfl⟩ | ⟨i, rfl, hi, rfl⟩ |
    ⟨i, rfl, hi, rfl⟩ | ⟨i, rfl, hi, rfl⟩
  · exact h.move (by simp [hi]) (by decide) (fun hw _ => hw) id
  · obtain hFree | ⟨j, hj⟩ := free_or_held s
    · have hWord := h.free hFree
      simp only [decq, hWord]
      exact Inv.take i hFree
    · have hNeg := decq_of_nonpos (h.held j hj) hGood
      simp only [decq, hNeg, Bool.not_true]
      exact h.move (by simp [hi]) (by decide) (fun _ hNone => absurd hj (hNone j))
        (fun _ => sle_of_msb hNeg)
  · refine h.move (by simp [hi]) ?_ (fun hw _ => hw) id
    split <;> decide
  · obtain hFree | ⟨j, hj⟩ := free_or_held s
    · have hWord := h.free hFree
      simp only [hWord]
      exact Inv.take i hFree
    · have hZero := eq_zero_of_sle (h.held j hj) hGood
      simp only [hZero]
      exact h.move (by simp [hi]) (by decide) (fun _ hNone => absurd hj (hNone j)) (fun _ => rfl)
  · exact h.release hi

/-- A negative word means that a CPU holds the lock, so one more holder is one too many. -/
theorem Inv.second_holder {s : State n} (h : Inv s) {i : Fin n} (hi : s.pc i ≠ .holding)
    (hMsb : s.lock.msb = true) (lock : Word) :
    ¬ Exclusive { s.goto i .holding with lock := lock } := by
  intro hExcl
  obtain hFree | ⟨j, hj⟩ := free_or_held s
  · rw [h.free hFree] at hMsb
    cases hMsb
  · have hji : j ≠ i := by
      rintro rfl
      exact hi hj
    exact hji (hExcl j i ((goto_pc_other s _ hji).trans hj) (goto_pc_self s i _))

/-- A step outside the condition gives the lock to a second CPU. -/
theorem step_not_exclusive {s t : State n} {a : Action n} (h : Inv s) (hBad : ¬ Good s a)
    (hStep : Step s a t) : ¬ Exclusive t := by
  rcases step_cases hStep with ⟨i, rfl, hi, rfl⟩ | ⟨i, rfl, hi, rfl⟩ | ⟨i, rfl, hi, rfl⟩ |
    ⟨i, rfl, hi, rfl⟩ | ⟨i, rfl, hi, rfl⟩
  · exact absurd trivial hBad
  · have hWord : s.lock = BitVec.intMin 64 := Classical.not_not.mp hBad
    have hEntered : (decq s.lock).2 = true := by rw [hWord]; decide
    simp only [hEntered, if_true]
    exact h.second_holder (by simp [hi]) (by rw [hWord]; decide) _
  · exact absurd trivial hBad
  · have hMsb : s.lock.msb = true := Bool.eq_true_of_not_eq_false hBad
    have hValue : s.lock ≠ 0#64 := by
      intro hZero
      rw [hZero] at hMsb
      cases hMsb
    simp only [hValue, ne_eq, not_false_eq_true, if_true]
    exact h.second_holder (by simp [hi]) hMsb _
  · exact absurd trivial hBad

/-! ## Whole runs -/

theorem init_inv (n : Nat) : Inv (init n) := by
  refine ⟨?_, fun _ => rfl, ?_⟩
  · intro i j hi
    cases hi
  · intro i hi
    cases hi

theorem reach_inv {s : State n} (h : Reach (· = init n) (Guarded Good Step) s) : Inv s := by
  refine Reach.invariant (P := Inv) ?_ ?_ h
  · rintro s rfl
    exact init_inv n
  · intro s a t hs hStep
    exact step_inv hs hStep.1 hStep.2

/-- After good steps only, at most one CPU holds the lock, and the next step keeps it so
exactly when it is good as well. -/
theorem exclusive_iff_good (n : Nat) (s : State n) (h : Reach (· = init n) (Guarded Good Step) s) :
    Exclusive s ∧ ∀ a t, Step s a t → (Exclusive t ↔ Good s a) := by
  have hInv := reach_inv h
  refine ⟨hInv.exclusive, fun a t hStep => ⟨fun hExcl => ?_, fun hGood => ?_⟩⟩
  · by_contra hBad
    exact step_not_exclusive hInv hBad hStep hExcl
  · exact (step_inv hInv hGood hStep).exclusive

/-- CPU 0 holds the lock, CPU 1 has made the word negative, and CPU 2 tries it. -/
def trylockRace : List (Action 3) := [.enter 0, .decq 0, .enter 1, .decq 1, .xchgq 2]

theorem trylock_not_exclusive : ¬ ∀ (n : Nat) (s : State n), Reach (· = init n) Step s → Exclusive s := by
  intro h
  have hSome : (runList step (init 3) trylockRace).isSome = true := by decide
  obtain ⟨s, hs⟩ := Option.isSome_iff_exists.mp hSome
  have hRun : Run Step (init 3) trylockRace s := run_of_runList (fun _ _ _ hNext => hNext) hs
  have hHolders : ((runList step (init 3) trylockRace).map fun s => (s.pc 0, s.pc 2)) =
      some (.holding, .holding) := by decide
  rw [hs] at hHolders
  simp only [Option.map_some, Option.some.injEq, Prod.mk.injEq] at hHolders
  have h02 := h 3 s ⟨init 3, _, rfl, hRun⟩ 0 2 hHolders.1 hHolders.2
  exact absurd h02 (by decide)

instance (s : State n) (a : Action n) : Decidable (Good s a) := by
  cases a <;> unfold Good <;> infer_instance

/-- One CPU inside and one waiting: the condition holds at every step. -/
theorem exclusive_iff_good_contended : ∃ s : State 2, s.lock = -1#64 ∧ Exclusive s := by
  have hSome : (runList (guardedNext Good step) (init 2) [.enter 0, .decq 0, .enter 1, .decq 1]).map
      State.lock = some (-1#64) := by decide
  obtain ⟨s, hs, hLock⟩ := Option.map_eq_some_iff.mp hSome
  have hStep : ∀ s a t, guardedNext Good step s a = some t → Guarded Good (@Step 2) s a t :=
    guarded_of_next fun _ _ _ hNext => hNext
  have hRun := run_of_runList hStep hs
  exact ⟨s, hLock, (exclusive_iff_good 2 s ⟨init 2, _, rfl, hRun⟩).1⟩

end KalinoteOS.Spinlock
