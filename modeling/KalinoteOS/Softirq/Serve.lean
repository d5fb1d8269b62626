import Mathlib.Data.List.ReduceOption
import KalinoteOS.Softirq

/-! # One whole call of `do_softirq`

Nothing is raised during the call and the actions leave the status alone.
-/
namespace KalinoteOS.Softirq
open Lib
set_option autoImplicit false

/-- The loop from vector `i` on, `n` rounds at most: the vectors whose actions ran and the status
left behind, `none` for a call of `NULL`. -/
def doSoftirqLoop (registered : Nat → Bool) :
    Nat → Nat → BitVec 64 → Option (List Nat × BitVec 64)
  | 0, _, status => some ([], status)
  | n + 1, i, status =>
    if status = 0 then some ([], status)
    else if status &&& shifted i ≠ 0 then
      if registered i then
        (doSoftirqLoop registered n (i + 1) (status &&& ~~~(shifted i))).map fun (ran, left) =>
          (i :: ran, left)
      else none
    else doSoftirqLoop registered n (i + 1) status

def doSoftirqCall (registered : Nat → Bool) (status : BitVec 64) :
    Option (List Nat × BitVec 64) := doSoftirqLoop registered 64 0 status

/-! ## The statements of the call -/

/-- A statement of `do_softirq`, labelled with the vector whose action it calls. -/
def Statement (registered : Nat → Bool) (s : State) (called : Option Nat) (t : State) : Prop :=
  Step registered s .doSoftirq t ∧ called = match s.calls with
    | .call i :: _ => some i
    | _ => none

section
variable {registered : Nat → Bool} {i n : Nat} {status left : BitVec 64} {ran : List Nat} {rest : List Pc}

/-- A vector whose bit is not set takes three statements. -/
theorem skip_run (pending : Nat → Bool) (hi : i < 64) (hNe : status ≠ 0)
    (hTest : ¬ status &&& shifted i ≠ 0) :
    Run (Statement registered) ⟨status, .loop i :: rest, pending⟩ [none, none, none]
      ⟨status, .loop (i + 1) :: rest, pending⟩ := by
  have hLoop : Statement registered ⟨status, .loop i :: rest, pending⟩ none ⟨status, .test i :: rest, pending⟩ :=
    ⟨congrArg (fun calls => some (State.mk status calls pending)) (if_pos ⟨hi, hNe⟩), rfl⟩
  have hNext : Statement registered ⟨status, .test i :: rest, pending⟩ none ⟨status, .next i :: rest, pending⟩ :=
    ⟨congrArg (fun pc => some (State.mk status (pc :: rest) pending)) (if_neg hTest), rfl⟩
  have hEnd : Statement registered ⟨status, .next i :: rest, pending⟩ none
      ⟨status, .loop (i + 1) :: rest, pending⟩ := ⟨rfl, rfl⟩
  exact .cons hLoop (.cons hNext (.single hEnd))

/-- A vector whose bit is set takes five, of which the third is the action. -/
theorem serve_run (pending : Nat → Bool) (hi : i < 64) (hNe : status ≠ 0)
    (hTest : status &&& shifted i ≠ 0) (hReg : registered i) :
    Run (Statement registered) ⟨status, .loop i :: rest, pending⟩ [none, none, some i, none, none]
      ⟨status &&& ~~~(shifted i), .loop (i + 1) :: rest, Function.update pending i false⟩ := by
  have hLoop : Statement registered ⟨status, .loop i :: rest, pending⟩ none ⟨status, .test i :: rest, pending⟩ :=
    ⟨congrArg (fun calls => some (State.mk status calls pending)) (if_pos ⟨hi, hNe⟩), rfl⟩
  have hCall : Statement registered ⟨status, .test i :: rest, pending⟩ none ⟨status, .call i :: rest, pending⟩ :=
    ⟨congrArg (fun pc => some (State.mk status (pc :: rest) pending)) (if_pos hTest), rfl⟩
  have hAction : Statement registered ⟨status, .call i :: rest, pending⟩ (some i)
      ⟨status, .clear i :: rest, Function.update pending i false⟩ := ⟨if_pos hReg, rfl⟩
  have hClear : Statement registered ⟨status, .clear i :: rest, Function.update pending i false⟩ none
      ⟨status &&& ~~~(shifted i), .next i :: rest, Function.update pending i false⟩ := ⟨rfl, rfl⟩
  have hEnd : Statement registered
      ⟨status &&& ~~~(shifted i), .next i :: rest, Function.update pending i false⟩ none
      ⟨status &&& ~~~(shifted i), .loop (i + 1) :: rest, Function.update pending i false⟩ := ⟨rfl, rfl⟩
  exact .cons hLoop (.cons hCall (.cons hAction (.cons hClear (.single hEnd))))

theorem exit_run (pending : Nat → Bool) (hExit : ¬ (i < 64 ∧ status ≠ 0)) :
    Run (Statement registered) ⟨status, .loop i :: rest, pending⟩ [none] ⟨status, rest, pending⟩ :=
  .single ⟨congrArg (fun calls => some (State.mk status calls pending)) (if_neg hExit), rfl⟩

/-- The loop is what the statements do one after the other. -/
theorem doSoftirqLoop_run (hRounds : i + n = 64)
    (h : doSoftirqLoop registered n i status = some (ran, left)) (pending : Nat → Bool) :
    ∃ calls pending', Run (Statement registered) ⟨status, .loop i :: rest, pending⟩ calls
      ⟨left, rest, pending'⟩ ∧ calls.reduceOption = ran := by
  induction n generalizing i status ran pending with
  | zero =>
    cases h
    exact ⟨[none], pending, exit_run pending (by omega), rfl⟩
  | succ n ih =>
    have hi : i < 64 := by omega
    rw [doSoftirqLoop] at h
    split at h
    · next hZero =>
      cases h
      exact ⟨[none], pending, exit_run pending fun hGo => hGo.2 hZero, rfl⟩
    · next hNe =>
      split at h
      · next hTest =>
        obtain ⟨hReg, hMap⟩ := Option.ite_none_right_eq_some.mp h
        obtain ⟨⟨rest, left'⟩, hRest, hEq⟩ := Option.map_eq_some_iff.mp hMap
        cases hEq
        obtain ⟨calls, pending', hRun, hCalls⟩ :=
          ih (by omega) hRest (Function.update pending i false)
        refine ⟨_, pending', (serve_run pending hi hNe hTest hReg).append hRun, ?_⟩
        rw [← hCalls]
        rfl
      · next hTest =>
        obtain ⟨calls, pending', hRun, hCalls⟩ := ih (by omega) h pending
        exact ⟨_, pending', (skip_run pending hi hNe hTest).append hRun, hCalls⟩

/-! ## Which bits a round tests and clears -/

/-- The bits below `i` are done with. -/
def Served (i : Nat) (status : BitVec 64) : Prop := ∀ v < i, ¬ status.getLsbD v

theorem Served.eq_zero (h : Served 64 status) : status = 0 := by
  apply BitVec.eq_of_getLsbD_eq
  intro v hv
  have hClear := h v hv
  simpa using hClear

/-- In a status without upper bits a round below 32 meets its own bit only. -/
theorem shifted_own (hLow : ∀ v, 32 ≤ v → ¬ status.getLsbD v) (hi : i < 32) {v : Nat}
    (hv : status.getLsbD v) : (shifted i).getLsbD v ↔ v = i := by
  have hLt : v < 32 := by
    by_contra hHigh
    exact hLow v (Nat.le_of_not_lt hHigh) hv
  obtain hi' | hLast := Nat.lt_or_ge i 31
  · exact shifted_low hi' v
  · have hEq : i = 31 := by omega
    rw [hEq, shifted_last]
    omega

theorem getLsbD_cleared (status : BitVec 64) (i v : Nat) :
    (status &&& ~~~(shifted i)).getLsbD v ↔ status.getLsbD v ∧ ¬ (shifted i).getLsbD v := by
  constructor
  · intro h
    have hBit : status.getLsbD v := by
      rw [BitVec.getLsbD_and, Bool.and_eq_true] at h
      exact h.1
    exact ⟨hBit, (getLsbD_clear status i hBit).mp h⟩
  · rintro ⟨hBit, hOut⟩
    exact (getLsbD_clear status i hBit).mpr hOut

/-! ## What a round leaves to do -/

theorem doSoftirqLoop_zero (n i : Nat) : doSoftirqLoop registered n i 0 = some ([], 0) := by
  cases n with
  | zero => rfl
  | succ n => exact if_pos rfl

theorem Served.clear (h : Served i status) (hi : i < 31) :
    Served (i + 1) (status &&& ~~~(shifted i)) := by
  intro u hu hBit
  obtain ⟨hOld, hOut⟩ := (getLsbD_cleared status i u).mp hBit
  rw [shifted_low hi] at hOut
  exact h u (by omega) hOld

theorem Served.skip (h : Served i status) (hi : i < 31) (hTest : ¬ status &&& shifted i ≠ 0) :
    Served (i + 1) status := by
  intro u hu hBit
  obtain hLt | rfl := Nat.lt_succ_iff_lt_or_eq.mp hu
  · exact h u hLt hBit
  · exact hTest ((and_ne_zero _ _).mpr ⟨u, hBit, (shifted_low hi u).mpr rfl⟩)

/-- Round 31 clears all that is left, vector 31 and whatever was pending above. -/
theorem Served.clear_last (h : Served 31 status) : status &&& ~~~(shifted 31) = 0 := by
  apply Served.eq_zero
  intro u hu hBit
  obtain ⟨hOld, hOut⟩ := (getLsbD_cleared status 31 u).mp hBit
  rw [shifted_last] at hOut
  exact h u (by omega) hOld

theorem Served.skip_last (h : Served 31 status) (hTest : ¬ status &&& shifted 31 ≠ 0) :
    status = 0 := by
  apply Served.eq_zero
  intro u hu hBit
  obtain hLt | hGe := Nat.lt_or_ge u 31
  · exact h u hLt hBit
  · exact hTest ((and_ne_zero _ _).mpr ⟨u, hBit, (shifted_last u).mpr ⟨hGe, hu⟩⟩)

/-! ## The whole call -/

/-- From round 31 on nothing is left to do, whatever was pending above. -/
theorem doSoftirqLoop_ran (hi : i ≤ 31) (hServed : Served i status)
    (h : doSoftirqLoop registered n i status = some (ran, left)) : ∀ v ∈ ran, v ≤ 31 := by
  induction n generalizing i status ran with
  | zero =>
    cases h
    exact fun v hv => absurd hv List.not_mem_nil
  | succ n ih =>
    rw [doSoftirqLoop] at h
    split at h
    · cases h
      exact fun v hv => absurd hv List.not_mem_nil
    · next hNe =>
      split at h
      · obtain ⟨-, hMap⟩ := Option.ite_none_right_eq_some.mp h
        obtain ⟨⟨rest, left'⟩, hRest, hEq⟩ := Option.map_eq_some_iff.mp hMap
        cases hEq
        intro v hv
        obtain rfl | hLater := List.mem_cons.mp hv
        · exact hi
        obtain hi' | rfl := Nat.lt_or_eq_of_le hi
        · exact ih hi' (hServed.clear hi') hRest v hLater
        · rw [hServed.clear_last, doSoftirqLoop_zero] at hRest
          cases hRest
          exact absurd hLater List.not_mem_nil
      · next hTest =>
        obtain hi' | rfl := Nat.lt_or_eq_of_le hi
        · exact ih hi' (hServed.skip hi' hTest) h
        · exact absurd (hServed.skip_last hTest) hNe

/-- Without upper bits every round serves its own vector. -/
theorem doSoftirqLoop_low (hRounds : i + n = 64) (hServed : Served i status)
    (hLow : ∀ v, 32 ≤ v → ¬ status.getLsbD v)
    (hReg : ∀ v, status.getLsbD v → registered v) :
    doSoftirqLoop registered n i status =
      some ((List.range' i n).filter fun v => status.getLsbD v, 0) := by
  induction n generalizing i status with
  | zero =>
    have hAll : i = 64 := hRounds
    subst hAll
    rw [doSoftirqLoop, hServed.eq_zero]
    rfl
  | succ n ih =>
    rw [doSoftirqLoop]
    split
    · next hZero =>
      rw [hZero]
      congr 2
      symm
      rw [List.filter_eq_nil_iff]
      intro v _
      simp
    · next hNe =>
      have hi : i < 32 := by
        by_contra hHigh
        apply hNe
        apply Served.eq_zero
        intro v _ hBit
        obtain hLt | hGe := Nat.lt_or_ge v i
        · exact hServed v hLt hBit
        · exact hLow v (by omega) hBit
      have hTest : status &&& shifted i ≠ 0 ↔ status.getLsbD i := by
        rw [and_ne_zero]
        constructor
        · rintro ⟨v, hBit, hMask⟩
          exact (shifted_own hLow hi hBit).mp hMask ▸ hBit
        · intro hBit
          exact ⟨i, hBit, (shifted_own hLow hi hBit).mpr rfl⟩
      rw [List.range'_succ, List.filter_cons]
      by_cases hBit : status.getLsbD i
      · have hCleared : ∀ v, (status &&& ~~~(shifted i)).getLsbD v ↔
            status.getLsbD v ∧ v ≠ i := by
          intro v
          rw [getLsbD_cleared]
          apply and_congr_right
          intro hv
          exact not_congr (shifted_own hLow hi hv)
        have hServedNext : Served (i + 1) (status &&& ~~~(shifted i)) := by
          intro v hv hOn
          obtain ⟨hOld, hNe'⟩ := (hCleared v).mp hOn
          exact hServed v (by omega) hOld
        have hLowNext : ∀ v, 32 ≤ v → ¬ (status &&& ~~~(shifted i)).getLsbD v := by
          intro v hv hOn
          exact hLow v hv ((hCleared v).mp hOn).1
        have hRegNext : ∀ v, (status &&& ~~~(shifted i)).getLsbD v → registered v := by
          intro v hOn
          exact hReg v ((hCleared v).mp hOn).1
        have hRest := ih (by omega) hServedNext hLowNext hRegNext
        have hSame : (List.range' (i + 1) n).filter
            (fun v => (status &&& ~~~(shifted i)).getLsbD v) =
            (List.range' (i + 1) n).filter fun v => status.getLsbD v := by
          apply List.filter_congr
          intro v hv
          have hRange := List.mem_range'_1.mp hv
          have hNe' : v ≠ i := by omega
          rw [Bool.eq_iff_iff, hCleared]
          exact and_iff_left hNe'
        rw [if_pos (hTest.mpr hBit), if_pos (hReg i hBit), hRest, hSame, if_pos hBit]
        rfl
      · have hNext : Served (i + 1) status := by
          intro v hv hOn
          obtain hLt | rfl := Nat.lt_succ_iff_lt_or_eq.mp hv
          · exact hServed v hLt hOn
          · exact hBit hOn
        rw [if_neg (fun hOn => hBit (hTest.mp hOn)), if_neg hBit]
        exact ih (by omega) hNext hLow hReg

end

/-- The call serves the pending vectors, each once and in order, exactly when none of them is in
the upper half. -/
theorem doSoftirqCall_iff_low (registered : Nat → Bool) (status : BitVec 64)
    (hReg : ∀ v, status.getLsbD v → registered v) :
    doSoftirqCall registered status =
      some ((List.range 64).filter fun v => status.getLsbD v, 0) ↔
    ∀ v, 32 ≤ v → ¬ status.getLsbD v := by
  have hStart : Served 0 status := fun v hv => absurd hv (Nat.not_lt_zero v)
  constructor
  · intro h v hHigh hBit
    have hMem : v ∈ (List.range 64).filter fun v => status.getLsbD v :=
      List.mem_filter.mpr ⟨List.mem_range.mpr (BitVec.lt_of_getLsbD hBit), hBit⟩
    have hRan := doSoftirqLoop_ran (Nat.zero_le 31) hStart h v hMem
    omega
  · intro hLow
    rw [List.range_eq_range']
    exact doSoftirqLoop_low rfl hStart hLow hReg

/-- Vector 40 alone is pending: the action of vector 31 runs in its place, or `NULL` is called. -/
theorem doSoftirqCall_upper :
    ¬ ∀ (registered : Nat → Bool) (status : BitVec 64),
      (∀ v, status.getLsbD v → registered v) → doSoftirqCall registered status =
        some ((List.range 64).filter fun v => status.getLsbD v, 0) := by
  intro h
  have hOnly : ∀ v, (1#64 <<< 40).getLsbD v → decide (v = 40) = true := by
    intro v hv
    rw [BitVec.getLsbD_shiftLeft, BitVec.getLsbD_one] at hv
    simp only [Bool.and_eq_true, Bool.not_eq_true', decide_eq_true_eq,
      decide_eq_false_iff_not] at hv ⊢
    omega
  have hCall := h (fun v => decide (v = 40)) (1#64 <<< 40) hOnly
  have hNull : doSoftirqCall (fun v => decide (v = 40)) (1#64 <<< 40) = none := by decide +kernel
  rw [hNull] at hCall
  cases hCall

/-- The timer and the last of the low vectors. -/
theorem doSoftirqCall_iff_low_timer :
    doSoftirqCall (fun _ => true) 0x80000001#64 = some ([0, 31], 0) := by
  have hLow : ∀ v, 32 ≤ v → ¬ (0x80000001#64).getLsbD v := by
    intro v hv hBit
    have hLt := BitVec.lt_of_getLsbD hBit
    have hNone : ∀ u < 64, 32 ≤ u → ¬ (0x80000001#64).getLsbD u := by decide +kernel
    exact hNone v hLt hv hBit
  exact (doSoftirqCall_iff_low (fun _ => true) 0x80000001#64 fun _ _ => rfl).mpr hLow

end KalinoteOS.Softirq
