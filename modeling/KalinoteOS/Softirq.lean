import KalinoteOS.Lib.Run
import Mathlib.Logic.Function.Basic

/-! # Soft interrupts

`do_softirq` clears a vector's bit after its action, and runs with interrupts enabled. Only `ret_from_intr`
calls it, at the end of every interrupt that leaves the status other than 0; so an interrupt that comes
between two of its statements has a call of its own before the interrupted one goes on.
-/
namespace KalinoteOS.Softirq
open Lib
set_option autoImplicit false

/-- The next statement of a call of `do_softirq`. -/
inductive Pc where
  | loop (i : Nat)
  | test (i : Nat)
  | call (i : Nat)
  | clear (i : Nat)
  | next (i : Nat)
  deriving DecidableEq, Repr

/-- `calls` are the calls of `do_softirq` that have not returned, the innermost first. `pending v` says that
`v` was raised and that its action has not started since. -/
structure State where
  softirqStatus : BitVec 64
  calls : List Pc
  pending : Nat → Bool

def init : State := ⟨0, [], fun _ => false⟩

/-- `1 << i`, an `int`: the count is taken modulo 32 and the result is sign-extended. -/
def shifted (i : Nat) : BitVec 64 := (1#32 <<< (i % 32)).signExtend 64

def setSoftirqStatus (s : State) (status : BitVec 64) : State :=
  { s with softirqStatus := s.softirqStatus ||| status }

/-- `ret_from_intr` up to its call of `do_softirq`. -/
def retFromIntr (s : State) : State :=
  if s.softirqStatus ≠ 0 then { s with calls := .loop 0 :: s.calls } else s

inductive Action where
  /-- An interrupt, whose handler may raise a vector. -/
  | interrupt (raised : Option Nat)
  | doSoftirq
  deriving DecidableEq, Repr

/-- One statement of the innermost call of `do_softirq`. A vector without an action is a call of `NULL`. -/
def doSoftirq (registered : Nat → Bool) (s : State) : Option State :=
  match s.calls with
  | [] => none
  | .loop i :: rest =>
    some { s with calls := if i < 64 ∧ s.softirqStatus ≠ 0 then .test i :: rest else rest }
  | .test i :: rest =>
    some { s with calls := (if s.softirqStatus &&& shifted i ≠ 0 then .call i else .next i) :: rest }
  | .call i :: rest =>
    if registered i then
      some { s with calls := .clear i :: rest, pending := Function.update s.pending i false }
    else none
  | .clear i :: rest =>
    some { s with calls := .next i :: rest, softirqStatus := s.softirqStatus &&& ~~~(shifted i) }
  | .next i :: rest => some { s with calls := .loop (i + 1) :: rest }

def step (registered : Nat → Bool) (s : State) : Action → Option State
  | .interrupt none => some (retFromIntr s)
  | .interrupt (some v) =>
    if v < 64 ∧ registered v then
      some (retFromIntr
        { setSoftirqStatus s (1#64 <<< v) with pending := Function.update s.pending v true })
    else none
  | .doSoftirq => doSoftirq registered s

def Step (registered : Nat → Bool) (s : State) (a : Action) (t : State) : Prop :=
  step registered s a = some t

/-- A raised vector whose action has not started since still has its bit. -/
def Kept (s : State) : Prop := ∀ v, s.pending v → s.softirqStatus.getLsbD v

/-- No action starts whose `1 << i` covers the bit of another pending vector. -/
def Good (s : State) : Action → Prop
  | .interrupt _ => True
  | .doSoftirq => ∀ i rest, s.calls = .call i :: rest →
    ∀ v, v ≠ i → s.pending v → ¬ (shifted i).getLsbD v

/-! ## Bits -/

/-- Below 31 `1 << i` is the bit of vector `i` and no other. -/
theorem shifted_low {i : Nat} (hi : i < 31) (v : Nat) : (shifted i).getLsbD v ↔ v = i := by
  have hMsb : (1#32 <<< i).msb = false := by
    rw [BitVec.msb_eq_getLsbD_last, BitVec.getLsbD_shiftLeft, BitVec.getLsbD_one]
    simp only [Bool.and_eq_false_iff, decide_eq_false_iff_not]
    right
    omega
  unfold shifted
  rw [Nat.mod_eq_of_lt (by omega), BitVec.getLsbD_signExtend, hMsb, BitVec.getLsbD_shiftLeft,
    BitVec.getLsbD_one]
  split
  · simp only [Bool.and_eq_true, Bool.not_eq_true', decide_eq_true_eq, decide_eq_false_iff_not]
    omega
  · simp only [Bool.and_false, Bool.false_eq_true, false_iff]
    omega

theorem getLsbD_raise (status : BitVec 64) {v : Nat} (hv : v < 64) (u : Nat) :
    (status ||| 1#64 <<< v).getLsbD u ↔ status.getLsbD u ∨ u = v := by
  rw [BitVec.getLsbD_or, Bool.or_eq_true, BitVec.getLsbD_shiftLeft, BitVec.getLsbD_one]
  simp only [Bool.and_eq_true, Bool.not_eq_true', decide_eq_true_eq, decide_eq_false_iff_not]
  apply or_congr_right
  omega

theorem getLsbD_clear (status : BitVec 64) (i : Nat) {v : Nat} (hv : status.getLsbD v) :
    (status &&& ~~~(shifted i)).getLsbD v ↔ ¬ (shifted i).getLsbD v := by
  have hLt : v < 64 := BitVec.lt_of_getLsbD hv
  rw [BitVec.getLsbD_and, BitVec.getLsbD_not, hv, decide_eq_true hLt]
  simp only [Bool.true_and, Bool.not_eq_true']
  exact Bool.not_eq_true _ |>.symm.to_iff

/-- The sign of `1 << 31` fills the upper half. -/
theorem shifted_last (v : Nat) : (shifted 31).getLsbD v ↔ 31 ≤ v ∧ v < 64 := by
  have hMask : shifted 31 = BitVec.allOnes 64 <<< 31 := by decide
  rw [hMask, BitVec.getLsbD_shiftLeft, BitVec.getLsbD_allOnes]
  simp only [Bool.and_eq_true, Bool.not_eq_true', decide_eq_true_eq, decide_eq_false_iff_not]
  omega

/-- A vector is met in its own round, or in round 31. -/
theorem shifted_meets {v : Nat} (hv : v < 64) : (shifted (min v 31)).getLsbD v := by
  obtain hLow | hHigh := Nat.lt_or_ge v 31
  · rw [Nat.min_eq_left (Nat.le_of_lt hLow)]
    exact (shifted_low hLow v).mpr rfl
  · rw [Nat.min_eq_right hHigh]
    exact (shifted_last v).mpr ⟨hHigh, hv⟩

theorem and_ne_zero (x y : BitVec 64) : x &&& y ≠ 0 ↔ ∃ v, x.getLsbD v ∧ y.getLsbD v := by
  constructor
  · intro hNe
    by_contra hNone
    apply hNe
    apply BitVec.eq_of_getLsbD_eq
    intro v _
    rw [BitVec.getLsbD_and]
    by_contra hBit
    apply hNone
    exact ⟨v, by simpa using hBit⟩
  · rintro ⟨v, hx, hy⟩ hZero
    have hBit := congrArg (fun z => z.getLsbD v) hZero
    rw [BitVec.getLsbD_and, hx, hy] at hBit
    simp at hBit

/-! ## Runs -/

/-- The round whose test comes next, or whose action does. -/
def Pc.round : Pc → Nat
  | .loop i | .test i | .call i => i
  | .clear i | .next i => i + 1

/-- The innermost call has still to come to the round in which a pending vector is met. -/
structure Inv (s : State) : Prop where
  kept : Kept s
  ahead : ∀ v, s.pending v → ∃ pc rest, s.calls = pc :: rest ∧ pc.round ≤ min v 31

section
variable {registered : Nat → Bool} {s t : State}

theorem interrupt_cases {raised : Option Nat} (h : Step registered s (.interrupt raised) t) :
    ∃ u, t = retFromIntr u ∧ u.calls = s.calls ∧
      ((raised = none ∧ u = s) ∨ ∃ v, raised = some v ∧ v < 64 ∧ registered v ∧
        u.pending = Function.update s.pending v true ∧ u.softirqStatus = s.softirqStatus ||| 1#64 <<< v) := by
  cases raised with
  | none =>
    cases h
    exact ⟨s, rfl, rfl, Or.inl ⟨rfl, rfl⟩⟩
  | some v =>
    obtain ⟨⟨hv, hReg⟩, hEq⟩ := Option.ite_none_right_eq_some.mp h
    cases hEq
    exact ⟨_, rfl, rfl, Or.inr ⟨v, rfl, hv, hReg, rfl, rfl⟩⟩

/-- What one statement of `do_softirq` changes. -/
theorem doSoftirq_cases (h : Step registered s .doSoftirq t) :
    (∃ i rest, s.calls = .call i :: rest ∧ registered i ∧ t.calls = .clear i :: rest ∧
      t.pending = Function.update s.pending i false ∧ t.softirqStatus = s.softirqStatus) ∨
    (∃ i rest, s.calls = .clear i :: rest ∧ t.calls = .next i :: rest ∧ t.pending = s.pending ∧
      t.softirqStatus = s.softirqStatus &&& ~~~(shifted i)) ∨
    (t.pending = s.pending ∧ t.softirqStatus = s.softirqStatus ∧ ∃ i rest,
      (s.calls = .loop i :: rest ∧
        t.calls = if i < 64 ∧ s.softirqStatus ≠ 0 then .test i :: rest else rest) ∨
      (s.calls = .test i :: rest ∧
        t.calls = (if s.softirqStatus &&& shifted i ≠ 0 then .call i else .next i) :: rest) ∨
      s.calls = .next i :: rest ∧ t.calls = .loop (i + 1) :: rest) := by
  change doSoftirq registered s = some t at h
  unfold doSoftirq at h
  split at h
  case h_1 => cases h
  case h_2 i rest hCalls =>
    cases h
    exact Or.inr (Or.inr ⟨rfl, rfl, i, rest, Or.inl ⟨hCalls, rfl⟩⟩)
  case h_3 i rest hCalls =>
    cases h
    exact Or.inr (Or.inr ⟨rfl, rfl, i, rest, Or.inr (Or.inl ⟨hCalls, rfl⟩)⟩)
  case h_4 i rest hCalls =>
    obtain ⟨hReg, hEq⟩ := Option.ite_none_right_eq_some.mp h
    cases hEq
    exact Or.inl ⟨i, rest, hCalls, hReg, rfl, rfl, rfl⟩
  case h_5 i rest hCalls =>
    cases h
    exact Or.inr (Or.inl ⟨i, rest, hCalls, rfl, rfl, rfl⟩)
  case h_6 i rest hCalls =>
    cases h
    exact Or.inr (Or.inr ⟨rfl, rfl, i, rest, Or.inr (Or.inr ⟨hCalls, rfl⟩)⟩)

theorem Inv.round_le (h : Inv s) {pc : Pc} {rest : List Pc} (hCalls : s.calls = pc :: rest) {v : Nat}
    (hv : s.pending v) : pc.round ≤ min v 31 := by
  obtain ⟨pc', rest', hCalls', hLe⟩ := h.ahead v hv
  cases hCalls.symm.trans hCalls'
  exact hLe

theorem retFromIntr_inv {u : State} (h : Kept u) : Inv (retFromIntr u) := by
  unfold retFromIntr
  split
  · exact ⟨h, fun v _ => ⟨.loop 0, u.calls, rfl, Nat.zero_le _⟩⟩
  · next hZero =>
    refine ⟨h, fun v hv => ?_⟩
    have hBit := h v hv
    rw [not_not.mp hZero] at hBit
    simp at hBit

theorem interrupt_inv {raised : Option Nat} (h : Inv s) (hStep : Step registered s (.interrupt raised) t) :
    Inv t := by
  obtain ⟨u, rfl, -, ⟨-, rfl⟩ | ⟨v, -, hv, -, hPending, hStatus⟩⟩ := interrupt_cases hStep
  · exact retFromIntr_inv h.kept
  · refine retFromIntr_inv fun w hw => ?_
    rw [hStatus, getLsbD_raise _ hv]
    obtain rfl | hNe := eq_or_ne w v
    · exact Or.inr rfl
    · rw [hPending, Function.update_of_ne hNe] at hw
      exact Or.inl (h.kept w hw)

/-- The clear of a round below 31 takes one bit, that of a vector which is not pending. -/
theorem doSoftirq_kept (h : Inv s) (hStep : Step registered s .doSoftirq t) : Kept t := by
  obtain ⟨i, rest, -, -, -, hPending, hStatus⟩ | ⟨i, rest, hCalls, -, hPending, hStatus⟩ |
    ⟨hPending, hStatus, -⟩ := doSoftirq_cases hStep
  · intro v hv
    rw [hStatus]
    rw [hPending] at hv
    obtain rfl | hNe := eq_or_ne v i
    · rw [Function.update_self] at hv
      cases hv
    · rw [Function.update_of_ne hNe] at hv
      exact h.kept v hv
  · intro v hv
    rw [hPending] at hv
    have hLe : i + 1 ≤ min v 31 := h.round_le hCalls hv
    rw [hStatus, getLsbD_clear _ i (h.kept v hv), shifted_low (by omega)]
    omega
  · intro v hv
    rw [hStatus]
    exact h.kept v (hPending ▸ hv)

/-- The innermost call goes past the round of no pending vector. -/
theorem doSoftirq_ahead (h : Inv s) (hGood : Good s .doSoftirq) (hStep : Step registered s .doSoftirq t) (v : Nat)
    (hv : t.pending v) : ∃ pc rest, t.calls = pc :: rest ∧ pc.round ≤ min v 31 := by
  have hBit : ∀ {v}, s.pending v → (shifted (min v 31)).getLsbD v := fun hv =>
    shifted_meets (BitVec.lt_of_getLsbD (h.kept _ hv))
  obtain ⟨i, rest, hCalls, -, hNext, hPending, -⟩ | ⟨i, rest, hCalls, hNext, hPending, -⟩ |
    ⟨hPending, -, i, rest, ⟨hCalls, hNext⟩ | ⟨hCalls, hNext⟩ | ⟨hCalls, hNext⟩⟩ := doSoftirq_cases hStep
  · rw [hPending] at hv
    obtain rfl | hNe := eq_or_ne v i
    · rw [Function.update_self] at hv
      cases hv
    rw [Function.update_of_ne hNe] at hv
    have hLe : i ≤ min v 31 := h.round_le hCalls hv
    obtain hLt | rfl := Nat.lt_or_eq_of_le hLe
    · exact ⟨.clear i, rest, hNext, hLt⟩
    · exact absurd (hBit hv) (hGood _ rest hCalls v hNe hv)
  · rw [hPending] at hv
    exact ⟨.next i, rest, hNext, h.round_le hCalls hv⟩
  · rw [hPending] at hv
    have hLe : i ≤ min v 31 := h.round_le hCalls hv
    have hStatus : s.softirqStatus ≠ 0 := by
      intro hZero
      have hKept := h.kept v hv
      rw [hZero] at hKept
      simp at hKept
    exact ⟨.test i, rest, hNext.trans (if_pos ⟨by omega, hStatus⟩), hLe⟩
  · rw [hPending] at hv
    have hLe : i ≤ min v 31 := h.round_le hCalls hv
    by_cases hTest : s.softirqStatus &&& shifted i ≠ 0
    · rw [if_pos hTest] at hNext
      exact ⟨.call i, rest, hNext, hLe⟩
    · rw [if_neg hTest] at hNext
      refine ⟨.next i, rest, hNext, Nat.succ_le_of_lt (Nat.lt_of_le_of_ne hLe ?_)⟩
      rintro rfl
      exact hTest ((and_ne_zero _ _).mpr ⟨v, h.kept v hv, hBit hv⟩)
  · rw [hPending] at hv
    exact ⟨.loop (i + 1), rest, hNext, h.round_le hCalls hv⟩

theorem step_kept {a : Action} (h : Inv s) (hStep : Step registered s a t) : Kept t := by
  cases a with
  | interrupt raised => exact (interrupt_inv h hStep).kept
  | doSoftirq => exact doSoftirq_kept h hStep

theorem step_inv {a : Action} (h : Inv s) (hGood : Good s a) (hStep : Step registered s a t) : Inv t := by
  cases a with
  | interrupt raised => exact interrupt_inv h hStep
  | doSoftirq => exact ⟨doSoftirq_kept h hStep, doSoftirq_ahead h hGood hStep⟩

theorem init_pending (v : Nat) : ¬ init.pending v := Bool.false_ne_true

theorem reach_inv (h : Reach (· = init) (Guarded Good (Step registered)) s) : Inv s := by
  apply Reach.invariant (P := Inv) _ _ h
  · rintro s rfl
    exact ⟨fun v hv => absurd hv (init_pending v), fun v hv => absurd hv (init_pending v)⟩
  · intro s a t hs hStep
    exact step_inv hs hStep.1 hStep.2

/-- A clear takes the bit of every vector it covers. -/
theorem clear_lost (registered : Nat → Bool) {i v : Nat} {rest : List Pc} (hKept : Kept s)
    (hCalls : s.calls = .clear i :: rest) (hv : s.pending v) (hBit : (shifted i).getLsbD v) :
    ∃ u, Step registered s .doSoftirq u ∧ ¬ Kept u := by
  refine ⟨{ s with calls := .next i :: rest, softirqStatus := s.softirqStatus &&& ~~~(shifted i) }, ?_, ?_⟩
  · show doSoftirq registered s = _
    unfold doSoftirq
    rw [hCalls]
  · intro h
    exact (getLsbD_clear _ i (hKept v hv)).mp (h v hv) hBit

/-- As long as every step is good no raise is lost, and a step is good exactly when the statement
of `do_softirq` behind it loses none either. -/
theorem kept_iff_good (registered : Nat → Bool) (s : State)
    (h : Reach (· = init) (Guarded Good (Step registered)) s) :
    Kept s ∧ ∀ a t, Step registered s a t →
      Kept t ∧ (Good s a ↔ ∀ u, Step registered t .doSoftirq u → Kept u) := by
  have hInv := reach_inv h
  refine ⟨hInv.kept, fun a t hStep => ⟨step_kept hInv hStep, fun hGood u hNext => ?_, fun hNext => ?_⟩⟩
  · exact doSoftirq_kept (step_inv hInv hGood hStep) hNext
  · cases a with
    | interrupt raised => trivial
    | doSoftirq =>
      intro i rest hCalls v hNe hv hBit
      obtain ⟨j, rest', hCalls', -, hClear, hPending, -⟩ | ⟨j, rest', hCalls', -⟩ |
        ⟨-, -, j, rest', ⟨hCalls', -⟩ | ⟨hCalls', -⟩ | ⟨hCalls', -⟩⟩ := doSoftirq_cases hStep
      · cases hCalls.symm.trans hCalls'
        have hStill : t.pending v := by
          rw [hPending, Function.update_of_ne hNe]
          exact hv
        obtain ⟨u, hu, hLost⟩ := clear_lost registered (step_kept hInv hStep) hClear hStill hBit
        exact hLost (hNext u hu)
      all_goals cases hCalls.symm.trans hCalls'

end

/-- A raise of 40 is taken for one of 31. -/
theorem raise_lost : ¬ ∀ s, Reach (· = init) (Step fun v => v = 31 ∨ v = 40) s → Kept s := by
  intro h
  have hLost : (runList (step fun v => v = 31 ∨ v = 40) init
      (.interrupt (some 40) :: List.replicate 97 .doSoftirq)).map
        (fun s => (s.pending 40, s.softirqStatus.getLsbD 40)) = some (true, false) := by decide +kernel
  obtain ⟨s, hs, hEq⟩ := Option.map_eq_some_iff.mp hLost
  obtain ⟨hPending, hBit⟩ := Prod.mk.inj hEq
  have hRun : Run (Step fun v => v = 31 ∨ v = 40) init (.interrupt (some 40) :: List.replicate 97 .doSoftirq) s :=
    run_of_runList (fun _ _ _ hNext => hNext) hs
  have hKept := h s ⟨init, _, rfl, hRun⟩ 40 hPending
  rw [hBit] at hKept
  cases hKept

/-! ## Vectors below 32 -/

/-- With vectors below 32 only, every run is good. -/
theorem reach_good {registered : Nat → Bool} {s : State} (hLow : ∀ v, registered v → v < 32)
    (h : Reach (· = init) (Step registered) s) : Reach (· = init) (Guarded Good (Step registered)) s := by
  have hBoth : Reach (· = init) (Guarded Good (Step registered)) s ∧ ∀ v, s.pending v → registered v := by
    refine Reach.invariant (P := fun s => Reach (· = init) (Guarded Good (Step registered)) s ∧
      ∀ v, s.pending v → registered v) ?_ ?_ h
    · rintro s rfl
      exact ⟨.start rfl, fun v hv => absurd hv (init_pending v)⟩
    · rintro s a t ⟨hReach, hReg⟩ hStep
      cases a with
      | interrupt raised =>
        have hGood : Good s (.interrupt raised) := trivial
        refine ⟨hReach.next ⟨hGood, hStep⟩, fun v hv => ?_⟩
        obtain ⟨u, rfl, -, hRaised⟩ := interrupt_cases hStep
        have hSame : (retFromIntr u).pending = u.pending := by
          unfold retFromIntr
          split <;> rfl
        rw [hSame] at hv
        obtain ⟨-, rfl⟩ | ⟨w, -, -, hw, hPending, -⟩ := hRaised
        · exact hReg v hv
        · obtain rfl | hNe := eq_or_ne v w
          · exact hw
          · rw [hPending, Function.update_of_ne hNe] at hv
            exact hReg v hv
      | doSoftirq =>
        have hGood : Good s .doSoftirq := by
          intro i rest hCalls v hNe hv hBit
          obtain ⟨j, _, hCalls', hCalled, -⟩ | ⟨_, _, hCalls', -⟩ |
            ⟨-, -, _, _, ⟨hCalls', -⟩ | ⟨hCalls', -⟩ | ⟨hCalls', -⟩⟩ := doSoftirq_cases hStep
          · cases hCalls.symm.trans hCalls'
            have hv' := hLow v (hReg v hv)
            obtain hi | rfl := Nat.lt_or_eq_of_le (Nat.lt_succ_iff.mp (hLow i hCalled))
            · exact hNe ((shifted_low hi v).mp hBit)
            · have hFrom := ((shifted_last v).mp hBit).1
              omega
          all_goals cases hCalls.symm.trans hCalls'
        refine ⟨hReach.next ⟨hGood, hStep⟩, fun v hv => ?_⟩
        obtain ⟨i, -, -, -, -, hPending, -⟩ | ⟨-, -, -, -, hPending, -⟩ | ⟨hPending, -⟩ := doSoftirq_cases hStep
        · rw [hPending] at hv
          obtain rfl | hNe := eq_or_ne v i
          · rw [Function.update_self] at hv
            cases hv
          · rw [Function.update_of_ne hNe] at hv
            exact hReg v hv
        · exact hReg v (hPending ▸ hv)
        · exact hReg v (hPending ▸ hv)
  exact hBoth.1

/-- The timer's vector is raised again between its action and the clear: the interrupt runs the action a
second time, and the clear behind it takes nothing. -/
theorem kept_iff_good_timer : ∃ s, s.calls = [.next 0] ∧ s.softirqStatus = 0 ∧ Kept s := by
  have hEnd : (runList (step fun v => v = 0) init (.interrupt (some 0) :: (List.replicate 3 .doSoftirq ++
      .interrupt (some 0) :: List.replicate 7 .doSoftirq))).map
        (fun s => (s.calls, s.softirqStatus)) = some ([.next 0], 0) := by decide
  obtain ⟨s, hs, hEq⟩ := Option.map_eq_some_iff.mp hEnd
  obtain ⟨hCalls, hStatus⟩ := Prod.mk.inj hEq
  have hRun : Run (Step fun v => v = 0) init _ s := run_of_runList (fun _ _ _ hNext => hNext) hs
  have hLow : ∀ v, decide (v = 0) = true → v < 32 := fun v hv => by
    rw [of_decide_eq_true hv]
    decide
  exact ⟨s, hCalls, hStatus, (kept_iff_good _ s (reach_good hLow ⟨init, _, rfl, hRun⟩)).1⟩

end KalinoteOS.Softirq
