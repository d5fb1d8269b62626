import Mathlib.Data.List.Basic

/-! # The loop `do … while(p != first)` over a ring

The ring is the list of its members in `next` order; behind the last comes the first again. A
round may move on, stay where it is, or leave the loop with a value.
-/
namespace KalinoteOS.Lib
set_option autoImplicit false

universe u v

inductive Visit (β : Type v) where
  | next
  | stay
  | done (b : β)

/-- The outer `none` is a loop that is not over, the inner one a loop that came back to `first`. -/
def ringLoop {α : Type u} {β : Type v} (ring : List α) (first : Nat) (visit : α → Visit β) :
    Nat → Nat → Option (Option (Nat × β))
  | 0, _ => none
  | fuel + 1, pos =>
    match ring[pos]? with
    | none => none
    | some a =>
      match visit a with
      | .next =>
        let pos := (pos + 1) % ring.length
        if pos ≠ first then ringLoop ring first visit fuel pos else some none
      | .stay => if pos ≠ first then ringLoop ring first visit fuel pos else some none
      | .done b => some (some (pos, b))

section
variable {α : Type u} {β : Type v} {ring : List α} {visit : α → Visit β}

/-- What the loop leaves with was found at its place. -/
theorem ringLoop_done {first fuel pos k : Nat} {b : β}
    (h : ringLoop ring first visit fuel pos = some (some (k, b))) :
    ∃ a, ring[k]? = some a ∧ visit a = .done b := by
  induction fuel generalizing pos with
  | zero => cases h
  | succ fuel ih =>
    rw [ringLoop] at h
    split at h
    · cases h
    · next a hAt =>
      split at h
      · dsimp only at h
        split at h
        · exact ih h
        · cases h
      · split at h
        · exact ih h
        · cases h
      · next b' hVisit =>
        cases h
        exact ⟨a, hAt, hVisit⟩

/-- A loop in which no round stays ends, and comes back only if every round moved on. -/
theorem ringLoop_ends {fuel pos : Nat} (hFuel : ring.length ≤ pos + fuel) (hPos : pos < ring.length)
    (hStay : ∀ a ∈ ring, visit a ≠ .stay)
    (hBefore : ∀ i a, i < pos → ring[i]? = some a → visit a = .next) :
    ∃ r, ringLoop ring 0 visit fuel pos = some r ∧ (r = none → ∀ a ∈ ring, visit a = .next) := by
  induction fuel generalizing pos with
  | zero => omega
  | succ fuel ih =>
    have hAt : ring[pos]? = some ring[pos] := List.getElem?_eq_getElem hPos
    rw [ringLoop, hAt]
    dsimp only
    cases hVisit : visit ring[pos] with
    | stay => exact absurd hVisit (hStay _ (List.getElem_mem hPos))
    | done b => exact ⟨_, rfl, fun h => by cases h⟩
    | next =>
      have hUpTo : ∀ i a, i < pos + 1 → ring[i]? = some a → visit a = .next := by
        intro i a hi ha
        obtain hLt | rfl := Nat.lt_succ_iff_lt_or_eq.mp hi
        · exact hBefore i a hLt ha
        · rw [hAt] at ha
          cases ha
          exact hVisit
      dsimp only
      obtain hNext | hLast := Nat.lt_or_ge (pos + 1) ring.length
      · rw [Nat.mod_eq_of_lt hNext, if_pos (Nat.succ_ne_zero pos)]
        exact ih (by omega) hNext hUpTo
      · have hEnd : pos + 1 = ring.length := by omega
        rw [hEnd, Nat.mod_self, if_neg (not_not.mpr rfl)]
        refine ⟨none, rfl, fun _ a ha => ?_⟩
        obtain ⟨i, hi, rfl⟩ := List.getElem_of_mem ha
        exact hUpTo i _ (by omega) (List.getElem?_eq_getElem hi)

/-- From the first member on, every member is seen before the loop comes back. -/
theorem ringLoop_total {fuel : Nat} (hFuel : ring.length ≤ fuel) (hPos : 0 < ring.length)
    (hStay : ∀ a ∈ ring, visit a ≠ .stay) :
    ∃ r, ringLoop ring 0 visit fuel 0 = some r ∧ (r = none → ∀ a ∈ ring, visit a = .next) :=
  ringLoop_ends (by omega) hPos hStay fun i _ hi => absurd hi (Nat.not_lt_zero i)

/-- Somebody on the ring stops the loop, so it stops there or earlier. -/
theorem ringLoop_finds {fuel : Nat} (hFuel : ring.length ≤ fuel)
    (hStay : ∀ a ∈ ring, visit a ≠ .stay) {a : α} (ha : a ∈ ring) (hSome : visit a ≠ .next) :
    ∃ k b, ringLoop ring 0 visit fuel 0 = some (some (k, b)) := by
  obtain ⟨r, hLoop, hNone⟩ := ringLoop_total hFuel (List.length_pos_of_mem ha) hStay
  cases r with
  | none => exact absurd (hNone rfl a ha) hSome
  | some found => exact ⟨found.1, found.2, hLoop⟩

section
variable {P : α → Prop} [DecidablePred P] {b : β}
  (hVisit : ∀ a, visit a = if P a then .done b else .next)
include hVisit

theorem visit_eq_done {a : α} {c : β} (h : visit a = .done c) : P a ∧ c = b := by
  rw [hVisit] at h
  split at h
  · next hP =>
    cases h
    exact ⟨hP, rfl⟩
  · cases h

theorem visit_ne_stay (a : α) : visit a ≠ .stay := by
  rw [hVisit]
  intro hStay
  split at hStay
  · cases hStay
  · cases hStay

/-- A loop that looks for a property stops at a member that has it, if there is one. -/
theorem ringLoop_search {fuel : Nat} (hFuel : ring.length ≤ fuel) {a : α} (ha : a ∈ ring)
    (hP : P a) :
    ∃ k c, ringLoop ring 0 visit fuel 0 = some (some (k, b)) ∧ ring[k]? = some c ∧ P c := by
  have hSome : visit a ≠ .next := by
    rw [hVisit, if_pos hP]
    intro hNext
    cases hNext
  obtain ⟨k, b', hLoop⟩ := ringLoop_finds hFuel (fun a _ => visit_ne_stay hVisit a) ha hSome
  obtain ⟨c, hAt, hDone⟩ := ringLoop_done hLoop
  obtain ⟨hPc, rfl⟩ := visit_eq_done hVisit hDone
  exact ⟨k, c, hLoop, hAt, hPc⟩

/-- It comes back to the first member if there is none. -/
theorem ringLoop_search_none {fuel : Nat} (hFuel : ring.length ≤ fuel) (hPos : 0 < ring.length)
    (hNone : ∀ a ∈ ring, ¬ P a) : ringLoop ring 0 visit fuel 0 = some none := by
  obtain ⟨r, hLoop, -⟩ := ringLoop_total hFuel hPos fun a _ => visit_ne_stay hVisit a
  cases r with
  | none => exact hLoop
  | some found =>
    obtain ⟨c, hAt, hDone⟩ := ringLoop_done hLoop
    exact absurd (visit_eq_done hVisit hDone).1 (hNone c (List.mem_of_getElem? hAt))

end

/-- A loop that is over does not care for more rounds. -/
theorem ringLoop_mono {first fuel fuel' pos : Nat} {r : Option (Nat × β)} (hLe : fuel ≤ fuel')
    (h : ringLoop ring first visit fuel pos = some r) :
    ringLoop ring first visit fuel' pos = some r := by
  induction fuel generalizing fuel' pos with
  | zero => cases h
  | succ fuel ih =>
    obtain ⟨n, rfl⟩ : ∃ n, fuel' = n + 1 := ⟨fuel' - 1, by omega⟩
    have hLe' : fuel ≤ n := Nat.le_of_succ_le_succ hLe
    rw [ringLoop] at h ⊢
    split at h
    · cases h
    · split at h
      · dsimp only at h ⊢
        split at h
        · next hNe =>
          rw [if_pos hNe]
          exact ih hLe' h
        · next hEq =>
          rw [if_neg hEq]
          exact h
      · split at h
        · next hNe =>
          rw [if_pos hNe]
          exact ih hLe' h
        · next hEq =>
          rw [if_neg hEq]
          exact h
      · exact h

end

end KalinoteOS.Lib
