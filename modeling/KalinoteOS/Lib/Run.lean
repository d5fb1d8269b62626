import Mathlib.Logic.Relation
import Mathlib.Data.List.Basic

/-! # Labelled runs and the invariant rule

A system is a set of initial states and a relation `step s a t`. Everything that is said
about whole runs goes through the one induction of this module.
-/
namespace KalinoteOS.Lib
set_option autoImplicit false

universe u v

/-- `Run step s as t`: the labels `as`, in this order, lead from `s` to `t`. -/
inductive Run {σ : Type u} {α : Type v} (step : σ → α → σ → Prop) : σ → List α → σ → Prop
  | nil (s : σ) : Run step s [] s
  | snoc {s t r : σ} {as : List α} {a : α} (before : Run step s as t) (last : step t a r) :
      Run step s (as ++ [a]) r

/-- The states some run from an initial state ends in. -/
def Reach {σ : Type u} {α : Type v} (init : σ → Prop) (step : σ → α → σ → Prop) (t : σ) : Prop :=
  ∃ s as, init s ∧ Run step s as t

/-- The steps that meet a condition on the state before them. -/
def Guarded {σ : Type u} {α : Type v} (good : σ → α → Prop) (step : σ → α → σ → Prop) :
    σ → α → σ → Prop :=
  fun s a t => good s a ∧ step s a t

section
variable {σ : Type u} {α : Type v} {init : σ → Prop} {step : σ → α → σ → Prop}

theorem Run.append {s t r : σ} {as bs : List α} (first : Run step s as t)
    (second : Run step t bs r) : Run step s (as ++ bs) r := by
  induction second with
  | nil => simpa using first
  | snoc _ last ih => rw [← List.append_assoc]; exact .snoc ih last

theorem Run.single {s t : σ} {a : α} (h : step s a t) : Run step s [a] t :=
  Run.snoc (.nil s) h

theorem Run.cons {s t r : σ} {a : α} {as : List α} (h : step s a t) (rest : Run step t as r) :
    Run step s (a :: as) r :=
  (Run.single h).append rest

theorem Run.split {s t : σ} {bs cs : List α} (h : Run step s (bs ++ cs) t) :
    ∃ r, Run step s bs r ∧ Run step r cs t := by
  generalize hAs : bs ++ cs = as at h
  induction h generalizing cs with
  | nil =>
    obtain ⟨rfl, rfl⟩ := List.append_eq_nil_iff.mp hAs
    exact ⟨s, .nil s, .nil s⟩
  | @snoc _ r as a before last ih =>
    obtain rfl | ⟨init, b, rfl⟩ := List.eq_nil_or_concat' cs
    · rw [List.append_nil] at hAs
      exact ⟨r, hAs ▸ before.snoc last, .nil r⟩
    · rw [← List.append_assoc] at hAs
      obtain ⟨hInit, hLast⟩ := List.append_inj' hAs rfl
      obtain ⟨m, hFirst, hSecond⟩ := ih hInit
      rw [List.singleton_inj] at hLast
      exact ⟨m, hFirst, hLast ▸ hSecond.snoc last⟩

theorem Run.uncons {s t : σ} {a : α} {as : List α} (h : Run step s (a :: as) t) :
    ∃ r, step s a r ∧ Run step r as t := by
  obtain ⟨r, hFirst, hRest⟩ := (show Run step s ([a] ++ as) t from h).split
  refine ⟨r, ?_, hRest⟩
  generalize hAs : [a] = bs at hFirst
  cases hFirst with
  | nil => cases hAs
  | @snoc m _ cs b before last =>
    rw [← List.nil_append [a]] at hAs
    obtain ⟨hNil, hEq⟩ := List.append_inj' hAs rfl
    cases List.singleton_inj.mp hEq
    cases before with
    | nil => exact last
    | snoc => simp at hNil

theorem Run.eq_of_nil {s t : σ} (h : Run step s [] t) : s = t := by
  generalize hAs : ([] : List α) = as at h
  cases h with
  | nil => rfl
  | snoc => simp at hAs

theorem Reach.start {s : σ} (h : init s) : Reach init step s := ⟨s, [], h, .nil s⟩

theorem Reach.next {s t : σ} {a : α} (h : Reach init step s) (hStep : step s a t) :
    Reach init step t := by
  obtain ⟨s₀, as, hInit, hRun⟩ := h
  exact ⟨s₀, as ++ [a], hInit, hRun.snoc hStep⟩

theorem Reach.run {s t : σ} {as : List α} (h : Reach init step s) (hRun : Run step s as t) :
    Reach init step t := by
  induction hRun with
  | nil => exact h
  | snoc _ last ih => exact Reach.next ih last

theorem Run.invariant {P : σ → Prop} (hStep : ∀ s a t, P s → step s a t → P t)
    {s t : σ} {as : List α} (h : Run step s as t) (hs : P s) : P t := by
  induction h with
  | nil => exact hs
  | snoc _ last ih => exact hStep _ _ _ ih last

/-- The invariant rule: true at the start and kept by every step, so true of every run. -/
theorem Reach.invariant {P : σ → Prop} (hInit : ∀ s, init s → P s)
    (hStep : ∀ s a t, P s → step s a t → P t) {s : σ} (h : Reach init step s) : P s := by
  obtain ⟨s₀, as, h₀, hRun⟩ := h
  exact hRun.invariant hStep (hInit s₀ h₀)

end

section
variable {σ : Type u} {α : Type v}

/-- Follow a list of labels through an executable step function. -/
def runList (next : σ → α → Option σ) (s : σ) : List α → Option σ
  | [] => some s
  | a :: as => (next s a).bind fun t => runList next t as

/-- An executable step that first tests a condition on the state before it. -/
def guardedNext (good : σ → α → Prop) [∀ s a, Decidable (good s a)] (next : σ → α → Option σ) :
    σ → α → Option σ :=
  fun s a => if good s a then next s a else none

theorem run_of_runList {next : σ → α → Option σ} {step : σ → α → σ → Prop}
    (hStep : ∀ s a t, next s a = some t → step s a t) {as : List α} {s t : σ}
    (h : runList next s as = some t) : Run step s as t := by
  induction as generalizing s with
  | nil => cases h; exact .nil _
  | cons a as ih =>
    obtain ⟨r, hNext, hRest⟩ := Option.bind_eq_some_iff.mp h
    exact Run.cons (hStep s a r hNext) (ih hRest)

theorem guarded_of_next {good : σ → α → Prop} [∀ s a, Decidable (good s a)]
    {next : σ → α → Option σ} {step : σ → α → σ → Prop}
    (hStep : ∀ s a t, next s a = some t → step s a t) (s : σ) (a : α) (t : σ)
    (h : guardedNext good next s a = some t) : Guarded good step s a t := by
  obtain ⟨hGood, hNext⟩ := Option.ite_none_right_eq_some.mp h
  exact ⟨hGood, hStep s a t hNext⟩

end

end KalinoteOS.Lib
