import Mathlib.Data.List.Nodup
import Mathlib.Logic.Function.Basic

/-! # Singly linked lists in a heap

`next` gives each cell its successor, `none` for a null pointer. A segment is a list of
cells that are linked in this order; an update of one link cuts or joins segments.
-/
namespace KalinoteOS.Lib
set_option autoImplicit false

universe u

/-- Following `next` from `p` visits the cells `cells` and then stands at `q`. -/
def Linked {α : Type u} (next : α → Option α) : Option α → List α → Option α → Prop
  | p, [], q => p = q
  | p, a :: cells, q => p = some a ∧ Linked next (next a) cells q

section
variable {α : Type u} {next : α → Option α} {p q : Option α} {cells : List α}

@[simp] theorem linked_nil : Linked next p [] q ↔ p = q := Iff.rfl

@[simp] theorem linked_cons {a : α} :
    Linked next p (a :: cells) q ↔ p = some a ∧ Linked next (next a) cells q := Iff.rfl

theorem linked_append {front back : List α} :
    Linked next p (front ++ back) q ↔ ∃ r, Linked next p front r ∧ Linked next r back q := by
  induction front generalizing p with
  | nil => simp
  | cons a front ih =>
    rw [List.cons_append, linked_cons, ih]
    constructor
    · rintro ⟨hp, r, hFront, hBack⟩
      exact ⟨r, ⟨hp, hFront⟩, hBack⟩
    · rintro ⟨r, ⟨hp, hFront⟩, hBack⟩
      exact ⟨hp, r, hFront, hBack⟩

/-- A segment depends on the links of its own cells only. -/
theorem Linked.congr {other : α → Option α} (h : Linked next p cells q)
    (hSame : ∀ a ∈ cells, other a = next a) : Linked other p cells q := by
  induction cells generalizing p with
  | nil => exact h
  | cons a cells ih =>
    refine ⟨h.1, ?_⟩
    rw [hSame a List.mem_cons_self]
    exact ih h.2 (fun b hb => hSame b (List.mem_cons_of_mem a hb))

/-- Every cell of a segment that leads on to a null link is visited once. -/
theorem Linked.mem_of_reach {last : α} (h : Linked next p cells (some last)) (hLast : next last = none)
    {path : List α} {a : α} (hPath : Linked next p path (some a)) : a ∈ cells ∨ a = last := by
  induction cells generalizing p path with
  | nil =>
    cases path with
    | nil =>
      rw [linked_nil] at h hPath
      rw [h] at hPath
      exact Or.inr (Option.some.inj hPath).symm
    | cons b path =>
      rw [linked_nil] at h
      obtain ⟨hp, hRest⟩ := hPath
      rw [h] at hp
      cases hp
      rw [hLast] at hRest
      cases path with
      | nil => cases hRest
      | cons c path => cases hRest.1
  | cons b cells ih =>
    cases path with
    | nil =>
      rw [linked_nil] at hPath
      rw [hPath] at h
      exact Or.inl ((Option.some.inj h.1) ▸ List.mem_cons_self)
    | cons c path =>
      have hbc : b = c := Option.some.inj (h.1.symm.trans hPath.1)
      subst hbc
      obtain hMem | hEq := ih h.2 hPath.2
      · exact Or.inl (List.mem_cons_of_mem b hMem)
      · exact Or.inr hEq

/-- The cells of a segment are reached from its start. -/
theorem Linked.reach_of_mem (h : Linked next p cells q) {a : α} (ha : a ∈ cells) :
    ∃ path, Linked next p path (some a) := by
  obtain ⟨front, back, rfl⟩ := List.append_of_mem ha
  obtain ⟨r, hFront, hBack⟩ := linked_append.mp h
  rw [hBack.1] at hFront
  exact ⟨front, hFront⟩

variable [DecidableEq α]

theorem Linked.update_other (h : Linked next p cells q) {a : α} (hNotMem : a ∉ cells)
    (r : Option α) : Linked (Function.update next a r) p cells q := by
  refine h.congr (fun b hb => ?_)
  rw [Function.update_of_ne]
  rintro rfl
  exact hNotMem hb

/-- Writing the link of the last cell moves the end of the segment. -/
theorem Linked.redirect {a : α} (h : Linked next p (cells ++ [a]) q) (hNotMem : a ∉ cells)
    (r : Option α) : Linked (Function.update next a r) p (cells ++ [a]) r := by
  obtain ⟨m, hFront, hLast⟩ := linked_append.mp h
  refine linked_append.mpr ⟨m, hFront.update_other hNotMem r, hLast.1, ?_⟩
  rw [linked_nil, Function.update_self]

theorem Linked.insert_behind {front back : List α} {a t : α}
    (h : Linked next p (front ++ [a] ++ back) q) (hNodup : (front ++ [a] ++ back).Nodup)
    (hNew : t ∉ front ++ [a] ++ back) :
    Linked (Function.update (Function.update next a (some t)) t (next a)) p
      (front ++ [a] ++ t :: back) q := by
  obtain ⟨r, hFront, hBack⟩ := linked_append.mp h
  obtain ⟨m, hInit, hLast⟩ := linked_append.mp hFront
  have hr : next a = r := hLast.2
  rw [List.mem_append, not_or] at hNew
  have hApart := List.disjoint_of_nodup_append hNodup
  have haFront : a ∉ front := by
    have := (List.nodup_append.mp hNodup).1
    rw [List.nodup_append] at this
    exact fun hMem => this.2.2 a hMem a (List.mem_singleton_self a) rfl
  have haBack : a ∉ back := hApart (List.mem_append_right _ (List.mem_singleton_self a))
  refine linked_append.mpr ⟨some t, (hFront.redirect haFront _).update_other hNew.1 _, rfl, ?_⟩
  rw [Function.update_self, hr]
  exact (hBack.update_other haBack _).update_other hNew.2 _

theorem Linked.remove_behind {front back : List α} {a t : α}
    (h : Linked next p (front ++ [a] ++ t :: back) q)
    (hNodup : (front ++ [a] ++ t :: back).Nodup) :
    Linked (Function.update next a (next t)) p (front ++ [a] ++ back) q := by
  obtain ⟨r, hFront, hCell, hBack⟩ := linked_append.mp h
  have hApart := List.disjoint_of_nodup_append hNodup
  have haFront : a ∉ front := by
    have := (List.nodup_append.mp hNodup).1
    rw [List.nodup_append] at this
    exact fun hMem => this.2.2 a hMem a (List.mem_singleton_self a) rfl
  have haBack : a ∉ back := fun hMem =>
    hApart (List.mem_append_right _ (List.mem_singleton_self a)) (List.mem_cons_of_mem t hMem)
  exact linked_append.mpr ⟨next t, hFront.redirect haFront _, hBack.update_other haBack _⟩

end

end KalinoteOS.Lib
