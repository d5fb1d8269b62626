import Mathlib.Logic.Function.Basic

/-! # Counting loops

`forUp lo hi body` is `for (i = lo; i < hi; i++)` and `forDown hi lo body` is
`for (i = hi; i > lo; i--)`, over a body that changes a state and not the counter.
-/
namespace KalinoteOS.Lib
set_option autoImplicit false

universe u v

def upFrom {σ : Type u} (body : Int → σ → σ) (lo : Int) : Nat → σ → σ
  | 0, s => s
  | n + 1, s => upFrom body (lo + 1) n (body lo s)

def downFrom {σ : Type u} (body : Int → σ → σ) (hi : Int) : Nat → σ → σ
  | 0, s => s
  | n + 1, s => downFrom body (hi - 1) n (body hi s)

def forUp {σ : Type u} (lo hi : Int) (body : Int → σ → σ) (s : σ) : σ :=
  upFrom body lo (hi - lo).toNat s

def forDown {σ : Type u} (hi lo : Int) (body : Int → σ → σ) (s : σ) : σ :=
  downFrom body hi (hi - lo).toNat s

section
variable {σ : Type u} {τ : Type v} {body : Int → σ → σ} {lo hi : Int} {s : σ}

/-- What the body takes from one counter value to the next holds at the bound. -/
theorem forUp_rule {P : Int → σ → Prop} (hLe : lo ≤ hi) (hStart : P lo s)
    (hBody : ∀ i s, lo ≤ i → i < hi → P i s → P (i + 1) (body i s)) :
    P hi (forUp lo hi body s) := by
  unfold forUp
  generalize hn : (hi - lo).toNat = n
  induction n generalizing lo s with
  | zero =>
    have hEq : lo = hi := by omega
    exact hEq ▸ hStart
  | succ n ih =>
    have hNext : P (lo + 1) (body lo s) := hBody lo s (by omega) (by omega) hStart
    exact ih (by omega) hNext (fun i s hi₁ hi₂ hP => hBody i s (by omega) hi₂ hP) (by omega)

theorem forUp_of_le (h : hi ≤ lo) : forUp lo hi body s = s := by
  have hZero : (hi - lo).toNat = 0 := by omega
  rw [forUp, hZero, upFrom]

theorem forDown_rule {P : Int → σ → Prop} (hLe : lo ≤ hi) (hStart : P hi s)
    (hBody : ∀ i s, lo < i → i ≤ hi → P i s → P (i - 1) (body i s)) :
    P lo (forDown hi lo body s) := by
  unfold forDown
  generalize hn : (hi - lo).toNat = n
  induction n generalizing hi s with
  | zero =>
    have hEq : hi = lo := by omega
    exact hEq ▸ hStart
  | succ n ih =>
    have hNext : P (hi - 1) (body hi s) := hBody hi s (by omega) (by omega) hStart
    exact ih (by omega) hNext (fun i s hi₁ hi₂ hP => hBody i s hi₁ (by omega) hP) (by omega)

/-- What every turn keeps. -/
theorem forUp_keeps {P : σ → Prop} (hStart : P s) (hBody : ∀ i s, P s → P (body i s)) :
    P (forUp lo hi body s) := by
  obtain hLe | hLe := Int.le_total lo hi
  · exact forUp_rule (P := fun _ => P) hLe hStart fun i s _ _ => hBody i s
  · rw [forUp_of_le hLe]
    exact hStart

theorem forDown_keeps {P : σ → Prop} (hStart : P s) (hBody : ∀ i s, P s → P (body i s)) :
    P (forDown hi lo body s) := by
  obtain hLe | hLe := Int.le_total lo hi
  · exact forDown_rule (P := fun _ => P) hLe hStart fun i s _ _ => hBody i s
  · have hZero : (hi - lo).toNat = 0 := by omega
    rw [forDown, hZero, downFrom]
    exact hStart

/-- A view of the state that follows the body follows the loop. -/
theorem forUp_map {body' : Int → τ → τ} (f : σ → τ)
    (h : ∀ i s, lo ≤ i → i < hi → f (body i s) = body' i (f s)) :
    f (forUp lo hi body s) = forUp lo hi body' (f s) := by
  unfold forUp
  generalize hn : (hi - lo).toNat = n
  induction n generalizing lo s with
  | zero => rfl
  | succ n ih =>
    rw [upFrom, upFrom, ← h lo s (by omega) (by omega)]
    exact ih (fun i s hi₁ hi₂ => h i s (by omega) hi₂) (by omega)

theorem forUp_congr {body' : Int → σ → σ} (h : ∀ i s, lo ≤ i → i < hi → body i s = body' i s) :
    forUp lo hi body s = forUp lo hi body' s :=
  forUp_map id h

theorem forUp_miss (h : ∀ i, lo ≤ i → i < hi → body i s = s) : forUp lo hi body s = s := by
  obtain hLe | hLe := Int.le_total lo hi
  · refine forUp_rule (P := fun _ t => t = s) hLe rfl ?_
    rintro i t hi₁ hi₂ rfl
    exact h i hi₁ hi₂
  · exact forUp_of_le hLe

/-- Iteration `i` gives `w` whatever came before it, and no later one changes it. -/
theorem forUp_hit {w : σ} {i : Int} (hLo : lo ≤ i) (hHi : i < hi) (hHit : ∀ t, body i t = w)
    (hLater : ∀ j, i < j → j < hi → body j w = w) : forUp lo hi body s = w := by
  have hDone : hi ≤ i ∨ forUp lo hi body s = w := by
    refine forUp_rule (P := fun j t => j ≤ i ∨ t = w) (by omega) (Or.inl hLo) ?_
    intro j t hj₁ hj₂ hP
    obtain hlt | rfl | hgt := Int.lt_trichotomy j i
    · exact Or.inl (by omega)
    · exact Or.inr (hHit t)
    · obtain hle | rfl := hP
      · omega
      · exact Or.inr (hLater j hgt hj₂)
  exact hDone.resolve_left (by omega)

/-- A property that round `i` brings about where `Q i` holds, and that no round takes away. -/
theorem forUp_or {P : σ → Prop} {Q : Int → Prop} (hBody : ∀ i s, P (body i s) ↔ P s ∨ Q i) :
    P (forUp lo hi body s) ↔ P s ∨ ∃ i, lo ≤ i ∧ i < hi ∧ Q i := by
  obtain hLe | hLe := Int.le_total lo hi
  · refine forUp_rule (P := fun i t => P t ↔ P s ∨ ∃ j, lo ≤ j ∧ j < i ∧ Q j) hLe ?_ ?_
    · exact ⟨Or.inl, fun h => h.resolve_right fun ⟨j, hLo, hHi, _⟩ => by omega⟩
    · intro i t hLo _ hP
      rw [hBody, hP, or_assoc]
      refine or_congr_right ⟨?_, ?_⟩
      · rintro (⟨j, hj, hji, hQ⟩ | hQ)
        · exact ⟨j, hj, by omega, hQ⟩
        · exact ⟨i, hLo, by omega, hQ⟩
      · rintro ⟨j, hj, hji, hQ⟩
        obtain hLt | rfl := Int.lt_or_eq_of_le (Int.lt_add_one_iff.mp hji)
        · exact Or.inl ⟨j, hj, hLt, hQ⟩
        · exact Or.inr hQ
  · rw [forUp_of_le hLe]
    exact ⟨Or.inl, fun h => h.resolve_right fun ⟨j, hLo, hHi, _⟩ => by omega⟩

end

/-- A loop that only records its counter. -/
theorem mem_forUp_append {lo hi k : Int} {ks : List Int} :
    k ∈ forUp lo hi (fun i ks => ks ++ [i]) ks ↔ k ∈ ks ∨ (lo ≤ k ∧ k < hi) := by
  rw [forUp_or (P := fun ks => k ∈ ks) (Q := fun i => k = i) fun i ks => by
    rw [List.mem_append, List.mem_singleton]]
  refine or_congr_right ⟨?_, fun ⟨hLo, hHi⟩ => ⟨k, hLo, hHi, rfl⟩⟩
  rintro ⟨i, hLo, hHi, rfl⟩
  exact ⟨hLo, hHi⟩

/-! ## A loop over the rectangle of a row-major grid -/

section
variable {α : Type u}

/-- The body of a painting loop: one cell is written, or left alone. -/
def store (mem : Int → α) (k : Int) : Option α → Int → α
  | some v => Function.update mem k v
  | none => mem

theorem store_same (mem : Int → α) (k : Int) (v : Option α) : store mem k v k = v.getD (mem k) := by
  cases v with
  | none => rfl
  | some v => exact Function.update_self k v mem

theorem store_other (mem : Int → α) {k a : Int} (v : Option α) (h : a ≠ k) :
    store mem k v a = mem a := by
  cases v with
  | none => rfl
  | some v => exact Function.update_of_ne h v mem

/-- A picture of which rows `y0 ≤ y < y1` and columns `x0 ≤ x < x1` go to a grid with `width`
columns, its corner at column `dx` and row `dy`. -/
def paint (width dx dy x0 y0 x1 y1 : Int) (write : Int → Int → Option α) (mem : Int → α) : Int → α :=
  forUp y0 y1
    (fun y mem => forUp x0 x1 (fun x mem => store mem ((dy + y) * width + (dx + x)) (write x y)) mem)
    mem

theorem cell_inj {width x y x' y' : Int} (hx : 0 ≤ x) (hxw : x < width) (hx' : 0 ≤ x')
    (hxw' : x' < width) (h : y * width + x = y' * width + x') : x = x' ∧ y = y' := by
  have hRow : ∀ a b : Int, 0 ≤ b → b < width → (a * width + b) / width = a := by
    intro a b hb hbw
    rw [Int.add_comm, Int.add_mul_ediv_right _ _ (by omega), Int.ediv_eq_zero_of_lt hb hbw]
    omega
  have hy : y = y' := by rw [← hRow y x hx hxw, h, hRow y' x' hx' hxw']
  subst hy
  exact ⟨by omega, rfl⟩

variable {width dx dy x0 y0 x1 y1 : Int} {write : Int → Int → Option α} {mem : Int → α} {x y : Int}

/-- The loops seen at one cell. -/
def paintCell (width dx dy x0 y0 x1 y1 : Int) (write : Int → Int → Option α) (k : Int) : α → α :=
  forUp y0 y1 fun y => forUp x0 x1 fun x v =>
    if k = (dy + y) * width + (dx + x) then (write x y).getD v else v

theorem paint_apply (k : Int) :
    paint width dx dy x0 y0 x1 y1 write mem k =
      paintCell width dx dy x0 y0 x1 y1 write k (mem k) := by
  refine forUp_map (fun mem : Int → α => mem k) ?_
  intro y mem _ _
  refine forUp_map (fun mem : Int → α => mem k) ?_
  intro x mem _ _
  by_cases hk : k = (dy + y) * width + (dx + x)
  · subst hk
    rw [if_pos rfl, store_same]
  · rw [if_neg hk, store_other mem _ hk]

section
variable (hLeft : 0 ≤ dx + x0) (hRight : dx + x1 ≤ width) (hx : 0 ≤ x) (hxw : x < width)
include hLeft hRight hx hxw

/-- The picture's only point at a cell is the one under it. -/
theorem cell_point {x' y' : Int} (hx₁ : x0 ≤ x') (hx₂ : x' < x1)
    (hk : y * width + x = (dy + y') * width + (dx + x')) : x' = x - dx ∧ y' = y - dy := by
  obtain ⟨hX, hY⟩ := cell_inj hx hxw (by omega) (by omega) hk
  omega

theorem paint_outside (h : ¬ (x0 ≤ x - dx ∧ x - dx < x1 ∧ y0 ≤ y - dy ∧ y - dy < y1)) :
    paint width dx dy x0 y0 x1 y1 write mem (y * width + x) = mem (y * width + x) := by
  rw [paint_apply]
  refine forUp_miss ?_
  intro y' hy₁ hy₂
  refine forUp_miss ?_
  intro x' hx₁ hx₂
  refine if_neg fun hk => ?_
  obtain ⟨rfl, rfl⟩ := cell_point hLeft hRight hx hxw hx₁ hx₂ hk
  exact h ⟨hx₁, hx₂, hy₁, hy₂⟩

theorem paint_none (h : write (x - dx) (y - dy) = none) :
    paint width dx dy x0 y0 x1 y1 write mem (y * width + x) = mem (y * width + x) := by
  rw [paint_apply]
  refine forUp_miss ?_
  intro y' hy₁ hy₂
  refine forUp_miss ?_
  intro x' hx₁ hx₂
  by_cases hk : y * width + x = (dy + y') * width + (dx + x')
  · obtain ⟨rfl, rfl⟩ := cell_point hLeft hRight hx hxw hx₁ hx₂ hk
    rw [if_pos hk, h, Option.getD_none]
  · exact if_neg hk

theorem paint_inside {v : α} (hx₁ : x0 ≤ x - dx) (hx₂ : x - dx < x1) (hy₁ : y0 ≤ y - dy)
    (hy₂ : y - dy < y1) (h : write (x - dx) (y - dy) = some v) :
    paint width dx dy x0 y0 x1 y1 write mem (y * width + x) = v := by
  rw [paint_apply]
  have hOther : ∀ x' y', x0 ≤ x' → x' < x1 → ¬ (x' = x - dx ∧ y' = y - dy) →
      ¬ y * width + x = (dy + y') * width + (dx + x') := fun x' y' h₁ h₂ hne hk =>
    hne (cell_point hLeft hRight hx hxw h₁ h₂ hk)
  refine forUp_hit hy₁ hy₂ ?_ ?_
  · intro t
    refine forUp_hit hx₁ hx₂ ?_ ?_
    · intro t
      have hk : y * width + x = (dy + (y - dy)) * width + (dx + (x - dx)) := by
        rw [show dy + (y - dy) = y by omega, show dx + (x - dx) = x by omega]
      rw [if_pos hk, h, Option.getD_some]
    · intro x' hlt hx'
      exact if_neg (hOther x' (y - dy) (by omega) hx' (by omega))
  · intro y' hlt hy'
    refine forUp_miss ?_
    intro x' h₁ h₂
    exact if_neg (hOther x' y' h₁ h₂ (by omega))

end

end

end KalinoteOS.Lib
