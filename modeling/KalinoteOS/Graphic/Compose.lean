import KalinoteOS.Graphic.Paint

/-! # Every pixel shows the highest layer

The rectangles that a call repaints are those of the layer it works on. Outside them, and at
the heights it leaves out, the highest layer has not changed.
-/
namespace KalinoteOS.Graphic
open Lib
set_option autoImplicit false

/-- The highest visible layer that covers the pixel with a colour other than its `col_inv`. -/
structure Highest (c : Controller) (x y : Int) (i : Index) : Prop where
  used : c.used i
  visible : 0 ≤ (c.layers i).height
  solid : (c.layers i).Solid x y
  above : ∀ j, c.used j → (c.layers i).height < (c.layers j).height → ¬ (c.layers j).Solid x y

/-- The map names the layer `i` at the pixel, and the screen shows its picture. -/
def Shows (c : Controller) (x y : Int) (i : Index) : Prop :=
  c.map (c.cell x y) = sid i ∧ c.vram (c.cell x y) = (c.layers i).pixel x y

def Composed (c : Controller) : Prop :=
  ∀ x y, c.OnScreen x y → ∃ i, Highest c x y i ∧ Shows c x y i

/-! ## The same over the stack -/

def ComposedOf (c : Controller) (S : List Index) : Prop :=
  ∀ x y, c.OnScreen x y → ∃ i, topmost c.layers x y S = some i ∧ Shows c x y i

theorem Stack.highest {c : Controller} {S : List Index} {x y : Int} {i : Index} (h : Stack c S)
    (hi : topmost c.layers x y S = some i) : Highest c x y i := by
  obtain ⟨A, B, rfl, hSolid, hAbove⟩ := topmost_split hi
  obtain ⟨hA, _, hHeight, _⟩ := segment_append.mp h.segment
  rw [Int.zero_add] at hHeight
  refine ⟨h.used i (by simp), by omega, hSolid, fun j hj hHigher => ?_⟩
  have hMem : j ∈ A ++ i :: B := (h.mem_iff hj).mpr (by omega)
  obtain hMem | hMem := List.mem_append.mp hMem
  · have := (hA.height_mem hMem).2.1
    omega
  · obtain rfl | hMem := List.mem_cons.mp hMem
    · omega
    · exact hAbove j hMem

theorem ComposedOf.composed {c : Controller} {S : List Index} (h : ComposedOf c S)
    (hStack : Stack c S) : Composed c := by
  intro x y hOn
  obtain ⟨i, hi, hShows⟩ := h x y hOn
  exact ⟨i, hStack.highest hi, hShows⟩

/-! ## `layer_set_height` -/

section
variable {c : Controller} {x y : Int} {r : Rect} {P Q T : List Index} {w : Index}
  (hOn : c.OnScreen x y)
include hOn

/-- A repainted layer is shown where it is the highest. -/
theorem repaint_fresh (h : Stack c (P ++ Q ++ T)) (hIn : r.Inside x y) (hQ : w ∈ Q)
    (hw : topmost c.layers x y (P ++ Q ++ T) = some w) {h0 h1 : Int} (h₀ : h0 = P.length)
    (h₁ : h1 + 1 = P.length + Q.length) : Shows (c.repaint r h0 h1) x y w := by
  subst h₀
  have hSolid := (topmost_mem hw).2
  have hMap : (layerRefreshmap c r P.length).map (c.cell x y) = sid w := by
    rw [List.append_assoc] at h hw
    exact refreshmap_fresh hOn h hIn (List.mem_append_left T hQ) hw
  refine ⟨hMap, ?_⟩
  have hStack : Stack (layerRefreshmap c r P.length) (P ++ Q ++ T) :=
    h.congr rfl rfl (fun _ => rfl) (fun _ => rfl)
  exact refreshArea_some (c := layerRefreshmap c r P.length) hOn hStack hIn hQ hSolid.1 hMap h₁

/-- A pixel whose highest layer is the old one needs no repainting. -/
theorem repaint_keep (h : Stack c (P ++ Q ++ T)) (hShows : Shows c x y w)
    (hw : topmost c.layers x y (P ++ Q ++ T) = some w) (hOut : r.Inside x y → w ∉ Q) {h0 h1 : Int}
    (h₀ : h0 = P.length) (h₁ : h1 + 1 = P.length + Q.length) :
    Shows (c.repaint r h0 h1) x y w := by
  subst h₀
  have hMap : (layerRefreshmap c r P.length).map (c.cell x y) = sid w := by
    rw [List.append_assoc] at h hw
    exact refreshmap_keep hOn h hw hShows.1
  refine ⟨hMap, ?_⟩
  have hStack : Stack (layerRefreshmap c r P.length) (P ++ Q ++ T) :=
    h.congr rfl rfl (fun _ => rfl) (fun _ => rfl)
  exact (refreshArea_none (c := layerRefreshmap c r P.length) hOn hStack hMap hOut h₁).trans
    hShows.2

end

section
variable {c c' : Controller}

theorem SameView.solid (h : SameView c c') (x y : Int) (j : Index) :
    (c'.layers j).Solid x y ↔ (c.layers j).Solid x y := by
  rw [h.layers j]
  rfl

theorem SameView.topmost (h : SameView c c') (x y : Int) (S : List Index) :
    Graphic.topmost c'.layers x y S = Graphic.topmost c.layers x y S :=
  topmost_congr fun j _ => h.solid x y j

theorem SameView.onScreen (h : SameView c c') {x y : Int} : c'.OnScreen x y ↔ c.OnScreen x y := by
  rw [Controller.OnScreen, h.xsize, h.ysize, Controller.OnScreen]

theorem SameView.shows (h : SameView c c') {x y : Int} {i : Index} (hShows : Shows c x y i) :
    Shows c' x y i := by
  have hCell : c'.cell x y = c.cell x y := by rw [Controller.cell, Controller.cell, h.xsize]
  have hPixel : (c'.layers i).pixel x y = (c.layers i).pixel x y := by rw [h.layers i]; rfl
  rw [Shows, hCell, hPixel, h.map, h.vram]
  exact hShows

end

section
variable {c c' : Controller} {x y : Int} {i : Index} {S S' P Q T : List Index} {lo hi h0 h1 : Int}

/-- After a reordering and its repaint, the highest layer is shown if it is one of the painted
block, or else has not changed. -/
theorem Reordered.shows (h : Reordered c c' (P ++ Q ++ T) lo hi) (hOn : c.OnScreen x y)
    (hOld : ∃ w, topmost c.layers x y S = some w ∧ Shows c x y w)
    (hNew : ∃ w, topmost c.layers x y (P ++ Q ++ T) = some w) (h₀ : h0 = P.length)
    (h₁ : h1 + 1 = P.length + Q.length)
    (hSame : ∀ w, topmost c.layers x y (P ++ Q ++ T) = some w →
      ((c.layers i).rect.Inside x y → w ∉ Q) → topmost c.layers x y S = some w) :
    ∃ w, topmost (c'.repaint (c.layers i).rect h0 h1).layers x y (P ++ Q ++ T) = some w ∧
      Shows (c'.repaint (c.layers i).rect h0 h1) x y w := by
  obtain ⟨w', hw'⟩ := hNew
  have hOn' := h.view.onScreen.mpr hOn
  have hTop : topmost c'.layers x y (P ++ Q ++ T) = some w' := (h.view.topmost x y _).trans hw'
  refine ⟨w', hTop, ?_⟩
  by_cases hPainted : (c.layers i).rect.Inside x y ∧ w' ∈ Q
  · exact repaint_fresh hOn' h.stack hPainted.1 hPainted.2 hTop h₀ h₁
  · have hOut : (c.layers i).rect.Inside x y → w' ∉ Q := fun hIn hMem => hPainted ⟨hIn, hMem⟩
    obtain ⟨w, hw, hShows⟩ := hOld
    rw [hSame w' hw' hOut] at hw
    cases hw
    exact repaint_keep hOn' h.stack (h.view.shows hShows) hTop hOut h₀ h₁

/-! The highest layer when `i` has moved: where `i` is not solid, or not one of the layers that
came to lie above it, nothing has changed. -/

section
variable {layers : Index → Layer} {A B D : List Index} {w : Index}

theorem topmost_lower (hw : topmost layers x y (A ++ [i] ++ B ++ D) = some w)
    (h : topmost layers x y [i] = none ∨ w ∉ B) :
    topmost layers x y (A ++ B ++ ([i] ++ D)) = some w := by
  simp only [topmost_append] at hw ⊢
  cases hD : topmost layers x y D with
  | some d => rwa [hD] at hw
  | none =>
    rw [hD, Option.none_or] at hw
    cases hB : topmost layers x y B with
    | none =>
      rw [hB, Option.none_or] at hw
      rwa [Option.none_or, Option.none_or]
    | some b =>
      rw [hB, Option.some_or] at hw
      cases hw
      obtain hNone | hMem := h
      · rw [hNone]
        rfl
      · exact absurd (topmost_mem hB).1 hMem

theorem topmost_hide (hw : topmost layers x y (A ++ B) = some w)
    (h : topmost layers x y [i] = none ∨ w ∉ A) :
    topmost layers x y (A ++ ([i] ++ B)) = some w := by
  simp only [topmost_append] at hw ⊢
  cases hB : topmost layers x y B with
  | some b => rwa [hB] at hw
  | none =>
    rw [hB, Option.none_or] at hw
    obtain hNone | hMem := h
    · rwa [hNone]
    · exact absurd (topmost_mem hw).1 hMem

theorem topmost_raise (hw : topmost layers x y (A ++ B ++ [i] ++ D) = some w)
    (h : topmost layers x y [i] = none ∨ w ∉ [i]) :
    topmost layers x y (A ++ ([i] ++ (B ++ D))) = some w := by
  simp only [topmost_append] at hw ⊢
  cases hD : topmost layers x y D with
  | some d => rwa [hD] at hw
  | none =>
    rw [hD, Option.none_or] at hw
    cases hi : topmost layers x y [i] with
    | none =>
      rw [hi, Option.none_or] at hw
      rwa [Option.none_or, Option.or_none]
    | some j =>
      rw [hi, Option.some_or] at hw
      cases hw
      obtain hNone | hMem := h
      · rw [hNone] at hi
        cases hi
      · exact absurd (topmost_mem hi).1 hMem

theorem topmost_unhide (hw : topmost layers x y (A ++ [i] ++ B) = some w)
    (h : topmost layers x y [i] = none ∨ w ∉ [i]) :
    topmost layers x y (A ++ B) = some w := by
  simp only [topmost_append] at hw ⊢
  cases hB : topmost layers x y B with
  | some b => rwa [hB] at hw
  | none =>
    rw [hB, Option.none_or] at hw
    cases hi : topmost layers x y [i] with
    | none => rwa [hi, Option.none_or] at hw
    | some j =>
      rw [hi, Option.some_or] at hw
      cases hw
      obtain hNone | hMem := h
      · rw [hNone] at hi
        cases hi
      · exact absurd (topmost_mem hi).1 hMem

end

theorem topmost_outside {w : Index} (h : (c.layers i).rect.Inside x y → w ∉ Q) :
    topmost c.layers x y [i] = none ∨ w ∉ Q := by
  by_cases hIn : (c.layers i).rect.Inside x y
  · exact Or.inr (h hIn)
  · exact Or.inl (topmost_singleton_of_not fun hSolid => hIn hSolid.1)

theorem HeightChange.composed (h : HeightChange c i S S' c') (hOld : ComposedOf c S)
    (hNew : ∀ x y, c.OnScreen x y → ∃ w, topmost c.layers x y S' = some w) : ComposedOf c' S' := by
  cases h with
  | same h =>
    intro x y hOn
    have hOn' : c.OnScreen x y := h.view.onScreen.mp hOn
    obtain ⟨w, hw, hShows⟩ := hOld x y hOn'
    exact ⟨w, (h.view.topmost x y _).trans hw, h.view.shows hShows⟩
  | @lower A B D c₁ h =>
    intro x y hOn
    have hOn' : c.OnScreen x y := h.view.onScreen.mp hOn
    have hList : A ++ i :: (B ++ D) = A ++ [i] ++ B ++ D := by simp
    rw [hList] at h hNew ⊢
    refine h.shows hOn' (hOld x y hOn') (hNew x y hOn') (by simp) (by simp; omega) ?_
    intro w hw hOut
    exact topmost_lower hw (topmost_outside hOut)
  | @hide A B c₁ h =>
    intro x y hOn
    have hOn' : c.OnScreen x y := h.view.onScreen.mp hOn
    refine Reordered.shows (P := []) h hOn' (hOld x y hOn') (hNew x y hOn') rfl (by simp) ?_
    intro w hw hOut
    exact topmost_hide hw (topmost_outside hOut)
  | @raise A B D c₁ h =>
    intro x y hOn
    have hOn' : c.OnScreen x y := h.view.onScreen.mp hOn
    have hList : A ++ B ++ i :: D = A ++ B ++ [i] ++ D := by simp
    rw [hList] at h hNew ⊢
    refine h.shows hOn' (hOld x y hOn') (hNew x y hOn') (by simp) (by simp) ?_
    intro w hw hOut
    exact topmost_raise hw (topmost_outside hOut)
  | @unhide A B c₁ hi h =>
    intro x y hOn
    have hOn' : c.OnScreen x y := h.view.onScreen.mp hOn
    have hList : A ++ i :: B = A ++ [i] ++ B := by simp
    rw [hList] at h hNew ⊢
    refine h.shows hOn' (hOld x y hOn') (hNew x y hOn') (by simp) (by simp) ?_
    intro w hw hOut
    exact topmost_unhide hw (topmost_outside hOut)

end

end KalinoteOS.Graphic
