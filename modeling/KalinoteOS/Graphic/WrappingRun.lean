import KalinoteOS.Graphic.Wrapping

/-! # Compositing with coordinates of 32 bits

Runs whose results all stay in the range of `int`, as they do with layers and screens of ordinary size, keep
every pixel right. A window moved to the end of the range comes back onto the screen.
-/
namespace KalinoteOS.Graphic
open Lib
set_option autoImplicit false

namespace Wrapping

/-! ## Screens of at most 16384 pixels a side -/

def Near (v : Int) : Prop := -16384 ≤ v ∧ v ≤ 16384

def IsSize (v : Int) : Prop := 0 ≤ v ∧ v ≤ 16384

instance (v : Int) : Decidable (Near v) := inferInstanceAs (Decidable (_ ∧ _))
instance (v : Int) : Decidable (IsSize v) := inferInstanceAs (Decidable (_ ∧ _))

def SmallLayer (lay : Layer) : Prop := Near lay.vx0 ∧ Near lay.vy0 ∧ IsSize lay.bxsize ∧ IsSize lay.bysize

instance (lay : Layer) : Decidable (SmallLayer lay) := inferInstanceAs (Decidable (_ ∧ _))

def SmallRect (r : Rect) : Prop := Near r.x0 ∧ Near r.y0 ∧ Near r.x1 ∧ Near r.y1

instance (r : Rect) : Decidable (SmallRect r) := inferInstanceAs (Decidable (_ ∧ _))

def Small (c : Controller) : Prop := IsSize c.xsize ∧ IsSize c.ysize ∧ ∀ i, SmallLayer (c.layers i)

instance (c : Controller) : Decidable (Small c) := inferInstanceAs (Decidable (_ ∧ _))

def SmallCall : Action → Prop
  | .layerRefresh _ r => SmallRect r
  | .layerMove _ vx0 vy0 => Near vx0 ∧ Near vy0
  | _ => True

instance (a : Action) : Decidable (SmallCall a) :=
  match a with
  | .layerRefresh _ r => inferInstanceAs (Decidable (SmallRect r))
  | .layerMove _ vx0 vy0 => inferInstanceAs (Decidable (Near vx0 ∧ Near vy0))
  | .layerAlloc | .layerSetbuf .. | .layerSetHeight .. | .layerFree _ => isTrue trivial

section
variable {lay : Layer} {c c' : Controller} {i : Index} {r : Rect}

theorem SmallLayer.rectFits (h : SmallLayer lay) : RectFits lay := by
  simp only [SmallLayer, Near, IsSize] at h
  constructor <;> unfold IsInt <;> omega

/-- The index of a cell of an array with `width` columns. -/
theorem index_isInt (row col : Int) {width : Int} (hWidth : IsSize width) (hRow : -32768 ≤ row ∧ row ≤ 32768)
    (hCol : -32768 ≤ col ∧ col ≤ 32768) : IsInt (row * width) ∧ IsInt (row * width + col) := by
  obtain ⟨hPos, hLe⟩ := hWidth
  have hHigh : row * width ≤ 32768 * 16384 :=
    (Int.mul_le_mul_of_nonneg_right hRow.2 hPos).trans (Int.mul_le_mul_of_nonneg_left hLe (by decide))
  have hLow : -32768 * 16384 ≤ row * width :=
    (Int.mul_le_mul_of_nonpos_left (by decide) hLe).trans (Int.mul_le_mul_of_nonneg_right hRow.1 hPos)
  unfold IsInt
  omega

theorem SmallLayer.turnFits (h : SmallLayer lay) (hc : Small c)
    (hr : ∀ v ∈ [r.x0, r.y0, r.x1, r.y1], -32768 ≤ v ∧ v ≤ 32768) : TurnFits lay c.xsize (c.clip r) := by
  obtain ⟨hX, hY, -⟩ := hc
  obtain ⟨hVx, hVy, hWidth, hHeight⟩ := h
  simp only [List.mem_cons, List.not_mem_nil, or_false, forall_eq_or_imp, forall_eq] at hr
  obtain ⟨hX0, hY0, hX1, hY1⟩ := hr
  have hCell : ∀ bx, (lay.box (c.clip r)).x0 ≤ bx → bx < (lay.box (c.clip r)).x1 →
      ∀ bY, (lay.box (c.clip r)).y0 ≤ bY → bY < (lay.box (c.clip r)).y1 → CellFits lay c.xsize bx bY := by
    intro bx hLeft hRight bY hLow hHigh
    simp only [Layer.box, clampLow_eq, clampHigh_eq] at hLeft hRight hLow hHigh
    unfold Near at hVx hVy
    have hBuf := index_isInt bY bx hWidth (by unfold IsSize at hHeight; omega)
      (by unfold IsSize at hWidth; omega)
    have hScreen := index_isInt (lay.vy0 + bY) (lay.vx0 + bx) hX (by unfold IsSize at hHeight; omega)
      (by unfold IsSize at hWidth; omega)
    refine ⟨?_, ?_, hBuf.1, hBuf.2, hScreen.1, hScreen.2⟩
    all_goals
      unfold IsInt
      unfold IsSize at hWidth hHeight
      omega
  unfold Near at hVx hVy
  unfold IsSize at hX hY
  refine ⟨?_, ?_, ?_, ?_, hCell⟩
  all_goals
    simp only [Controller.clip, clampLow_eq, clampHigh_eq]
    unfold IsInt
    omega

/-- Both corners of a small layer. -/
theorem SmallLayer.rect_le (h : SmallLayer lay) :
    ∀ v ∈ [lay.rect.x0, lay.rect.y0, lay.rect.x1, lay.rect.y1], -32768 ≤ v ∧ v ≤ 32768 := by
  simp only [SmallLayer, Near, IsSize] at h
  simp only [Layer.rect, List.mem_cons, List.not_mem_nil, or_false, forall_eq_or_imp, forall_eq]
  omega

theorem Small.passFits (h : Small c) (hr : ∀ v ∈ [r.x0, r.y0, r.x1, r.y1], -32768 ≤ v ∧ v ≤ 32768) (h0 h1 : Int) :
    PassFits c r h0 h1 := fun _ _ _ i _ => (h.2.2 i).turnFits h hr

theorem Small.repaintFits (h : Small c) (hLay : SmallLayer lay) (h0 h1 : Int) : RepaintFits c lay h0 h1 :=
  ⟨hLay.rectFits, h.passFits hLay.rect_le _ _, h.passFits hLay.rect_le _ _⟩

theorem Small.of_view (h : Small c) (hView : SameView c c') : Small c' := by
  obtain ⟨hX, hY, hLayers⟩ := h
  refine ⟨hView.xsize ▸ hX, hView.ysize ▸ hY, fun i => ?_⟩
  rw [hView.layers i]
  exact hLayers i

/-! Another order of the layers leaves their sizes and places. -/

theorem lower_view (c : Controller) (i : Index) (old height : Int) : SameView c (c.lower i old height) := by
  refine SameView.trans ?_ (SameView.setAddr _ height (some i))
  exact forDown_keeps (P := SameView c) (SameView.refl c) fun h c' hView =>
    hView.trans (moveAddr_view c' h (h - 1))

theorem raise_view (c : Controller) (i : Index) (old height : Int) : SameView c (c.raise i old height) := by
  refine SameView.trans ?_ (SameView.setAddr _ height (some i))
  exact forUp_keeps (P := SameView c) (SameView.refl c) fun h c' hView =>
    hView.trans (moveAddr_view c' h (h + 1))

theorem unhide_view (c : Controller) (i : Index) (height : Int) : SameView c (c.unhide i height) := by
  have hView : SameView c (forDown c.top (height - 1) (fun h c => c.moveAddr (h + 1) h) c) :=
    forDown_keeps (P := SameView c) (SameView.refl c) fun h c' hView =>
      hView.trans (moveAddr_view c' (h + 1) h)
  exact ⟨hView.vram, hView.map, hView.xsize, hView.ysize, hView.layers⟩

theorem hide_view (c : Controller) (old : Int) : SameView c (c.hide old) := by
  have hView : SameView c (forUp old c.top (fun h c => c.moveAddr h (h + 1)) c) :=
    forUp_keeps (P := SameView c) (SameView.refl c) fun h c' hView =>
      hView.trans (moveAddr_view c' h (h + 1))
  unfold Controller.hide
  split
  · exact ⟨hView.vram, hView.map, hView.xsize, hView.ysize, hView.layers⟩
  · exact ⟨rfl, rfl, rfl, rfl, fun _ => rfl⟩

theorem Small.heightFits (h : Small c) (i : Index) (height : Int) : HeightFits c i height := by
  have hLay := h.2.2 i
  have hSet := SameView.setHeight c i (c.clamp height)
  unfold HeightFits
  dsimp only
  split
  · split
    · exact (h.of_view (hSet.trans (lower_view _ _ _ _))).repaintFits hLay _ _
    · exact (h.of_view (hSet.trans (hide_view _ _))).repaintFits hLay _ _
  · split
    · split
      · exact (h.of_view (hSet.trans (raise_view _ _ _ _))).repaintFits hLay _ _
      · exact (h.of_view (hSet.trans (unhide_view _ _ _))).repaintFits hLay _ _
    · trivial

theorem Small.place (h : Small c) {vx0 vy0 : Int} (hx : Near vx0) (hy : Near vy0) :
    Small (c.place i vx0 vy0) := by
  refine ⟨h.1, h.2.1, fun j => ?_⟩
  by_cases hj : j = i
  · rw [hj, Controller.place, update_layers_self]
    exact ⟨hx, hy, (h.2.2 i).2.2⟩
  · rw [Controller.place, update_layers_other c _ hj]
    exact h.2.2 j

theorem near_add {v w : Int} (hv : Near v) (hw : Near w) : (-32768 ≤ v + w ∧ v + w ≤ 32768) ∧ IsInt (v + w) := by
  unfold Near at hv hw
  unfold IsInt
  omega

/-- With small layers on a small screen every result fits. -/
theorem Small.fits (h : Small c) {a : Action} (ha : SmallCall a) : Fits c a := by
  have hStart : Small c.start := h
  cases a with
  | layerAlloc => trivial
  | layerSetbuf => trivial
  | layerSetHeight i height => exact hStart.heightFits i height
  | layerRefresh i r =>
    intro _
    obtain ⟨hVx, hVy, -⟩ := h.2.2 i
    obtain ⟨hX0, hY0, hX1, hY1⟩ := ha
    have hX0 := near_add hVx hX0
    have hY0 := near_add hVy hY0
    have hX1 := near_add hVx hX1
    have hY1 := near_add hVy hY1
    refine ⟨hX0.2, hY0.2, hX1.2, hY1.2, hStart.passFits ?_ _ _⟩
    simp only [List.mem_cons, List.not_mem_nil, or_false, forall_eq_or_imp, forall_eq]
    exact ⟨hX0.1, hY0.1, hX1.1, hY1.1⟩
  | layerMove i vx0 vy0 =>
    intro _
    have hPlaced : Small (c.start.place i vx0 vy0) := hStart.place ha.1 ha.2
    have hOld := h.2.2 i
    have hNew := hPlaced.2.2 i
    exact ⟨hOld.rectFits, hNew.rectFits, hPlaced.passFits hOld.rect_le _ _, hPlaced.passFits hNew.rect_le _ _,
      hPlaced.passFits hOld.rect_le _ _, hPlaced.passFits hNew.rect_le _ _⟩
  | layerFree i => exact fun _ => hStart.heightFits i (-1)

end

/-! ## Whole runs -/

/-- `F` has just been shown, and no result has left the range. -/
def FitStart (F : Index) (c : Controller) : Prop :=
  ∃ c₀ height, Floor F c₀ ∧ 0 ≤ height ∧ HeightFits c₀ F height ∧ c = layerSetHeight c₀ F height

/-- An allowed call whose results fit. -/
def FitCall (F : Index) (c : Controller) (a : Action) : Prop := Allowed F c a ∧ Fits c a

/-- In every run of allowed calls whose results fit, every pixel of the screen belongs to the highest layer
there: the map names it and the screen shows it. -/
theorem run_composed (F : Index) (c : Controller) (h : Reach (FitStart F) (Guarded (FitCall F) Step) c) :
    Composed c := by
  have hInv : ∃ S, Inv F c S := by
    refine Reach.invariant (P := fun c => ∃ S, Inv F c S) ?_ ?_ h
    · rintro c ⟨c₀, height, hFloor, hHeight, hFits, rfl⟩
      exact start_inv ⟨c₀, height, hFloor, hHeight, layerSetHeight_eq hFits⟩
    · rintro c a c' ⟨S, hInv⟩ ⟨⟨hAllowed, hFits⟩, hStep⟩
      exact step_composed hInv hAllowed ((step_eq hFits).symm.trans hStep)
  obtain ⟨S, hInv⟩ := hInv
  exact hInv.composed.composed hInv.stack

/-- The small calls, as a test. -/
def SmallFit (F : Index) (c : Controller) (a : Action) : Prop := Allowed F c a ∧ Small c ∧ SmallCall a

instance (F : Index) (c : Controller) (a : Action) : Decidable (SmallFit F c a) :=
  inferInstanceAs (Decidable (_ ∧ _))

/-- A screen of 2 × 2 pixels whose only layer is all of colour 7. -/
def oneLayer : Controller :=
  { smallScreen with
    layers := Function.update smallScreen.layers firstLayer
      ⟨fun _ => 7, 2, 2, 0, 0, 0, -1, layerUseing⟩ }

theorem oneLayer_floor : Floor firstLayer oneLayer := by
  refine ⟨rfl, fun i hi => ?_, by decide, ?_⟩
  · by_cases hZero : i = firstLayer
    · subst hZero
      rfl
    · have hOther : oneLayer.layers i = blankLayer := Function.update_of_ne hZero ..
      rw [Controller.used, hOther] at hi
      exact absurd rfl hi
  · rintro x y ⟨hx₀, hx₁, hy₀, hy₁⟩
    refine ⟨⟨hx₀, hx₁, hy₀, hy₁⟩, ?_⟩
    show (7 : VramAddr) ≠ 0
    decide

/-- A window with one transparent pixel, shown over the layer 0 and moved partly off the screen. -/
def moveWindow : List Action :=
  [.layerAlloc, .layerSetbuf secondLayer (fun k => if k = 0 then 0 else 9) 2 2 0,
    .layerSetHeight secondLayer 1, .layerMove secondLayer 1 (-1)]

theorem run_composed_window : ∃ c, c.vram (c.cell 1 0) = 9 ∧ c.vram (c.cell 1 1) = 7 ∧ Composed c := by
  have hPixels : (runList (guardedNext (SmallFit firstLayer) step) (layerSetHeight oneLayer firstLayer 0)
      moveWindow).map (fun c => (c.vram (c.cell 1 0), c.vram (c.cell 1 1))) = some (9, 7) := by decide +kernel
  obtain ⟨c, hc, hPixels'⟩ := Option.map_eq_some_iff.mp hPixels
  obtain ⟨hFirst, hSecond⟩ := Prod.mk.inj hPixels'
  have hStep : ∀ c a c', guardedNext (SmallFit firstLayer) step c a = some c' →
      Guarded (FitCall firstLayer) Step c a c' := by
    intro c a c' hNext
    obtain ⟨⟨hAllowed, hSmall, hCall⟩, hStep⟩ := guarded_of_next (fun _ _ _ hNext => hNext) c a c' hNext
    exact ⟨⟨hAllowed, hSmall.fits hCall⟩, hStep⟩
  have hSmall : Small oneLayer := by decide +kernel
  have hStart : FitStart firstLayer (layerSetHeight oneLayer firstLayer 0) :=
    ⟨oneLayer, 0, oneLayer_floor, by decide, hSmall.heightFits firstLayer 0, rfl⟩
  exact ⟨c, hFirst, hSecond, run_composed firstLayer c ⟨_, _, hStart, run_of_runList hStep hc⟩⟩

/-- A window of one pixel, moved as far up as an `int` can name. -/
def farWindow : List Action :=
  [.layerAlloc, .layerSetbuf secondLayer (fun _ => 9) 1 1 0, .layerSetHeight secondLayer 1,
    .layerMove secondLayer 0 (-2147483648)]

/-- The far window covers no pixel of the screen, and the map names it at the first. -/
theorem far_not_composed : ¬ ∀ (F : Index) (c : Controller),
    Reach (Start F) (Guarded (Allowed F) Step) c → Composed c := by
  intro h
  have hRun : (runList (guardedNext (Allowed firstLayer) step) (layerSetHeight oneLayer firstLayer 0)
      farWindow).map (fun c => (c.map (c.cell 0 0), c.xsize, c.ysize, (c.layers secondLayer).vy0,
        (c.layers secondLayer).bysize)) = some (sid secondLayer, 2, 2, -2147483648, 1) := by decide +kernel
  obtain ⟨c, hc, hFields⟩ := Option.map_eq_some_iff.mp hRun
  simp only [Prod.mk.injEq] at hFields
  obtain ⟨hMap, hX, hY, hTop, hSize⟩ := hFields
  have hStep : ∀ c a c', guardedNext (Allowed firstLayer) step c a = some c' →
      Guarded (Allowed firstLayer) Step c a c' := guarded_of_next fun _ _ _ hNext => hNext
  have hStart : Start firstLayer (layerSetHeight oneLayer firstLayer 0) :=
    ⟨oneLayer, 0, oneLayer_floor, by decide, rfl⟩
  have hComposed := h firstLayer c ⟨_, _, hStart, run_of_runList hStep hc⟩
  obtain ⟨i, hHighest, hShows⟩ := hComposed 0 0 ⟨by omega, by omega, by omega, by omega⟩
  obtain rfl : i = secondLayer := sid_inj (hShows.1.symm.trans hMap)
  obtain ⟨⟨-, -, -, hBelow⟩, -⟩ := hHighest.solid
  omega

end Wrapping

end KalinoteOS.Graphic
