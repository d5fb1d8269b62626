import KalinoteOS.Graphic.Order

/-! # The painting loops at one pixel

`layer_refreshmap` and `layer_refresh_area` write, at a pixel of the screen, what the layers of
their range have there, from the bottom up.
-/
namespace KalinoteOS.Graphic
open Lib
set_option autoImplicit false

def Layer.Covers (lay : Layer) (x y : Int) : Prop :=
  lay.vx0 ≤ x ∧ x < lay.vx0 + lay.bxsize ∧ lay.vy0 ≤ y ∧ y < lay.vy0 + lay.bysize

/-- What the layer has under the pixel `x`, `y` of the screen. -/
def Layer.pixel (lay : Layer) (x y : Int) : VramAddr :=
  lay.buf ((y - lay.vy0) * lay.bxsize + (x - lay.vx0))

/-- The layer covers the pixel with a colour other than `col_inv`. -/
def Layer.Solid (lay : Layer) (x y : Int) : Prop := lay.Covers x y ∧ lay.pixel x y ≠ lay.colInv

def Rect.Inside (r : Rect) (x y : Int) : Prop := r.x0 ≤ x ∧ x < r.x1 ∧ r.y0 ≤ y ∧ y < r.y1

def Controller.OnScreen (c : Controller) (x y : Int) : Prop :=
  0 ≤ x ∧ x < c.xsize ∧ 0 ≤ y ∧ y < c.ysize

instance (lay : Layer) (x y : Int) : Decidable (lay.Covers x y) := by
  unfold Layer.Covers; infer_instance

instance (lay : Layer) (x y : Int) : Decidable (lay.Solid x y) := by
  unfold Layer.Solid; infer_instance

instance (r : Rect) (x y : Int) : Decidable (r.Inside x y) := by
  unfold Rect.Inside; infer_instance

/-- `y * xsize + x`. -/
def Controller.cell (c : Controller) (x y : Int) : Int := y * c.xsize + x

theorem inside_rect_iff (lay : Layer) (x y : Int) : lay.rect.Inside x y ↔ lay.Covers x y := Iff.rfl

theorem clampLow_eq (a : Int) : (if a < 0 then 0 else a) = max 0 a := by
  split <;> omega

theorem clampHigh_eq (a b : Int) : (if b < a then b else a) = min a b := by
  split <;> omega

theorem box_columns (c : Controller) (lay : Layer) (r : Rect) :
    0 ≤ lay.vx0 + (lay.box (c.clip r)).x0 ∧ lay.vx0 + (lay.box (c.clip r)).x1 ≤ c.xsize := by
  simp only [Layer.box, Controller.clip, clampLow_eq, clampHigh_eq]
  omega

/-- One coordinate of a layer's point within a clipped rectangle. -/
theorem span_iff (b v lo hi size width : Int) :
    (max 0 (max 0 lo - v) ≤ b ∧ b < min (min hi size - v) width) ↔
      (lo ≤ v + b ∧ v + b < hi) ∧ (0 ≤ v + b ∧ v + b < size) ∧ v ≤ v + b ∧ v + b < v + width := by
  omega

/-- The loops of a layer run over the pixels that the rectangle, the screen and the layer share. -/
theorem mem_box_point_iff (c : Controller) (r : Rect) (lay : Layer) (bx bY : Int) :
    ((lay.box (c.clip r)).x0 ≤ bx ∧ bx < (lay.box (c.clip r)).x1 ∧
      (lay.box (c.clip r)).y0 ≤ bY ∧ bY < (lay.box (c.clip r)).y1) ↔
      r.Inside (lay.vx0 + bx) (lay.vy0 + bY) ∧ c.OnScreen (lay.vx0 + bx) (lay.vy0 + bY) ∧
        lay.Covers (lay.vx0 + bx) (lay.vy0 + bY) := by
  have hColumn := span_iff bx lay.vx0 r.x0 r.x1 c.xsize lay.bxsize
  have hRow := span_iff bY lay.vy0 r.y0 r.y1 c.ysize lay.bysize
  simp only [Layer.box, Controller.clip, clampLow_eq, clampHigh_eq, Rect.Inside, Controller.OnScreen,
    Layer.Covers]
  constructor
  · rintro ⟨hx₀, hx₁, hy₀, hy₁⟩
    obtain ⟨⟨hX₀, hX₁⟩, ⟨hOnX₀, hOnX₁⟩, hInX₀, hInX₁⟩ := hColumn.mp ⟨hx₀, hx₁⟩
    obtain ⟨⟨hY₀, hY₁⟩, ⟨hOnY₀, hOnY₁⟩, hInY₀, hInY₁⟩ := hRow.mp ⟨hy₀, hy₁⟩
    exact ⟨⟨hX₀, hX₁, hY₀, hY₁⟩, ⟨hOnX₀, hOnX₁, hOnY₀, hOnY₁⟩, hInX₀, hInX₁, hInY₀, hInY₁⟩
  · rintro ⟨⟨hX₀, hX₁, hY₀, hY₁⟩, ⟨hOnX₀, hOnX₁, hOnY₀, hOnY₁⟩, hInX₀, hInX₁, hInY₀, hInY₁⟩
    obtain ⟨hx₀, hx₁⟩ := hColumn.mpr ⟨⟨hX₀, hX₁⟩, ⟨hOnX₀, hOnX₁⟩, hInX₀, hInX₁⟩
    obtain ⟨hy₀, hy₁⟩ := hRow.mpr ⟨⟨hY₀, hY₁⟩, ⟨hOnY₀, hOnY₁⟩, hInY₀, hInY₁⟩
    exact ⟨hx₀, hx₁, hy₀, hy₁⟩

section
variable {c : Controller} {x y : Int} (hOn : c.OnScreen x y)
include hOn

theorem mem_box_iff (lay : Layer) (r : Rect) :
    ((lay.box (c.clip r)).x0 ≤ x - lay.vx0 ∧ x - lay.vx0 < (lay.box (c.clip r)).x1 ∧
      (lay.box (c.clip r)).y0 ≤ y - lay.vy0 ∧ y - lay.vy0 < (lay.box (c.clip r)).y1) ↔
      r.Inside x y ∧ lay.Covers x y := by
  have hPoint := mem_box_point_iff c r lay (x - lay.vx0) (y - lay.vy0)
  have hX : lay.vx0 + (x - lay.vx0) = x := by omega
  have hY : lay.vy0 + (y - lay.vy0) = y := by omega
  rw [hX, hY] at hPoint
  rw [hPoint]
  exact and_congr_right fun _ => and_iff_right hOn

theorem paint_hit {α : Type} {lay : Layer} {r : Rect} {write : Int → Int → Option α} {v : α}
    (mem : Int → α) (hIn : r.Inside x y) (hCovers : lay.Covers x y)
    (hWrite : write (x - lay.vx0) (y - lay.vy0) = some v) :
    lay.paint c.xsize (c.clip r) write mem (c.cell x y) = v := by
  obtain ⟨hLeft, hRight⟩ := box_columns c lay r
  obtain ⟨h₁, h₂, h₃, h₄⟩ := (mem_box_iff hOn lay r).mpr ⟨hIn, hCovers⟩
  exact paint_inside hLeft hRight hOn.1 hOn.2.1 h₁ h₂ h₃ h₄ hWrite

theorem paint_miss {α : Type} {lay : Layer} {r : Rect} {write : Int → Int → Option α}
    (mem : Int → α)
    (h : r.Inside x y → lay.Covers x y → write (x - lay.vx0) (y - lay.vy0) = none) :
    lay.paint c.xsize (c.clip r) write mem (c.cell x y) = mem (c.cell x y) := by
  obtain ⟨hLeft, hRight⟩ := box_columns c lay r
  by_cases hBox : r.Inside x y ∧ lay.Covers x y
  · exact paint_none hLeft hRight hOn.1 hOn.2.1 (h hBox.1 hBox.2)
  · exact paint_outside hLeft hRight hOn.1 hOn.2.1 fun hMem =>
      hBox ((mem_box_iff hOn lay r).mp hMem)

/-- One turn of `layer_refreshmap` at a pixel. -/
def mapCell (c : Controller) (r : Rect) (x y h : Int) (v : VramAddr) : VramAddr :=
  match c.layersAddr h with
  | none => v
  | some i => if r.Inside x y ∧ (c.layers i).Solid x y then sid i else v

/-- One turn of `layer_refresh_area` at a pixel. -/
def areaCell (c : Controller) (r : Rect) (x y h : Int) (v : VramAddr) : VramAddr :=
  match c.layersAddr h with
  | none => v
  | some i =>
    if r.Inside x y ∧ (c.layers i).Covers x y ∧ c.map (c.cell x y) = sid i then
      (c.layers i).pixel x y
    else v

theorem mapLayer_cell (r : Rect) (h : Int) (map : Int → VramAddr) :
    c.mapLayer (c.clip r) h map (c.cell x y) = mapCell c r x y h (map (c.cell x y)) := by
  unfold Controller.mapLayer mapCell
  cases c.layersAddr h with
  | none => rfl
  | some i =>
    dsimp only
    split
    · rename_i hHit
      exact paint_hit hOn map hHit.1 hHit.2.1 (if_pos hHit.2.2)
    · rename_i hMiss
      refine paint_miss hOn map fun hIn hCovers => if_neg fun hPixel => ?_
      exact hMiss ⟨hIn, hCovers, hPixel⟩

theorem areaLayer_cell (r : Rect) (h : Int) (vram : Int → VramAddr) :
    c.areaLayer (c.clip r) h vram (c.cell x y) = areaCell c r x y h (vram (c.cell x y)) := by
  unfold Controller.areaLayer areaCell
  cases c.layersAddr h with
  | none => rfl
  | some i =>
    have hCell : ((c.layers i).vy0 + (y - (c.layers i).vy0)) * c.xsize +
        ((c.layers i).vx0 + (x - (c.layers i).vx0)) = c.cell x y := by
      rw [Controller.cell, show (c.layers i).vy0 + (y - (c.layers i).vy0) = y by omega,
        show (c.layers i).vx0 + (x - (c.layers i).vx0) = x by omega]
    dsimp only
    split
    · rename_i hHit
      exact paint_hit hOn vram hHit.1 hHit.2.1 (if_pos (hCell ▸ hHit.2.2))
    · rename_i hMiss
      refine paint_miss hOn vram fun hIn hCovers => if_neg fun hMap => ?_
      exact hMiss ⟨hIn, hCovers, hCell ▸ hMap⟩

theorem refreshmap_cell (r : Rect) (h0 : Int) :
    (layerRefreshmap c r h0).map (c.cell x y) =
      forUp h0 (c.top + 1) (mapCell c r x y) (c.map (c.cell x y)) :=
  forUp_map (fun map : Int → VramAddr => map (c.cell x y))
    fun h map _ _ => mapLayer_cell hOn r h map

theorem refreshArea_cell (r : Rect) (h0 h1 : Int) :
    (layerRefreshArea c r h0 h1).vram (c.cell x y) =
      forUp h0 (h1 + 1) (areaCell c r x y) (c.vram (c.cell x y)) :=
  forUp_map (fun vram : Int → VramAddr => vram (c.cell x y))
    fun h vram _ _ => areaLayer_cell hOn r h vram

end

/-! ## The highest layer -/

/-- The last layer of a list that is solid at the pixel. -/
def topmost (layers : Index → Layer) (x y : Int) (S : List Index) : Option Index :=
  (S.filter fun i => (layers i).Solid x y).getLast?

section
variable {layers : Index → Layer} {x y : Int} {S T : List Index} {i : Index}

theorem topmost_append : topmost layers x y (S ++ T) = (topmost layers x y T).or (topmost layers x y S) := by
  rw [topmost, List.filter_append, List.getLast?_append]
  rfl

theorem topmost_singleton_of_solid (h : (layers i).Solid x y) : topmost layers x y [i] = some i := by
  simp [topmost, h]

theorem topmost_singleton_of_not (h : ¬ (layers i).Solid x y) : topmost layers x y [i] = none := by
  simp [topmost, h]

theorem topmost_cons : topmost layers x y (i :: S) = (topmost layers x y S).or (topmost layers x y [i]) :=
  topmost_append (S := [i])

theorem topmost_mem (h : topmost layers x y S = some i) : i ∈ S ∧ (layers i).Solid x y := by
  have hMem := List.mem_of_getLast? h
  simpa using hMem

theorem topmost_eq_none : topmost layers x y S = none ↔ ∀ j ∈ S, ¬ (layers j).Solid x y := by
  simp [topmost]

theorem topmost_split (h : topmost layers x y S = some i) :
    ∃ A B, S = A ++ i :: B ∧ (layers i).Solid x y ∧ ∀ j ∈ B, ¬ (layers j).Solid x y := by
  induction S with
  | nil => cases h
  | cons j S ih =>
    rw [topmost_cons] at h
    cases hRest : topmost layers x y S with
    | some k =>
      rw [hRest, Option.some_or] at h
      cases h
      obtain ⟨A, B, rfl, hSolid, hAbove⟩ := ih hRest
      exact ⟨j :: A, B, rfl, hSolid, hAbove⟩
    | none =>
      rw [hRest, Option.none_or] at h
      obtain ⟨hMem, hSolid⟩ := topmost_mem h
      cases List.mem_singleton.mp hMem
      exact ⟨[], S, rfl, hSolid, topmost_eq_none.mp hRest⟩

theorem exists_topmost (hi : i ∈ S) (hSolid : (layers i).Solid x y) :
    ∃ w, topmost layers x y S = some w := by
  cases h : topmost layers x y S with
  | some w => exact ⟨w, rfl⟩
  | none => exact absurd hSolid (topmost_eq_none.mp h i hi)

theorem topmost_congr {layers' : Index → Layer}
    (h : ∀ j ∈ S, (layers' j).Solid x y ↔ (layers j).Solid x y) :
    topmost layers' x y S = topmost layers x y S := by
  unfold topmost
  rw [List.filter_congr fun j hj => decide_eq_decide.mpr (h j hj)]

end

/-! ## One call of a painting loop -/

theorem sid_inj {i j : Index} (h : sid i = sid j) : i = j := by
  have hNat := congrArg BitVec.toNat h
  simp only [sid, BitVec.toNat_ofNat] at hNat
  have hi : i.val < 64 := i.isLt
  have hj : j.val < 64 := j.isLt
  exact Fin.ext (by omega)

section
variable {c : Controller} {x y : Int} {r : Rect} {P Q T : List Index} {w : Index}
  (hOn : c.OnScreen x y)
include hOn

/-- The map shows the highest layer from `h0` on, inside the rectangle. -/
theorem refreshmap_some (h : Stack c (P ++ Q)) (hIn : r.Inside x y)
    (hw : topmost c.layers x y Q = some w) :
    (layerRefreshmap c r P.length).map (c.cell x y) = sid w := by
  obtain ⟨A, B, rfl, hSolid, hAbove⟩ := topmost_split hw
  obtain ⟨_, hQ⟩ := segment_append.mp h.segment
  obtain ⟨_, hAddr, _, hB⟩ := segment_append.mp hQ
  have hTop := h.top
  simp only [List.length_append, List.length_cons, Int.zero_add] at hTop hAddr hB
  rw [refreshmap_cell hOn]
  refine forUp_hit (i := P.length + A.length) (by omega) (by omega) ?_ ?_
  · intro v
    simp only [mapCell, hAddr]
    exact if_pos ⟨hIn, hSolid⟩
  · intro k hk₁ hk₂
    obtain ⟨j, hj, hEntry, _⟩ := hB.entry (k := k) (by omega) (by omega)
    simp only [mapCell, hEntry]
    exact if_neg fun hHit => hAbove j hj hHit.2

theorem refreshmap_none (h : Stack c (P ++ Q))
    (hNone : r.Inside x y → topmost c.layers x y Q = none) :
    (layerRefreshmap c r P.length).map (c.cell x y) = c.map (c.cell x y) := by
  obtain ⟨_, hQ⟩ := segment_append.mp h.segment
  have hTop := h.top
  simp only [List.length_append, Int.zero_add] at hTop hQ
  rw [refreshmap_cell hOn]
  refine forUp_miss ?_
  intro k hk₁ hk₂
  obtain ⟨j, hj, hEntry, _⟩ := hQ.entry hk₁ (by omega)
  simp only [mapCell, hEntry]
  exact if_neg fun hHit => topmost_eq_none.mp (hNone hHit.1) j hj hHit.2

/-- The highest layer is named inside the rectangle if it lies in the range. -/
theorem refreshmap_fresh (h : Stack c (P ++ Q)) (hIn : r.Inside x y) (hMem : w ∈ Q)
    (hw : topmost c.layers x y (P ++ Q) = some w) :
    (layerRefreshmap c r P.length).map (c.cell x y) = sid w := by
  obtain ⟨w', hw'⟩ := exists_topmost hMem (topmost_mem hw).2
  rw [topmost_append, hw', Option.some_or] at hw
  cases hw
  exact refreshmap_some hOn h hIn hw'

theorem refreshmap_keep (h : Stack c (P ++ Q)) (hw : topmost c.layers x y (P ++ Q) = some w)
    (hMap : c.map (c.cell x y) = sid w) :
    (layerRefreshmap c r P.length).map (c.cell x y) = sid w := by
  by_cases hIn : r.Inside x y ∧ w ∈ Q
  · exact refreshmap_fresh hOn h hIn.1 hIn.2 hw
  · rw [refreshmap_none hOn h ?_, hMap]
    intro hInside
    cases hRange : topmost c.layers x y Q with
    | none => rfl
    | some w' =>
      rw [topmost_append, hRange, Option.some_or] at hw
      cases hw
      exact absurd ⟨hInside, (topmost_mem hRange).1⟩ hIn

/-- The picture of a layer of the range appears where the map names it. -/
theorem refreshArea_some (h : Stack c (P ++ Q ++ T)) (hIn : r.Inside x y) (hw : w ∈ Q)
    (hCovers : (c.layers w).Covers x y) (hMap : c.map (c.cell x y) = sid w) {h1 : Int}
    (h₁ : h1 + 1 = P.length + Q.length) :
    (layerRefreshArea c r P.length h1).vram (c.cell x y) = (c.layers w).pixel x y := by
  obtain ⟨hPQ, _⟩ := segment_append.mp h.segment
  obtain ⟨_, hQ⟩ := segment_append.mp hPQ
  rw [Int.zero_add] at hQ
  obtain ⟨hLo, hHi, hAddr⟩ := hQ.height_mem hw
  rw [refreshArea_cell hOn]
  refine forUp_hit hLo (by omega) ?_ ?_
  · intro v
    simp only [areaCell, hAddr]
    exact if_pos ⟨hIn, hCovers, hMap⟩
  · intro k hk₁ hk₂
    obtain ⟨j, _, hEntry, hHeight⟩ := hQ.entry (k := k) (by omega) (by omega)
    simp only [areaCell, hEntry]
    refine if_neg fun hHit => ?_
    have hjw := sid_inj (hHit.2.2.symm.trans hMap)
    subst hjw
    omega

theorem refreshArea_none (h : Stack c (P ++ Q ++ T)) (hMap : c.map (c.cell x y) = sid w)
    (hOut : r.Inside x y → w ∉ Q) {h1 : Int} (h₁ : h1 + 1 = P.length + Q.length) :
    (layerRefreshArea c r P.length h1).vram (c.cell x y) = c.vram (c.cell x y) := by
  obtain ⟨hPQ, _⟩ := segment_append.mp h.segment
  obtain ⟨_, hQ⟩ := segment_append.mp hPQ
  rw [Int.zero_add] at hQ
  rw [refreshArea_cell hOn]
  refine forUp_miss ?_
  intro k hk₁ hk₂
  obtain ⟨j, hj, hEntry, _⟩ := hQ.entry hk₁ (by omega)
  simp only [areaCell, hEntry]
  refine if_neg fun hHit => ?_
  have hjw := sid_inj (hHit.2.2.symm.trans hMap)
  exact hOut hHit.1 (hjw ▸ hj)

end

end KalinoteOS.Graphic
