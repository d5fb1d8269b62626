import KalinoteOS.Graphic.Run

/-! # Coordinates of 32 bits

The coordinates of `layer.c` are of type `int`. Here are its functions again with every sum and product
wrapped to 32 bits, as they are compiled. As long as no result leaves the range they do what they do over
the integers; a position at the end of the range brings a layer onto a screen that it does not cover.
-/
namespace KalinoteOS.Graphic
open Lib
set_option autoImplicit false

/-- The value of an `int` that is assigned `v`. -/
def int (v : Int) : Int := v.bmod 4294967296

def IsInt (v : Int) : Prop := -2147483648 ≤ v ∧ v < 2147483648

instance (v : Int) : Decidable (IsInt v) := inferInstanceAs (Decidable (_ ∧ _))

theorem int_of_isInt {v : Int} (h : IsInt v) : int v = v := by
  obtain ⟨hLow, hHigh⟩ := h
  exact Int.bmod_eq_of_le_mul_two (by omega) (by omega)

namespace Wrapping

/-! ## Painting -/

/-- `vx0`, `vy0`, `vx0 + bxsize` and `vy0 + bysize`. -/
def rect (lay : Layer) : Rect := ⟨lay.vx0, lay.vy0, int (lay.vx0 + lay.bxsize), int (lay.vy0 + lay.bysize)⟩

/-- `bx0`, `by0`, `bx1` and `by1`. -/
def box (lay : Layer) (r : Rect) : Rect where
  x0 := if int (r.x0 - lay.vx0) < 0 then 0 else int (r.x0 - lay.vx0)
  y0 := if int (r.y0 - lay.vy0) < 0 then 0 else int (r.y0 - lay.vy0)
  x1 := if lay.bxsize < int (r.x1 - lay.vx0) then lay.bxsize else int (r.x1 - lay.vx0)
  y1 := if lay.bysize < int (r.y1 - lay.vy0) then lay.bysize else int (r.y1 - lay.vy0)

/-- `by * bxsize + bx`. -/
def bufIndex (lay : Layer) (bx bY : Int) : Int := int (int (bY * lay.bxsize) + bx)

/-- `vy * xsize + vx`, with `vx = vx0 + bx` and `vy = vy0 + by`. -/
def screenIndex (lay : Layer) (xsize bx bY : Int) : Int :=
  int (int (int (lay.vy0 + bY) * xsize) + int (lay.vx0 + bx))

def paint {α : Type} (lay : Layer) (xsize : Int) (r : Rect) (write : Int → Int → Option α) (mem : Int → α) :
    Int → α :=
  forUp (box lay r).y0 (box lay r).y1
    (fun bY mem => forUp (box lay r).x0 (box lay r).x1
      (fun bx mem => store mem (screenIndex lay xsize bx bY) (write bx bY)) mem)
    mem

/-- One turn of the outer loop of `layer_refreshmap`. -/
def mapLayer (c : Controller) (r : Rect) (h : Int) (map : Int → VramAddr) : Int → VramAddr :=
  match c.layersAddr h with
  | none => map
  | some i =>
    let lay := c.layers i
    paint lay c.xsize r
      (fun bx bY => if lay.buf (bufIndex lay bx bY) ≠ lay.colInv then some (sid i) else none) map

def layerRefreshmap (c : Controller) (r : Rect) (h0 : Int) : Controller :=
  { c with
    map := forUp h0 (c.top + 1) (mapLayer c (c.clip r)) c.map
    derefs := forUp h0 (c.top + 1) (fun h hs => hs ++ [h]) c.derefs }

/-- One turn of the outer loop of `layer_refresh_area`. -/
def areaLayer (c : Controller) (r : Rect) (h : Int) (vram : Int → VramAddr) : Int → VramAddr :=
  match c.layersAddr h with
  | none => vram
  | some i =>
    let lay := c.layers i
    paint lay c.xsize r
      (fun bx bY =>
        if c.map (screenIndex lay c.xsize bx bY) = sid i then some (lay.buf (bufIndex lay bx bY)) else none) vram

def layerRefreshArea (c : Controller) (r : Rect) (h0 h1 : Int) : Controller :=
  { c with
    vram := forUp h0 (h1 + 1) (areaLayer c (c.clip r)) c.vram
    derefs := forUp h0 (h1 + 1) (fun h hs => hs ++ [h]) c.derefs }

/-! ## The calls: heights stay between -1 and `maxLayers` -/

def layerSetHeight (c : Controller) (i : Index) (height : Int) : Controller :=
  let old := (c.layers i).height
  let height := c.clamp height
  let r := rect (c.layers i)
  let c := c.setHeight i height
  if height < old then
    if 0 ≤ height then
      layerRefreshArea (layerRefreshmap (c.lower i old height) r (height + 1)) r (height + 1) old
    else
      layerRefreshArea (layerRefreshmap (c.hide old) r 0) r 0 (old - 1)
  else if old < height then
    let c := if 0 ≤ old then c.raise i old height else c.unhide i height
    layerRefreshArea (layerRefreshmap c r height) r height height
  else c

def layerRefresh (c : Controller) (i : Index) (r : Rect) : Controller :=
  let lay := c.layers i
  if 0 ≤ lay.height then
    layerRefreshArea c
      ⟨int (lay.vx0 + r.x0), int (lay.vy0 + r.y0), int (lay.vx0 + r.x1), int (lay.vy0 + r.y1)⟩
      lay.height lay.height
  else c

def layerMove (c : Controller) (i : Index) (vx0 vy0 : Int) : Controller :=
  let oldRect := rect (c.layers i)
  let c := c.update i fun lay => { lay with vx0 := vx0, vy0 := vy0 }
  let lay := c.layers i
  if 0 ≤ lay.height then
    let c := layerRefreshmap c oldRect 0
    let c := layerRefreshmap c (rect lay) lay.height
    let c := layerRefreshArea c oldRect 0 (lay.height - 1)
    layerRefreshArea c (rect lay) lay.height lay.height
  else c

def layerFree (c : Controller) (i : Index) : Controller :=
  let c := if 0 ≤ (c.layers i).height then layerSetHeight c i (-1) else c
  c.update i fun lay => { lay with flags := layerNoUse }

def step (c : Controller) : Action → Option Controller
  | .layerAlloc => (layerAlloc c.start).map Prod.snd
  | .layerSetbuf i buf xsize ysize colInv => c.call i fun c => layerSetbuf c i buf xsize ysize colInv
  | .layerSetHeight i height => c.call i fun c => layerSetHeight c i height
  | .layerRefresh i r => c.call i fun c => layerRefresh c i r
  | .layerMove i vx0 vy0 => c.call i fun c => layerMove c i vx0 vy0
  | .layerFree i => c.call i fun c => layerFree c i

def Step (c : Controller) (a : Action) (c' : Controller) : Prop := step c a = some c'

/-- `F` has just been shown. -/
def Start (F : Index) (c : Controller) : Prop :=
  ∃ c₀ height, Floor F c₀ ∧ 0 ≤ height ∧ c = layerSetHeight c₀ F height

/-! ## No result leaves the range -/

structure RectFits (lay : Layer) : Prop where
  x1 : IsInt (lay.vx0 + lay.bxsize)
  y1 : IsInt (lay.vy0 + lay.bysize)

/-- The coordinates and the indices in one round of the loops over a layer. -/
structure CellFits (lay : Layer) (xsize bx bY : Int) : Prop where
  vx : IsInt (lay.vx0 + bx)
  vy : IsInt (lay.vy0 + bY)
  bufRow : IsInt (bY * lay.bxsize)
  bufIndex : IsInt (bY * lay.bxsize + bx)
  row : IsInt ((lay.vy0 + bY) * xsize)
  index : IsInt ((lay.vy0 + bY) * xsize + (lay.vx0 + bx))

/-- One turn of the outer loop. -/
structure TurnFits (lay : Layer) (xsize : Int) (r : Rect) : Prop where
  x0 : IsInt (r.x0 - lay.vx0)
  y0 : IsInt (r.y0 - lay.vy0)
  x1 : IsInt (r.x1 - lay.vx0)
  y1 : IsInt (r.y1 - lay.vy0)
  cell : ∀ bx, (lay.box r).x0 ≤ bx → bx < (lay.box r).x1 → ∀ bY, (lay.box r).y0 ≤ bY → bY < (lay.box r).y1 →
    CellFits lay xsize bx bY

/-- The outer loop from `h0` to `h1`. -/
def PassFits (c : Controller) (r : Rect) (h0 h1 : Int) : Prop :=
  ∀ h, h0 ≤ h → h < h1 + 1 → ∀ i, c.layersAddr h = some i → TurnFits (c.layers i) c.xsize (c.clip r)

/-- `layer_refreshmap` and then `layer_refresh_area`. -/
structure RepaintFits (c : Controller) (lay : Layer) (h0 h1 : Int) : Prop where
  rect : RectFits lay
  map : PassFits c lay.rect h0 c.top
  area : PassFits c lay.rect h0 h1

def HeightFits (c : Controller) (i : Index) (height : Int) : Prop :=
  let old := (c.layers i).height
  let height := c.clamp height
  let lay := c.layers i
  let c := c.setHeight i height
  if height < old then
    if 0 ≤ height then RepaintFits (c.lower i old height) lay (height + 1) old
    else RepaintFits (c.hide old) lay 0 (old - 1)
  else if old < height then
    RepaintFits (if 0 ≤ old then c.raise i old height else c.unhide i height) lay height height
  else True

structure MoveFits (c : Controller) (i : Index) (oldLay : Layer) : Prop where
  oldRect : RectFits oldLay
  newRect : RectFits (c.layers i)
  oldMap : PassFits c oldLay.rect 0 c.top
  newMap : PassFits c (c.layers i).rect (c.layers i).height c.top
  oldArea : PassFits c oldLay.rect 0 ((c.layers i).height - 1)
  newArea : PassFits c (c.layers i).rect (c.layers i).height (c.layers i).height

structure RefreshFits (c : Controller) (i : Index) (r : Rect) : Prop where
  x0 : IsInt ((c.layers i).vx0 + r.x0)
  y0 : IsInt ((c.layers i).vy0 + r.y0)
  x1 : IsInt ((c.layers i).vx0 + r.x1)
  y1 : IsInt ((c.layers i).vy0 + r.y1)
  area : PassFits c ⟨(c.layers i).vx0 + r.x0, (c.layers i).vy0 + r.y0, (c.layers i).vx0 + r.x1,
    (c.layers i).vy0 + r.y1⟩ (c.layers i).height (c.layers i).height

/-- No sum, difference or product of coordinates that the call computes leaves the range of `int`. -/
def Fits (c : Controller) : Action → Prop
  | .layerAlloc => True
  | .layerSetbuf _ _ _ _ _ => True
  | .layerSetHeight i height => HeightFits c.start i height
  | .layerRefresh i r => 0 ≤ (c.layers i).height → RefreshFits c.start i r
  | .layerMove i vx0 vy0 => 0 ≤ (c.layers i).height → MoveFits (c.start.place i vx0 vy0) i (c.layers i)
  | .layerFree i => 0 ≤ (c.layers i).height → HeightFits c.start i (-1)

/-! ## The same as over the integers -/

section
variable {lay : Layer} {c c' : Controller} {i : Index} {r : Rect} {xsize h0 h1 height : Int}

theorem RectFits.rect_eq (h : RectFits lay) : rect lay = lay.rect := by
  unfold rect
  rw [int_of_isInt h.x1, int_of_isInt h.y1]
  rfl

theorem TurnFits.box_eq (h : TurnFits lay xsize r) : box lay r = lay.box r := by
  unfold box
  rw [int_of_isInt h.x0, int_of_isInt h.y0, int_of_isInt h.x1, int_of_isInt h.y1]
  rfl

theorem CellFits.bufIndex_eq {bx bY : Int} (h : CellFits lay xsize bx bY) :
    Wrapping.bufIndex lay bx bY = bY * lay.bxsize + bx := by
  unfold Wrapping.bufIndex
  rw [int_of_isInt h.bufRow, int_of_isInt h.bufIndex]

theorem CellFits.screenIndex_eq {bx bY : Int} (h : CellFits lay xsize bx bY) :
    screenIndex lay xsize bx bY = (lay.vy0 + bY) * xsize + (lay.vx0 + bx) := by
  unfold screenIndex
  rw [int_of_isInt h.vy, int_of_isInt h.vx, int_of_isInt h.row, int_of_isInt h.index]

theorem TurnFits.paint_eq {α : Type} {write write' : Int → Int → Option α} (h : TurnFits lay xsize r)
    (hWrite : ∀ bx bY, CellFits lay xsize bx bY → write bx bY = write' bx bY) (mem : Int → α) :
    paint lay xsize r write mem = lay.paint xsize r write' mem := by
  unfold paint Layer.paint Lib.paint
  rw [h.box_eq]
  refine forUp_congr fun bY mem hLow hHigh => forUp_congr fun bx mem hLeft hRight => ?_
  have hCell := h.cell bx hLeft hRight bY hLow hHigh
  rw [hCell.screenIndex_eq, hWrite bx bY hCell]

theorem mapLayer_eq {h : Int} (hTurn : ∀ i, c.layersAddr h = some i → TurnFits (c.layers i) c.xsize r)
    (map : Int → VramAddr) : mapLayer c r h map = c.mapLayer r h map := by
  unfold mapLayer Controller.mapLayer
  cases hEntry : c.layersAddr h with
  | none => rfl
  | some i =>
    refine (hTurn i hEntry).paint_eq (fun bx bY hCell => ?_) map
    rw [hCell.bufIndex_eq]

theorem areaLayer_eq {h : Int} (hTurn : ∀ i, c.layersAddr h = some i → TurnFits (c.layers i) c.xsize r)
    (vram : Int → VramAddr) : areaLayer c r h vram = c.areaLayer r h vram := by
  unfold areaLayer Controller.areaLayer
  cases hEntry : c.layersAddr h with
  | none => rfl
  | some i =>
    refine (hTurn i hEntry).paint_eq (fun bx bY hCell => ?_) vram
    rw [hCell.bufIndex_eq, hCell.screenIndex_eq]

theorem layerRefreshmap_eq (h : PassFits c r h0 c.top) :
    layerRefreshmap c r h0 = Graphic.layerRefreshmap c r h0 := by
  have hMap : forUp h0 (c.top + 1) (mapLayer c (c.clip r)) c.map =
      forUp h0 (c.top + 1) (c.mapLayer (c.clip r)) c.map :=
    forUp_congr fun k map hLow hHigh => mapLayer_eq (h k hLow hHigh) map
  unfold layerRefreshmap
  rw [hMap]
  rfl

theorem layerRefreshArea_eq (h : PassFits c r h0 h1) :
    layerRefreshArea c r h0 h1 = Graphic.layerRefreshArea c r h0 h1 := by
  have hVram : forUp h0 (h1 + 1) (areaLayer c (c.clip r)) c.vram =
      forUp h0 (h1 + 1) (c.areaLayer (c.clip r)) c.vram :=
    forUp_congr fun k vram hLow hHigh => areaLayer_eq (h k hLow hHigh) vram
  unfold layerRefreshArea
  rw [hVram]
  rfl

theorem RepaintFits.repaint_eq (h : RepaintFits c lay h0 h1) :
    layerRefreshArea (layerRefreshmap c (Wrapping.rect lay) h0) (Wrapping.rect lay) h0 h1 =
      Graphic.layerRefreshArea (Graphic.layerRefreshmap c lay.rect h0) lay.rect h0 h1 := by
  rw [h.rect.rect_eq, layerRefreshmap_eq h.map]
  exact layerRefreshArea_eq (c := Graphic.layerRefreshmap c lay.rect h0) h.area

theorem layerSetHeight_eq (h : HeightFits c i height) :
    layerSetHeight c i height = Graphic.layerSetHeight c i height := by
  unfold HeightFits at h
  unfold layerSetHeight Graphic.layerSetHeight
  dsimp only at h ⊢
  split
  · next hLower =>
    rw [if_pos hLower] at h
    split
    · next hShown =>
      rw [if_pos hShown] at h
      exact h.repaint_eq
    · next hHidden =>
      rw [if_neg hHidden] at h
      exact h.repaint_eq
  · next hNotLower =>
    rw [if_neg hNotLower] at h
    split
    · next hHigher =>
      rw [if_pos hHigher] at h
      exact h.repaint_eq
    · rfl

theorem layerRefresh_eq (h : 0 ≤ (c.layers i).height → RefreshFits c i r) :
    layerRefresh c i r = Graphic.layerRefresh c i r := by
  unfold layerRefresh Graphic.layerRefresh
  dsimp only
  split
  · next hShown =>
    obtain ⟨hX0, hY0, hX1, hY1, hArea⟩ := h hShown
    rw [int_of_isInt hX0, int_of_isInt hY0, int_of_isInt hX1, int_of_isInt hY1]
    exact layerRefreshArea_eq hArea
  · rfl

theorem MoveFits.passes_eq {oldLay : Layer} (h : MoveFits c i oldLay) :
    layerRefreshArea
        (layerRefreshArea
          (layerRefreshmap (layerRefreshmap c (rect oldLay) 0) (rect (c.layers i)) (c.layers i).height)
          (rect oldLay) 0 ((c.layers i).height - 1))
        (rect (c.layers i)) (c.layers i).height (c.layers i).height =
      Graphic.layerRefreshArea
        (Graphic.layerRefreshArea
          (Graphic.layerRefreshmap (Graphic.layerRefreshmap c oldLay.rect 0) (c.layers i).rect
            (c.layers i).height)
          oldLay.rect 0 ((c.layers i).height - 1))
        (c.layers i).rect (c.layers i).height (c.layers i).height := by
  -- a pass changes neither the layers nor their order, so the conditions stay
  have hNewMap : PassFits (Graphic.layerRefreshmap c oldLay.rect 0) (c.layers i).rect (c.layers i).height c.top :=
    h.newMap
  rw [h.oldRect.rect_eq, h.newRect.rect_eq, layerRefreshmap_eq h.oldMap, layerRefreshmap_eq hNewMap]
  have hOldArea : PassFits (Graphic.layerRefreshmap (Graphic.layerRefreshmap c oldLay.rect 0) (c.layers i).rect
      (c.layers i).height) oldLay.rect 0 ((c.layers i).height - 1) := h.oldArea
  rw [layerRefreshArea_eq hOldArea]
  exact layerRefreshArea_eq h.newArea

theorem layerMove_eq {vx0 vy0 : Int} (h : 0 ≤ (c.layers i).height → MoveFits (c.place i vx0 vy0) i (c.layers i)) :
    layerMove c i vx0 vy0 = Graphic.layerMove c i vx0 vy0 := by
  have hHeight : ((c.place i vx0 vy0).layers i).height = (c.layers i).height := by
    rw [Controller.place, update_layers_self]
  unfold layerMove Graphic.layerMove
  dsimp only
  split
  · next hShown => exact (h (hHeight ▸ hShown)).passes_eq
  · rfl

theorem layerFree_eq (h : 0 ≤ (c.layers i).height → HeightFits c i (-1)) :
    layerFree c i = Graphic.layerFree c i := by
  unfold layerFree Graphic.layerFree
  dsimp only
  split
  · next hShown => rw [layerSetHeight_eq (h hShown)]
  · rfl

/-- A call whose results fit does what it does over the integers. -/
theorem step_eq {a : Action} (h : Fits c a) : step c a = Graphic.step c a := by
  cases a with
  | layerAlloc => rfl
  | layerSetbuf i buf xsize ysize colInv => rfl
  | layerSetHeight i height =>
    have hSame : layerSetHeight c.start i height = Graphic.layerSetHeight c.start i height := layerSetHeight_eq h
    exact congrArg (fun d => if c.used i then some d else none) hSame
  | layerRefresh i r =>
    have hSame : layerRefresh c.start i r = Graphic.layerRefresh c.start i r := layerRefresh_eq h
    exact congrArg (fun d => if c.used i then some d else none) hSame
  | layerMove i vx0 vy0 =>
    have hSame : layerMove c.start i vx0 vy0 = Graphic.layerMove c.start i vx0 vy0 := layerMove_eq h
    exact congrArg (fun d => if c.used i then some d else none) hSame
  | layerFree i =>
    have hSame : layerFree c.start i = Graphic.layerFree c.start i := layerFree_eq h
    exact congrArg (fun d => if c.used i then some d else none) hSame

end

end Wrapping

end KalinoteOS.Graphic
