import KalinoteOS.Graphic.Paint

/-! # What the painting loops touch

The loops of `layer_refreshmap` and `layer_refresh_area` once more, with a log of the pixels they
come to and of their accesses to `map`, `vram` and the buffers of the layers.
-/
namespace KalinoteOS.Graphic
open Lib
set_option autoImplicit false

/-- An access to `map`, to `vram`, or to the `buf` of a layer, with its index. -/
inductive Access where
  | map (k : Int)
  | vram (k : Int)
  | buf (i : Index) (k : Int)
  deriving DecidableEq, Repr

/-- `mem` is the buffer that the loops write; a pixel is logged with the height of its layer. -/
structure Trace where
  mem : Int → VramAddr
  accesses : List Access
  visited : List (Int × Int × Int)

namespace Trace

def visit (t : Trace) (h vx vy : Int) : Trace := { t with visited := t.visited ++ [(h, vx, vy)] }

def access (t : Trace) (a : Access) : Trace := { t with accesses := t.accesses ++ [a] }

def write (t : Trace) (k : Int) (v : VramAddr) : Trace := { t with mem := Function.update t.mem k v }

end Trace

section
variable (c : Controller)

/-- The inner body of `layer_refreshmap`. -/
def Controller.mapPixel (i : Index) (h bY bx : Int) (t : Trace) : Trace :=
  let lay := c.layers i
  let vy := lay.vy0 + bY
  let vx := lay.vx0 + bx
  let t := (t.visit h vx vy).access (.buf i (bY * lay.bxsize + bx))
  if lay.buf (bY * lay.bxsize + bx) ≠ lay.colInv then
    (t.access (.map (vy * c.xsize + vx))).write (vy * c.xsize + vx) (sid i)
  else t

/-- The inner body of `layer_refresh_area`. -/
def Controller.areaPixel (i : Index) (h bY bx : Int) (t : Trace) : Trace :=
  let lay := c.layers i
  let vy := lay.vy0 + bY
  let vx := lay.vx0 + bx
  let t := (t.visit h vx vy).access (.map (vy * c.xsize + vx))
  if c.map (vy * c.xsize + vx) = sid i then
    ((t.access (.buf i (bY * lay.bxsize + bx))).access (.vram (vy * c.xsize + vx))).write
      (vy * c.xsize + vx) (lay.buf (bY * lay.bxsize + bx))
  else t

def Controller.traceLayer (pixel : Index → Int → Int → Int → Trace → Trace) (r : Rect) (h : Int)
    (t : Trace) : Trace :=
  match c.layersAddr h with
  | none => t
  | some i =>
    let b := (c.layers i).box r
    forUp b.y0 b.y1 (fun bY => forUp b.x0 b.x1 fun bx => pixel i h bY bx) t

def Controller.trace (pixel : Index → Int → Int → Int → Trace → Trace) (mem : Int → VramAddr)
    (r : Rect) (h0 h1 : Int) : Trace :=
  forUp h0 (h1 + 1) (c.traceLayer pixel (c.clip r)) ⟨mem, [], []⟩

def layerRefreshmapTrace (r : Rect) (h0 : Int) : Trace := c.trace c.mapPixel c.map r h0 c.top

def layerRefreshAreaTrace (r : Rect) (h0 h1 : Int) : Trace := c.trace c.areaPixel c.vram r h0 h1

/-- The index is one of a pixel of the screen, or of the layer. -/
def Access.InRange : Access → Prop
  | .map k => ∃ vx vy, c.OnScreen vx vy ∧ k = c.cell vx vy
  | .vram k => ∃ vx vy, c.OnScreen vx vy ∧ k = c.cell vx vy
  | .buf i k => ∃ bx bY, 0 ≤ bx ∧ bx < (c.layers i).bxsize ∧ 0 ≤ bY ∧ bY < (c.layers i).bysize ∧
      k = bY * (c.layers i).bxsize + bx

/-- The entries up to `top` point to layers. -/
def Controller.Visible : Prop := ∀ h, 0 ≤ h → h ≤ c.top → ∃ i, c.layersAddr h = some i

end

theorem Stack.visible {c : Controller} {S : List Index} (hS : Stack c S) : c.Visible := by
  intro h hLo hHi
  have hTop := hS.top
  obtain ⟨i, -, hEntry, -⟩ := hS.segment.entry hLo (by omega)
  exact ⟨i, hEntry⟩

/-! ## The traces are those of the two functions -/

section
variable {c : Controller} {r : Rect}

/-- A trace whose inner body writes as `write` does leaves the painted buffer. -/
theorem traceLayer_mem {pixel : Index → Int → Int → Int → Trace → Trace} {h : Int} {i : Index}
    {write : Int → Int → Option VramAddr} (hEntry : c.layersAddr h = some i)
    (hPixel : ∀ bY bx t, (pixel i h bY bx t).mem =
      store t.mem (((c.layers i).vy0 + bY) * c.xsize + ((c.layers i).vx0 + bx)) (write bx bY))
    (t : Trace) :
    (c.traceLayer pixel r h t).mem = (c.layers i).paint c.xsize r write t.mem := by
  rw [Controller.traceLayer, hEntry]
  refine forUp_map Trace.mem fun bY t _ _ => ?_
  exact forUp_map Trace.mem fun bx t _ _ => hPixel bY bx t

theorem layerRefreshmapTrace_mem (h0 : Int) :
    (layerRefreshmapTrace c r h0).mem = (layerRefreshmap c r h0).map := by
  refine forUp_map Trace.mem fun h t _ _ => ?_
  cases hEntry : c.layersAddr h with
  | none => simp only [Controller.traceLayer, Controller.mapLayer, hEntry]
  | some i =>
    rw [Controller.mapLayer, hEntry]
    refine traceLayer_mem hEntry (fun bY bx t => ?_) t
    simp only [Controller.mapPixel]
    split <;> rfl

theorem layerRefreshAreaTrace_mem (h0 h1 : Int) :
    (layerRefreshAreaTrace c r h0 h1).mem = (layerRefreshArea c r h0 h1).vram := by
  refine forUp_map Trace.mem fun h t _ _ => ?_
  cases hEntry : c.layersAddr h with
  | none => simp only [Controller.traceLayer, Controller.areaLayer, hEntry]
  | some i =>
    rw [Controller.areaLayer, hEntry]
    refine traceLayer_mem hEntry (fun bY bx t => ?_) t
    simp only [Controller.areaPixel]
    split <;> rfl

/-! ## The pixels -/

/-- The pixel `vx`, `vy` of layer `i` is one that the loops should come to. -/
def Shared (c : Controller) (r : Rect) (i : Index) (vx vy : Int) : Prop :=
  r.Inside vx vy ∧ c.OnScreen vx vy ∧ (c.layers i).Covers vx vy

section
variable {α : Type} (log : Trace → List α) {a : α} {pixel : Index → Int → Int → Int → Trace → Trace}
  {added : Index → Int → Int → Int → List α}
  (hPixel : ∀ i h bY bx t, log (pixel i h bY bx t) = log t ++ added i h bY bx)
include hPixel

theorem mem_traceLayer (h : Int) (t : Trace) :
    a ∈ log (c.traceLayer pixel (c.clip r) h t) ↔ a ∈ log t ∨ ∃ i, c.layersAddr h = some i ∧
      ∃ bY bx, Shared c r i ((c.layers i).vx0 + bx) ((c.layers i).vy0 + bY) ∧ a ∈ added i h bY bx := by
  unfold Controller.traceLayer
  cases hEntry : c.layersAddr h with
  | none => exact ⟨Or.inl, fun hMem => hMem.resolve_right fun ⟨i, hNone, _⟩ => by cases hNone⟩
  | some i =>
    dsimp only
    rw [forUp_or (P := fun t => a ∈ log t) fun bY t => forUp_or (P := fun t => a ∈ log t)
      (Q := fun bx => a ∈ added i h bY bx) fun bx t => by rw [hPixel, List.mem_append]]
    refine or_congr_right ⟨?_, ?_⟩
    · rintro ⟨bY, hY₀, hY₁, bx, hx₀, hx₁, hAdded⟩
      exact ⟨i, rfl, bY, bx, (mem_box_point_iff c r _ bx bY).mp ⟨hx₀, hx₁, hY₀, hY₁⟩, hAdded⟩
    · rintro ⟨j, hj, bY, bx, hShared, hAdded⟩
      cases hj
      obtain ⟨hx₀, hx₁, hY₀, hY₁⟩ := (mem_box_point_iff c r _ bx bY).mpr hShared
      exact ⟨bY, hY₀, hY₁, bx, hx₀, hx₁, hAdded⟩

theorem mem_trace (mem : Int → VramAddr) (h0 h1 : Int) :
    a ∈ log (c.trace pixel mem r h0 h1) ↔ a ∈ log ⟨mem, [], []⟩ ∨ ∃ h, h0 ≤ h ∧ h < h1 + 1 ∧
      ∃ i, c.layersAddr h = some i ∧ ∃ bY bx,
        Shared c r i ((c.layers i).vx0 + bx) ((c.layers i).vy0 + bY) ∧ a ∈ added i h bY bx :=
  forUp_or (P := fun t => a ∈ log t) fun h t => mem_traceLayer log hPixel h t

end

theorem mem_visited {pixel : Index → Int → Int → Int → Trace → Trace}
    (hPixel : ∀ i h bY bx t, (pixel i h bY bx t).visited =
      t.visited ++ [(h, (c.layers i).vx0 + bx, (c.layers i).vy0 + bY)])
    (mem : Int → VramAddr) (h0 h1 h vx vy : Int) :
    (h, vx, vy) ∈ (c.trace pixel mem r h0 h1).visited ↔
      (h0 ≤ h ∧ h ≤ h1) ∧ ∃ i, c.layersAddr h = some i ∧ Shared c r i vx vy := by
  rw [mem_trace Trace.visited hPixel]
  constructor
  · rintro (hNone | ⟨k, hLo, hHi, i, hEntry, bY, bx, hShared, hAdded⟩)
    · cases hNone
    · cases List.mem_singleton.mp hAdded
      exact ⟨⟨hLo, Int.lt_add_one_iff.mp hHi⟩, i, hEntry, hShared⟩
  · rintro ⟨⟨hLo, hHi⟩, i, hEntry, hShared⟩
    refine Or.inr ⟨h, hLo, Int.lt_add_one_iff.mpr hHi, i, hEntry, vy - (c.layers i).vy0,
      vx - (c.layers i).vx0, ?_⟩
    rw [show (c.layers i).vx0 + (vx - (c.layers i).vx0) = vx by omega,
      show (c.layers i).vy0 + (vy - (c.layers i).vy0) = vy by omega]
    exact ⟨hShared, List.mem_singleton_self _⟩

/-- The accesses at a shared pixel are in range. -/
theorem Shared.inRange {i : Index} {bx bY : Int}
    (h : Shared c r i ((c.layers i).vx0 + bx) ((c.layers i).vy0 + bY)) :
    ((Access.buf i (bY * (c.layers i).bxsize + bx)).InRange c) ∧
      ∃ vx vy, c.OnScreen vx vy ∧
        ((c.layers i).vy0 + bY) * c.xsize + ((c.layers i).vx0 + bx) = c.cell vx vy := by
  obtain ⟨-, hOn, hx₀, hx₁, hy₀, hy₁⟩ := h
  exact ⟨⟨bx, bY, by omega, by omega, by omega, by omega, rfl⟩, _, _, hOn, rfl⟩

theorem layerRefreshmapTrace_inRange (h0 : Int) :
    ∀ a ∈ (layerRefreshmapTrace c r h0).accesses, a.InRange c := by
  have hPixel : ∀ i h bY bx t, (c.mapPixel i h bY bx t).accesses =
      t.accesses ++ (.buf i (bY * (c.layers i).bxsize + bx) ::
        if (c.layers i).buf (bY * (c.layers i).bxsize + bx) ≠ (c.layers i).colInv then
          [.map (((c.layers i).vy0 + bY) * c.xsize + ((c.layers i).vx0 + bx))] else []) := by
    intro i h bY bx t
    simp only [Controller.mapPixel]
    split <;> simp [Trace.access, Trace.visit, Trace.write]
  intro a hMem
  obtain hNone | ⟨h, -, -, i, -, bY, bx, hShared, hAdded⟩ :=
    (mem_trace Trace.accesses hPixel _ _ _).mp hMem
  · cases hNone
  · obtain ⟨hBuf, hCell⟩ := hShared.inRange
    obtain rfl | hMap := List.mem_cons.mp hAdded
    · exact hBuf
    · split at hMap
      · obtain rfl := List.mem_singleton.mp hMap
        exact hCell
      · cases hMap

theorem layerRefreshAreaTrace_inRange (h0 h1 : Int) :
    ∀ a ∈ (layerRefreshAreaTrace c r h0 h1).accesses, a.InRange c := by
  have hPixel : ∀ i h bY bx t, (c.areaPixel i h bY bx t).accesses =
      t.accesses ++ (.map (((c.layers i).vy0 + bY) * c.xsize + ((c.layers i).vx0 + bx)) ::
        if c.map (((c.layers i).vy0 + bY) * c.xsize + ((c.layers i).vx0 + bx)) = sid i then
          [.buf i (bY * (c.layers i).bxsize + bx),
            .vram (((c.layers i).vy0 + bY) * c.xsize + ((c.layers i).vx0 + bx))] else []) := by
    intro i h bY bx t
    simp only [Controller.areaPixel]
    split <;> simp [Trace.access, Trace.visit, Trace.write]
  intro a hMem
  obtain hNone | ⟨h, -, -, i, -, bY, bx, hShared, hAdded⟩ :=
    (mem_trace Trace.accesses hPixel _ _ _).mp hMem
  · cases hNone
  · obtain ⟨hBuf, hCell⟩ := hShared.inRange
    obtain rfl | hDrawn := List.mem_cons.mp hAdded
    · exact hCell
    · split at hDrawn
      · obtain rfl | hVram := List.mem_cons.mp hDrawn
        · exact hBuf
        · obtain rfl := List.mem_singleton.mp hVram
          exact hCell
      · cases hDrawn

theorem layerRefreshmapTrace_visited (h0 h vx vy : Int) :
    (h, vx, vy) ∈ (layerRefreshmapTrace c r h0).visited ↔
      (h0 ≤ h ∧ h ≤ c.top) ∧ ∃ i, c.layersAddr h = some i ∧ Shared c r i vx vy := by
  refine mem_visited (fun i h bY bx t => ?_) _ _ _ _ _ _
  simp only [Controller.mapPixel]
  split <;> rfl

theorem layerRefreshAreaTrace_visited (h0 h1 h vx vy : Int) :
    (h, vx, vy) ∈ (layerRefreshAreaTrace c r h0 h1).visited ↔
      (h0 ≤ h ∧ h ≤ h1) ∧ ∃ i, c.layersAddr h = some i ∧ Shared c r i vx vy := by
  refine mem_visited (fun i h bY bx t => ?_) _ _ _ _ _ _
  simp only [Controller.areaPixel]
  split <;> rfl

/-- A call repaints the shared pixels of the layers from `h0` to `h1` and touches nothing outside of
the buffers. -/
structure StaysInside (c : Controller) (r : Rect) (h0 h1 : Int) (t : Trace) : Prop where
  accesses : ∀ a ∈ t.accesses, a.InRange c
  heights : ∀ h vx vy, (h, vx, vy) ∈ t.visited → h0 ≤ h ∧ h ≤ h1
  pixels : ∀ h, h0 ≤ h → h ≤ h1 → ∃ i, c.layersAddr h = some i ∧
    ∀ vx vy, (h, vx, vy) ∈ t.visited ↔ Shared c r i vx vy

theorem staysInside_of_visited {h0 h1 : Int} {t : Trace} (hVisible : c.Visible) (hLo : 0 ≤ h0)
    (hHi : h1 ≤ c.top) (hAccesses : ∀ a ∈ t.accesses, a.InRange c)
    (hVisited : ∀ h vx vy, (h, vx, vy) ∈ t.visited ↔
      (h0 ≤ h ∧ h ≤ h1) ∧ ∃ i, c.layersAddr h = some i ∧ Shared c r i vx vy) :
    StaysInside c r h0 h1 t := by
  refine ⟨hAccesses, fun h vx vy hMem => ((hVisited h vx vy).mp hMem).1, fun h h₀ h₁ => ?_⟩
  obtain ⟨i, hEntry⟩ := hVisible h (Int.le_trans hLo h₀) (Int.le_trans h₁ hHi)
  refine ⟨i, hEntry, fun vx vy => (hVisited h vx vy).trans ⟨?_, ?_⟩⟩
  · rintro ⟨-, j, hj, hShared⟩
    rw [hEntry] at hj
    cases hj
    exact hShared
  · exact fun hShared => ⟨⟨h₀, h₁⟩, i, hEntry, hShared⟩

/-- Repainting stays inside the buffers, wherever the rectangle and the layers lie. -/
theorem repaint_staysInside (c : Controller) (hVisible : c.Visible) (r : Rect) (h0 : Int)
    (hLo : 0 ≤ h0) :
    ((layerRefreshmapTrace c r h0).mem = (layerRefreshmap c r h0).map ∧
      StaysInside c r h0 c.top (layerRefreshmapTrace c r h0)) ∧
    ∀ h1, h1 ≤ c.top →
      (layerRefreshAreaTrace c r h0 h1).mem = (layerRefreshArea c r h0 h1).vram ∧
        StaysInside c r h0 h1 (layerRefreshAreaTrace c r h0 h1) := by
  refine ⟨⟨layerRefreshmapTrace_mem h0, ?_⟩, fun h1 hHi => ⟨layerRefreshAreaTrace_mem h0 h1, ?_⟩⟩
  · exact staysInside_of_visited hVisible hLo (Int.le_refl _) (layerRefreshmapTrace_inRange h0)
      (layerRefreshmapTrace_visited h0)
  · exact staysInside_of_visited hVisible hLo hHi (layerRefreshAreaTrace_inRange h0 h1)
      (layerRefreshAreaTrace_visited h0 h1)

end

/-- A layer of 3 × 3 pixels that leaves a screen of 2 × 2 on two sides. -/
def offScreen : Controller :=
  { blankController with
    xsize := 2
    ysize := 2
    layersAddr := fun _ => some firstLayer
    layers := fun _ => { blankLayer with bxsize := 3, bysize := 3, vx0 := -1, vy0 := 1, colInv := 5 } }

theorem repaint_staysInside_offScreen :
    StaysInside offScreen ⟨-4, -4, 9, 9⟩ 0 0 (layerRefreshmapTrace offScreen ⟨-4, -4, 9, 9⟩ 0) ∧
    StaysInside offScreen ⟨-4, -4, 9, 9⟩ 0 0 (layerRefreshAreaTrace offScreen ⟨-4, -4, 9, 9⟩ 0 0) := by
  obtain ⟨⟨-, hMap⟩, hArea⟩ := repaint_staysInside offScreen (fun _ _ _ => ⟨firstLayer, rfl⟩)
    ⟨-4, -4, 9, 9⟩ 0 (Int.le_refl 0)
  exact ⟨hMap, (hArea 0 (Int.le_refl 0)).2⟩

example : (layerRefreshmapTrace offScreen ⟨-4, -4, 9, 9⟩ 0).accesses =
    [.buf firstLayer 1, .map 2, .buf firstLayer 2, .map 3] := by decide

end KalinoteOS.Graphic
