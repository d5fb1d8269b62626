import KalinoteOS.Lib.Loop
import Mathlib.Data.Fin.Basic

/-! # The layer controller

`layer.c` as it stands. A controller owns its layers, so a `struct layer *` is an index of
`layers`; an entry of `layers_addr` that was never written holds any value of the memory that
`kmalloc` returned, and `none` is a value that points to none of these layers. Coordinates are
integers: a sum outside `int` has no meaning in C. (`Wrapping` has the same calls with sums of 32
bits.)
-/
namespace KalinoteOS.Graphic
open Lib
set_option autoImplicit false

abbrev VramAddr := BitVec 32

abbrev maxLayers : Nat := 64

abbrev Index := Fin maxLayers

def layerNoUse : Int := 0
def layerUseing : Int := 1

/-- `struct layer`. `col_inv` is compared with pixels as an unsigned number. -/
structure Layer where
  buf : Int → VramAddr
  bxsize : Int
  bysize : Int
  vx0 : Int
  vy0 : Int
  colInv : VramAddr
  height : Int
  flags : Int

/-- `struct layer_controller`, and the entries of `layers_addr` that the last call dereferenced. -/
structure Controller where
  vram : Int → VramAddr
  map : Int → VramAddr
  xsize : Int
  ysize : Int
  top : Int
  layersAddr : Int → Option Index
  layers : Index → Layer
  derefs : List Int

structure Rect where
  x0 : Int
  y0 : Int
  x1 : Int
  y1 : Int

/-- `lay - layer_ctl->layers`. -/
def sid (i : Index) : VramAddr := BitVec.ofNat 32 i.val

/-- The screen of `printk_info`. -/
structure Screen where
  buf : Int → VramAddr
  screenX : Int
  screenY : Int

/-- `raw` is the memory of `kmalloc`, `map` that of `alloc_pages`. -/
def layerControllerInit (printkInfo : Screen) (fLayer : Option Layer) (raw : Option Controller)
    (map : Option (Int → VramAddr)) : Option Controller :=
  raw.bind fun layerCtl => map.map fun map =>
    let layerCtl := { layerCtl with map := map }
    let layerCtl := match fLayer with
      | none => { layerCtl with
          vram := printkInfo.buf, xsize := printkInfo.screenX, ysize := printkInfo.screenY }
      | some lay => { layerCtl with vram := lay.buf, xsize := lay.bxsize, ysize := lay.bysize }
    { layerCtl with
      top := -1
      layers := fun i => { layerCtl.layers i with flags := layerNoUse } }

def Controller.update (c : Controller) (i : Index) (f : Layer → Layer) : Controller :=
  { c with layers := Function.update c.layers i (f (c.layers i)) }

def layerAlloc (c : Controller) : Option (Index × Controller) :=
  ((List.finRange maxLayers).find? fun i => (c.layers i).flags = layerNoUse).map fun i =>
    (i, c.update i fun lay => { lay with flags := layerUseing, height := -1 })

def layerSetbuf (c : Controller) (i : Index) (buf : Int → VramAddr) (xsize ysize : Int)
    (colInv : VramAddr) : Controller :=
  c.update i fun lay => { lay with buf := buf, bxsize := xsize, bysize := ysize, colInv := colInv }

/-! ## Painting -/

/-- The part of a rectangle that lies on the screen. -/
def Controller.clip (c : Controller) (r : Rect) : Rect where
  x0 := if r.x0 < 0 then 0 else r.x0
  y0 := if r.y0 < 0 then 0 else r.y0
  x1 := if c.xsize < r.x1 then c.xsize else r.x1
  y1 := if c.ysize < r.y1 then c.ysize else r.y1

/-- `bx0`, `by0`, `bx1` and `by1`: a rectangle of the screen in the layer's own coordinates. -/
def Layer.box (lay : Layer) (r : Rect) : Rect where
  x0 := if r.x0 - lay.vx0 < 0 then 0 else r.x0 - lay.vx0
  y0 := if r.y0 - lay.vy0 < 0 then 0 else r.y0 - lay.vy0
  x1 := if lay.bxsize < r.x1 - lay.vx0 then lay.bxsize else r.x1 - lay.vx0
  y1 := if lay.bysize < r.y1 - lay.vy0 then lay.bysize else r.y1 - lay.vy0

/-- Where a layer lies on the screen. -/
def Layer.rect (lay : Layer) : Rect :=
  ⟨lay.vx0, lay.vy0, lay.vx0 + lay.bxsize, lay.vy0 + lay.bysize⟩

def Layer.paint {α : Type} (lay : Layer) (xsize : Int) (r : Rect) (write : Int → Int → Option α) :
    (Int → α) → (Int → α) :=
  Lib.paint xsize lay.vx0 lay.vy0 (lay.box r).x0 (lay.box r).y0 (lay.box r).x1 (lay.box r).y1 write

/-- One turn of the outer loop of `layer_refreshmap`. -/
def Controller.mapLayer (c : Controller) (r : Rect) (h : Int) (map : Int → VramAddr) :
    Int → VramAddr :=
  match c.layersAddr h with
  | none => map
  | some i =>
    let lay := c.layers i
    lay.paint c.xsize r
      (fun bx bY => if lay.buf (bY * lay.bxsize + bx) ≠ lay.colInv then some (sid i) else none) map

def layerRefreshmap (c : Controller) (r : Rect) (h0 : Int) : Controller :=
  { c with
    map := forUp h0 (c.top + 1) (c.mapLayer (c.clip r)) c.map
    derefs := forUp h0 (c.top + 1) (fun h hs => hs ++ [h]) c.derefs }

/-- One turn of the outer loop of `layer_refresh_area`. -/
def Controller.areaLayer (c : Controller) (r : Rect) (h : Int) (vram : Int → VramAddr) :
    Int → VramAddr :=
  match c.layersAddr h with
  | none => vram
  | some i =>
    let lay := c.layers i
    lay.paint c.xsize r
      (fun bx bY =>
        if c.map ((lay.vy0 + bY) * c.xsize + (lay.vx0 + bx)) = sid i then
          some (lay.buf (bY * lay.bxsize + bx))
        else none) vram

def layerRefreshArea (c : Controller) (r : Rect) (h0 h1 : Int) : Controller :=
  { c with
    vram := forUp h0 (h1 + 1) (c.areaLayer (c.clip r)) c.vram
    derefs := forUp h0 (h1 + 1) (fun h hs => hs ++ [h]) c.derefs }

/-! ## The order of the layers -/

/-- `lay->height = height;` -/
def Controller.setHeight (c : Controller) (i : Index) (height : Int) : Controller :=
  c.update i fun lay => { lay with height := height }

def Controller.setAddr (c : Controller) (h : Int) (p : Option Index) : Controller :=
  { c with layersAddr := Function.update c.layersAddr h p }

/-- `layers_addr[dst] = layers_addr[src]; layers_addr[dst]->height = dst;` -/
def Controller.moveAddr (c : Controller) (dst src : Int) : Controller :=
  let c := c.setAddr dst (c.layersAddr src)
  let c := match c.layersAddr dst with
    | some i => c.setHeight i dst
    | none => c
  { c with derefs := c.derefs ++ [dst] }

/-- From `old` down to `height ≥ 0`. -/
def Controller.lower (c : Controller) (i : Index) (old height : Int) : Controller :=
  (forDown old height (fun h c => c.moveAddr h (h - 1)) c).setAddr height (some i)

def Controller.hide (c : Controller) (old : Int) : Controller :=
  let c := if old < c.top then forUp old c.top (fun h c => c.moveAddr h (h + 1)) c else c
  { c with top := c.top - 1 }

/-- From `old ≥ 0` up to `height`. -/
def Controller.raise (c : Controller) (i : Index) (old height : Int) : Controller :=
  (forUp old height (fun h c => c.moveAddr h (h + 1)) c).setAddr height (some i)

/-- From hidden to `height`. -/
def Controller.unhide (c : Controller) (i : Index) (height : Int) : Controller :=
  let c := (forDown c.top (height - 1) (fun h c => c.moveAddr (h + 1) h) c).setAddr height (some i)
  { c with top := c.top + 1 }

/-- The height that a call asking for `height` gives: at most `top + 1`, at least `-1`. -/
def Controller.clamp (c : Controller) (height : Int) : Int :=
  let height := if c.top + 1 < height then c.top + 1 else height
  if height < -1 then -1 else height

def layerSetHeight (c : Controller) (i : Index) (height : Int) : Controller :=
  let old := (c.layers i).height
  let height := c.clamp height
  let r := (c.layers i).rect
  let c := c.setHeight i height
  if height < old then
    if 0 ≤ height then
      layerRefreshArea (layerRefreshmap (c.lower i old height) r (height + 1)) r (height + 1) old
    else
      layerRefreshArea (layerRefreshmap (c.hide old) r 0) r 0 (old - 1)
  else if old < height then
    let c := if 0 ≤ old then c.raise i old height else c.unhide i height
    layerRefreshArea (layerRefreshmap c r height) r height height
  else c

def layerRefresh (c : Controller) (i : Index) (r : Rect) : Controller :=
  let lay := c.layers i
  if 0 ≤ lay.height then
    layerRefreshArea c ⟨lay.vx0 + r.x0, lay.vy0 + r.y0, lay.vx0 + r.x1, lay.vy0 + r.y1⟩ lay.height
      lay.height
  else c

def layerMove (c : Controller) (i : Index) (vx0 vy0 : Int) : Controller :=
  let oldRect := (c.layers i).rect
  let c := c.update i fun lay => { lay with vx0 := vx0, vy0 := vy0 }
  let lay := c.layers i
  if 0 ≤ lay.height then
    let c := layerRefreshmap c oldRect 0
    let c := layerRefreshmap c lay.rect lay.height
    let c := layerRefreshArea c oldRect 0 (lay.height - 1)
    layerRefreshArea c lay.rect lay.height lay.height
  else c

def layerFree (c : Controller) (i : Index) : Controller :=
  let c := if 0 ≤ (c.layers i).height then layerSetHeight c i (-1) else c
  c.update i fun lay => { lay with flags := layerNoUse }

/-! ## Calls -/

inductive Action where
  | layerAlloc
  | layerSetbuf (i : Index) (buf : Int → VramAddr) (xsize ysize : Int) (colInv : VramAddr)
  | layerSetHeight (i : Index) (height : Int)
  | layerRefresh (i : Index) (r : Rect)
  | layerMove (i : Index) (vx0 vy0 : Int)
  | layerFree (i : Index)

def Controller.used (c : Controller) (i : Index) : Prop := (c.layers i).flags ≠ layerNoUse

instance (c : Controller) (i : Index) : Decidable (c.used i) := by
  unfold Controller.used; infer_instance

def Controller.start (c : Controller) : Controller := { c with derefs := [] }

/-- A call on an allocated layer. -/
def Controller.call (c : Controller) (i : Index) (f : Controller → Controller) : Option Controller :=
  if c.used i then some (f c.start) else none

def step (c : Controller) : Action → Option Controller
  | .layerAlloc => (Graphic.layerAlloc c.start).map Prod.snd
  | .layerSetbuf i buf xsize ysize colInv =>
    c.call i fun c => Graphic.layerSetbuf c i buf xsize ysize colInv
  | .layerSetHeight i height => c.call i fun c => Graphic.layerSetHeight c i height
  | .layerRefresh i r => c.call i fun c => Graphic.layerRefresh c i r
  | .layerMove i vx0 vy0 => c.call i fun c => Graphic.layerMove c i vx0 vy0
  | .layerFree i => c.call i fun c => Graphic.layerFree c i

def Step (c : Controller) (a : Action) (c' : Controller) : Prop := step c a = some c'

end KalinoteOS.Graphic
