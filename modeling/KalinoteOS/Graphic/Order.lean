import KalinoteOS.Graphic.Height
import KalinoteOS.Lib.Run

/-! # The order of the layers in every run

`layer_set_height` lowers a height that is too high to `top + 1`, for shown and hidden layers
alike. For a shown layer that is one entry too far.
-/
namespace KalinoteOS.Graphic
open Lib
set_option autoImplicit false

/-- The stack invariant in the words of `struct layer_controller`. -/
structure Ordered (c : Controller) : Prop where
  lower : -1 ≤ c.top
  upper : c.top < maxLayers
  entry : ∀ h, 0 ≤ h → h ≤ c.top →
    ∃ i, c.layersAddr h = some i ∧ c.used i ∧ (c.layers i).height = h
  distinct : ∀ h k, 0 ≤ h → h ≤ c.top → 0 ≤ k → k ≤ c.top →
    c.layersAddr h = c.layersAddr k → h = k
  others : ∀ i, c.used i → (∀ h, 0 ≤ h → h ≤ c.top → c.layersAddr h ≠ some i) →
    (c.layers i).height = -1

/-- A layer that `layer_alloc` returns is not on the screen. -/
def AllocFresh (c : Controller) : Prop :=
  ∀ i c', layerAlloc c = some (i, c') → ∀ h, 0 ≤ h → h ≤ c.top → c.layersAddr h ≠ some i

/-- The call dereferenced no entry above both the old and the new top. -/
def ReadsInside (c c' : Controller) : Prop := ∀ h ∈ c'.derefs, h ≤ max c.top c'.top

def Init (c : Controller) : Prop :=
  ∃ printkInfo fLayer raw map, layerControllerInit printkInfo fLayer raw map = some c

/-- A visible layer is asked for no height above the top. -/
def Good (c : Controller) : Action → Prop
  | .layerSetHeight i height => 0 ≤ (c.layers i).height → height ≤ c.top
  | _ => True

instance (c : Controller) (a : Action) : Decidable (Good c a) := by
  cases a <;> unfold Good <;> infer_instance

theorem layerAlloc_unused {c c' : Controller} {i : Index} (hAlloc : layerAlloc c = some (i, c')) :
    ¬ c.used i ∧ c' = c.update i fun lay => { lay with flags := layerUseing, height := -1 } := by
  obtain ⟨j, hj, hEq⟩ := Option.map_eq_some_iff.mp hAlloc
  obtain ⟨rfl, rfl⟩ := Prod.mk.inj hEq
  refine ⟨?_, rfl⟩
  have hFlags := List.find?_some hj
  simpa [Controller.used] using hFlags

/-! ## The stack gives the order -/

section
variable {c c' : Controller} {S : List Index} (h : Stack c S)
include h

theorem Stack.entry {k : Int} (h₀ : 0 ≤ k) (hTop : k ≤ c.top) :
    ∃ i ∈ S, c.layersAddr k = some i ∧ (c.layers i).height = k := by
  have := h.top
  exact h.segment.entry h₀ (by omega)

theorem Stack.ordered : Ordered c := by
  have hTop := h.top
  refine ⟨by omega, ?_, ?_, ?_, ?_⟩
  · have := h.length_le
    omega
  · intro k h₀ hk
    obtain ⟨i, hi, hEntry⟩ := h.entry h₀ hk
    exact ⟨i, hEntry.1, h.used i hi, hEntry.2⟩
  · intro k m hk₀ hk hm₀ hm hEq
    obtain ⟨i, _, hAddr, _⟩ := h.entry hk₀ hk
    exact h.segment.inj ⟨hk₀, by omega⟩ ⟨hm₀, by omega⟩ hAddr (hEq ▸ hAddr)
  · intro i hUsed hOut
    refine h.hidden i hUsed fun hi => ?_
    obtain ⟨h₀, hHi, hAddr⟩ := h.segment.height_mem hi
    exact hOut _ h₀ (by omega) hAddr

theorem Stack.allocFresh : AllocFresh c := by
  intro i c' hAlloc k h₀ hk hAddr
  obtain ⟨j, hj, hEntry, _⟩ := h.entry h₀ hk
  have hji : j = i := Option.some.inj (hEntry.symm.trans hAddr)
  exact (layerAlloc_unused hAlloc).1 (hji ▸ h.used j hj)

/-! ## One call -/

/-- What the calls do outside `layers_addr`, `top` and the heights leaves the stack alone. -/
theorem Stack.congr (hAddr : c'.layersAddr = c.layersAddr) (hTop : c'.top = c.top)
    (hFlags : ∀ i, (c'.layers i).flags = (c.layers i).flags)
    (hHeight : ∀ i, (c'.layers i).height = (c.layers i).height) : Stack c' S := by
  have hUsed : ∀ i, c'.used i ↔ c.used i := fun i => by
    rw [Controller.used, Controller.used, hFlags i]
  refine ⟨hTop ▸ h.top, h.segment.keep (fun k _ _ => by rw [hAddr]) fun i _ => hHeight i, ?_, ?_⟩
  · intro i hi
    exact (hUsed i).mpr (h.used i hi)
  · intro i hi hMem
    rw [hHeight i]
    exact h.hidden i ((hUsed i).mp hi) hMem

theorem Stack.update_image {i : Index} {f : Layer → Layer}
    (hFlags : ∀ lay, (f lay).flags = lay.flags) (hHeight : ∀ lay, (f lay).height = lay.height) :
    Stack (c.update i f) S := by
  refine h.congr rfl rfl (fun j => ?_) (fun j => ?_)
  · by_cases hj : j = i
    · rw [hj, update_layers_self, hFlags]
    · rw [update_layers_other c f hj]
  · by_cases hj : j = i
    · rw [hj, update_layers_self, hHeight]
    · rw [update_layers_other c f hj]

theorem Stack.repaint (r : Rect) (h0 h1 : Int) : Stack (c.repaint r h0 h1) S :=
  h.congr rfl rfl (fun _ => rfl) (fun _ => rfl)

theorem Stack.alloc {i : Index} (hi : ¬ c.used i) :
    Stack (c.update i fun lay => { lay with flags := layerUseing, height := -1 }) S := by
  have hMem : i ∉ S := fun hMem => hi (h.used i hMem)
  refine ⟨h.top, h.segment.update hMem, ?_, ?_⟩
  · intro j hj
    have hji : j ≠ i := by
      rintro rfl
      exact hMem hj
    rw [Controller.used, update_layers_other c _ hji]
    exact h.used j hj
  · intro j hj hOut
    by_cases hji : j = i
    · rw [hji, update_layers_self]
    · rw [Controller.used, update_layers_other c _ hji] at hj
      rw [update_layers_other c _ hji]
      exact h.hidden j hj hOut

theorem Stack.release {i : Index} (hi : i ∉ S) :
    Stack (c.update i fun lay => { lay with flags := layerNoUse }) S := by
  refine ⟨h.top, h.segment.update hi, ?_, ?_⟩
  · intro j hj
    have hji : j ≠ i := by
      rintro rfl
      exact hi hj
    rw [Controller.used, update_layers_other c _ hji]
    exact h.used j hj
  · intro j hj hOut
    by_cases hji : j = i
    · rw [hji, Controller.used, update_layers_self] at hj
      exact absurd rfl hj
    · rw [Controller.used, update_layers_other c _ hji] at hj
      rw [update_layers_other c _ hji]
      exact h.hidden j hj hOut

end

theorem mem_refreshmap_derefs {c : Controller} {r : Rect} {h0 k : Int} :
    k ∈ (layerRefreshmap c r h0).derefs ↔ k ∈ c.derefs ∨ (h0 ≤ k ∧ k < c.top + 1) :=
  mem_forUp_append

theorem mem_refreshArea_derefs {c : Controller} {r : Rect} {h0 h1 k : Int} :
    k ∈ (layerRefreshArea c r h0 h1).derefs ↔ k ∈ c.derefs ∨ (h0 ≤ k ∧ k < h1 + 1) :=
  mem_forUp_append

theorem mem_repaint_derefs {c : Controller} {r : Rect} {h0 h1 k : Int} :
    k ∈ (c.repaint r h0 h1).derefs ↔
      (k ∈ c.derefs ∨ (h0 ≤ k ∧ k < c.top + 1)) ∨ (h0 ≤ k ∧ k < h1 + 1) :=
  mem_refreshArea_derefs.trans (or_congr_left mem_refreshmap_derefs)

theorem HeightChange.stack {c c' : Controller} {i : Index} {S S' : List Index}
    (h : HeightChange c i S S' c') : Stack c' S' := by
  cases h with
  | same h => exact h.stack
  | lower h => exact h.stack.repaint _ _ _
  | hide h => exact h.stack.repaint _ _ _
  | raise h => exact h.stack.repaint _ _ _
  | unhide _ h => exact h.stack.repaint _ _ _

/-- A reordering and its repaint stay inside the larger of the two stacks. -/
theorem Reordered.reads {c c' : Controller} {S : List Index} {lo hi : Int}
    (h : Reordered c c' S lo hi) (hEmpty : c.derefs = []) (hHi : hi ≤ max c.top c'.top) {r : Rect}
    {h0 h1 : Int} (h₁ : h1 ≤ max c.top c'.top) : ReadsInside c (c'.repaint r h0 h1) := by
  intro k hk
  have hTop : (c'.repaint r h0 h1).top = c'.top := rfl
  obtain (hk | hk) | hk := mem_repaint_derefs.mp hk
  · have hOld : k ∉ c.derefs := by rw [hEmpty]; exact List.not_mem_nil
    have := (h.derefs k hk).resolve_left hOld
    omega
  · omega
  · omega

theorem HeightChange.reads {c c' : Controller} {i : Index} {S S' : List Index}
    (h : HeightChange c i S S' c') (hStack : Stack c S) (hEmpty : c.derefs = []) :
    ReadsInside c c' := by
  have hTop := hStack.top
  cases h with
  | same h =>
    intro k hk
    have hOld : k ∉ c.derefs := by rw [hEmpty]; exact List.not_mem_nil
    have := (h.derefs k hk).resolve_left hOld
    omega
  | lower h =>
    simp only [List.length_append, List.length_cons] at hTop
    exact h.reads hEmpty (by omega) (by omega)
  | hide h =>
    simp only [List.length_append, List.length_cons] at hTop
    exact h.reads hEmpty (by omega) (by omega)
  | raise h =>
    simp only [List.length_append, List.length_cons] at hTop
    exact h.reads hEmpty (by omega) (by omega)
  | unhide _ h =>
    have hTop' := h.stack.top
    simp only [List.length_append, List.length_cons] at hTop hTop'
    exact h.reads hEmpty (by omega) (by omega)

section
variable {c : Controller} {S : List Index} {i : Index} (h : Stack c S) (hUsed : c.used i)
include h hUsed

theorem layerFree_change :
    ∃ S' c', HeightChange c i S S' c' ∧ i ∉ S' ∧
      layerFree c i = c'.update i fun lay => { lay with flags := layerNoUse } := by
  by_cases hShown : 0 ≤ (c.layers i).height
  · obtain ⟨A, B, rfl, _⟩ := h.split ((h.mem_iff hUsed).mpr hShown)
    refine ⟨A ++ B, _, layerSetHeight_hide h (Int.le_refl _), ?_, ?_⟩
    · exact (List.nodup_cons.mp (List.nodup_middle.mp h.nodup)).1
    · simp only [layerFree, if_pos hShown]
  · refine ⟨S, c, .same ⟨h, SameView.refl c, fun _ => Or.inl⟩, ?_, ?_⟩
    · exact fun hi => hShown ((h.mem_iff hUsed).mp hi)
    · simp only [layerFree, if_neg hShown]

theorem layerMove_reads (hEmpty : c.derefs = []) (vx0 vy0 : Int) :
    ReadsInside c (layerMove c i vx0 vy0) := by
  have hHeight := h.height_le i hUsed
  have hOld : ∀ k, k ∉ c.derefs := fun k => by rw [hEmpty]; exact List.not_mem_nil
  intro k hk
  refine le_max_of_le_left ?_
  simp only [layerMove, update_layers_self] at hk
  split at hk
  · simp only [mem_refreshArea_derefs, mem_refreshmap_derefs, update_derefs, hOld, false_or] at hk
    obtain ((⟨_, hk⟩ | ⟨_, hk⟩) | ⟨_, hk⟩) | ⟨_, hk⟩ := hk
    · exact Int.le_of_lt_add_one hk
    · exact Int.le_of_lt_add_one hk
    · omega
    · omega
  · exact absurd hk (hOld k)

theorem layerRefresh_reads (hEmpty : c.derefs = []) (r : Rect) :
    ReadsInside c (layerRefresh c i r) := by
  have hHeight := h.height_le i hUsed
  have hOld : ∀ k, k ∉ c.derefs := fun k => by rw [hEmpty]; exact List.not_mem_nil
  intro k hk
  refine le_max_of_le_left ?_
  simp only [layerRefresh] at hk
  split at hk
  · obtain hk | ⟨_, hk⟩ := mem_refreshArea_derefs.mp hk
    · exact absurd hk (hOld k)
    · omega
  · exact absurd hk (hOld k)

end

theorem layerMove_stack {c : Controller} {S : List Index} (h : Stack c S) (i : Index)
    (vx0 vy0 : Int) : Stack (layerMove c i vx0 vy0) S := by
  have hMoved : Stack (c.update i fun lay => { lay with vx0 := vx0, vy0 := vy0 }) S :=
    h.update_image (fun _ => rfl) (fun _ => rfl)
  simp only [layerMove]
  split
  · exact hMoved.congr rfl rfl (fun _ => rfl) (fun _ => rfl)
  · exact hMoved

theorem layerRefresh_stack {c : Controller} {S : List Index} (h : Stack c S) (i : Index)
    (r : Rect) : Stack (layerRefresh c i r) S := by
  simp only [layerRefresh]
  split
  · exact h.congr rfl rfl (fun _ => rfl) (fun _ => rfl)
  · exact h

/-! ## Whole runs -/

/-- All that one call can do. -/
inductive Call (c : Controller) : Action → Controller → Prop
  | layerAlloc {i : Index} (h : ¬ c.used i) :
      Call c .layerAlloc (c.start.update i fun lay => { lay with flags := layerUseing, height := -1 })
  | layerSetbuf {i : Index} (h : c.used i) (buf : Int → VramAddr) (xsize ysize : Int)
      (colInv : VramAddr) :
      Call c (.layerSetbuf i buf xsize ysize colInv) (layerSetbuf c.start i buf xsize ysize colInv)
  | layerSetHeight {i : Index} (h : c.used i) (height : Int) :
      Call c (.layerSetHeight i height) (layerSetHeight c.start i height)
  | layerRefresh {i : Index} (h : c.used i) (r : Rect) :
      Call c (.layerRefresh i r) (layerRefresh c.start i r)
  | layerMove {i : Index} (h : c.used i) (vx0 vy0 : Int) :
      Call c (.layerMove i vx0 vy0) (layerMove c.start i vx0 vy0)
  | layerFree {i : Index} (h : c.used i) : Call c (.layerFree i) (layerFree c.start i)

theorem call_of_step {c c' : Controller} {a : Action} (h : Step c a c') : Call c a c' := by
  cases a with
  | layerAlloc =>
    obtain ⟨⟨i, c₁⟩, hAlloc, rfl⟩ := Option.map_eq_some_iff.mp h
    obtain ⟨hUnused, rfl⟩ := layerAlloc_unused hAlloc
    exact .layerAlloc hUnused
  | layerSetbuf i buf xsize ysize colInv =>
    obtain ⟨hUsed, hEq⟩ := Option.ite_none_right_eq_some.mp h
    exact Option.some.inj hEq ▸ .layerSetbuf hUsed buf xsize ysize colInv
  | layerSetHeight i height =>
    obtain ⟨hUsed, hEq⟩ := Option.ite_none_right_eq_some.mp h
    exact Option.some.inj hEq ▸ .layerSetHeight hUsed height
  | layerRefresh i r =>
    obtain ⟨hUsed, hEq⟩ := Option.ite_none_right_eq_some.mp h
    exact Option.some.inj hEq ▸ .layerRefresh hUsed r
  | layerMove i vx0 vy0 =>
    obtain ⟨hUsed, hEq⟩ := Option.ite_none_right_eq_some.mp h
    exact Option.some.inj hEq ▸ .layerMove hUsed vx0 vy0
  | layerFree i =>
    obtain ⟨hUsed, hEq⟩ := Option.ite_none_right_eq_some.mp h
    exact Option.some.inj hEq ▸ .layerFree hUsed

theorem Stack.start {c : Controller} {S : List Index} (h : Stack c S) : Stack c.start S :=
  h.congr rfl rfl (fun _ => rfl) (fun _ => rfl)

/-- Every good call keeps a stack, and reads only entries of it. -/
theorem step_stack {c c' : Controller} {S : List Index} {a : Action} (h : Stack c S)
    (hGood : Good c a) (hStep : Step c a c') : (∃ S', Stack c' S') ∧ ReadsInside c c' := by
  have hStart := h.start
  cases call_of_step hStep with
  | layerAlloc hUnused =>
    exact ⟨⟨S, hStart.alloc hUnused⟩, fun _ hk => absurd hk List.not_mem_nil⟩
  | layerSetbuf _ buf xsize ysize colInv =>
    exact ⟨⟨S, hStart.update_image (fun _ => rfl) (fun _ => rfl)⟩,
      fun _ hk => absurd hk List.not_mem_nil⟩
  | layerSetHeight hUsed height =>
    obtain ⟨S', hChange, _⟩ := layerSetHeight_change hStart hUsed hGood
    exact ⟨⟨S', hChange.stack⟩, hChange.reads hStart rfl⟩
  | layerRefresh hUsed r =>
    exact ⟨⟨S, layerRefresh_stack hStart _ r⟩, layerRefresh_reads hStart hUsed rfl r⟩
  | layerMove hUsed vx0 vy0 =>
    exact ⟨⟨S, layerMove_stack hStart _ vx0 vy0⟩, layerMove_reads hStart hUsed rfl vx0 vy0⟩
  | layerFree hUsed =>
    obtain ⟨S', c₁, hChange, hi, hEq⟩ := layerFree_change hStart hUsed
    rw [hEq]
    exact ⟨⟨S', hChange.stack.release hi⟩, hChange.reads hStart rfl⟩

theorem init_stack {c : Controller} (h : Init c) : Stack c [] := by
  obtain ⟨printkInfo, fLayer, raw, map, hInit⟩ := h
  obtain ⟨rawCtl, rfl, hMap⟩ := Option.bind_eq_some_iff.mp hInit
  obtain ⟨mapBuf, rfl, rfl⟩ := Option.map_eq_some_iff.mp hMap
  refine ⟨rfl, trivial, fun i hi => absurd hi List.not_mem_nil, fun i hi => ?_⟩
  exact absurd rfl hi

theorem reach_stack {c : Controller} (h : Reach Init (Guarded Good Step) c) : ∃ S, Stack c S := by
  refine Reach.invariant (P := fun c => ∃ S, Stack c S) ?_ ?_ h
  · exact fun c hInit => ⟨[], init_stack hInit⟩
  · rintro c a c' ⟨S, hStack⟩ ⟨hGood, hStep⟩
    exact (step_stack hStack hGood hStep).1

/-- After good calls the layers are in order, and the next call keeps them so and reads only
entries up to the top exactly when it is good as well. -/
theorem ordered_iff_good (c : Controller) (h : Reach Init (Guarded Good Step) c) :
    (Ordered c ∧ AllocFresh c) ∧
      ∀ a c', Step c a c' → (Ordered c' ∧ AllocFresh c' ∧ ReadsInside c c' ↔ Good c a) := by
  obtain ⟨S, hStack⟩ := reach_stack h
  refine ⟨⟨hStack.ordered, hStack.allocFresh⟩, fun a c' hStep => ⟨?_, fun hGood => ?_⟩⟩
  · rintro ⟨-, -, hReads⟩
    cases call_of_step hStep with
    | layerSetHeight hUsed height =>
      intro hShown
      by_contra hHigh
      have hMem := (hStack.start.mem_iff hUsed).mpr hShown
      obtain ⟨hTop, hRead⟩ := layerSetHeight_above hStack.start hMem (Int.not_le.mp hHigh)
      have hLe := hReads _ hRead
      rw [hTop] at hLe
      simp only [Controller.start] at hLe
      omega
    | _ => trivial
  · obtain ⟨⟨S', hStack'⟩, hReads⟩ := step_stack hStack hGood hStep
    exact ⟨hStack'.ordered, hStack'.allocFresh, hReads⟩

/-! ## Two layers, the upper one hidden, and the lower one raised -/

def blankLayer : Layer := ⟨fun _ => 0, 0, 0, 0, 0, 0, 0, 0⟩

/-- Memory full of zeros. -/
def blankController : Controller :=
  ⟨fun _ => 0, fun _ => 0, 0, 0, 0, fun _ => none, fun _ => blankLayer, []⟩

/-- `layer_controller_init(0)` on a screen of 2 × 2 pixels. -/
def smallScreen : Controller :=
  { blankController with xsize := 2, ysize := 2, top := -1 }

theorem smallScreen_init : Init smallScreen :=
  ⟨⟨fun _ => 0, 2, 2⟩, none, some blankController, some fun _ => 0, rfl⟩

def firstLayer : Index := 0
def secondLayer : Index := 1

def raiseTwo : List Action :=
  [.layerAlloc, .layerAlloc, .layerSetHeight firstLayer 0, .layerSetHeight secondLayer 1,
    .layerSetHeight secondLayer (-1)]

/-- The layer 0 gets height 1 and leaves the stack, and the hidden layer 1 takes its place. -/
theorem raise_not_ordered : ¬ ∀ c, Reach Init Step c → Ordered c := by
  intro h
  have hSome : (runList step smallScreen (raiseTwo ++ [.layerSetHeight 0 5])).isSome = true := by
    decide
  obtain ⟨c, hc⟩ := Option.isSome_iff_exists.mp hSome
  have hRun : Run Step smallScreen (raiseTwo ++ [.layerSetHeight 0 5]) c :=
    run_of_runList (fun _ _ _ hNext => hNext) hc
  have hEntry : (runList step smallScreen (raiseTwo ++ [.layerSetHeight 0 5])).map
      (fun c => (c.top, c.layersAddr 0, (c.layers 0).flags, (c.layers 0).height)) =
      some (0, some 1, 1, 1) := by decide
  rw [hc] at hEntry
  simp only [Option.map_some, Option.some.injEq, Prod.mk.injEq] at hEntry
  obtain ⟨hTop, hAddr, hFlags, hHeight⟩ := hEntry
  have hUsed : c.used 0 := by
    rw [Controller.used, hFlags]
    decide
  have hHidden := (h c ⟨smallScreen, _, smallScreen_init, hRun⟩).others 0 hUsed ?_
  · omega
  · intro k h₀ hk
    have hk0 : k = 0 := by omega
    rw [hk0, hAddr]
    decide

/-- The same calls without the last one are good, and so is raising the layer 0 to the top. -/
theorem ordered_iff_good_raise : ∃ c, c.top = 0 ∧ Ordered c := by
  have hTop : (runList (guardedNext Good step) smallScreen (raiseTwo ++ [.layerSetHeight 0 0])).map
      Controller.top = some 0 := by decide
  obtain ⟨c, hc, hTop'⟩ := Option.map_eq_some_iff.mp hTop
  have hStep : ∀ c a c', guardedNext Good step c a = some c' → Guarded Good Step c a c' :=
    guarded_of_next fun _ _ _ hNext => hNext
  have hRun := run_of_runList hStep hc
  exact ⟨c, hTop', (ordered_iff_good c ⟨smallScreen, _, smallScreen_init, hRun⟩).1.1⟩

end KalinoteOS.Graphic
