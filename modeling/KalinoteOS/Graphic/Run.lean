import KalinoteOS.Graphic.Compose

/-! # Compositing in every run

`F` is a layer that covers the whole screen and is opaque everywhere: the map is never cleared,
so it is `F` that keeps a pixel from showing a layer that has left it.
-/
namespace KalinoteOS.Graphic
open Lib
set_option autoImplicit false

/-! ## `layer_move` -/

/-- `lay->vx0 = vx0; lay->vy0 = vy0;` -/
def Controller.place (c : Controller) (i : Index) (vx0 vy0 : Int) : Controller :=
  c.update i fun lay => { lay with vx0 := vx0, vy0 := vy0 }

section
variable {c : Controller} {i : Index} {S A D : List Index} {x y vx0 vy0 : Int} {w : Index}

theorem place_stack (h : Stack c S) (vx0 vy0 : Int) : Stack (c.place i vx0 vy0) S :=
  h.update_image (fun _ => rfl) (fun _ => rfl)

theorem topmost_update {f : Layer → Layer} (hi : i ∉ S) :
    topmost (c.update i f).layers x y S = topmost c.layers x y S := by
  refine topmost_congr fun j hj => ?_
  have hji : j ≠ i := by
    rintro rfl
    exact hi hj
  rw [update_layers_other c f hji]

theorem shows_update {f : Layer → Layer} (hShows : Shows c x y w) (hw : w ≠ i) :
    Shows (c.update i f) x y w := by
  refine ⟨hShows.1, ?_⟩
  rw [update_layers_other c f hw]
  exact hShows.2

/-- A layer outside the stack plays no part on the screen. -/
theorem composed_update {f : Layer → Layer} (h : ComposedOf c S) (hi : i ∉ S) :
    ComposedOf (c.update i f) S := by
  intro x y hOn
  obtain ⟨w, hw, hShows⟩ := h x y hOn
  have hwi : w ≠ i := by
    rintro rfl
    exact hi (topmost_mem hw).1
  exact ⟨w, (topmost_update hi).trans hw, shows_update hShows hwi⟩

/-- The highest layer changes only where the layer that moves was, or where it is now. -/
theorem topmost_of_place (hNodup : (A ++ ([i] ++ D)).Nodup)
    (hw : topmost (c.place i vx0 vy0).layers x y (A ++ ([i] ++ D)) = some w) (hwi : w ≠ i)
    (hOut : (c.layers i).rect.Inside x y → w ∉ A) :
    topmost c.layers x y (A ++ ([i] ++ D)) = some w := by
  have hi : i ∉ A ++ D := (List.nodup_cons.mp (List.nodup_middle.mp hNodup)).1
  rw [← List.append_assoc] at hw
  have hRest := topmost_unhide hw (Or.inr (by simpa using hwi))
  rw [Controller.place, topmost_update hi] at hRest
  exact topmost_hide hRest (topmost_outside hOut)

theorem layerMove_shown (h : Stack c (A ++ ([i] ++ D))) (vx0 vy0 : Int) :
    layerMove c i vx0 vy0 =
      layerRefreshArea
        (layerRefreshArea
          (layerRefreshmap (layerRefreshmap (c.place i vx0 vy0) (c.layers i).rect 0)
            ((c.place i vx0 vy0).layers i).rect A.length)
          (c.layers i).rect 0 (A.length - 1))
        ((c.place i vx0 vy0).layers i).rect A.length A.length := by
  have hHeight : ((c.place i vx0 vy0).layers i).height = A.length := by
    have hSegment := (segment_append.mp (place_stack (i := i) h vx0 vy0).segment).2.2.1
    omega
  simp only [layerMove]
  rw [if_pos]
  · rw [show (c.update i fun lay => { lay with vx0 := vx0, vy0 := vy0 }) = c.place i vx0 vy0 from rfl,
      hHeight]
  · exact hHeight ▸ Int.natCast_nonneg _

/-- The two passes over the map name the highest layer, at its old place and at its new one. -/
theorem layerMove_map (h : Stack c (A ++ ([i] ++ D))) (hOn : c.OnScreen x y)
    (hOld : ∃ w, topmost c.layers x y (A ++ ([i] ++ D)) = some w ∧ c.map (c.cell x y) = sid w)
    (hw : topmost (c.place i vx0 vy0).layers x y (A ++ ([i] ++ D)) = some w) :
    (layerRefreshmap (layerRefreshmap (c.place i vx0 vy0) (c.layers i).rect 0)
      ((c.place i vx0 vy0).layers i).rect A.length).map (c.cell x y) = sid w := by
  have h₁ : Stack (c.place i vx0 vy0) ([] ++ (A ++ ([i] ++ D))) := place_stack h vx0 vy0
  have h₂ : Stack (layerRefreshmap (c.place i vx0 vy0) (c.layers i).rect 0) (A ++ ([i] ++ D)) :=
    h₁.congr rfl rfl (fun _ => rfl) (fun _ => rfl)
  by_cases hIn : (c.layers i).rect.Inside x y
  · refine refreshmap_keep (c := layerRefreshmap (c.place i vx0 vy0) (c.layers i).rect 0) hOn h₂ hw ?_
    exact refreshmap_fresh (P := []) (c := c.place i vx0 vy0) hOn h₁ hIn (topmost_mem hw).1 hw
  · by_cases hwi : w = i
    · subst hwi
      exact refreshmap_fresh (c := layerRefreshmap (c.place w vx0 vy0) (c.layers w).rect 0) hOn h₂
        (topmost_mem hw).2.1 (by simp) hw
    · obtain ⟨w', hw', hMap⟩ := hOld
      rw [topmost_of_place h.nodup hw hwi fun h => absurd h hIn] at hw'
      cases hw'
      refine refreshmap_keep (c := layerRefreshmap (c.place i vx0 vy0) (c.layers i).rect 0) hOn h₂ hw
        ?_
      exact (refreshmap_none (P := []) (c := c.place i vx0 vy0) hOn h₁ fun h => absurd h hIn).trans
        hMap

/-- The two passes over the screen paint the layers below the old place, and the moved layer. -/
theorem layerMove_areas (h : Stack c (A ++ ([i] ++ D))) (hOn : c.OnScreen x y)
    (hw : topmost c.layers x y (A ++ ([i] ++ D)) = some w) (hMap : c.map (c.cell x y) = sid w)
    (oldRect : Rect)
    (hKeep : w ≠ i → (oldRect.Inside x y → w ∉ A) → c.vram (c.cell x y) = (c.layers w).pixel x y) :
    (layerRefreshArea (layerRefreshArea c oldRect 0 (A.length - 1)) (c.layers i).rect A.length
      A.length).vram (c.cell x y) = (c.layers w).pixel x y := by
  have hBelow : Stack c ([] ++ A ++ ([i] ++ D)) := h
  have hMoved : Stack (layerRefreshArea c oldRect 0 (A.length - 1)) (A ++ [i] ++ D) := by
    rw [List.append_assoc]
    exact h.congr rfl rfl (fun _ => rfl) (fun _ => rfl)
  by_cases hwi : w = i
  · subst hwi
    have hCovers := (topmost_mem hw).2.1
    exact refreshArea_some (c := layerRefreshArea c oldRect 0 (A.length - 1)) hOn hMoved
      ((inside_rect_iff (c.layers w) x y).mpr hCovers) (by simp) hCovers hMap (by simp)
  · have hSkip : w ∉ [i] := fun hMem => hwi (List.mem_singleton.mp hMem)
    refine (refreshArea_none (c := layerRefreshArea c oldRect 0 (A.length - 1)) hOn hMoved hMap
      (fun _ => hSkip) (by simp)).trans ?_
    by_cases hIn : oldRect.Inside x y ∧ w ∈ A
    · exact refreshArea_some (P := []) hOn hBelow hIn.1 hIn.2 (topmost_mem hw).2.1 hMap (by simp)
    · have hOut : oldRect.Inside x y → w ∉ A := fun h₁ h₂ => hIn ⟨h₁, h₂⟩
      exact (refreshArea_none (P := []) hOn hBelow hMap hOut (by simp)).trans (hKeep hwi hOut)

theorem layerMove_shows (h : Stack c (A ++ ([i] ++ D))) (hOn : c.OnScreen x y)
    (hOld : ∃ w, topmost c.layers x y (A ++ ([i] ++ D)) = some w ∧ Shows c x y w)
    (hw : topmost (c.place i vx0 vy0).layers x y (A ++ ([i] ++ D)) = some w) :
    Shows (layerMove c i vx0 vy0) x y w := by
  rw [layerMove_shown h]
  have hMap := layerMove_map h hOn (hOld.imp fun _ h => ⟨h.1, h.2.1⟩) hw
  refine ⟨hMap, ?_⟩
  have hStack : Stack (layerRefreshmap (layerRefreshmap (c.place i vx0 vy0) (c.layers i).rect 0)
      ((c.place i vx0 vy0).layers i).rect A.length) (A ++ ([i] ++ D)) :=
    (place_stack h vx0 vy0).congr rfl rfl (fun _ => rfl) (fun _ => rfl)
  refine layerMove_areas hStack hOn hw hMap (c.layers i).rect fun hwi hOut => ?_
  obtain ⟨w', hw', hShows⟩ := hOld
  rw [topmost_of_place h.nodup hw hwi hOut] at hw'
  cases hw'
  exact (shows_update (f := fun lay => { lay with vx0 := vx0, vy0 := vy0 }) hShows hwi).2

theorem layerMove_composed (h : Stack c S) (hUsed : c.used i) (hOld : ComposedOf c S)
    (hNew : ∀ x y, c.OnScreen x y → ∃ w, topmost (c.place i vx0 vy0).layers x y S = some w) :
    ComposedOf (layerMove c i vx0 vy0) S := by
  by_cases hi : i ∈ S
  · obtain ⟨A, D, rfl, _⟩ := h.split hi
    intro x y hOn
    have hOn' : c.OnScreen x y := by rwa [layerMove_shown h] at hOn
    obtain ⟨w, hw⟩ := hNew x y hOn'
    refine ⟨w, ?_, layerMove_shows h hOn' (hOld x y hOn') hw⟩
    rw [layerMove_shown h]
    exact hw
  · have hHidden : layerMove c i vx0 vy0 = c.place i vx0 vy0 := by
      have hHeight := h.hidden i hUsed hi
      simp only [layerMove, update_layers_self]
      rw [if_neg (by omega)]
      rfl
    rw [hHidden]
    exact composed_update hOld hi

/-! ## The other calls -/

/-- Painting a layer again where the map names it changes nothing. -/
theorem refreshArea_composed (h : Stack c (A ++ [i] ++ D)) (hOld : ComposedOf c (A ++ [i] ++ D))
    (r : Rect) : ComposedOf (layerRefreshArea c r A.length A.length) (A ++ [i] ++ D) := by
  intro x y hOn
  obtain ⟨w, hw, hMap, hVram⟩ := hOld x y hOn
  refine ⟨w, hw, hMap, ?_⟩
  by_cases hPainted : r.Inside x y ∧ w ∈ [i]
  · exact refreshArea_some (c := c) hOn h hPainted.1 hPainted.2 (topmost_mem hw).2.1 hMap (by simp)
  · have hOut : r.Inside x y → w ∉ [i] := fun h₁ h₂ => hPainted ⟨h₁, h₂⟩
    exact (refreshArea_none (c := c) hOn h hMap hOut (by simp)).trans hVram

theorem layerRefresh_composed (h : Stack c S) (hUsed : c.used i) (hOld : ComposedOf c S) (r : Rect) :
    ComposedOf (layerRefresh c i r) S := by
  simp only [layerRefresh]
  split
  · rename_i hShown
    obtain ⟨A, D, rfl, hHeight⟩ := h.split ((h.mem_iff hUsed).mpr hShown)
    have hList : A ++ i :: D = A ++ [i] ++ D := by simp
    rw [hList] at h hOld ⊢
    rw [hHeight]
    exact refreshArea_composed h hOld _
  · exact hOld

theorem HeightChange.solid {c' : Controller} {S' : List Index} (h : HeightChange c i S S' c')
    (x y : Int) (j : Index) : (c'.layers j).Solid x y ↔ (c.layers j).Solid x y := by
  cases h with
  | same h => exact h.view.solid x y j
  | lower h => exact h.view.solid x y j
  | hide h => exact h.view.solid x y j
  | raise h => exact h.view.solid x y j
  | unhide _ h => exact h.view.solid x y j

theorem HeightChange.onScreen {c' : Controller} {S' : List Index} (h : HeightChange c i S S' c') :
    c'.OnScreen x y ↔ c.OnScreen x y := by
  cases h with
  | same h => exact h.view.onScreen
  | lower h => exact h.view.onScreen
  | hide h => exact h.view.onScreen
  | raise h => exact h.view.onScreen
  | unhide _ h => exact h.view.onScreen

/-- Only the layer itself can leave the stack. -/
theorem HeightChange.mem {c' : Controller} {S' : List Index} (h : HeightChange c i S S' c')
    {j : Index} (hj : j ∈ S) (hji : j ≠ i) : j ∈ S' := by
  cases h with
  | same h => exact hj
  | lower h => simp only [List.mem_append, List.mem_cons] at hj ⊢; tauto
  | hide h => simp only [List.mem_append, List.mem_cons] at hj ⊢; tauto
  | raise h => simp only [List.mem_append, List.mem_cons] at hj ⊢; tauto
  | unhide _ h => simp only [List.mem_append, List.mem_cons] at hj ⊢; tauto

end

/-! ## Whole runs -/

/-- Before `F` is shown: nothing is visible, and `F` is solid on the whole screen. -/
structure Floor (F : Index) (c : Controller) : Prop where
  top : c.top = -1
  hidden : ∀ i, c.used i → (c.layers i).height = -1
  used : c.used F
  solid : ∀ x y, c.OnScreen x y → (c.layers F).Solid x y

/-- `F` has just been shown. -/
def Start (F : Index) (c : Controller) : Prop :=
  ∃ c₀ height, Floor F c₀ ∧ 0 ≤ height ∧ c = layerSetHeight c₀ F height

/-- `F` is not moved, freed or hidden, a visible layer is asked for no height above the top, and
the buffer of a visible layer stays. -/
def Allowed (F : Index) (c : Controller) : Action → Prop
  | .layerSetbuf i _ _ _ _ => (c.layers i).height < 0
  | .layerSetHeight i height =>
    (i = F → 0 ≤ height) ∧ (0 ≤ (c.layers i).height → height ≤ c.top)
  | .layerMove i _ _ => i ≠ F
  | .layerFree i => i ≠ F
  | _ => True

instance (F : Index) (c : Controller) (a : Action) : Decidable (Allowed F c a) :=
  match a with
  | .layerSetbuf i _ _ _ _ => inferInstanceAs (Decidable ((c.layers i).height < 0))
  | .layerSetHeight i height => inferInstanceAs
    (Decidable ((i = F → 0 ≤ height) ∧ (0 ≤ (c.layers i).height → height ≤ c.top)))
  | .layerMove i _ _ => inferInstanceAs (Decidable (i ≠ F))
  | .layerFree i => inferInstanceAs (Decidable (i ≠ F))
  | .layerAlloc => isTrue trivial
  | .layerRefresh _ _ => isTrue trivial

structure Inv (F : Index) (c : Controller) (S : List Index) : Prop where
  stack : Stack c S
  floor : F ∈ S
  solid : ∀ x y, c.OnScreen x y → (c.layers F).Solid x y
  composed : ComposedOf c S

section
variable {F i : Index} {c c' : Controller} {S S' : List Index}

theorem start_inv (h : Start F c) : ∃ S, Inv F c S := by
  obtain ⟨c₀, height, hFloor, hHeight, rfl⟩ := h
  have hStack : Stack c₀ [] :=
    ⟨by rw [hFloor.top]; rfl, trivial, fun i hi => absurd hi List.not_mem_nil,
      fun i hi _ => hFloor.hidden i hi⟩
  obtain ⟨S, hChange, hMem⟩ : ∃ S, HeightChange c₀ F [] S (layerSetHeight c₀ F height) ∧
      (0 ≤ height → F ∈ S) := layerSetHeight_hidden hStack hFloor.used List.not_mem_nil
  have hF := hMem hHeight
  refine ⟨S, hChange.stack, hF, fun x y hOn => ?_, ?_⟩
  · exact (hChange.solid x y F).mpr (hFloor.solid x y (hChange.onScreen.mp hOn))
  generalize layerSetHeight c₀ F height = c at hChange
  generalize hEmpty : ([] : List Index) = S₀ at hChange
  cases hChange with
  | same h => exact absurd (hEmpty ▸ hF) List.not_mem_nil
  | lower h => simp at hEmpty
  | hide h => simp at hEmpty
  | raise h => simp at hEmpty
  | @unhide _ _ c₁ _ h =>
    obtain ⟨rfl, rfl⟩ := List.append_eq_nil_iff.mp hEmpty.symm
    intro x y hOn
    have hSolid := hFloor.solid x y (h.view.onScreen.mp hOn)
    have hTop := topmost_singleton_of_solid ((h.view.solid x y F).mpr hSolid)
    have hIn := (inside_rect_iff (c₀.layers F) x y).mpr hSolid.1
    exact ⟨F, hTop, repaint_fresh (P := []) (Q := [F]) (T := []) (c := c₁) hOn h.stack hIn hF hTop rfl rfl⟩

theorem Inv.start (h : Inv F c S) : Inv F c.start S := ⟨h.stack.start, h.floor, h.solid, h.composed⟩

theorem Inv.update {f : Layer → Layer} (h : Inv F c S) (hStack : Stack (c.update i f) S)
    (hi : i ∉ S) : Inv F (c.update i f) S := by
  refine ⟨hStack, h.floor, fun x y hOn => ?_, composed_update h.composed hi⟩
  have hFi : F ≠ i := by
    rintro rfl
    exact hi h.floor
  rw [update_layers_other c f hFi]
  exact h.solid x y hOn

theorem Inv.heightChange (h : Inv F c S) (hChange : HeightChange c i S S' c') (hF : F ∈ S') :
    Inv F c' S' := by
  refine ⟨hChange.stack, hF, fun x y hOn => ?_, hChange.composed h.composed fun x y hOn => ?_⟩
  · exact (hChange.solid x y F).mpr (h.solid x y (hChange.onScreen.mp hOn))
  · exact exists_topmost hF (h.solid x y hOn)

theorem Inv.move (h : Inv F c S) (hUsed : c.used i) (hi : i ≠ F) (vx0 vy0 : Int) :
    Inv F (layerMove c i vx0 vy0) S := by
  have hLayers : (layerMove c i vx0 vy0).layers F = c.layers F := by
    simp only [layerMove]
    split
    all_goals exact update_layers_other c (fun lay => { lay with vx0 := vx0, vy0 := vy0 }) hi.symm
  have hOnScreen : ∀ x y, (layerMove c i vx0 vy0).OnScreen x y → c.OnScreen x y := by
    intro x y hOn
    simp only [layerMove] at hOn
    split at hOn <;> exact hOn
  refine ⟨layerMove_stack h.stack i vx0 vy0, h.floor, fun x y hOn => ?_,
    layerMove_composed h.stack hUsed h.composed fun x y hOn => ?_⟩
  · rw [hLayers]
    exact h.solid x y (hOnScreen x y hOn)
  · refine exists_topmost h.floor ?_
    rw [Controller.place, update_layers_other c _ hi.symm]
    exact h.solid x y hOn

theorem Inv.refresh (h : Inv F c S) (hUsed : c.used i) (r : Rect) :
    Inv F (layerRefresh c i r) S := by
  refine ⟨layerRefresh_stack h.stack i r, h.floor, fun x y hOn => ?_,
    layerRefresh_composed h.stack hUsed h.composed r⟩
  simp only [layerRefresh] at hOn ⊢
  split at hOn
  · rw [if_pos ‹_›]
    exact h.solid x y hOn
  · rw [if_neg ‹_›]
    exact h.solid x y hOn

theorem step_composed {a : Action} (h : Inv F c S) (hAllowed : Allowed F c a) (hStep : Step c a c') :
    ∃ S', Inv F c' S' := by
  have hStart := h.start
  cases call_of_step hStep with
  | layerAlloc hUnused =>
    exact ⟨S, hStart.update (hStart.stack.alloc hUnused) fun hi => hUnused (h.stack.used _ hi)⟩
  | layerSetbuf hUsed buf xsize ysize colInv =>
    refine ⟨S, hStart.update (hStart.stack.update_image (fun _ => rfl) (fun _ => rfl)) fun hi => ?_⟩
    exact Int.not_le.mpr hAllowed ((h.stack.mem_iff hUsed).mp hi)
  | @layerSetHeight i hUsed height =>
    obtain ⟨S', hChange, hMem⟩ := layerSetHeight_change hStart.stack hUsed hAllowed.2
    refine ⟨S', hStart.heightChange hChange ?_⟩
    by_cases hi : i = F
    · exact hi ▸ hMem (hAllowed.1 hi)
    · exact hChange.mem h.floor (Ne.symm hi)
  | layerRefresh hUsed r => exact ⟨S, hStart.refresh hUsed r⟩
  | layerMove hUsed vx0 vy0 => exact ⟨S, hStart.move hUsed hAllowed vx0 vy0⟩
  | layerFree hUsed =>
    obtain ⟨S', c₁, hChange, hi, hEq⟩ := layerFree_change hStart.stack hUsed
    have hInv := hStart.heightChange hChange (hChange.mem h.floor (Ne.symm hAllowed))
    rw [hEq]
    exact ⟨S', hInv.update (hInv.stack.release hi) hi⟩

end

end KalinoteOS.Graphic
