import KalinoteOS.Graphic.Stack

/-! # What `layer_set_height` does to the stack

`A`, `B` and `D` are the layers below, between and above the two places of the layer `i`; the
block `B` moves by one entry.
-/
namespace KalinoteOS.Graphic
open Lib
set_option autoImplicit false

variable {c c' : Controller} {i : Index} {A B D : List Index} {height : Int}

/-- The controller after `lay->height = height;` and a loop that moved the block `B` by `d`. -/
structure BlockMoved (c c' : Controller) (i : Index) (height : Int) (A B D : List Index)
    (b t d : Int) : Prop where
  below : Segment c'.layersAddr c'.layers 0 A
  block : Segment c'.layersAddr c'.layers (b - d) B
  above : Segment c'.layersAddr c'.layers t D
  moved : (c'.layers i).height = height
  others : ∀ j, j ∉ B → j ≠ i → (c'.layers j).height = (c.layers j).height

theorem blockMoved {b t d : Int} {R : Int → Prop} (hNodup : (i :: (A ++ B ++ D)).Nodup)
    (hA : Segment c.layersAddr c.layers 0 A) (hB : Segment c.layersAddr c.layers b B)
    (hD : Segment c.layersAddr c.layers t D) (hM : Moved d R (c.setHeight i height) c')
    (hR : ∀ k, R k ↔ b ≤ k + d ∧ k + d < b + B.length) (hLo : ∀ k, R k → A.length ≤ k)
    (hHi : ∀ k, R k → k < t) : BlockMoved c c' i height A B D b t d := by
  obtain ⟨hi, hABD⟩ := List.nodup_cons.mp hNodup
  obtain ⟨hAB, _, hDisjD⟩ := List.nodup_append.mp hABD
  obtain ⟨_, _, hDisjA⟩ := List.nodup_append.mp hAB
  have hiA : i ∉ A := fun h => hi (List.mem_append_left D (List.mem_append_left B h))
  have hiB : i ∉ B := fun h => hi (List.mem_append_left D (List.mem_append_right A h))
  have hiD : i ∉ D := fun h => hi (List.mem_append_right (A ++ B) h)
  have hB₁ : Segment (c.setHeight i height).layersAddr (c.setHeight i height).layers b B :=
    hB.update hiB
  refine ⟨?_, hM.block hB₁ hR, ?_, ?_, ?_⟩
  · refine hM.rest hB₁ hR (hA.update hiA) (fun k _ hk hRk => ?_) (fun j hj hjB => ?_)
    · have := hLo k hRk
      omega
    · exact hDisjA j hj j hjB rfl
  · refine hM.rest hB₁ hR (hD.update hiD) (fun k hk _ hRk => ?_) (fun j hj hjB => ?_)
    · have := hHi k hRk
      omega
    · exact hDisjD j (List.mem_append_right A hjB) j hj rfl
  · rw [hM.height_outside hB₁ hR hiB, setHeight_self]
  · intro j hjB hji
    rw [hM.height_outside hB₁ hR hjB, setHeight_other c _ hji]

/-- The layer enters the gap that the block left. -/
theorem BlockMoved.insert {b t d gap : Int} (h : BlockMoved c c' i gap A B D b t d)
    (hGap : gap < b - d ∨ b - d + B.length ≤ gap) (hA : A.length ≤ gap) (hD : gap < t) :
    BlockMoved c (c'.setAddr gap (some i)) i gap A B D b t d ∧
      Segment (c'.setAddr gap (some i)).layersAddr (c'.setAddr gap (some i)).layers gap [i] :=
  ⟨⟨h.below.setAddr (by omega), h.block.setAddr (by omega), h.above.setAddr (by omega), h.moved,
    h.others⟩, setAddr_self c' gap _, h.moved, trivial⟩

/-- The entries that a reordering dereferences are those between the two places. -/
structure Reordered (c c' : Controller) (S : List Index) (lo hi : Int) : Prop where
  stack : Stack c' S
  view : SameView c c'
  derefs : ∀ k, k ∈ c'.derefs → k ∈ c.derefs ∨ (lo ≤ k ∧ k ≤ hi)

/-- The layers outside the new stack are the hidden ones, and a layer just hidden. -/
theorem Stack.reorder {S S' : List Index} (h : Stack c S) (hView : SameView c c')
    (hTop : c'.top + 1 = S'.length) (hSeg : Segment c'.layersAddr c'.layers 0 S')
    (hUsed : ∀ j ∈ S', j ∉ S → c.used j)
    (hOut : ∀ j, c.used j → j ∉ S' → (c'.layers j).height = (c.layers j).height ∧ j ∉ S ∨
      (c'.layers j).height = -1) : Stack c' S' := by
  refine ⟨hTop, hSeg, fun j hj => (hView.used_iff j).mpr ?_, fun j hj hOld => ?_⟩
  · by_cases hS : j ∈ S
    · exact h.used j hS
    · exact hUsed j hj hS
  · have hUsed' := (hView.used_iff j).mp hj
    obtain ⟨hSame, hS⟩ | hHidden := hOut j hUsed' hOld
    · exact hSame.trans (h.hidden j hUsed' hS)
    · exact hHidden

theorem lower_stack (h : Stack c (A ++ B ++ i :: D)) :
    Reordered c ((c.setHeight i A.length).lower i (A.length + B.length) A.length)
      (A ++ i :: (B ++ D)) A.length (A.length + B.length) := by
  obtain ⟨hAB, _, _, hD⟩ := segment_append.mp h.segment
  obtain ⟨hA, hB⟩ := segment_append.mp hAB
  simp only [List.length_append, Int.zero_add, Int.natCast_add] at hB hD
  have hNodup : (i :: (A ++ B ++ D)).Nodup := List.nodup_middle.mp h.nodup
  have hiB : i ∉ B := fun hi => (List.nodup_cons.mp hNodup).1
    (List.mem_append_left D (List.mem_append_right A hi))
  have hM := moved_forDown (c := c.setHeight i A.length) (A.length + B.length) (hB.update hiB) rfl
  have hBlock := blockMoved hNodup hA hB hD hM (by omega) (by omega) (by omega)
  obtain ⟨hFinal, hGap⟩ := hBlock.insert (by omega) (by omega) (by omega)
  have hView := ((SameView.setHeight c i A.length).trans hM.view).trans
    (SameView.setAddr _ A.length (some i))
  have hTop' := hM.top
  refine ⟨h.reorder hView ?_ ?_ ?_ ?_, hView, ?_⟩
  · have hTop := h.top
    simp only [List.length_append, List.length_cons] at hTop ⊢
    simp only [Controller.lower, Controller.setAddr, Controller.setHeight, update_top] at hTop' ⊢
    omega
  · refine segment_append.mpr ⟨hFinal.below, ?_⟩
    refine (segment_append (S := [i])).mpr ⟨hGap.rebase (by omega), ?_⟩
    refine segment_append.mpr ⟨hFinal.block.rebase ?_, hFinal.above.rebase ?_⟩
    · simp only [List.length_singleton]
      omega
    · simp only [List.length_singleton]
      omega
  · intro j hj hOld
    simp only [List.mem_append, List.mem_cons] at hj hOld
    tauto
  · intro j _ hj
    simp only [List.mem_append, List.mem_cons, not_or] at hj ⊢
    exact Or.inl ⟨hFinal.others j hj.2.2.1 hj.2.1, by tauto⟩
  · intro k hk
    refine (hM.derefs k hk).imp_right fun hk => ?_
    omega

theorem raise_stack (h : Stack c (A ++ i :: (B ++ D))) :
    Reordered c
      ((c.setHeight i (A.length + B.length)).raise i A.length (A.length + B.length))
      (A ++ B ++ i :: D) A.length (A.length + B.length) := by
  obtain ⟨hA, _, _, hBD⟩ := segment_append.mp h.segment
  obtain ⟨hB, hD⟩ := segment_append.mp hBD
  simp only [Int.zero_add] at hB hD
  have hNodup : (i :: (A ++ B ++ D)).Nodup := by
    rw [List.append_assoc]
    exact List.nodup_middle.mp h.nodup
  have hiB : i ∉ B := fun hi => (List.nodup_cons.mp hNodup).1
    (List.mem_append_left D (List.mem_append_right A hi))
  have hM := moved_forUp (c := c.setHeight i (A.length + B.length)) (A.length + B.length)
    (hB.update hiB) rfl
  have hBlock := blockMoved hNodup hA hB hD hM (by omega) (by omega) (by omega)
  obtain ⟨hFinal, hGap⟩ := hBlock.insert (by omega) (by omega) (by omega)
  have hView := ((SameView.setHeight c i (A.length + B.length)).trans hM.view).trans
    (SameView.setAddr _ (A.length + B.length) (some i))
  have hTop' := hM.top
  refine ⟨h.reorder hView ?_ ?_ ?_ ?_, hView, ?_⟩
  · have hTop := h.top
    simp only [List.length_append, List.length_cons] at hTop ⊢
    simp only [Controller.raise, Controller.setAddr, Controller.setHeight, update_top] at hTop' ⊢
    omega
  · refine segment_append.mpr ⟨segment_append.mpr ⟨hFinal.below, hFinal.block.rebase (by omega)⟩, ?_⟩
    refine (segment_append (S := [i])).mpr ⟨hGap.rebase ?_, hFinal.above.rebase ?_⟩
    · simp only [List.length_append]
      omega
    · simp only [List.length_append, List.length_singleton]
      omega
  · intro j hj hOld
    simp only [List.mem_append, List.mem_cons] at hj hOld
    tauto
  · intro j _ hj
    simp only [List.mem_append, List.mem_cons, not_or] at hj ⊢
    exact Or.inl ⟨hFinal.others j hj.1.2 hj.2.1, by tauto⟩
  · intro k hk
    refine (hM.derefs k hk).imp_right fun hk => ?_
    omega

/-- The guard `top > old` of the loop changes nothing: above the top the loop does not run. -/
theorem hide_eq (c : Controller) (old : Int) :
    c.hide old =
      { forUp old c.top (fun h c => c.moveAddr h (h + 1)) c with top := c.top - 1 } := by
  unfold Controller.hide
  by_cases hTop : old < c.top
  · have hSame : (forUp old c.top (fun h c => c.moveAddr h (h + 1)) c).top = c.top := by
      refine forUp_rule (P := fun _ (c' : Controller) => c'.top = c.top) (Int.le_of_lt hTop) rfl ?_
      intro h c' _ _ hP
      rw [moveAddr_top, hP]
    simp only [if_pos hTop, hSame]
  · rw [if_neg hTop, forUp_of_le (by omega)]

theorem hide_stack (h : Stack c (A ++ i :: B)) :
    Reordered c ((c.setHeight i (-1)).hide A.length) (A ++ B) A.length (A.length + B.length - 1) := by
  obtain ⟨hA, _, _, hB⟩ := segment_append.mp h.segment
  simp only [Int.zero_add] at hB
  have hNodup : (i :: (A ++ B ++ [])).Nodup := by
    rw [List.append_nil]
    exact List.nodup_middle.mp h.nodup
  have hiB : i ∉ B := fun hi => (List.nodup_cons.mp hNodup).1
    (List.mem_append_left [] (List.mem_append_right A hi))
  have hTop := h.top
  simp only [List.length_append, List.length_cons] at hTop
  have hLen : c.top = A.length + B.length := by omega
  have hM := moved_forUp (c := c.setHeight i (-1)) c.top (hB.update hiB) hLen
  have hBlock := blockMoved (t := c.top + 1) (D := []) hNodup hA hB trivial hM (by omega) (by omega)
    (by omega)
  have hView := (SameView.setHeight c i (-1)).trans hM.view
  rw [hide_eq]
  refine ⟨h.reorder ?_ ?_ ?_ ?_ ?_, ?_, ?_⟩
  · exact ⟨hView.vram, hView.map, hView.xsize, hView.ysize, hView.layers⟩
  · simp only [Controller.setHeight, update_top, List.length_append]
    omega
  · exact segment_append.mpr ⟨hBlock.below, hBlock.block.rebase (by omega)⟩
  · intro j hj hOld
    simp only [List.mem_append, List.mem_cons] at hj hOld
    tauto
  · intro j _ hj
    by_cases hji : j = i
    · subst hji
      exact Or.inr hBlock.moved
    · simp only [List.mem_append, List.mem_cons, not_or] at hj ⊢
      exact Or.inl ⟨hBlock.others j hj.2 hji, hj.1, hji, hj.2⟩
  · exact ⟨hView.vram, hView.map, hView.xsize, hView.ysize, hView.layers⟩
  · intro k hk
    refine (hM.derefs k hk).imp_right fun hk => ?_
    omega

theorem unhide_stack (h : Stack c (A ++ B)) (hUsed : c.used i) (hi : i ∉ A ++ B) :
    Reordered c ((c.setHeight i A.length).unhide i A.length) (A ++ i :: B) A.length (c.top + 1) := by
  obtain ⟨hA, hB⟩ := segment_append.mp h.segment
  rw [Int.zero_add] at hB
  have hNodup : (i :: (A ++ B ++ [])).Nodup := by
    rw [List.append_nil]
    exact List.nodup_cons.mpr ⟨hi, h.nodup⟩
  have hiB : i ∉ B := fun hMem => hi (List.mem_append_right A hMem)
  have hTop := h.top
  simp only [List.length_append] at hTop
  have hLen : c.top + 1 = A.length + B.length := by omega
  have hM := moved_forDown_succ (c := c.setHeight i A.length) (c.top + 1) (hB.update hiB) hLen
  rw [Int.add_sub_cancel] at hM
  have hBlock := blockMoved (t := c.top + 2) (D := []) hNodup hA hB trivial hM (by omega) (by omega)
    (by omega)
  obtain ⟨hFinal, hGap⟩ := hBlock.insert (by omega) (by omega) (by omega)
  have hView := ((SameView.setHeight c i A.length).trans hM.view).trans
    (SameView.setAddr _ A.length (some i))
  have hTop' := hM.top
  refine ⟨h.reorder ?_ ?_ ?_ ?_ ?_, ?_, ?_⟩
  · exact ⟨hView.vram, hView.map, hView.xsize, hView.ysize, hView.layers⟩
  · simp only [List.length_append, List.length_cons]
    simp only [Controller.unhide, Controller.setAddr, Controller.setHeight, update_top] at hTop' ⊢
    omega
  · refine segment_append.mpr ⟨hFinal.below, ?_⟩
    refine (segment_append (S := [i])).mpr ⟨hGap.rebase (by omega), hFinal.block.rebase ?_⟩
    simp only [List.length_singleton]
    omega
  · intro j hj hOld
    simp only [List.mem_append, List.mem_cons] at hj hOld
    have hji : j = i := by tauto
    exact hji ▸ hUsed
  · intro j _ hj
    simp only [List.mem_append, List.mem_cons, not_or] at hj ⊢
    exact Or.inl ⟨hFinal.others j hj.2.2 hj.2.1, hj.1, hj.2.2⟩
  · exact ⟨hView.vram, hView.map, hView.xsize, hView.ysize, hView.layers⟩
  · intro k hk
    refine (hM.derefs k hk).imp_right fun hk => ?_
    omega

/-! ## The whole call -/

/-- `layer_refreshmap` and `layer_refresh_area` as `layer_set_height` calls them. -/
def Controller.repaint (c : Controller) (r : Rect) (h0 h1 : Int) : Controller :=
  layerRefreshArea (layerRefreshmap c r h0) r h0 h1

/-- All that `layer_set_height` of the layer `i` can do to the stack and to the screen. -/
inductive HeightChange (c : Controller) (i : Index) :
    List Index → List Index → Controller → Prop
  | same {S : List Index} {c' : Controller} (h : Reordered c c' S 0 (-1)) : HeightChange c i S S c'
  | lower {A B D : List Index} {c' : Controller}
      (h : Reordered c c' (A ++ i :: (B ++ D)) A.length (A.length + B.length)) :
      HeightChange c i (A ++ B ++ i :: D) (A ++ i :: (B ++ D))
        (c'.repaint (c.layers i).rect (A.length + 1) (A.length + B.length))
  | hide {A B : List Index} {c' : Controller}
      (h : Reordered c c' (A ++ B) A.length (A.length + B.length - 1)) :
      HeightChange c i (A ++ i :: B) (A ++ B) (c'.repaint (c.layers i).rect 0 (A.length - 1))
  | raise {A B D : List Index} {c' : Controller}
      (h : Reordered c c' (A ++ B ++ i :: D) A.length (A.length + B.length)) :
      HeightChange c i (A ++ i :: (B ++ D)) (A ++ B ++ i :: D)
        (c'.repaint (c.layers i).rect (A.length + B.length) (A.length + B.length))
  | unhide {A B : List Index} {c' : Controller} (hi : i ∉ A ++ B)
      (h : Reordered c c' (A ++ i :: B) A.length (c.top + 1)) :
      HeightChange c i (A ++ B) (A ++ i :: B)
        (c'.repaint (c.layers i).rect A.length A.length)

theorem clamp_eq (c : Controller) (hTop : -1 ≤ c.top) (height : Int) :
    (c.clamp height = -1 ∧ height ≤ -1) ∨ (c.clamp height = height ∧ -1 < height ∧ height ≤ c.top + 1) ∨
      (c.clamp height = c.top + 1 ∧ c.top + 1 < height) := by
  simp only [Controller.clamp]
  split <;> split <;> omega

theorem exists_split {S : List Index} {n : Int} (h₀ : 0 ≤ n) (h : n ≤ S.length) :
    ∃ A B, S = A ++ B ∧ (A.length : Int) = n := by
  refine ⟨S.take n.toNat, S.drop n.toNat, (List.take_append_drop ..).symm, ?_⟩
  rw [List.length_take_of_le (by omega)]
  omega

theorem same_stack {S : List Index} (h : Stack c S) :
    Reordered c (c.setHeight i (c.layers i).height) S 0 (-1) := by
  have hView := SameView.setHeight c i (c.layers i).height
  have hHeight : ∀ j, ((c.setHeight i (c.layers i).height).layers j).height = (c.layers j).height := by
    intro j
    by_cases hji : j = i
    · rw [hji, setHeight_self]
    · rw [setHeight_other c _ hji]
  refine ⟨h.reorder hView h.top (h.segment.keep (fun _ _ _ => rfl) fun j _ => hHeight j) ?_ ?_, hView,
    fun _ => Or.inl⟩
  · intro j hj hOld
    exact absurd hj hOld
  · intro j _ hj
    exact Or.inl ⟨hHeight j, hj⟩

theorem layerSetHeight_hide (h : Stack c (A ++ i :: B)) (hHeight : height ≤ -1) :
    HeightChange c i (A ++ i :: B) (A ++ B) (layerSetHeight c i height) := by
  have hOld := (segment_append.mp h.segment).2.2.1
  rw [Int.zero_add] at hOld
  have hTop := h.top
  simp only [List.length_append, List.length_cons] at hTop
  have hNew : c.clamp height = -1 := by
    have := clamp_eq c (by omega) height
    omega
  have hEq : layerSetHeight c i height = ((c.setHeight i (-1)).hide A.length).repaint
      (c.layers i).rect 0 (A.length - 1) := by
    simp only [layerSetHeight, hOld, hNew, Controller.repaint]
    rw [if_pos (by omega), if_neg (by decide)]
  exact hEq ▸ HeightChange.hide (hide_stack h)

theorem layerSetHeight_visible {S : List Index} (h : Stack c S) (hi : i ∈ S) (hLe : height ≤ c.top) :
    ∃ S', HeightChange c i S S' (layerSetHeight c i height) ∧ (0 ≤ height → i ∈ S') := by
  obtain ⟨A, D, rfl, hOld⟩ := h.split hi
  have hTop := h.top
  simp only [List.length_append, List.length_cons] at hTop
  obtain ⟨new, hNew⟩ : ∃ new, c.clamp height = new := ⟨_, rfl⟩
  have hRange : -1 ≤ new ∧ new ≤ c.top := by
    have := clamp_eq c (by omega) height
    omega
  obtain hlt | heq | hgt := Int.lt_trichotomy new A.length
  · by_cases hNonneg : 0 ≤ new
    · obtain ⟨A, B, rfl, rfl⟩ := exists_split hNonneg (by omega : new ≤ A.length)
      simp only [List.length_append, Int.natCast_add] at hOld hlt
      have hEq : layerSetHeight c i height = ((c.setHeight i A.length).lower i
          (A.length + B.length) A.length).repaint (c.layers i).rect (A.length + 1)
          (A.length + B.length) := by
        simp only [layerSetHeight, hOld, hNew, if_pos hlt, if_pos hNonneg, Controller.repaint]
      exact ⟨_, hEq ▸ HeightChange.lower (lower_stack h), fun _ => by simp⟩
    · have hHeight : height ≤ -1 := by
        have := clamp_eq c (by omega) height
        omega
      exact ⟨_, layerSetHeight_hide h hHeight, fun _ => by omega⟩
  · have hEq : layerSetHeight c i height = c.setHeight i (c.layers i).height := by
      simp only [layerSetHeight, hOld, hNew, heq]
      rw [if_neg (by omega), if_neg (by omega)]
    exact ⟨_, hEq ▸ HeightChange.same (same_stack h), fun _ => hi⟩
  · obtain ⟨B, D, rfl, hB⟩ := exists_split (S := D) (n := new - A.length) (by omega) (by omega)
    have hNew' : c.clamp height = A.length + B.length := by omega
    have hEq : layerSetHeight c i height = ((c.setHeight i (A.length + B.length)).raise i A.length
        (A.length + B.length)).repaint (c.layers i).rect (A.length + B.length)
        (A.length + B.length) := by
      simp only [layerSetHeight, hOld, hNew', Controller.repaint]
      rw [if_neg (by omega), if_pos (by omega), if_pos (by omega)]
    exact ⟨_, hEq ▸ HeightChange.raise (raise_stack h), fun _ => by simp⟩

theorem layerSetHeight_hidden {S : List Index} (h : Stack c S) (hUsed : c.used i) (hi : i ∉ S) :
    ∃ S', HeightChange c i S S' (layerSetHeight c i height) ∧ (0 ≤ height → i ∈ S') := by
  have hOld := h.hidden i hUsed hi
  have hTop := h.top
  obtain ⟨new, hNew⟩ : ∃ new, c.clamp height = new := ⟨_, rfl⟩
  have hRange : -1 ≤ new ∧ new ≤ c.top + 1 := by
    have := clamp_eq c (by omega) height
    omega
  by_cases hNonneg : 0 ≤ new
  · obtain ⟨A, B, rfl, rfl⟩ := exists_split hNonneg (by omega : new ≤ S.length)
    have hEq : layerSetHeight c i height = ((c.setHeight i A.length).unhide i A.length).repaint
        (c.layers i).rect A.length A.length := by
      simp only [layerSetHeight, hOld, hNew, Controller.repaint]
      rw [if_neg (by omega), if_pos (by omega), if_neg (by omega)]
    exact ⟨_, hEq ▸ HeightChange.unhide hi (unhide_stack h hUsed hi), fun _ => by simp⟩
  · have hEq : layerSetHeight c i height = c.setHeight i (c.layers i).height := by
      have hNew' : c.clamp height = -1 := by omega
      simp only [layerSetHeight, hOld, hNew']
      rw [if_neg (by omega), if_neg (by omega)]
    refine ⟨_, hEq ▸ HeightChange.same (same_stack h), fun hHeight => ?_⟩
    have := clamp_eq c (by omega) height
    omega

/-- A visible layer must not be asked for a height above the top. -/
theorem layerSetHeight_change {S : List Index} (h : Stack c S) (hUsed : c.used i)
    (hLe : 0 ≤ (c.layers i).height → height ≤ c.top) :
    ∃ S', HeightChange c i S S' (layerSetHeight c i height) ∧ (0 ≤ height → i ∈ S') := by
  by_cases hi : i ∈ S
  · exact layerSetHeight_visible h hi (hLe ((h.mem_iff hUsed).mp hi))
  · exact layerSetHeight_hidden h hUsed hi

/-- A visible layer that is asked for more leaves the stack through the entry above its top. -/
theorem layerSetHeight_above {S : List Index} (h : Stack c S) (hi : i ∈ S) (hGt : c.top < height) :
    (layerSetHeight c i height).top = c.top ∧ c.top + 1 ∈ (layerSetHeight c i height).derefs := by
  obtain ⟨hLo, hHi, _⟩ := h.segment.height_mem hi
  have hTop := h.top
  have hNew : c.clamp height = c.top + 1 := by
    have := clamp_eq c (by omega) height
    omega
  have hEq : layerSetHeight c i height = ((c.setHeight i (c.top + 1)).raise i (c.layers i).height
      (c.top + 1)).repaint (c.layers i).rect (c.top + 1) (c.top + 1) := by
    simp only [layerSetHeight, hNew, Controller.repaint]
    rw [if_neg (by omega), if_pos (by omega), if_pos (by omega)]
  rw [hEq]
  constructor
  · refine forUp_rule (P := fun _ (c' : Controller) => c'.top = c.top) (by omega) rfl ?_
    intro h c' _ _ hP
    rw [moveAddr_top, hP]
  · exact mem_forUp_append.mpr (Or.inr ⟨by omega, by omega⟩)

end KalinoteOS.Graphic
