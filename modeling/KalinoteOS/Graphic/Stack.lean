import KalinoteOS.Graphic.Controller
import Mathlib.Data.Fintype.Card

/-! # The stack of visible layers

The five ways in which `layer_set_height` moves entries of `layers_addr`, as operations on the
list of visible layers from the bottom up. Between two of its loops the code leaves an entry
behind that no list describes, so a loop is followed one index at a time.
-/
namespace KalinoteOS.Graphic
open Lib
set_option autoImplicit false

/-- The entries from `base` on are the layers `S`, each with the height of its entry. -/
def Segment (addr : Int → Option Index) (layers : Index → Layer) : Int → List Index → Prop
  | _, [] => True
  | base, i :: S => addr base = some i ∧ (layers i).height = base ∧ Segment addr layers (base + 1) S

section
variable {addr addr' : Int → Option Index} {layers layers' : Index → Layer} {base : Int}
  {S T : List Index} {i : Index}

theorem Segment.rebase {b : Int} (h : Segment addr layers base S) (hb : base = b) :
    Segment addr layers b S := hb ▸ h

theorem segment_append :
    Segment addr layers base (S ++ T) ↔
      Segment addr layers base S ∧ Segment addr layers (base + S.length) T := by
  induction S generalizing base with
  | nil => simp [Segment]
  | cons i S ih =>
    simp only [List.cons_append, Segment, ih, List.length_cons, and_assoc]
    rw [show base + 1 + (S.length : Int) = base + ((S.length + 1 : Nat) : Int) by omega]

theorem Segment.height_mem (h : Segment addr layers base S) (hi : i ∈ S) :
    base ≤ (layers i).height ∧ (layers i).height < base + S.length ∧
      addr (layers i).height = some i := by
  induction S generalizing base with
  | nil => cases hi
  | cons j S ih =>
    obtain ⟨hAddr, hHeight, hRest⟩ := h
    simp only [List.length_cons]
    obtain rfl | hi := List.mem_cons.mp hi
    · rw [hHeight]
      exact ⟨by omega, by omega, hAddr⟩
    · obtain ⟨hLo, hHi, hEq⟩ := ih hRest hi
      exact ⟨by omega, by omega, hEq⟩

theorem Segment.nodup (h : Segment addr layers base S) : S.Nodup := by
  induction S generalizing base with
  | nil => exact List.nodup_nil
  | cons i S ih =>
    obtain ⟨_, hHeight, hRest⟩ := h
    refine List.nodup_cons.mpr ⟨fun hi => ?_, ih hRest⟩
    have := (hRest.height_mem hi).1
    omega

theorem Segment.entry (h : Segment addr layers base S) {k : Int} (hLo : base ≤ k)
    (hHi : k < base + S.length) : ∃ i ∈ S, addr k = some i ∧ (layers i).height = k := by
  induction S generalizing base with
  | nil => simp only [List.length_nil] at hHi; omega
  | cons i S ih =>
    obtain ⟨hAddr, hHeight, hRest⟩ := h
    simp only [List.length_cons] at hHi
    obtain hlt | rfl := Int.lt_or_eq_of_le hLo
    · obtain ⟨j, hj, hEntry⟩ := ih hRest (by omega) (by omega)
      exact ⟨j, List.mem_cons_of_mem i hj, hEntry⟩
    · exact ⟨i, List.mem_cons_self, hAddr, hHeight⟩

/-- A segment is seen again wherever its layers and entries have moved to. -/
theorem Segment.shift (h : Segment addr layers base S) (d : Int)
    (hAddr : ∀ k, base ≤ k → k < base + S.length → addr' (k + d) = addr k)
    (hHeight : ∀ i ∈ S, (layers' i).height = (layers i).height + d) :
    Segment addr' layers' (base + d) S := by
  induction S generalizing base with
  | nil => trivial
  | cons i S ih =>
    obtain ⟨hEntry, hBase, hRest⟩ := h
    simp only [List.length_cons] at hAddr
    refine ⟨?_, ?_, ?_⟩
    · rw [hAddr base (by omega) (by omega), hEntry]
    · rw [hHeight i List.mem_cons_self, hBase]
    · rw [show base + d + 1 = base + 1 + d by omega]
      exact ih hRest (fun k h₁ h₂ => hAddr k (by omega) (by omega))
        (fun j hj => hHeight j (List.mem_cons_of_mem i hj))

theorem Segment.keep (h : Segment addr layers base S)
    (hAddr : ∀ k, base ≤ k → k < base + S.length → addr' k = addr k)
    (hHeight : ∀ i ∈ S, (layers' i).height = (layers i).height) :
    Segment addr' layers' base S := by
  have hShift : Segment addr' layers' (base + 0) S :=
    h.shift 0 (by simpa only [Int.add_zero] using hAddr) (by simpa only [Int.add_zero] using hHeight)
  simpa only [Int.add_zero] using hShift

end

/-- The visible layers are `S`, from the bottom up. -/
structure Stack (c : Controller) (S : List Index) : Prop where
  top : c.top + 1 = S.length
  segment : Segment c.layersAddr c.layers 0 S
  used : ∀ i ∈ S, c.used i
  hidden : ∀ i, c.used i → i ∉ S → (c.layers i).height = -1

namespace Stack
variable {c : Controller} {S : List Index} (h : Stack c S)
include h

theorem nodup : S.Nodup := h.segment.nodup

theorem length_le : S.length ≤ maxLayers := by
  have hCard := h.nodup.length_le_card
  rwa [Fintype.card_fin] at hCard

theorem height_le (i : Index) (hi : c.used i) : (c.layers i).height ≤ c.top := by
  have hTop := h.top
  by_cases hMem : i ∈ S
  · have := (h.segment.height_mem hMem).2.1
    omega
  · have := h.hidden i hi hMem
    omega

theorem mem_iff {i : Index} (hi : c.used i) : i ∈ S ↔ 0 ≤ (c.layers i).height := by
  constructor
  · intro hMem
    exact (h.segment.height_mem hMem).1
  · intro hHeight
    by_contra hMem
    have := h.hidden i hi hMem
    omega

theorem split {i : Index} (hi : i ∈ S) :
    ∃ A D, S = A ++ i :: D ∧ (c.layers i).height = A.length := by
  obtain ⟨A, D, rfl⟩ := List.append_of_mem hi
  refine ⟨A, D, rfl, ?_⟩
  have hSeg := (segment_append.mp h.segment).2
  simpa using hSeg.2.1

end Stack

/-- Everything but the order of the layers is as before. -/
structure SameView (c c' : Controller) : Prop where
  vram : c'.vram = c.vram
  map : c'.map = c.map
  xsize : c'.xsize = c.xsize
  ysize : c'.ysize = c.ysize
  layers : ∀ i, c'.layers i = { c.layers i with height := (c'.layers i).height }

namespace SameView
variable {c c' c'' : Controller}

theorem refl (c : Controller) : SameView c c := ⟨rfl, rfl, rfl, rfl, fun _ => rfl⟩

theorem trans (h : SameView c c') (h' : SameView c' c'') : SameView c c'' := by
  refine ⟨h'.vram.trans h.vram, h'.map.trans h.map, h'.xsize.trans h.xsize,
    h'.ysize.trans h.ysize, fun i => ?_⟩
  rw [h'.layers i, h.layers i]

theorem used_iff (h : SameView c c') (i : Index) : c'.used i ↔ c.used i := by
  rw [Controller.used, Controller.used, h.layers i]

theorem setHeight (c : Controller) (i : Index) (height : Int) :
    SameView c (c.setHeight i height) := by
  refine ⟨rfl, rfl, rfl, rfl, fun j => ?_⟩
  by_cases hj : j = i
  · subst hj
    simp [Controller.setHeight, Controller.update]
  · simp [Controller.setHeight, Controller.update, hj]

theorem setAddr (c : Controller) (k : Int) (p : Option Index) : SameView c (c.setAddr k p) :=
  ⟨rfl, rfl, rfl, rfl, fun _ => rfl⟩

end SameView

/-! ## The loops -/

@[simp] theorem update_addr (c : Controller) (i : Index) (f : Layer → Layer) :
    (c.update i f).layersAddr = c.layersAddr := rfl

@[simp] theorem update_top (c : Controller) (i : Index) (f : Layer → Layer) :
    (c.update i f).top = c.top := rfl

@[simp] theorem update_derefs (c : Controller) (i : Index) (f : Layer → Layer) :
    (c.update i f).derefs = c.derefs := rfl

@[simp] theorem update_layers_self (c : Controller) (i : Index) (f : Layer → Layer) :
    (c.update i f).layers i = f (c.layers i) := Function.update_self ..

theorem update_layers_other (c : Controller) {i j : Index} (f : Layer → Layer) (h : j ≠ i) :
    (c.update i f).layers j = c.layers j := Function.update_of_ne h ..

@[simp] theorem setHeight_self (c : Controller) (i : Index) (height : Int) :
    ((c.setHeight i height).layers i).height = height := by
  rw [Controller.setHeight, update_layers_self]

theorem setHeight_other (c : Controller) {i j : Index} (height : Int) (h : j ≠ i) :
    (c.setHeight i height).layers j = c.layers j := update_layers_other c _ h

theorem setAddr_self (c : Controller) (k : Int) (p : Option Index) :
    (c.setAddr k p).layersAddr k = p := Function.update_self ..

theorem setAddr_other (c : Controller) {k m : Int} (p : Option Index) (h : m ≠ k) :
    (c.setAddr k p).layersAddr m = c.layersAddr m := Function.update_of_ne h ..

theorem moveAddr_self (c : Controller) (dst src : Int) :
    (c.moveAddr dst src).layersAddr dst = c.layersAddr src := by
  simp only [Controller.moveAddr]
  split
  all_goals exact setAddr_self c dst _

theorem moveAddr_other (c : Controller) {dst k : Int} (src : Int) (h : k ≠ dst) :
    (c.moveAddr dst src).layersAddr k = c.layersAddr k := by
  simp only [Controller.moveAddr]
  split
  all_goals exact setAddr_other c _ h

theorem moveAddr_height (c : Controller) {dst src : Int} {i : Index}
    (h : c.layersAddr src = some i) : ((c.moveAddr dst src).layers i).height = dst := by
  simp only [Controller.moveAddr, setAddr_self, h, setHeight_self]

theorem moveAddr_height_other (c : Controller) {dst src : Int} {i : Index}
    (h : c.layersAddr src ≠ some i) :
    ((c.moveAddr dst src).layers i).height = (c.layers i).height := by
  simp only [Controller.moveAddr, setAddr_self]
  split
  · rename_i j hj
    have hij : i ≠ j := by
      rintro rfl
      exact h hj
    exact congrArg Layer.height (setHeight_other (c.setAddr dst _) dst hij)
  · rfl

theorem moveAddr_view (c : Controller) (dst src : Int) : SameView c (c.moveAddr dst src) := by
  have hAddr := SameView.setAddr c dst (c.layersAddr src)
  simp only [Controller.moveAddr]
  split
  · rename_i j _
    have hBoth := hAddr.trans (SameView.setHeight (c.setAddr dst (c.layersAddr src)) j dst)
    exact ⟨hBoth.vram, hBoth.map, hBoth.xsize, hBoth.ysize, hBoth.layers⟩
  · exact ⟨hAddr.vram, hAddr.map, hAddr.xsize, hAddr.ysize, hAddr.layers⟩

theorem moveAddr_top (c : Controller) (dst src : Int) : (c.moveAddr dst src).top = c.top := by
  simp only [Controller.moveAddr]
  split <;> rfl

theorem moveAddr_derefs (c : Controller) (dst src : Int) :
    (c.moveAddr dst src).derefs = c.derefs ++ [dst] := by
  simp only [Controller.moveAddr]
  split <;> rfl

/-- The entries in `R` of `c'` are those `d` further on in `c`, and know their new height. -/
structure Moved (d : Int) (R : Int → Prop) (c c' : Controller) : Prop where
  addr : ∀ k, R k → c'.layersAddr k = c.layersAddr (k + d)
  addr_other : ∀ k, ¬ R k → c'.layersAddr k = c.layersAddr k
  height : ∀ k i, R k → c.layersAddr (k + d) = some i → (c'.layers i).height = k
  height_other : ∀ i, (∀ k, R k → c.layersAddr (k + d) ≠ some i) →
    (c'.layers i).height = (c.layers i).height
  view : SameView c c'
  top : c'.top = c.top
  derefs : ∀ k, k ∈ c'.derefs → k ∈ c.derefs ∨ R k

namespace Moved
variable {d : Int} {R R' : Int → Prop} {c c' : Controller}

theorem none (hR : ∀ k, ¬ R k) : Moved d R c c :=
  ⟨fun k hk => absurd hk (hR k), fun _ _ => rfl, fun k _ hk => absurd hk (hR k), fun _ _ => rfl,
    SameView.refl c, rfl, fun _ => Or.inl⟩

/-- One turn of a loop: the entry `k` is next, and its source is not overwritten yet. -/
theorem next (h : Moved d R c c') (k : Int) (hR : ∀ m, R' m ↔ R m ∨ m = k) (hk : ¬ R k)
    (hSrc : ¬ R (k + d))
    (hInj : ∀ m i, R m → c.layersAddr (m + d) = some i → c.layersAddr (k + d) = some i → m = k) :
    Moved d R' c (c'.moveAddr k (k + d)) := by
  have hRead : c'.layersAddr (k + d) = c.layersAddr (k + d) := h.addr_other _ hSrc
  refine ⟨?_, ?_, ?_, ?_, h.view.trans (moveAddr_view c' k _), (moveAddr_top c' k _).trans h.top, ?_⟩
  · intro m hm
    obtain hm | rfl := (hR m).mp hm
    · have hne : m ≠ k := by
        rintro rfl
        exact hk hm
      rw [moveAddr_other c' _ hne, h.addr m hm]
    · rw [moveAddr_self, hRead]
  · intro m hm
    have hne : m ≠ k := fun hEq => hm ((hR m).mpr (Or.inr hEq))
    rw [moveAddr_other c' _ hne, h.addr_other m fun hR' => hm ((hR m).mpr (Or.inl hR'))]
  · intro m i hm hi
    obtain hm | rfl := (hR m).mp hm
    · have hOther : c'.layersAddr (k + d) ≠ some i := by
        rw [hRead]
        intro hEq
        exact hk (hInj m i hm hi hEq ▸ hm)
      rw [moveAddr_height_other c' hOther, h.height m i hm hi]
    · exact moveAddr_height c' (hRead.trans hi)
  · intro i hi
    have hOther : c'.layersAddr (k + d) ≠ some i := hRead ▸ hi k ((hR k).mpr (Or.inr rfl))
    rw [moveAddr_height_other c' hOther,
      h.height_other i fun m hm => hi m ((hR m).mpr (Or.inl hm))]
  · intro m hm
    rw [moveAddr_derefs, List.mem_append, List.mem_singleton] at hm
    obtain hm | rfl := hm
    · exact (h.derefs m hm).imp_right fun hm => (hR m).mpr (Or.inl hm)
    · exact Or.inr ((hR m).mpr (Or.inr rfl))

end Moved

theorem Segment.inj {addr : Int → Option Index} {layers : Index → Layer} {base : Int}
    {S : List Index} (h : Segment addr layers base S) {k m : Int} {i : Index}
    (hk : base ≤ k ∧ k < base + S.length) (hm : base ≤ m ∧ m < base + S.length)
    (hki : addr k = some i) (hmi : addr m = some i) : k = m := by
  obtain ⟨a, _, ha, hak⟩ := h.entry hk.1 hk.2
  obtain ⟨b, _, hb, hbm⟩ := h.entry hm.1 hm.2
  have hai : a = i := Option.some.inj (ha.symm.trans hki)
  have hbi : b = i := Option.some.inj (hb.symm.trans hmi)
  subst hai hbi
  exact hak.symm.trans hbm

section
variable {c : Controller} {lo : Int} {B : List Index} (hi : Int)

theorem moved_forUp (hB : Segment c.layersAddr c.layers (lo + 1) B) (hLen : hi = lo + B.length) :
    Moved 1 (fun k => lo ≤ k ∧ k < hi) c (forUp lo hi (fun h c => c.moveAddr h (h + 1)) c) := by
  refine forUp_rule (P := fun h c' => Moved 1 (fun k => lo ≤ k ∧ k < h) c c') (by omega)
    (Moved.none fun k hk => by omega) ?_
  intro h c' hLo hHi hP
  refine hP.next h (fun m => by omega) (by omega) (by omega) ?_
  intro m i hm hmi hhi
  have := hB.inj (k := m + 1) (m := h + 1) (by omega) (by omega) hmi hhi
  omega

/-- The loop of `lower`. -/
theorem moved_forDown (hB : Segment c.layersAddr c.layers lo B) (hLen : hi = lo + B.length) :
    Moved (-1) (fun k => lo < k ∧ k ≤ hi) c (forDown hi lo (fun h c => c.moveAddr h (h - 1)) c) := by
  refine forDown_rule (P := fun h c' => Moved (-1) (fun k => h < k ∧ k ≤ hi) c c') (by omega)
    (Moved.none fun k hk => by omega) ?_
  intro h c' hLo hHi hP
  refine hP.next h (fun m => by omega) (by omega) (by omega) ?_
  intro m i hm hmi hhi
  have := hB.inj (k := m + -1) (m := h + -1) (by omega) (by omega) hmi hhi
  omega

/-- The loop of `unhide`, which counts by the source of the move. -/
theorem moved_forDown_succ (hB : Segment c.layersAddr c.layers lo B) (hLen : hi = lo + B.length) :
    Moved (-1) (fun k => lo < k ∧ k ≤ hi) c
      (forDown (hi - 1) (lo - 1) (fun h c => c.moveAddr (h + 1) h) c) := by
  have hLoop : Moved (-1) (fun k => lo - 1 + 1 < k ∧ k ≤ hi) c
      (forDown (hi - 1) (lo - 1) (fun h c => c.moveAddr (h + 1) h) c) := by
    refine forDown_rule (P := fun h c' => Moved (-1) (fun k => h + 1 < k ∧ k ≤ hi) c c') (by omega)
      (Moved.none fun k hk => by omega) ?_
    intro h c' hLo hHi hP
    have hNext : Moved (-1) (fun k => h - 1 + 1 < k ∧ k ≤ hi) c (c'.moveAddr (h + 1) (h + 1 + -1)) := by
      refine hP.next (h + 1) (fun m => by omega) (by omega) (by omega) ?_
      intro m i hm hmi hhi
      have := hB.inj (k := m + -1) (m := h + 1 + -1) (by omega) (by omega) hmi hhi
      omega
    rwa [show h + 1 + -1 = h by omega] at hNext
  rwa [show lo - 1 + 1 = lo by omega] at hLoop

end

/-! ## One block of layers moves by one -/

section
variable {c c' : Controller} {d b : Int} {R : Int → Prop} {B : List Index}

theorem Moved.block (hM : Moved d R c c') (hB : Segment c.layersAddr c.layers b B)
    (hR : ∀ k, R k ↔ b ≤ k + d ∧ k + d < b + B.length) :
    Segment c'.layersAddr c'.layers (b - d) B := by
  refine hB.shift (-d) ?_ ?_
  · intro k hLo hHi
    rw [hM.addr _ ((hR _).mpr ⟨by omega, by omega⟩), Int.neg_add_cancel_right]
  · intro j hj
    obtain ⟨hLo, hHi, hAddr⟩ := hB.height_mem hj
    refine hM.height _ j ((hR _).mpr ⟨by omega, by omega⟩) ?_
    rwa [Int.neg_add_cancel_right]

/-- The other layers keep theirs. -/
theorem Moved.height_outside (hM : Moved d R c c') (hB : Segment c.layersAddr c.layers b B)
    (hR : ∀ k, R k ↔ b ≤ k + d ∧ k + d < b + B.length) {j : Index} (hj : j ∉ B) :
    (c'.layers j).height = (c.layers j).height := by
  refine hM.height_other j fun k hk hAddr => ?_
  obtain ⟨hLo, hHi⟩ := (hR k).mp hk
  obtain ⟨i, hi, hEntry, _⟩ := hB.entry hLo hHi
  exact hj (Option.some.inj (hEntry.symm.trans hAddr) ▸ hi)

/-- So does a segment that the move leaves out. -/
theorem Moved.rest (hM : Moved d R c c') (hB : Segment c.layersAddr c.layers b B)
    (hR : ∀ k, R k ↔ b ≤ k + d ∧ k + d < b + B.length) {t : Int} {T : List Index}
    (hT : Segment c.layersAddr c.layers t T) (hOut : ∀ k, t ≤ k → k < t + T.length → ¬ R k)
    (hDisj : ∀ j ∈ T, j ∉ B) : Segment c'.layersAddr c'.layers t T :=
  hT.keep (fun k h₁ h₂ => hM.addr_other k (hOut k h₁ h₂))
    (fun j hj => hM.height_outside hB hR (hDisj j hj))

end

/-- An entry written next to a segment does not touch it. -/
theorem Segment.setAddr {c : Controller} {t k : Int} {T : List Index} {p : Option Index}
    (h : Segment c.layersAddr c.layers t T) (hk : k < t ∨ t + T.length ≤ k) :
    Segment (c.setAddr k p).layersAddr (c.setAddr k p).layers t T :=
  h.keep (fun m h₁ h₂ => setAddr_other c p (by omega)) (fun _ _ => rfl)

/-- A height written for a layer outside a segment does not touch it. -/
theorem Segment.update {c : Controller} {t : Int} {T : List Index} {i : Index} {f : Layer → Layer}
    (h : Segment c.layersAddr c.layers t T) (hi : i ∉ T) :
    Segment (c.update i f).layersAddr (c.update i f).layers t T := by
  refine h.keep (fun _ _ _ => rfl) fun j hj => ?_
  have hji : j ≠ i := by
    rintro rfl
    exact hi hj
  rw [update_layers_other c f hji]

end KalinoteOS.Graphic
