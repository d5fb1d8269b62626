import KalinoteOS.Memory.KmallocClass
import Mathlib.Data.List.Find

/-! # The invariant of `kmalloc`

`objs` are the objects given out, to callers of `kmalloc` or to `kmalloc_create` itself. Every
operation is one change of one size, one page taken, or one page freed.
-/
namespace KalinoteOS.Memory.Kmalloc
open Lib Boot Pages
set_option autoImplicit false

/-- What a call of `kmalloc` returned, and the size it asked for. -/
structure Obj where
  address : Nat
  size : Nat
  deriving DecidableEq, Repr

/-- `sizeIndex` for the sizes as they are. -/
def index (size : Nat) : Option Nat := (List.range 16).find? fun i => size ≤ kmallocSize i

theorem index_some {size k : Nat} (h : index size = some k) : k < 16 ∧ size ≤ kmallocSize k := by
  constructor
  · exact List.mem_range.mp (List.mem_of_find?_eq_some h)
  · have hFound := List.find?_some h
    exact of_decide_eq_true hFound

theorem index_total {size : Nat} (hLe : size ≤ 1048576) : ∃ k, index size = some k := by
  rw [← Option.isSome_iff_exists]
  unfold index
  rw [List.find?_isSome]
  exact ⟨15, by decide, decide_eq_true hLe⟩

theorem index_sizeofSlab : index sizeofSlab = some 2 := by decide +kernel

/-- The bitmaps outside the page are small objects. -/
theorem index_colorLength : ∀ k < 16, 5 ≤ k →
    ∃ m < 5, index (colorLengthOf (page2M / kmallocSize k)) = some m := by decide +kernel

theorem sizeIndex_eq {caches : Nat → SlabCache}
    (h : ∀ k < 16, (caches k).size = kmallocSize k) (size : Nat) :
    sizeIndex caches size = index size := by
  unfold sizeIndex index
  apply List.find?_congr
  intro k hk
  rw [h k (List.mem_range.mp hk)]

@[simp] theorem setCache_self (s : State) (i : Nat) (c : SlabCache) :
    (s.setCache i c).caches i = c := Function.update_self _ _ _

theorem setCache_other (s : State) {i k : Nat} (c : SlabCache) (h : k ≠ i) :
    (s.setCache i c).caches k = s.caches k := Function.update_of_ne h _ _

/-- What holds of the new cache and of the other old ones holds of all. -/
theorem setCache_forall {P : Nat → SlabCache → Prop} {s : State} {i : Nat} {c : SlabCache}
    (hNew : i < 16 → P i c) (hOld : ∀ k < 16, k ≠ i → P k (s.caches k)) :
    ∀ k < 16, P k ((s.setCache i c).caches k) := by
  intro k hk
  by_cases hEq : k = i
  · subst hEq
    rw [setCache_self]
    exact hNew hk
  · rw [setCache_other s c hEq]
    exact hOld k hk hEq

/-- A page handed out that no slab has, and where no pool has its header. -/
structure Unowned (s : State) (p : Nat) : Prop where
  held : p ∈ s.held
  slabs : ∀ k < 16, ∀ sl ∈ (s.caches k).ring, sl.page ≠ p
  pools : ∀ k < 16, frame (virtToPhy (s.caches k).cachePool) ≠ p

structure Inv (s : State) (objs : List Obj) : Prop where
  classes : ∀ k < 16, ClassInv k (s.caches k)
  spares : ∀ k < 16, spares (s.caches k) ≤ 1
  held : ∀ k < 16, ∀ sl ∈ (s.caches k).ring, sl.page ∈ s.held
  apart : ∀ k < 16, ∀ k' < 16, k ≠ k' →
    ∀ sl ∈ (s.caches k).ring, ∀ t ∈ (s.caches k').ring, sl.page ≠ t.page
  poolVirtual : ∀ k < 16, pageOffset ≤ (s.caches k).cachePool
  poolHeld : ∀ k < 16, frame (virtToPhy (s.caches k).cachePool) ∈ s.held
  poolAway : ∀ k < 16, ∀ k' < 16, ∀ sl ∈ (s.caches k').ring,
    sl.page ≠ frame (virtToPhy (s.caches k).cachePool)
  objects : ∀ k < 16, ∀ a, RingHolds (s.caches k).ring (s.caches k).size a ↔
    ∃ o ∈ objs, o.address = a ∧ index o.size = some k
  sizes : ∀ o ∈ objs, o.size ≤ 1048576
  nodup : (objs.map Obj.address).Nodup

section
variable {s : State} {objs : List Obj}

theorem Inv.sizeIndex_eq (h : Inv s objs) (size : Nat) : sizeIndex s.caches size = index size :=
  Kmalloc.sizeIndex_eq (fun k hk => (h.classes k hk).size) size

/-- One size changes, over its own pages and pages that nobody has. -/
theorem Inv.setCache (h : Inv s objs) {i : Nat} (hi : i < 16) {c : SlabCache} {objs' : List Obj}
    (hClass : ClassInv i c) (hSpares : Kmalloc.spares c ≤ 1)
    (hPool : c.cachePool = (s.caches i).cachePool)
    (hPages : ∀ sl ∈ c.ring, sl.page ∈ (s.caches i).ring.map Slab.page ∨ Unowned s sl.page)
    (hObjects : ∀ a, RingHolds c.ring c.size a ↔
      ∃ o ∈ objs', o.address = a ∧ index o.size = some i)
    (hOthers : ∀ o, index o.size ≠ some i → (o ∈ objs' ↔ o ∈ objs))
    (hSizes : ∀ o ∈ objs', o.size ≤ 1048576) (hNodup : (objs'.map Obj.address).Nodup) :
    Inv (s.setCache i c) objs' := by
  have hPoolAll : ∀ k, ((s.setCache i c).caches k).cachePool = (s.caches k).cachePool := by
    intro k
    by_cases hEq : k = i
    · subst hEq
      rw [setCache_self]
      exact hPool
    · rw [setCache_other s c hEq]
  -- a page of the new ring is one of the old ring or one that nobody has
  have hPage : ∀ {P : Nat → Prop}, (∀ u ∈ (s.caches i).ring, P u.page) →
      (∀ p, Unowned s p → P p) → ∀ sl ∈ c.ring, P sl.page := by
    intro P hOld hFree sl hsl
    obtain hMem | hUnowned := hPages sl hsl
    · obtain ⟨u, hu, hEq⟩ := List.mem_map.mp hMem
      exact hEq ▸ hOld u hu
    · exact hFree _ hUnowned
  have hNew : ∀ k < 16, k ≠ i → ∀ sl ∈ c.ring, ∀ t ∈ (s.caches k).ring, sl.page ≠ t.page := by
    intro k hk hNe
    exact hPage (fun u hu t ht => h.apart i hi k hk hNe.symm u hu t ht)
      fun p hp t ht => (hp.slabs k hk t ht).symm
  constructor
  · exact setCache_forall (P := ClassInv) (fun _ => hClass) fun k hk _ => h.classes k hk
  · exact setCache_forall (P := fun _ c => Kmalloc.spares c ≤ 1) (fun _ => hSpares)
      fun k hk _ => h.spares k hk
  · exact setCache_forall (P := fun _ c => ∀ sl ∈ c.ring, sl.page ∈ s.held)
      (fun _ => hPage (h.held i hi) fun _ hp => hp.held) fun k hk _ => h.held k hk
  · intro k hk k' hk' hNe sl hsl t ht
    by_cases hEq : k = i
    · subst hEq
      rw [setCache_self] at hsl
      rw [setCache_other s c hNe.symm] at ht
      exact hNew k' hk' hNe.symm sl hsl t ht
    · rw [setCache_other s c hEq] at hsl
      by_cases hEq' : k' = i
      · subst hEq'
        rw [setCache_self] at ht
        exact (hNew k hk hNe t ht sl hsl).symm
      · rw [setCache_other s c hEq'] at ht
        exact h.apart k hk k' hk' hNe sl hsl t ht
  · intro k hk
    rw [hPoolAll]
    exact h.poolVirtual k hk
  · intro k hk
    rw [hPoolAll]
    exact h.poolHeld k hk
  · intro k hk
    rw [hPoolAll]
    exact setCache_forall
      (P := fun _ c' => ∀ sl ∈ c'.ring, sl.page ≠ frame (virtToPhy (s.caches k).cachePool))
      (fun _ => hPage (h.poolAway k hk i hi) fun _ hp => (hp.pools k hk).symm)
      fun k' hk' _ => h.poolAway k hk k' hk'
  · refine setCache_forall (P := fun k c => ∀ a, RingHolds c.ring c.size a ↔
      ∃ o ∈ objs', o.address = a ∧ index o.size = some k) (fun _ => hObjects) fun k hk hEq a => ?_
    have hNot : ∀ o : Obj, index o.size = some k → (o ∈ objs ↔ o ∈ objs') := by
      intro o hIndex
      refine (hOthers o fun hI => ?_).symm
      rw [hIndex] at hI
      exact hEq (Option.some.inj hI)
    rw [h.objects k hk a]
    constructor
    · rintro ⟨o, ho, hA, hIndex⟩
      exact ⟨o, (hNot o hIndex).mp ho, hA, hIndex⟩
    · rintro ⟨o, ho, hA, hIndex⟩
      exact ⟨o, (hNot o hIndex).mpr ho, hA, hIndex⟩
  · exact hSizes
  · exact hNodup

theorem Unowned.setCache {p i : Nat} (hp : Unowned s p) {c : SlabCache}
    (hPool : c.cachePool = (s.caches i).cachePool) (hPages : ∀ sl ∈ c.ring, sl.page ≠ p) :
    Unowned (s.setCache i c) p := by
  constructor
  · exact hp.held
  · exact setCache_forall (P := fun _ c => ∀ sl ∈ c.ring, sl.page ≠ p) (fun _ => hPages)
      fun k hk _ => hp.slabs k hk
  · exact setCache_forall (P := fun _ c => frame (virtToPhy c.cachePool) ≠ p)
      (fun hi => hPool ▸ hp.pools i hi) fun k hk _ => hp.pools k hk

theorem Inv.alloc (h : Inv s objs) (p : Nat) : Inv { s with held := p :: s.held } objs :=
  { h with
    held := fun k hk sl hsl => List.mem_cons_of_mem p (h.held k hk sl hsl)
    poolHeld := fun k hk => List.mem_cons_of_mem p (h.poolHeld k hk) }

theorem Inv.unowned_new (h : Inv s objs) {p : Nat} (hp : p ∉ s.held) :
    Unowned { s with held := p :: s.held } p := by
  constructor
  · exact List.mem_cons_self
  · rintro k hk sl hsl rfl
    exact hp (h.held k hk sl hsl)
  · intro k hk hEq
    exact hp (hEq ▸ h.poolHeld k hk)

theorem Unowned.alloc {p : Nat} (hp : Unowned s p) (q : Nat) :
    Unowned { s with held := q :: s.held } p :=
  ⟨List.mem_cons_of_mem q hp.held, hp.slabs, hp.pools⟩

theorem Inv.freePage (h : Inv s objs) {p : Nat} (hp : Unowned s p) : Inv (s.freePage p) objs :=
  { h with
    held := fun k hk sl hsl => (List.mem_erase_of_ne (hp.slabs k hk sl hsl)).mpr (h.held k hk sl hsl)
    poolHeld := fun k hk => (List.mem_erase_of_ne (hp.pools k hk)).mpr (h.poolHeld k hk) }

theorem Unowned.freePage {p q : Nat} (hp : Unowned s p) (hNe : p ≠ q) :
    Unowned (s.freePage q) p :=
  ⟨(List.mem_erase_of_ne hNe).mpr hp.held, hp.slabs, hp.pools⟩

/-! ## The slab of an object -/

theorem Inv.find (h : Inv s objs) {o : Obj} (ho : o ∈ objs) :
    ∃ (k pos : Nat) (sl : Slab) (j : Nat), k < 16 ∧ index o.size = some k ∧
      (s.caches k).ring[pos]? = some sl ∧ j < sl.colorCount ∧ sl.isUsed j = true ∧
      o.address = sl.object (s.caches k).size j := by
  obtain ⟨k, hIndex⟩ := index_total (h.sizes o ho)
  have hk := (index_some hIndex).1
  obtain ⟨sl, hsl, j, hLt, hUsed, hAddress⟩ := (h.objects k hk o.address).mpr ⟨o, ho, rfl, hIndex⟩
  obtain ⟨pos, hPos⟩ := List.mem_iff_getElem?.mp hsl
  exact ⟨k, pos, sl, j, hk, hIndex, hPos, hLt, hUsed, hAddress⟩

theorem Inv.base (h : Inv s objs) {k : Nat} (hk : k < 16) {sl : Slab} (hsl : sl ∈ (s.caches k).ring)
    {a : Nat} (hHolds : sl.Holds (s.caches k).size a) : a / page2M * page2M = sl.vaddress := by
  have hOk := (h.classes k hk).ring.slabs sl hsl
  have hPos := (h.classes k hk).size_pos
  obtain ⟨hLow, hHigh⟩ := hHolds.within hOk
  exact hOk.base hLow (by omega)

/-- No two slabs start at the same address. -/
theorem Inv.same_slab (h : Inv s objs) {k k' : Nat} (hk : k < 16) (hk' : k' < 16) {sl t : Slab}
    (hsl : sl ∈ (s.caches k).ring) (ht : t ∈ (s.caches k').ring) (hEq : sl.vaddress = t.vaddress) :
    k = k' ∧ sl = t := by
  rw [((h.classes k hk).ring.slabs sl hsl).address, ((h.classes k' hk').ring.slabs t ht).address] at hEq
  have hPage := pageAddress_inj hEq
  by_cases hSame : k = k'
  · subst hSame
    exact ⟨rfl, List.inj_on_of_nodup_map (h.classes k hk).ring.pages hsl ht hPage⟩
  · exact absurd hPage (h.apart k hk k' hk' hSame sl hsl t ht)

theorem findOwner_append {base : Nat} {ks : List Nat} (hks : ∀ k ∈ ks, k < 16) (h : Inv s objs)
    (hNone : ∀ k ∈ ks, ∀ sl ∈ (s.caches k).ring, sl.vaddress ≠ base) (rest : List Nat) :
    findOwner s base (ks ++ rest) = findOwner s base rest := by
  induction ks with
  | nil => rfl
  | cons k ks ih =>
    have hRing := (h.classes k (hks k List.mem_cons_self)).ring
    have hPos := List.length_pos_of_ne_nil hRing.nonempty
    have hLoop : ringLoop (s.caches k).ring 0 (ownerVisit base) (s.caches k).ring.length 0 =
        some none :=
      ringLoop_search_none (fun _ => rfl) (le_refl _) hPos (hNone k List.mem_cons_self)
    rw [List.cons_append, findOwner, hLoop]
    exact ih (fun q hq => hks q (List.mem_cons_of_mem _ hq))
      fun q hq => hNone q (List.mem_cons_of_mem _ hq)

/-- The walk of `kfree` finds the slab of a page. -/
theorem Inv.findOwner_spec (h : Inv s objs) {k : Nat} (hk : k < 16) {sl : Slab}
    (hsl : sl ∈ (s.caches k).ring) :
    ∃ pos, findOwner s sl.vaddress (List.range 16) = some (some (k, pos)) ∧
      (s.caches k).ring[pos]? = some sl := by
  have hSplit : List.range 16 = List.range k ++ (k :: List.range' (k + 1) (15 - k)) := by
    have hCons : k :: List.range' (k + 1) (15 - k) = List.range' k (16 - k) := by
      have hLength : 16 - k = (15 - k) + 1 := by omega
      rw [hLength, List.range'_succ]
    have hAll : 16 = k + (16 - k) := by omega
    rw [hCons, List.range_eq_range', List.range_eq_range']
    conv_lhs => rw [hAll]
    rw [← List.range'_append_1, Nat.zero_add]
  have hBefore : ∀ q ∈ List.range k, ∀ t ∈ (s.caches q).ring, t.vaddress ≠ sl.vaddress := by
    intro q hq t ht hEq
    have hLt := List.mem_range.mp hq
    have hSame := (h.same_slab (hLt.trans hk) hk ht hsl hEq).1
    omega
  have hVisit : ∀ t, ownerVisit sl.vaddress t = if t.vaddress = sl.vaddress then .done () else .next :=
    fun _ => rfl
  obtain ⟨pos, t, hLoop, hAt, hEq⟩ := ringLoop_search hVisit (le_refl _) hsl rfl
  refine ⟨pos, ?_, ?_⟩
  · rw [hSplit, findOwner_append (fun q hq => (List.mem_range.mp hq).trans hk) h hBefore, findOwner,
      hLoop]
  · rw [hAt, (h.same_slab hk hk (List.mem_of_getElem? hAt) hsl hEq).2]

end

end KalinoteOS.Memory.Kmalloc
