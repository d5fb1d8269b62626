import KalinoteOS.Lib.Ring
import KalinoteOS.Memory.Slab
import Mathlib.Algebra.Order.Ring.Int

/-! # The ring of a cache

What giving out and taking back one object, or one slab, does to the ring of slabs behind a
`struct Slab_cache`. `kmalloc` and the slab caches share it.
-/
namespace KalinoteOS.Memory
open Lib
set_option autoImplicit false

/-- `struct Slab_cache`: `cachePool` is the address of a slab, `ring` the slabs in `list_next`
order. -/
structure SlabCache where
  size : Nat
  totalUsing : Int
  totalFree : Int
  cachePool : Nat
  ring : List Slab

/-- Where the ring has the slab that `cache_pool` points to. -/
def SlabCache.poolPos (c : SlabCache) : Option Nat :=
  c.ring.findIdx? fun s => s.header = c.cachePool

/-- The object at address `a` is given out. -/
def Slab.Holds (s : Slab) (size a : Nat) : Prop :=
  ∃ j, j < s.colorCount ∧ s.isUsed j = true ∧ a = s.object size j

def RingHolds (ring : List Slab) (size a : Nat) : Prop := ∃ s ∈ ring, s.Holds size a

structure SlabOk (size : Nat) (s : Slab) : Prop where
  address : s.vaddress = pageAddress s.page
  fits : size * s.colorCount ≤ page2M
  counted : s.Counted

structure RingInv (size pool : Nat) (ring : List Slab) : Prop where
  pool : (ring.map Slab.header).head? = some pool
  headers : (ring.map Slab.header).Nodup
  pages : (ring.map Slab.page).Nodup
  slabs : ∀ s ∈ ring, SlabOk size s

/-! ## One slab -/

theorem SlabOk.take {size : Nat} {s : Slab} (h : SlabOk size s) {j : Nat} (hMem : j ∈ s.clear) :
    SlabOk size (s.take j) :=
  ⟨h.address, h.fits, h.counted.take hMem⟩

theorem SlabOk.give {size : Nat} {s : Slab} (h : SlabOk size s) {j : Nat} (hLt : j < s.colorCount)
    (hUsed : s.isUsed j = true) : SlabOk size (s.give j) :=
  ⟨h.address, h.fits, h.counted.give hLt hUsed⟩

theorem holds_take {s : Slab} {size j : Nat} (hMem : j ∈ s.clear) (a : Nat) :
    (s.take j).Holds size a ↔ s.Holds size a ∨ a = s.object size j := by
  constructor
  · rintro ⟨k, hLt, hUsed, rfl⟩
    rw [Slab.isUsed_take, Bool.or_eq_true, decide_eq_true_eq] at hUsed
    obtain hUsed | rfl := hUsed
    · exact Or.inl ⟨k, hLt, hUsed, rfl⟩
    · exact Or.inr rfl
  · rintro (⟨k, hLt, hUsed, rfl⟩ | rfl)
    · refine ⟨k, hLt, ?_, rfl⟩
      rw [Slab.isUsed_take, hUsed, Bool.true_or]
    · refine ⟨j, (Slab.mem_clear.mp hMem).1, ?_, rfl⟩
      rw [Slab.isUsed_take, decide_eq_true rfl, Bool.or_true]

theorem holds_give {s : Slab} {size j : Nat} (hSize : 0 < size) (hUsed : s.isUsed j = true)
    (a : Nat) : (s.give j).Holds size a ↔ s.Holds size a ∧ a ≠ s.object size j := by
  constructor
  · rintro ⟨k, hLt, hUsedK, rfl⟩
    have hNe : k ≠ j := by
      rintro rfl
      rw [Slab.isUsed_give, hUsed] at hUsedK
      simp at hUsedK
    rw [Slab.isUsed_give, decide_eq_false hNe, Bool.xor_false] at hUsedK
    exact ⟨⟨k, hLt, hUsedK, rfl⟩, fun hEq => hNe (object_inj s hSize hEq)⟩
  · rintro ⟨⟨k, hLt, hUsedK, rfl⟩, hNe⟩
    refine ⟨k, hLt, ?_, rfl⟩
    have hIndex : k ≠ j := by
      rintro rfl
      exact hNe rfl
    rw [Slab.isUsed_give, decide_eq_false hIndex, Bool.xor_false]
    exact hUsedK

theorem Slab.Holds.within {s : Slab} {size a : Nat} (h : s.Holds size a) (hOk : SlabOk size s) :
    s.vaddress ≤ a ∧ a + size ≤ s.vaddress + page2M := by
  obtain ⟨j, hLt, -, rfl⟩ := h
  exact ⟨Nat.le_add_right _ _, object_within s hOk.fits hLt⟩

/-- An address in the page of a slab, rounded down to the page. -/
theorem SlabOk.base {size : Nat} {s : Slab} (h : SlabOk size s) {a : Nat} (hLow : s.vaddress ≤ a)
    (hHigh : a < s.vaddress + page2M) : a / page2M * page2M = s.vaddress := by
  have hAddress := h.address
  unfold pageAddress pageOffset page2M at *
  omega

theorem Slab.Counted.holds_nothing {s : Slab} (h : s.Counted) (hAll : s.freeCount = s.colorCount)
    {j : Nat} (hLt : j < s.colorCount) : s.isUsed j = false := by
  have hSub : s.clear ⊆ Finset.range s.colorCount := fun k hk =>
    Finset.mem_range.mpr (mem_clear.mp hk).1
  have hCard : (Finset.range s.colorCount).card ≤ s.clear.card := by
    have hFree := h.free
    rw [Finset.card_range]
    omega
  have hEq := Finset.eq_of_subset_of_card_le hSub hCard
  exact (mem_clear.mp (hEq ▸ Finset.mem_range.mpr hLt)).2

theorem Slab.Counted.free_le {s : Slab} (h : s.Counted) : s.freeCount ≤ s.colorCount := by
  have hSub : s.clear ⊆ Finset.range s.colorCount := fun k hk =>
    Finset.mem_range.mpr (mem_clear.mp hk).1
  have hCard := Finset.card_le_card hSub
  rw [Finset.card_range] at hCard
  have hFree := h.free
  omega

/-! ## The ring -/

theorem exists_split {α : Type} {l : List α} {pos : Nat} {a : α} (h : l[pos]? = some a) :
    ∃ before after, l = before ++ a :: after ∧ before.length = pos := by
  obtain ⟨hLt, rfl⟩ := List.getElem?_eq_some_iff.mp h
  refine ⟨l.take pos, l.drop (pos + 1), ?_, List.length_take_of_le hLt.le⟩
  rw [List.getElem_cons_drop hLt, List.take_append_drop]

theorem set_split {α : Type} (before after : List α) (a b : α) :
    (before ++ a :: after).set before.length b = before ++ b :: after := by
  rw [List.set_append_right _ _ (le_refl _), Nat.sub_self]
  rfl

theorem eraseIdx_split {α : Type} (before after : List α) (a : α) :
    (before ++ a :: after).eraseIdx before.length = before ++ after := by
  rw [List.eraseIdx_append_of_length_le (le_refl _), Nat.sub_self]
  rfl

theorem ringHolds_split {before after : List Slab} {s : Slab} {size a : Nat} :
    RingHolds (before ++ s :: after) size a ↔
      s.Holds size a ∨ RingHolds (before ++ after) size a := by
  unfold RingHolds
  constructor
  · rintro ⟨t, ht, hHolds⟩
    obtain ht | ht := List.mem_append.mp ht
    · exact Or.inr ⟨t, List.mem_append_left _ ht, hHolds⟩
    · obtain rfl | ht := List.mem_cons.mp ht
      · exact Or.inl hHolds
      · exact Or.inr ⟨t, List.mem_append_right _ ht, hHolds⟩
  · rintro (hHolds | ⟨t, ht, hHolds⟩)
    · exact ⟨s, List.mem_append_right _ List.mem_cons_self, hHolds⟩
    · refine ⟨t, ?_, hHolds⟩
      obtain ht | ht := List.mem_append.mp ht
      · exact List.mem_append_left _ ht
      · exact List.mem_append_right _ (List.mem_cons_of_mem _ ht)

section
variable {size pool : Nat} {ring before after : List Slab} {s s' : Slab}

theorem RingInv.nonempty (h : RingInv size pool ring) : ring ≠ [] := by
  rintro rfl
  cases h.pool

theorem poolPos_of_head {c : SlabCache} {p : Slab} {rest : List Slab} (hRing : c.ring = p :: rest)
    (hPool : p.header = c.cachePool) : c.poolPos = some 0 := by
  unfold SlabCache.poolPos
  rw [hRing, List.findIdx?_cons, if_pos (decide_eq_true hPool)]

theorem RingInv.poolPos {c : SlabCache} (h : RingInv c.size c.cachePool c.ring) :
    c.poolPos = some 0 := by
  have hPool := h.pool
  cases hRing : c.ring with
  | nil => exact absurd hRing h.nonempty
  | cons p rest =>
    rw [hRing, List.map_cons, List.head?_cons, Option.some_inj] at hPool
    exact poolPos_of_head hRing hPool

theorem RingInv.replace (h : RingInv size pool (before ++ s :: after))
    (hHeader : s'.header = s.header) (hPage : s'.page = s.page) (hOk : SlabOk size s') :
    RingInv size pool (before ++ s' :: after) := by
  have hHeaders : (before ++ s' :: after).map Slab.header = (before ++ s :: after).map Slab.header := by
    simp only [List.map_append, List.map_cons, hHeader]
  have hPages : (before ++ s' :: after).map Slab.page = (before ++ s :: after).map Slab.page := by
    simp only [List.map_append, List.map_cons, hPage]
  constructor
  · rw [hHeaders]
    exact h.pool
  · rw [hHeaders]
    exact h.headers
  · rw [hPages]
    exact h.pages
  · intro t ht
    obtain ht | ht := List.mem_append.mp ht
    · exact h.slabs t (List.mem_append_left _ ht)
    · obtain rfl | ht := List.mem_cons.mp ht
      · exact hOk
      · exact h.slabs t (List.mem_append_right _ (List.mem_cons_of_mem _ ht))

theorem RingInv.remove (h : RingInv size pool (before ++ s :: after)) (hNe : s.header ≠ pool) :
    RingInv size pool (before ++ after) := by
  have hSub : (before ++ after).Sublist (before ++ s :: after) :=
    List.Sublist.append_left (List.sublist_cons_self s after) before
  constructor
  · have hPool := h.pool
    cases before with
    | nil =>
      rw [List.nil_append, List.map_cons, List.head?_cons, Option.some_inj] at hPool
      exact absurd hPool hNe
    | cons p rest => exact hPool
  · exact h.headers.sublist (hSub.map _)
  · exact h.pages.sublist (hSub.map _)
  · exact fun t ht => h.slabs t (hSub.subset ht)

/-- A new slab joins the ring, behind the pool or in front of it. -/
theorem RingInv.join {ring' : List Slab} (h : RingInv size pool ring)
    (hPerm : ring'.Perm (s :: ring)) (hPool : (ring'.map Slab.header).head? = some pool)
    (hHeader : s.header ∉ ring.map Slab.header) (hPage : s.page ∉ ring.map Slab.page)
    (hOk : SlabOk size s) : RingInv size pool ring' := by
  constructor
  · exact hPool
  · rw [(hPerm.map _).nodup_iff]
    exact List.nodup_cons.mpr ⟨hHeader, h.headers⟩
  · rw [(hPerm.map _).nodup_iff]
    exact List.nodup_cons.mpr ⟨hPage, h.pages⟩
  · intro t ht
    obtain rfl | ht := List.mem_cons.mp (hPerm.mem_iff.mp ht)
    · exact hOk
    · exact h.slabs t ht

theorem RingInv.owner (h : RingInv size pool ring) {t : Slab} (hs : s ∈ ring) (ht : t ∈ ring)
    {a : Nat} (hA : s.vaddress ≤ a ∧ a < s.vaddress + page2M)
    (hB : t.vaddress ≤ a ∧ a < t.vaddress + page2M) : s = t := by
  rw [(h.slabs s hs).address] at hA
  rw [(h.slabs t ht).address] at hB
  apply List.inj_on_of_nodup_map h.pages hs ht
  by_contra hNe
  rcases page_apart hNe with hLow | hHigh <;> omega

/-- What one slab holds no other slab holds. -/
theorem RingInv.holds_unique (h : RingInv size pool ring) (hSize : 0 < size) {t : Slab}
    (hs : s ∈ ring) (ht : t ∈ ring) {a : Nat} (hA : s.Holds size a) (hB : t.Holds size a) : s = t := by
  obtain ⟨hLowA, hHighA⟩ := hA.within (h.slabs s hs)
  obtain ⟨hLowB, hHighB⟩ := hB.within (h.slabs t ht)
  exact h.owner hs ht ⟨hLowA, by omega⟩ ⟨hLowB, by omega⟩

theorem RingInv.object_unheld (h : RingInv size pool ring) (hSize : 0 < size) (hs : s ∈ ring)
    {j : Nat} (hMem : j ∈ s.clear) : ¬ RingHolds ring size (s.object size j) := by
  rintro ⟨t, ht, hHolds⟩
  have hOk := h.slabs s hs
  have hSelf : (s.take j).Holds size (s.object size j) := (holds_take hMem _).mpr (Or.inr rfl)
  obtain ⟨hLow, hHigh⟩ := hSelf.within (hOk.take hMem)
  obtain ⟨hLowT, hHighT⟩ := hHolds.within (h.slabs t ht)
  have hEq : t = s := h.owner ht hs ⟨hLowT, by omega⟩ ⟨hLow, by
    change _ < (s.take j).vaddress + page2M
    omega⟩
  subst hEq
  obtain ⟨k, -, hUsed, hObject⟩ := hHolds
  rw [← object_inj t hSize hObject, (Slab.mem_clear.mp hMem).2] at hUsed
  cases hUsed

/-- What the slab in the middle holds the others do not. -/
theorem RingInv.rest_unheld (h : RingInv size pool (before ++ s :: after)) (hSize : 0 < size) {a : Nat}
    (hHolds : s.Holds size a) : ¬ RingHolds (before ++ after) size a := by
  rintro ⟨t, ht, hHoldsT⟩
  have hPages := h.pages
  rw [List.map_append, List.map_cons, List.nodup_middle, List.nodup_cons,
    ← List.map_append] at hPages
  have hInT : t ∈ before ++ s :: after := by
    simp only [List.mem_append, List.mem_cons] at ht ⊢
    tauto
  have hInS : s ∈ before ++ s :: after := List.mem_append_right _ List.mem_cons_self
  have hEq := h.holds_unique hSize hInT hInS hHoldsT hHolds
  exact hPages.1 (hEq ▸ List.mem_map_of_mem ht)

end

/-- The ring with another slab in the place of `s`. -/
theorem mem_replaced {before after : List Slab} {s s' t : Slab} (ht : t ∈ before ++ s' :: after) :
    t = s' ∨ t ∈ before ++ s :: after := by
  simp only [List.mem_append, List.mem_cons] at ht ⊢
  tauto

theorem mem_remaining {before after : List Slab} {s t : Slab} (ht : t ∈ before ++ after) :
    t ∈ before ++ s :: after := by
  simp only [List.mem_append, List.mem_cons] at ht ⊢
  tauto

theorem sum_split (f : Slab → Int) (before after : List Slab) (s : Slab) :
    ((before ++ s :: after).map f).sum = f s + ((before ++ after).map f).sum := by
  simp only [List.map_append, List.map_cons, List.sum_append, List.sum_cons]
  omega

theorem exists_of_sum_ne_zero {f : Slab → Int} {l : List Slab} (h : (l.map f).sum ≠ 0) :
    ∃ s ∈ l, f s ≠ 0 := by
  by_contra hNone
  push Not at hNone
  apply h
  apply List.sum_eq_zero
  intro x hx
  obtain ⟨s, hs, rfl⟩ := List.mem_map.mp hx
  exact hNone s hs

end KalinoteOS.Memory
