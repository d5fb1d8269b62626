import KalinoteOS.Memory.Kmalloc
import Mathlib.Algebra.Order.BigOperators.Group.List
import Mathlib.Algebra.Order.Ring.Int

/-! # One size of `kmalloc`

What the slabs of one size keep when an object goes out or comes back and when a slab joins or
leaves the ring.
-/
namespace KalinoteOS.Memory.Kmalloc
open Lib Boot
set_option autoImplicit false

/-! ## The sizes -/

/-- The number of objects of a slab that `kmalloc_create` makes. -/
def createdCount (k : Nat) : Nat :=
  if k < 5 then (page2M - page2M / kmallocSize k / 8 - sizeofSlab) / kmallocSize k
  else page2M / kmallocSize k

theorem kmallocSize_pos (k : Nat) : 0 < kmallocSize k :=
  Nat.mul_pos (by decide) (Nat.two_pow_pos k)

theorem createdCount_pos : ∀ k < 16, 0 < createdCount k := by decide +kernel

theorem poolCount_pos : ∀ k < 16, 0 < page2M / kmallocSize k := by decide +kernel

theorem created_fits : ∀ k < 16, kmallocSize k * createdCount k ≤ page2M := by decide +kernel

/-- The objects end in front of the header. -/
theorem created_room : ∀ k < 5, kmallocSize k * createdCount k + structSize (kmallocSize k) ≤ page2M := by
  decide +kernel

/-- Header and bitmap end with the page. -/
theorem map_room : ∀ k < 5, sizeofSlab + colorLengthOf (createdCount k) ≤ structSize (kmallocSize k) := by
  decide +kernel

theorem inPage_iff : ∀ k < 16, (kmallocSize k ∈ sizesInPage ↔ k < 5) := by decide +kernel

theorem outside_of_le : ∀ k < 16, 5 ≤ k → kmallocSize k ∈ sizesOutside := by decide +kernel

/-! ## A new bitmap -/

theorem freshMap_used {count j : Nat} (h : j < 8 * colorLengthOf count) :
    (freshMap count).used j = decide (count ≤ j) := by
  have hFill : j < 64 * (colorLengthOf count / 8) := by
    unfold colorLengthOf at *
    omega
  unfold freshMap
  rw [Words.used_flipRange, Words.used_fill hFill]
  by_cases hLt : j < count
  · have hIn : 0 ≤ j ∧ j < 0 + count := by omega
    rw [decide_eq_true hIn, decide_eq_false (not_le.mpr hLt)]
    rfl
  · have hOut : ¬ (0 ≤ j ∧ j < 0 + count) := by omega
    rw [decide_eq_false hOut, decide_eq_true (not_lt.mp hLt)]
    rfl

theorem lt_colorLength {count j : Nat} (h : j < count) : j < 8 * colorLengthOf count := by
  unfold colorLengthOf
  omega

/-- A slab with a new bitmap, and nothing given out. -/
structure Fresh (n : Nat) (sl : Slab) : Prop where
  map : sl.colorMap = freshMap n
  count : sl.colorCount = n
  free : sl.freeCount = n
  using_zero : sl.usingCount = 0
  length : sl.colorLength = colorLengthOf n

theorem Fresh.clear {count : Nat} {sl : Slab} (h : Fresh count sl) {j : Nat} (hLt : j < count) :
    sl.isUsed j = false := by
  unfold Slab.isUsed
  rw [h.map, freshMap_used (lt_colorLength hLt), decide_eq_false (not_le.mpr hLt)]

theorem Fresh.counted {count : Nat} {sl : Slab} (h : Fresh count sl) : sl.Counted := by
  constructor
  have hClear : sl.clear = Finset.range count := by
    ext j
    rw [Slab.mem_clear, Finset.mem_range, h.count]
    exact and_iff_left_of_imp h.clear
  rw [hClear, Finset.card_range, h.free]

theorem Fresh.holds_nothing {count : Nat} {sl : Slab} (h : Fresh count sl) (size a : Nat) :
    ¬ sl.Holds size a := by
  rintro ⟨j, hLt, hUsed, -⟩
  rw [h.count] at hLt
  rw [h.clear hLt] at hUsed
  cases hUsed

/-! ## The slabs of one size -/

/-- What is true of a slab of size `k`; `pool` is the address of the first one. -/
structure SlabFine (k pool : Nat) (sl : Slab) : Prop where
  count : sl.colorCount = if sl.header = pool then page2M / kmallocSize k else createdCount k
  length : sl.colorLength = colorLengthOf sl.colorCount
  padding : ∀ j, sl.colorCount ≤ j → j < 8 * sl.colorLength → sl.isUsed j = true
  usingFree : sl.usingCount + sl.freeCount = sl.colorCount
  place : sl.header ≠ pool → k < 5 →
    sl.header + structSize (kmallocSize k) = sl.vaddress + page2M ∧
      sl.colorMapAt = sl.header + sizeofSlab

theorem SlabFine.count_pos {k pool : Nat} {sl : Slab} (h : SlabFine k pool sl) (hk : k < 16) :
    0 < sl.colorCount := by
  rw [h.count]
  split
  · exact poolCount_pos k hk
  · exact createdCount_pos k hk

theorem SlabFine.take {k pool : Nat} {sl : Slab} (h : SlabFine k pool sl) (j : Nat) :
    SlabFine k pool (sl.take j) := by
  refine ⟨h.count, h.length, fun i hLow hHigh => ?_, ?_, h.place⟩
  · rw [Slab.isUsed_take, h.padding i hLow hHigh, Bool.true_or]
  · have hUsing := h.usingFree
    dsimp only [Slab.take]
    omega

theorem SlabFine.give {k pool : Nat} {sl : Slab} (h : SlabFine k pool sl) {j : Nat}
    (hLt : j < sl.colorCount) : SlabFine k pool (sl.give j) := by
  refine ⟨h.count, h.length, fun i hLow hHigh => ?_, ?_, h.place⟩
  · have hNe : i ≠ j := (hLt.trans_le hLow).ne'
    rw [Slab.isUsed_give, h.padding i hLow hHigh, decide_eq_false hNe]
    rfl
  · have hUsing := h.usingFree
    dsimp only [Slab.give]
    omega

theorem Fresh.fine {k pool count : Nat} {sl : Slab} (h : Fresh count sl)
    (hCount : count = if sl.header = pool then page2M / kmallocSize k else createdCount k)
    (hPlace : sl.header ≠ pool → k < 5 →
      sl.header + structSize (kmallocSize k) = sl.vaddress + page2M ∧
        sl.colorMapAt = sl.header + sizeofSlab) : SlabFine k pool sl := by
  constructor
  · rw [h.count]
    exact hCount
  · rw [h.length, h.count]
  · intro j hLow hHigh
    unfold Slab.isUsed
    rw [h.length] at hHigh
    rw [h.count] at hLow
    rw [h.map, freshMap_used hHigh, decide_eq_true hLow]
  · rw [h.using_zero, h.free, h.count, zero_add]
  · exact hPlace

structure ClassInv (k : Nat) (c : SlabCache) : Prop where
  size : c.size = kmallocSize k
  ring : RingInv c.size c.cachePool c.ring
  slabs : ∀ sl ∈ c.ring, SlabFine k c.cachePool sl
  totalFree : c.totalFree = (c.ring.map Slab.freeCount).sum
  totalUsing : c.totalUsing = (c.ring.map Slab.usingCount).sum

/-- An empty slab besides the pool. -/
def isSpare (c : SlabCache) (sl : Slab) : Bool :=
  decide (sl.header ≠ c.cachePool ∧ sl.usingCount = 0)

def spares (c : SlabCache) : Nat := c.ring.countP (isSpare c)

section
variable {k : Nat} {c : SlabCache}

theorem ClassInv.size_pos (h : ClassInv k c) : 0 < c.size := by
  rw [h.size]
  exact kmallocSize_pos k

theorem ClassInv.free_nonneg (h : ClassInv k c) {sl : Slab} (hsl : sl ∈ c.ring) :
    0 ≤ sl.freeCount := (h.ring.slabs sl hsl).counted.nonneg

theorem ClassInv.using_nonneg (h : ClassInv k c) {sl : Slab} (hsl : sl ∈ c.ring) :
    0 ≤ sl.usingCount := by
  have hLe := (h.ring.slabs sl hsl).counted.free_le
  have hUsing := (h.slabs sl hsl).usingFree
  omega

theorem ClassInv.replace {before after : List Slab} {sl sl' : Slab} (h : ClassInv k c)
    (hRing : c.ring = before ++ sl :: after) (hHeader : sl'.header = sl.header)
    (hPage : sl'.page = sl.page) (hOk : SlabOk c.size sl') (hFine : SlabFine k c.cachePool sl') :
    ClassInv k { c with
      ring := before ++ sl' :: after
      totalFree := c.totalFree - sl.freeCount + sl'.freeCount
      totalUsing := c.totalUsing - sl.usingCount + sl'.usingCount } := by
  have hFree := h.totalFree
  have hUsing := h.totalUsing
  rw [hRing, sum_split] at hFree hUsing
  constructor
  · exact h.size
  · exact (hRing ▸ h.ring).replace hHeader hPage hOk
  · intro t ht
    obtain rfl | hOld := mem_replaced ht
    · exact hFine
    · exact h.slabs t (hRing ▸ hOld)
  · rw [sum_split]
    dsimp only
    omega
  · rw [sum_split]
    dsimp only
    omega

theorem takeAt_eq {before after : List Slab} {sl : Slab} (hRing : c.ring = before ++ sl :: after)
    (j : Nat) : takeAt c before.length sl j = { c with
      ring := before ++ sl.take j :: after
      totalFree := c.totalFree - sl.freeCount + (sl.take j).freeCount
      totalUsing := c.totalUsing - sl.usingCount + (sl.take j).usingCount } := by
  have hFree : c.totalFree - sl.freeCount + (sl.take j).freeCount = c.totalFree - 1 := by
    dsimp only [Slab.take]
    omega
  have hUsing : c.totalUsing - sl.usingCount + (sl.take j).usingCount = c.totalUsing + 1 := by
    dsimp only [Slab.take]
    omega
  unfold takeAt
  rw [hFree, hUsing, hRing, set_split]

theorem giveAt_eq {before after : List Slab} {sl : Slab} (hRing : c.ring = before ++ sl :: after)
    (j : Nat) : giveAt c before.length sl j = { c with
      ring := before ++ sl.give j :: after
      totalFree := c.totalFree - sl.freeCount + (sl.give j).freeCount
      totalUsing := c.totalUsing - sl.usingCount + (sl.give j).usingCount } := by
  have hFree : c.totalFree - sl.freeCount + (sl.give j).freeCount = c.totalFree + 1 := by
    dsimp only [Slab.give]
    omega
  have hUsing : c.totalUsing - sl.usingCount + (sl.give j).usingCount = c.totalUsing - 1 := by
    dsimp only [Slab.give]
    omega
  unfold giveAt
  rw [hFree, hUsing, hRing, set_split]

/-! ## Out and back -/

theorem takeAt_inv (h : ClassInv k c) {pos j : Nat} {sl : Slab} (hAt : c.ring[pos]? = some sl)
    (hMem : j ∈ sl.clear) : ClassInv k (takeAt c pos sl j) ∧
      spares (takeAt c pos sl j) ≤ spares c ∧
      ∀ a, RingHolds (takeAt c pos sl j).ring c.size a ↔
        RingHolds c.ring c.size a ∨ a = sl.object c.size j := by
  have hIn : sl ∈ c.ring := List.mem_of_getElem? hAt
  obtain ⟨before, after, hRing, rfl⟩ := exists_split hAt
  have hOk := (h.ring.slabs sl hIn).take hMem
  have hFine := (h.slabs sl hIn).take j
  rw [takeAt_eq hRing]
  refine ⟨h.replace hRing rfl rfl hOk hFine, ?_, fun a => ?_⟩
  · have hUsing := h.using_nonneg hIn
    have hNot : isSpare c (sl.take j) = false := by
      unfold isSpare
      rw [decide_eq_false_iff_not]
      rintro ⟨-, hZero⟩
      dsimp only [Slab.take] at hZero
      omega
    have hSame : ∀ l, List.countP (isSpare { c with
        ring := before ++ sl.take j :: after
        totalFree := c.totalFree - sl.freeCount + (sl.take j).freeCount
        totalUsing := c.totalUsing - sl.usingCount + (sl.take j).usingCount }) l =
        List.countP (isSpare c) l := fun _ => rfl
    unfold spares
    rw [hSame, hRing]
    simp only [List.countP_append, List.countP_cons, hNot]
    simp
  · dsimp only
    rw [hRing, ringHolds_split, ringHolds_split, holds_take hMem]
    tauto

theorem giveAt_inv (h : ClassInv k c) {pos j : Nat} {sl : Slab} (hAt : c.ring[pos]? = some sl)
    (hLt : j < sl.colorCount) (hUsed : sl.isUsed j = true) :
    ClassInv k (giveAt c pos sl j) ∧
      ∀ a, RingHolds (giveAt c pos sl j).ring c.size a ↔
        RingHolds c.ring c.size a ∧ a ≠ sl.object c.size j := by
  have hIn : sl ∈ c.ring := List.mem_of_getElem? hAt
  have hHolds : sl.Holds c.size (sl.object c.size j) := ⟨j, hLt, hUsed, rfl⟩
  obtain ⟨before, after, hRing, rfl⟩ := exists_split hAt
  have hRest := (hRing ▸ h.ring).rest_unheld h.size_pos hHolds
  rw [giveAt_eq hRing]
  refine ⟨h.replace hRing rfl rfl ((h.ring.slabs sl hIn).give hLt hUsed)
    ((h.slabs sl hIn).give hLt), fun a => ?_⟩
  dsimp only
  rw [hRing, ringHolds_split, ringHolds_split, holds_give h.size_pos hUsed]
  constructor
  · rintro (⟨hSl, hNe⟩ | hOther)
    · exact ⟨Or.inl hSl, hNe⟩
    · refine ⟨Or.inr hOther, ?_⟩
      rintro rfl
      exact hRest hOther
  · rintro ⟨hSl | hOther, hNe⟩
    · exact Or.inl ⟨hSl, hNe⟩
    · exact Or.inr hOther

theorem addSlab_inv (h : ClassInv k c) {sl : Slab} (hOk : SlabOk c.size sl)
    (hFine : SlabFine k c.cachePool sl) (hZero : sl.usingCount = 0)
    (hNone : ∀ a, ¬ sl.Holds c.size a) (hHeader : sl.header ∉ c.ring.map Slab.header)
    (hPage : sl.page ∉ c.ring.map Slab.page) :
    ClassInv k (addSlab c sl) ∧ spares (addSlab c sl) ≤ spares c + 1 ∧
      ∀ a, RingHolds (addSlab c sl).ring c.size a ↔ RingHolds c.ring c.size a := by
  have hFree := h.totalFree
  have hUsing := h.totalUsing
  have hCount := hFine.usingFree
  refine ⟨?_, ?_, fun a => ?_⟩
  · constructor
    · exact h.size
    · refine h.ring.join (List.perm_append_singleton _ _) ?_ hHeader hPage hOk
      obtain ⟨p, rest, hRing⟩ := List.exists_cons_of_ne_nil h.ring.nonempty
      have hPool := h.ring.pool
      unfold addSlab
      rw [hRing] at hPool ⊢
      exact hPool
    · intro t ht
      obtain ht | ht := List.mem_append.mp ht
      · exact h.slabs t ht
      · cases List.mem_singleton.mp ht
        exact hFine
    · unfold addSlab
      dsimp only
      rw [List.map_append, List.sum_append, List.map_singleton, List.sum_singleton]
      omega
    · unfold addSlab
      dsimp only
      rw [List.map_append, List.sum_append, List.map_singleton, List.sum_singleton]
      omega
  · unfold spares addSlab
    rw [List.countP_append]
    exact Nat.add_le_add_left (List.countP_le_length) _
  · have hSplit : RingHolds (c.ring ++ sl :: []) c.size a ↔ _ := ringHolds_split
    rw [List.append_nil] at hSplit
    exact hSplit.trans (or_iff_right (hNone a))

theorem ClassInv.free_le_sum (h : ClassInv k c) {l : List Slab} (hl : ∀ t ∈ l, t ∈ c.ring)
    {sl : Slab} (hsl : sl ∈ l) : sl.freeCount ≤ (l.map Slab.freeCount).sum := by
  refine List.single_le_sum (fun x hx => ?_) _ (List.mem_map_of_mem hsl)
  obtain ⟨t, ht, rfl⟩ := List.mem_map.mp hx
  exact h.free_nonneg (hl t ht)

/-- Without a free object in sight there is no spare slab. -/
theorem ClassInv.no_spare (h : ClassInv k c) (hk : k < 16) (hFull : c.totalFree = 0) :
    spares c = 0 := by
  unfold spares
  rw [List.countP_eq_zero]
  intro sl hsl hSpare
  have hLe := h.free_le_sum (fun _ ht => ht) hsl
  rw [← h.totalFree] at hLe
  have hFree := h.free_nonneg hsl
  have hFine := h.slabs sl hsl
  have hPos := hFine.count_pos hk
  have hUsing := hFine.usingFree
  unfold isSpare at hSpare
  rw [decide_eq_true_eq] at hSpare
  omega

theorem ClassInv.freeSlab_spec (h : ClassInv k c) (hFree : c.totalFree ≠ 0) :
    ∃ (pos : Nat) (sl : Slab), freeSlab c = some pos ∧ c.ring[pos]? = some sl ∧ sl.freeCount ≠ 0 := by
  rw [h.totalFree] at hFree
  obtain ⟨sl, hsl, hSome⟩ := exists_of_sum_ne_zero hFree
  have hVisit : ∀ t, freeVisit t = if t.freeCount ≠ 0 then .done () else .next :=
    fun t => (ite_not _ _ _).symm
  obtain ⟨pos, t, hLoop, hAt, hPos⟩ := ringLoop_search hVisit (le_refl _) hsl hSome
  refine ⟨pos, t, ?_, hAt, hPos⟩
  unfold freeSlab
  rw [hLoop]
  rfl

/-! ## Giving a slab back -/

/-- An empty slab with the pool in front of it leaves the ring. -/
theorem dropAt_inv (h : ClassInv k c) {pos : Nat} {sl : Slab} (hAt : c.ring[pos]? = some sl)
    (hEmpty : sl.usingCount = 0) (hNotPool : sl.header ≠ c.cachePool) :
    ClassInv k (dropAt c pos sl) ∧
      ∀ a, RingHolds (dropAt c pos sl).ring c.size a ↔ RingHolds c.ring c.size a := by
  have hIn : sl ∈ c.ring := List.mem_of_getElem? hAt
  obtain ⟨before, after, hRing, rfl⟩ := exists_split hAt
  have hFull : sl.freeCount = sl.colorCount := by
    have hUsing := (h.slabs sl hIn).usingFree
    omega
  have hErase : c.ring.eraseIdx before.length = before ++ after := by rw [hRing, eraseIdx_split]
  have hFree := h.totalFree
  have hUsing := h.totalUsing
  rw [hRing, sum_split] at hFree hUsing
  unfold dropAt
  rw [hErase]
  refine ⟨?_, fun a => ?_⟩
  · constructor
    · exact h.size
    · exact (hRing ▸ h.ring).remove hNotPool
    · exact fun t ht => h.slabs t (hRing ▸ mem_remaining ht)
    · dsimp only
      omega
    · dsimp only
      omega
  · have hNone : ¬ sl.Holds c.size a := by
      rintro ⟨j, hLt, hUsed, -⟩
      rw [(h.ring.slabs sl hIn).counted.holds_nothing hFull hLt] at hUsed
      cases hUsed
    dsimp only
    rw [hRing, ringHolds_split]
    exact (or_iff_right hNone).symm

/-- Two empty slabs that `kmalloc_create` made would be enough to release one of them. -/
theorem ClassInv.two_spares (h : ClassInv k c) {before after : List Slab} {sl t : Slab}
    (hRing : c.ring = before ++ sl :: after) (hsl : isSpare c sl = true) (ht : t ∈ before ++ after)
    (hSpare : isSpare c t = true) : Releases c sl := by
  unfold isSpare at hsl hSpare
  rw [decide_eq_true_eq] at hsl hSpare
  have hIn : sl ∈ c.ring := by
    rw [hRing]
    exact List.mem_append_right _ List.mem_cons_self
  have hOthers : ∀ u ∈ before ++ after, u ∈ c.ring := by
    rw [hRing]
    exact fun u hu => mem_remaining hu
  have hFine := h.slabs sl hIn
  have hFineT := h.slabs t (hOthers t ht)
  have hCount := hFine.count
  have hCountT := hFineT.count
  rw [if_neg hsl.1] at hCount
  rw [if_neg hSpare.1] at hCountT
  have hUsing := hFine.usingFree
  have hUsingT := hFineT.usingFree
  have hLe := h.free_le_sum hOthers ht
  have hTotal := h.totalFree
  rw [hRing, sum_split] at hTotal
  refine ⟨hsl.2, ?_, fun hEq => hsl.1 hEq.symm⟩
  omega

/-- An object comes back: the slab stays, or it was the second spare one and leaves. -/
theorem giveAt_spares (h : ClassInv k c) (hSpares : spares c ≤ 1) {pos j : Nat} {sl : Slab}
    (hAt : c.ring[pos]? = some sl) (hLt : j < sl.colorCount) (hUsed : sl.isUsed j = true) :
    (¬ Releases (giveAt c pos sl j) (sl.give j) → spares (giveAt c pos sl j) ≤ 1) ∧
      spares (dropAt (giveAt c pos sl j) pos (sl.give j)) ≤ 1 := by
  have hGiven := (giveAt_inv h hAt hLt hUsed).1
  obtain ⟨before, after, hRing, rfl⟩ := exists_split hAt
  have hRingGiven : (giveAt c before.length sl j).ring = before ++ sl.give j :: after := by
    rw [giveAt_eq hRing]
  have hSpare : isSpare (giveAt c before.length sl j) = isSpare c := rfl
  have hRest : (before ++ after).countP (isSpare c) ≤ 1 := by
    refine le_trans ?_ hSpares
    unfold spares
    rw [hRing]
    exact List.Sublist.countP_le (List.Sublist.append_left (List.sublist_cons_self sl after) before)
  constructor
  · intro hKept
    unfold spares
    rw [hSpare, hRingGiven, List.countP_append, List.countP_cons, ← Nat.add_assoc,
      ← List.countP_append]
    split
    · next hIs =>
      -- the slab is empty now, so no other one is
      have hNone : (before ++ after).countP (isSpare c) = 0 := by
        rw [List.countP_eq_zero]
        intro t ht hIsT
        exact hKept (hGiven.two_spares hRingGiven hIs ht hIsT)
      omega
    · omega
  · unfold spares dropAt
    dsimp only
    rw [hRingGiven, eraseIdx_split]
    exact hRest

end

end KalinoteOS.Memory.Kmalloc
