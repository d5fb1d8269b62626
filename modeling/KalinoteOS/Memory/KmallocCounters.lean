import KalinoteOS.Memory.KmallocRun

/-! # Counters and pages of `kmalloc`

The counters of slabs and sizes count live objects, and a size keeps one empty slab at most
besides its pool.
-/
namespace KalinoteOS.Memory.Kmalloc
open Lib Boot Pages
set_option autoImplicit false

/-- The slots of a slab of size `k` where a live object is. -/
def liveSlots (h : Heap) (k : Nat) (sl : Slab) : Finset Nat :=
  (Finset.range sl.colorCount).filter fun j =>
    ∃ o ∈ objects h, o.address = sl.object (h.state.caches k).size j

structure SlabBooks (h : Heap) (k : Nat) (sl : Slab) : Prop where
  usingCount : sl.usingCount = (liveSlots h k sl).card
  colorCount : sl.freeCount + sl.usingCount = sl.colorCount
  clear : ∀ j < sl.colorCount, (sl.isUsed j = false ↔ j ∉ liveSlots h k sl)
  padding : ∀ j, sl.colorCount ≤ j → j < 8 * sl.colorLength → sl.isUsed j = true

structure Books (h : Heap) : Prop where
  slabs : ∀ k < 16, ∀ sl ∈ (h.state.caches k).ring, SlabBooks h k sl
  totalFree : ∀ k < 16,
    (h.state.caches k).totalFree = ((h.state.caches k).ring.map Slab.freeCount).sum
  totalUsing : ∀ k < 16,
    (h.state.caches k).totalUsing = ((h.state.caches k).ring.map Slab.usingCount).sum

/-- A bit is set exactly where a live object is. -/
theorem isUsed_iff {h : Heap} (hInv : Inv h.state (objects h)) {k : Nat} (hk : k < 16) {sl : Slab}
    (hsl : sl ∈ (h.state.caches k).ring) {j : Nat} (hLt : j < sl.colorCount) :
    sl.isUsed j = true ↔ j ∈ liveSlots h k sl := by
  have hClass := hInv.classes k hk
  unfold liveSlots
  rw [Finset.mem_filter, Finset.mem_range]
  constructor
  · intro hUsed
    obtain ⟨o, ho, hAddress, -⟩ := (hInv.objects k hk _).mp ⟨sl, hsl, j, hLt, hUsed, rfl⟩
    exact ⟨hLt, o, ho, hAddress⟩
  · rintro ⟨-, o, ho, hAddress⟩
    obtain ⟨q, pos, t, r, hAt⟩ := hInv.at ho
    have hOk := hClass.ring.slabs sl hsl
    have hWithin := hAt.within hInv
    have hFits := object_within sl hOk.fits hLt
    have hPos := hClass.size_pos
    have hLow : sl.vaddress ≤ sl.object (h.state.caches k).size j := Nat.le_add_right _ _
    have hSize : 0 < classSize o := by
      rw [hAt.classSize_eq]
      exact kmallocSize_pos q
    obtain ⟨rfl, rfl⟩ : q = k ∧ t = sl := by
      by_contra hNe
      have hApart := hInv.slabs_apart hAt.lt hk hAt.mem hsl hNe
      omega
    rw [hAt.address] at hAddress
    exact object_inj t hPos hAddress ▸ hAt.isUsed

theorem usingCount_eq {h : Heap} (hInv : Inv h.state (objects h)) {k : Nat} (hk : k < 16) {sl : Slab}
    (hsl : sl ∈ (h.state.caches k).ring) : sl.usingCount = (liveSlots h k sl).card := by
  have hUsing := ((hInv.classes k hk).slabs sl hsl).usingFree
  have hCard := Cache.card_usedBits ((hInv.classes k hk).ring.slabs sl hsl).counted
  have hSame : liveSlots h k sl = Cache.usedBits sl := by
    ext j
    unfold Cache.usedBits
    rw [Finset.mem_filter, Finset.mem_range]
    constructor
    · intro hMem
      have hLt : j < sl.colorCount := Finset.mem_range.mp (Finset.mem_filter.mp hMem).1
      exact ⟨hLt, (isUsed_iff hInv hk hsl hLt).mpr hMem⟩
    · rintro ⟨hLt, hUsed⟩
      exact (isUsed_iff hInv hk hsl hLt).mp hUsed
  rw [hSame]
  omega

/-- The books of `kmalloc` are right after every run. -/
theorem books_right (h : Heap) (hReach : Reach Initial Step h) : Books h := by
  have hInv := reach_inv hReach
  constructor
  · intro k hk sl hsl
    have hFine := (hInv.classes k hk).slabs sl hsl
    have hUsing := hFine.usingFree
    constructor
    · exact usingCount_eq hInv hk hsl
    · omega
    · intro j hLt
      rw [← isUsed_iff hInv hk hsl hLt, Bool.not_eq_true]
    · exact hFine.padding
  · intro k hk
    exact (hInv.classes k hk).totalFree
  · intro k hk
    exact (hInv.classes k hk).totalUsing

/-- With six objects, and when five of them are freed. -/
theorem books_right_boot : ∃ h actions t, Run Step h actions t ∧ h.live.length = 6 ∧ t.live.length = 1 ∧
    Books h ∧ Books t := by
  obtain ⟨h, actions, t, hReach, hRun, hSizes, hSizesT, -⟩ := bootHeap_run
  have hLength := congrArg List.length hSizes
  have hLengthT := congrArg List.length hSizesT
  rw [List.length_map] at hLength hLengthT
  exact ⟨h, actions, t, hRun, hLength, hLengthT, books_right h hReach, books_right t (hReach.run hRun)⟩

/-! ## Pages -/

/-- A slab of size `k` has a live object. -/
def hasLive (h : Heap) (k : Nat) (sl : Slab) : Bool := decide ((liveSlots h k sl).card ≠ 0)

structure GivesBack (h : Heap) : Prop where
  spare : ∀ k < 16, spares (h.state.caches k) ≤ 1
  pages : ∀ k < 16, (h.state.caches k).ring.length ≤
    2 + (h.state.caches k).ring.countP (hasLive h k)
  /-- The slab of `cache_pool` is on the ring, and its page is not freed. -/
  pool : ∀ k < 16, ∃ sl ∈ (h.state.caches k).ring,
    sl.header = (h.state.caches k).cachePool ∧ sl.page ∈ h.state.held

/-- A ring is the pool, empty slabs and slabs in use. -/
theorem ring_length {k : Nat} {c : SlabCache} (h : ClassInv k c) :
    c.ring.length ≤ 1 + spares c + c.ring.countP fun sl => decide (sl.usingCount ≠ 0) := by
  obtain ⟨p, rest, hRing⟩ := List.exists_cons_of_ne_nil h.ring.nonempty
  have hPool := h.ring.pool
  have hHeaders := h.ring.headers
  rw [hRing] at hPool hHeaders
  rw [List.map_cons, List.nodup_cons] at hHeaders
  have hHead : p.header = c.cachePool := Option.some.inj hPool
  have hRest : rest.length = rest.countP (isSpare c) + rest.countP fun sl => ¬ isSpare c sl :=
    List.length_eq_countP_add_countP _
  have hInUse : rest.countP (fun sl => ¬ isSpare c sl) ≤
      rest.countP fun sl => decide (sl.usingCount ≠ 0) := by
    apply List.countP_mono_left
    intro sl hsl hNot
    have hNe : sl.header ≠ c.cachePool := by
      intro hEq
      exact hHeaders.1 (hHead ▸ hEq ▸ List.mem_map_of_mem hsl)
    unfold isSpare at hNot
    simp only [decide_eq_true_eq] at hNot ⊢
    exact fun hZero => hNot ⟨hNe, hZero⟩
  unfold spares
  rw [hRing, List.length_cons, List.countP_cons, List.countP_cons]
  omega

/-- A size has at most one empty slab that is not its pool, whatever came back in which order. -/
theorem gives_back (h : Heap) (hReach : Reach Initial Step h) : GivesBack h := by
  have hInv := reach_inv hReach
  constructor
  · exact hInv.spares
  · intro k hk
    have hLength := ring_length (hInv.classes k hk)
    have hSpare := hInv.spares k hk
    have hSame : (h.state.caches k).ring.countP (fun sl => decide (sl.usingCount ≠ 0)) =
        (h.state.caches k).ring.countP (hasLive h k) := by
      apply List.countP_congr
      intro sl hsl
      have hUsing := usingCount_eq hInv hk hsl
      unfold hasLive
      rw [decide_eq_true_eq, decide_eq_true_eq]
      omega
    omega
  · intro k hk
    have hPool := (hInv.classes k hk).ring.pool
    obtain ⟨sl, hsl, hHeader⟩ := List.mem_map.mp (List.mem_of_head? hPool)
    exact ⟨sl, hsl, hHeader, hInv.held k hk sl hsl⟩

/-- Of the three slabs or more that five objects of 1MB need, two are left at most when they are freed. -/
theorem gives_back_boot : ∃ h actions t, Reach Initial Step h ∧ Run Step h actions t ∧
    3 ≤ (h.state.caches 15).ring.length ∧ (t.state.caches 15).ring.length ≤ 2 ∧ t.live ≠ [] ∧ GivesBack t := by
  obtain ⟨h, actions, t, hReach, hRun, -, hSizes, hThree⟩ := bootHeap_run
  have hReachT := hReach.run hRun
  have hInv := reach_inv hReachT
  have hBack := gives_back t hReachT
  refine ⟨h, actions, t, hReach, hRun, hThree, ?_, fun hNil => ?_, hBack⟩
  · have hPages := hBack.pages 15 (by decide)
    have hNone : (t.state.caches 15).ring.countP (hasLive t 15) = 0 := by
      refine List.countP_eq_zero.mpr fun sl hsl hLive => ?_
      obtain ⟨j, hj⟩ := Finset.card_ne_zero.mp (of_decide_eq_true hLive)
      have hLt : j < sl.colorCount := Finset.mem_range.mp (Finset.mem_filter.mp hj).1
      obtain ⟨o, ho, -, hIndex⟩ := (hInv.objects 15 (by decide) _).mp
        ⟨sl, hsl, j, hLt, (isUsed_iff hInv (by decide) hsl hLt).mpr hj, rfl⟩
      rcases List.mem_append.mp ho with hIn | hIn
      · have hSize : o.size ∈ [2048] := hSizes ▸ List.mem_map_of_mem hIn
        rw [List.mem_singleton.mp hSize] at hIndex
        exact absurd hIndex (by decide +kernel)
      · obtain ⟨m, hm, hSmall⟩ := internal_small hInv hIn
        cases hIndex.symm.trans hSmall
        omega
    omega
  · rw [hNil] at hSizes
    cases hSizes

end KalinoteOS.Memory.Kmalloc
