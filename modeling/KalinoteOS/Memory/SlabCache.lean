import KalinoteOS.Lib.Run
import KalinoteOS.Memory.Pool

/-! # Slab caches

`slab_create`, `slab_malloc` and `slab_free` without constructor and destructor. Storage comes
from `kmalloc` and `alloc_pages`, either of which may return `NULL`.
-/
namespace KalinoteOS.Memory.Cache
open Lib
set_option autoImplicit false

def sizeofLongAlign (size : Nat) : Nat := (size + 7) / 8 * 8

/-- What one call gets from `kmalloc` for the header, from `alloc_pages`, and from `kmalloc` for
the bitmap. -/
structure Grants where
  header : Option Nat
  page : Option Nat
  colorMap : Option Nat
  deriving DecidableEq, Repr

/-- A new slab over `page`, its bitmap filled with zeros. -/
def newSlab (size header page colorMapAt : Nat) : Slab where
  header := header
  page := page
  usingCount := 0
  freeCount := (page2M / size : Nat)
  vaddress := pageAddress page
  colorLength := colorLengthOf (page2M / size)
  colorCount := page2M / size
  colorMapAt := colorMapAt
  colorMap := fun _ => 0

/-- `slab_create`; `cache` is what `kmalloc` returns for the `struct Slab_cache`. -/
def slabCreate (size : Nat) (cache : Option Nat) (g : Grants) : Option SlabCache :=
  match cache, g.header, g.page, g.colorMap with
  | some _, some header, some page, some colorMap =>
    let size := sizeofLongAlign size
    -- `using_count` is set to the number of objects, as `free_count` is
    let slab := { newSlab size header page colorMap with usingCount := (page2M / size : Nat) }
    some
      { size := size
        totalUsing := 0
        totalFree := slab.freeCount
        cachePool := header
        ring := [slab] }
  | _, _, _, _ => none

/-- One object of the slab at `pos` is given out. -/
def takeAt (c : SlabCache) (pos : Nat) (s : Slab) (j : Nat) : Option Nat × SlabCache :=
  (some (s.object c.size j),
    { c with
      ring := c.ring.set pos (s.take j)
      totalUsing := c.totalUsing + 1
      totalFree := c.totalFree - 1 })

/-- One round of the search: a slab without free objects is passed over; one whose bitmap has no
clear bit all the same is looked at again. -/
def slotVisit (s : Slab) : Visit Nat :=
  if s.freeCount = 0 then .next
  else
    match s.colorMap.search s.colorCount s.colorCount 0 with
    | some j => .done j
    | none => .stay

/-- `slab_malloc` when a slab has a free object. -/
def mallocSearch (fuel : Nat) (c : SlabCache) : Option (Option Nat × SlabCache) :=
  c.poolPos.bind fun first =>
    (ringLoop c.ring first slotVisit fuel first).bind fun found =>
      match found with
      | none => some (none, c)
      | some (pos, j) => (c.ring[pos]?).map fun s => takeAt c pos s j

/-- `slab_malloc` when no slab has one. -/
def mallocNew (c : SlabCache) (g : Grants) : Option (Option Nat × SlabCache) :=
  match g.header, g.page, g.colorMap with
  | some header, some page, some colorMap =>
    let tmp := newSlab c.size header page colorMap
    c.poolPos.map fun first =>
      let added := { c with
        ring := c.ring.insertIdx (first + 1) tmp
        totalFree := c.totalFree + tmp.colorCount }
      match tmp.colorMap.scan tmp.colorCount tmp.colorCount 0 with
      | some j => takeAt added (first + 1) tmp j
      | none => (none, { added with ring := c.ring })
  | _, _, _ => some (none, c)

/-- `slab_malloc`: the address it returns, and `none` if its loop is not over after `fuel` rounds. -/
def slabMalloc (fuel : Nat) (c : SlabCache) (g : Grants) : Option (Option Nat × SlabCache) :=
  if c.totalFree = 0 then mallocNew c g else mallocSearch fuel c

/-- The slab whose page has the address. -/
def ownerVisit (address : Nat) (s : Slab) : Visit Unit :=
  if s.vaddress ≤ address ∧ address < s.vaddress + page2M then .done () else .next

/-- What `slab_free` does with the slab at `pos` that has the address. -/
def freeAt (c : SlabCache) (pos : Nat) (s : Slab) (address : Nat) : SlabCache :=
  let s := s.give ((address - s.vaddress) / c.size)
  let c := { c with
    ring := c.ring.set pos s
    totalUsing := c.totalUsing - 1
    totalFree := c.totalFree + 1 }
  if s.usingCount = 0 ∧ ((s.colorCount * 3 / 2 : Nat) : Int) ≤ c.totalFree then
    { c with ring := c.ring.eraseIdx pos, totalFree := c.totalFree - s.colorCount }
  else c

/-- `slab_free`, with its return value. -/
def slabFree (fuel : Nat) (c : SlabCache) (address : Nat) : Option (Nat × SlabCache) :=
  c.poolPos.bind fun first =>
    (ringLoop c.ring first (ownerVisit address) fuel first).bind fun found =>
      match found with
      | none => some (0, c)
      | some (pos, _) => (c.ring[pos]?).map fun s => (1, freeAt c pos s address)

/-! ## Runs -/

/-- A cache and the addresses it gave out that did not come back. -/
structure State where
  cache : SlabCache
  live : List Nat

inductive Action where
  | slabMalloc (g : Grants)
  | slabFree (address : Nat)
  deriving DecidableEq, Repr

/-- `kmalloc` and `alloc_pages` return storage that no slab of the cache has. -/
def Unheld (c : SlabCache) (g : Grants) : Prop :=
  (∀ header, g.header = some header → header ∉ c.ring.map Slab.header) ∧
  ∀ page, g.page = some page → page ∉ c.ring.map Slab.page

inductive Step (s : State) : Action → State → Prop
  | slabMalloc {g : Grants} {fuel : Nat} {address : Option Nat} {cache : SlabCache}
      (unheld : Unheld s.cache g) (call : slabMalloc fuel s.cache g = some (address, cache)) :
      Step s (.slabMalloc g) ⟨cache, address.toList ++ s.live⟩
  | slabFree {address fuel ret : Nat} {cache : SlabCache} (live : address ∈ s.live)
      (call : slabFree fuel s.cache address = some (ret, cache)) :
      Step s (.slabFree address) ⟨cache, s.live.erase address⟩

/-- After a successful `slab_create`. -/
def Initial (size : Nat) (s : State) : Prop :=
  ∃ cache g, slabCreate size cache g = some s.cache ∧ s.live = []

/-! ## The invariant -/

structure Inv (s : State) : Prop where
  size_pos : 0 < s.cache.size
  size_le : s.cache.size ≤ page2M
  ring : RingInv s.cache.size s.cache.cachePool s.cache.ring
  counts : ∀ sl ∈ s.cache.ring, sl.colorCount = page2M / s.cache.size
  /-- The pool counts its objects as used twice over. -/
  usingFree : ∀ sl ∈ s.cache.ring, sl.usingCount + sl.freeCount =
    sl.colorCount + if sl.header = s.cache.cachePool then (sl.colorCount : Int) else 0
  totalFree : s.cache.totalFree = (s.cache.ring.map Slab.freeCount).sum
  totalUsing : s.cache.totalUsing = s.live.length
  live : ∀ a, a ∈ s.live ↔ RingHolds s.cache.ring s.cache.size a
  nodup : s.live.Nodup

theorem newSlab_isUsed (size header page colorMapAt j : Nat) :
    (newSlab size header page colorMapAt).isUsed j = false := by
  unfold Slab.isUsed Words.used newSlab
  exact BitVec.getLsbD_zero

theorem newSlab_ok {size : Nat} (header page colorMapAt : Nat) :
    SlabOk size (newSlab size header page colorMapAt) := by
  refine ⟨rfl, Nat.mul_div_le _ _, ⟨?_⟩⟩
  have hClear : (newSlab size header page colorMapAt).clear = Finset.range (page2M / size) := by
    ext j
    rw [Slab.mem_clear, Finset.mem_range, newSlab_isUsed]
    exact and_iff_left rfl
  rw [hClear, Finset.card_range]
  rfl

theorem newSlab_holds (size header page colorMapAt a : Nat) :
    ¬ (newSlab size header page colorMapAt).Holds size a := by
  rintro ⟨j, -, hUsed, -⟩
  rw [newSlab_isUsed] at hUsed
  cases hUsed

theorem count_pos {size : Nat} (hPos : 0 < size) (hLe : size ≤ page2M) : 0 < page2M / size :=
  Nat.div_pos hLe hPos

section
variable {s : State}

/-! ## `slab_malloc` -/

theorem takeAt_inv (h : Inv s) {pos j : Nat} {sl : Slab} (hAt : s.cache.ring[pos]? = some sl)
    (hMem : j ∈ sl.clear) :
    Inv ⟨(takeAt s.cache pos sl j).2, sl.object s.cache.size j :: s.live⟩ := by
  obtain ⟨before, after, hRing, rfl⟩ := exists_split hAt
  have hIn : sl ∈ s.cache.ring := List.mem_of_getElem? hAt
  have hOk := h.ring.slabs sl hIn
  have hSet : s.cache.ring.set before.length (sl.take j) = before ++ sl.take j :: after := by
    rw [hRing, set_split]
  have hOthers : ∀ t ∈ before ++ sl.take j :: after, t = sl.take j ∨ t ∈ s.cache.ring := by
    rw [hRing]
    exact fun t ht => mem_replaced ht
  have hNew : sl.object s.cache.size j ∉ s.live := by
    rw [h.live]
    exact h.ring.object_unheld h.size_pos hIn hMem
  unfold takeAt
  dsimp only
  rw [hSet]
  constructor
  · exact h.size_pos
  · exact h.size_le
  · exact (hRing ▸ h.ring).replace rfl rfl (hOk.take hMem)
  · intro t ht
    obtain rfl | hOld := hOthers t ht
    · exact h.counts sl hIn
    · exact h.counts t hOld
  · intro t ht
    obtain rfl | hOld := hOthers t ht
    · have hUsing := h.usingFree sl hIn
      dsimp only [Slab.take]
      omega
    · exact h.usingFree t hOld
  · have hFree := h.totalFree
    rw [hRing, sum_split] at hFree
    rw [sum_split]
    dsimp only [Slab.take]
    omega
  · have hTotal := h.totalUsing
    dsimp only
    rw [List.length_cons]
    omega
  · intro a
    rw [List.mem_cons, h.live, hRing, ringHolds_split, ringHolds_split, holds_take hMem]
    tauto
  · exact List.nodup_cons.mpr ⟨hNew, h.nodup⟩

/-- The new slab stands behind the pool and holds nothing yet. -/
theorem added_inv (h : Inv s) {g : Grants} (hUnheld : Unheld s.cache g) {header page colorMap : Nat}
    (hHeader : g.header = some header) (hPage : g.page = some page) :
    let tmp := newSlab s.cache.size header page colorMap
    Inv ⟨{ s.cache with
      ring := s.cache.ring.insertIdx 1 tmp
      totalFree := s.cache.totalFree + tmp.colorCount }, s.live⟩ ∧
    (s.cache.ring.insertIdx 1 tmp)[1]? = some tmp := by
  intro tmp
  have hHeaderOut := hUnheld.1 header hHeader
  have hPageOut := hUnheld.2 page hPage
  have hPool := h.ring.pool
  obtain ⟨p, rest, hRing⟩ := List.exists_cons_of_ne_nil h.ring.nonempty
  have hInsert : s.cache.ring.insertIdx 1 tmp = [p] ++ tmp :: rest := by
    rw [hRing]
    rfl
  have hOld : s.cache.ring = [p] ++ rest := hRing
  have hMem : ∀ t ∈ [p] ++ tmp :: rest, t = tmp ∨ t ∈ s.cache.ring := by
    intro t ht
    rw [hRing]
    simp only [List.singleton_append, List.mem_cons] at ht ⊢
    tauto
  have hPoolHeader : p.header = s.cache.cachePool := by
    rw [hRing] at hPool
    exact Option.some.inj hPool
  have hNotPool : header ≠ s.cache.cachePool := by
    intro hEq
    apply hHeaderOut
    rw [hRing, List.map_cons, hPoolHeader, hEq]
    exact List.mem_cons_self
  rw [hInsert]
  refine ⟨?_, rfl⟩
  constructor
  · exact h.size_pos
  · exact h.size_le
  · refine h.ring.join (s := tmp) ?_ ?_ hHeaderOut hPageOut (newSlab_ok header page colorMap)
    · rw [hRing]
      exact List.Perm.swap _ _ _
    · rw [hRing] at hPool
      exact hPool
  · intro t ht
    obtain rfl | hMemT := hMem t ht
    · rfl
    · exact h.counts t hMemT
  · intro t ht
    obtain rfl | hMemT := hMem t ht
    · have hNe : tmp.header ≠ s.cache.cachePool := hNotPool
      rw [if_neg hNe]
      dsimp only [tmp, newSlab]
      omega
    · exact h.usingFree t hMemT
  · have hFree := h.totalFree
    rw [hOld] at hFree
    rw [sum_split, ← hFree]
    dsimp only [tmp, newSlab]
    omega
  · exact h.totalUsing
  · intro a
    rw [h.live, ringHolds_split, ← hOld]
    have hNone : ¬ tmp.Holds s.cache.size a := newSlab_holds _ _ _ _ a
    tauto
  · exact h.nodup

theorem newSlab_scan (size header page colorMapAt : Nat) (hCount : 0 < page2M / size) :
    let tmp := newSlab size header page colorMapAt
    tmp.colorMap.scan tmp.colorCount tmp.colorCount 0 = some 0 := by
  intro tmp
  have hZero : tmp.colorMap.testBit 0 = 0 :=
    (Words.testBit_eq_zero _ _).mpr (newSlab_isUsed size header page colorMapAt 0)
  have hPos : 0 < tmp.colorCount := hCount
  obtain ⟨n, hN⟩ := Nat.exists_eq_add_one.mpr hPos
  rw [hN, Words.scan, if_pos (Nat.succ_pos n), if_pos hZero]

theorem mallocNew_inv (h : Inv s) {g : Grants} (hUnheld : Unheld s.cache g) {address : Option Nat}
    {cache : SlabCache} (hCall : mallocNew s.cache g = some (address, cache)) :
    Inv ⟨cache, address.toList ++ s.live⟩ := by
  unfold mallocNew at hCall
  split at hCall
  · next header page colorMap hHeader hPage _ =>
    rw [h.ring.poolPos] at hCall
    have hScan := newSlab_scan s.cache.size header page colorMap (count_pos h.size_pos h.size_le)
    dsimp only [Option.map_some] at hCall hScan
    rw [hScan] at hCall
    obtain ⟨hAdded, hAt⟩ := added_inv h hUnheld hHeader hPage
    have hMem : 0 ∈ (newSlab s.cache.size header page colorMap).clear :=
      Slab.mem_clear.mpr ⟨count_pos h.size_pos h.size_le, newSlab_isUsed _ _ _ _ _⟩
    have hTaken := takeAt_inv hAdded hAt hMem
    obtain ⟨rfl, rfl⟩ := Prod.mk.inj (Option.some.inj hCall)
    exact hTaken
  · obtain ⟨rfl, rfl⟩ := Prod.mk.inj (Option.some.inj hCall)
    exact h

theorem slotVisit_done {sl : Slab} {j : Nat} (hVisit : slotVisit sl = .done j) : j ∈ sl.clear := by
  unfold slotVisit at hVisit
  split at hVisit
  · cases hVisit
  · split at hVisit
    · next hSearch =>
      cases hVisit
      exact Slab.mem_clear.mpr (Words.search_some hSearch)
    · cases hVisit

/-- Where `free_count` counts the clear bits, the search does not stay at a slab. -/
theorem slotVisit_counted {sl : Slab} (h : sl.Counted) (hFree : sl.freeCount ≠ 0) :
    ∃ j, slotVisit sl = .done j := by
  obtain ⟨k, hk⟩ := h.exists_clear hFree
  obtain ⟨hLt, hClear⟩ := Slab.mem_clear.mp hk
  obtain ⟨j, hSearch⟩ := Words.search_total hLt hClear
  refine ⟨j, ?_⟩
  unfold slotVisit
  rw [if_neg hFree, hSearch]

theorem slotVisit_zero {sl : Slab} (hFree : sl.freeCount = 0) : slotVisit sl = .next :=
  if_pos hFree

theorem mallocSearch_inv (h : Inv s) {fuel : Nat} {address : Option Nat} {cache : SlabCache}
    (hCall : mallocSearch fuel s.cache = some (address, cache)) :
    Inv ⟨cache, address.toList ++ s.live⟩ := by
  obtain ⟨first, -, hRest⟩ := Option.bind_eq_some_iff.mp hCall
  obtain ⟨found, hLoop, hFound⟩ := Option.bind_eq_some_iff.mp hRest
  cases found with
  | none =>
    obtain ⟨rfl, rfl⟩ := Prod.mk.inj (Option.some.inj hFound)
    exact h
  | some place =>
    obtain ⟨pos, j⟩ := place
    obtain ⟨sl, hAt, hVisit⟩ := ringLoop_done hLoop
    obtain ⟨sl', hAt', hTake⟩ := Option.map_eq_some_iff.mp hFound
    cases hAt.symm.trans hAt'
    have hTaken := takeAt_inv h hAt (slotVisit_done hVisit)
    have hPair : takeAt s.cache pos sl j = (address, cache) := hTake
    have hAddress : some (sl.object s.cache.size j) = address := congrArg Prod.fst hPair
    have hCache : (takeAt s.cache pos sl j).2 = cache := congrArg Prod.snd hPair
    rw [hCache] at hTaken
    rw [← hAddress]
    exact hTaken

theorem mallocSearch_total (h : Inv s) (hFree : s.cache.totalFree ≠ 0) {fuel : Nat}
    (hFuel : s.cache.ring.length ≤ fuel) :
    ∃ a cache, mallocSearch fuel s.cache = some (some a, cache) := by
  have hCounted : ∀ sl ∈ s.cache.ring, sl.Counted := fun sl hsl => (h.ring.slabs sl hsl).counted
  have hStay : ∀ sl ∈ s.cache.ring, slotVisit sl ≠ .stay := by
    intro sl hsl hVisit
    by_cases hZero : sl.freeCount = 0
    · rw [slotVisit_zero hZero] at hVisit
      cases hVisit
    · obtain ⟨j, hDone⟩ := slotVisit_counted (hCounted sl hsl) hZero
      rw [hDone] at hVisit
      cases hVisit
  rw [h.totalFree] at hFree
  obtain ⟨sl, hsl, hPos⟩ := exists_of_sum_ne_zero hFree
  have hVisit : slotVisit sl ≠ .next := by
    obtain ⟨j, hDone⟩ := slotVisit_counted (hCounted sl hsl) hPos
    rw [hDone]
    exact fun hEq => by cases hEq
  obtain ⟨k, j, hLoop⟩ := ringLoop_finds hFuel hStay hsl hVisit
  obtain ⟨t, hAt, -⟩ := ringLoop_done hLoop
  refine ⟨t.object s.cache.size j, (takeAt s.cache k t j).2, ?_⟩
  unfold mallocSearch
  rw [h.ring.poolPos, Option.bind_some, hLoop, Option.bind_some]
  dsimp only
  rw [hAt]
  rfl

theorem slabMalloc_inv (h : Inv s) {g : Grants} (hUnheld : Unheld s.cache g) {fuel : Nat}
    {address : Option Nat} {cache : SlabCache}
    (hCall : slabMalloc fuel s.cache g = some (address, cache)) :
    Inv ⟨cache, address.toList ++ s.live⟩ := by
  unfold slabMalloc at hCall
  split at hCall
  · exact mallocNew_inv h hUnheld hCall
  · exact mallocSearch_inv h hCall

/-! ## `slab_free` -/

/-- The pool never counts itself empty. -/
theorem Inv.pool_using (h : Inv s) {sl : Slab} (hsl : sl ∈ s.cache.ring)
    (hPool : sl.header = s.cache.cachePool) : 0 < sl.usingCount := by
  have hUsing := h.usingFree sl hsl
  have hLe := (h.ring.slabs sl hsl).counted.free_le
  have hCount := count_pos h.size_pos h.size_le
  rw [← h.counts sl hsl] at hCount
  rw [if_pos hPool] at hUsing
  omega

/-- A slab that counts itself empty is not the pool, and is empty. -/
theorem Inv.empty (h : Inv s) {sl : Slab} (hsl : sl ∈ s.cache.ring) (hEmpty : sl.usingCount = 0) :
    sl.header ≠ s.cache.cachePool ∧ ∀ j < sl.colorCount, sl.isUsed j = false := by
  have hNotPool : sl.header ≠ s.cache.cachePool := by
    intro hPool
    have hPos := h.pool_using hsl hPool
    omega
  have hAll : sl.freeCount = sl.colorCount := by
    have hUsing := h.usingFree sl hsl
    rw [if_neg hNotPool] at hUsing
    omega
  exact ⟨hNotPool, fun _ hLt => (h.ring.slabs sl hsl).counted.holds_nothing hAll hLt⟩

theorem Inv.find_live (h : Inv s) {a : Nat} (ha : a ∈ s.live) :
    ∃ (pos : Nat) (sl : Slab) (j : Nat), s.cache.ring[pos]? = some sl ∧ j < sl.colorCount ∧
      sl.isUsed j = true ∧ a = sl.object s.cache.size j := by
  obtain ⟨sl, hsl, j, hLt, hUsed, rfl⟩ := (h.live a).mp ha
  obtain ⟨pos, hPos⟩ := List.mem_iff_getElem?.mp hsl
  exact ⟨pos, sl, j, hPos, hLt, hUsed, rfl⟩

/-- The walk of `slab_free` ends at the slab that holds the address. -/
theorem freeLoop_finds (h : Inv s) {pos j fuel : Nat} {sl : Slab}
    (hAt : s.cache.ring[pos]? = some sl) (hLt : j < sl.colorCount) (hUsed : sl.isUsed j = true)
    (hFuel : s.cache.ring.length ≤ fuel) :
    ∃ k, ringLoop s.cache.ring 0 (ownerVisit (sl.object s.cache.size j)) fuel 0 = some (some (k, ())) ∧
      s.cache.ring[k]? = some sl := by
  have hIn : sl ∈ s.cache.ring := List.mem_of_getElem? hAt
  have hHolds : sl.Holds s.cache.size (sl.object s.cache.size j) := ⟨j, hLt, hUsed, rfl⟩
  have hSize := h.size_pos
  obtain ⟨hLow, hHigh⟩ := hHolds.within (h.ring.slabs sl hIn)
  have hOwn : sl.vaddress ≤ sl.object s.cache.size j ∧
      sl.object s.cache.size j < sl.vaddress + page2M := ⟨hLow, by omega⟩
  have hVisit : ∀ t, ownerVisit (sl.object s.cache.size j) t =
      if t.vaddress ≤ sl.object s.cache.size j ∧ sl.object s.cache.size j < t.vaddress + page2M then
        .done () else .next := fun _ => rfl
  obtain ⟨k, t, hLoop, hAtK, hOwnT⟩ := ringLoop_search hVisit hFuel hIn hOwn
  refine ⟨k, hLoop, ?_⟩
  rw [h.ring.owner hIn (List.mem_of_getElem? hAtK) hOwn hOwnT]
  exact hAtK

/-- The two ways a slab comes out of `slab_free`. -/
theorem freeAt_cases (c : SlabCache) (pos : Nat) (sl : Slab) {j : Nat} (hSize : 0 < c.size) :
    let s' := sl.give j
    let c' := { c with
      ring := c.ring.set pos s', totalUsing := c.totalUsing - 1, totalFree := c.totalFree + 1 }
    freeAt c pos sl (sl.object c.size j) = c' ∨
    (s'.usingCount = 0 ∧ ((s'.colorCount * 3 / 2 : Nat) : Int) ≤ c'.totalFree ∧
      freeAt c pos sl (sl.object c.size j) =
        { c' with ring := c'.ring.eraseIdx pos, totalFree := c'.totalFree - s'.colorCount }) := by
  intro s' c'
  unfold freeAt
  rw [object_index sl hSize]
  dsimp only
  split
  · next hRelease => exact Or.inr ⟨hRelease.1, hRelease.2, rfl⟩
  · exact Or.inl rfl

theorem given_inv (h : Inv s) {pos j : Nat} {sl : Slab} (hAt : s.cache.ring[pos]? = some sl)
    (hLt : j < sl.colorCount) (hUsed : sl.isUsed j = true) :
    Inv ⟨{ s.cache with
      ring := s.cache.ring.set pos (sl.give j)
      totalUsing := s.cache.totalUsing - 1
      totalFree := s.cache.totalFree + 1 }, s.live.erase (sl.object s.cache.size j)⟩ := by
  have hIn : sl ∈ s.cache.ring := List.mem_of_getElem? hAt
  obtain ⟨before, after, hRing, rfl⟩ := exists_split hAt
  have hOk := h.ring.slabs sl hIn
  have hHolds : sl.Holds s.cache.size (sl.object s.cache.size j) := ⟨j, hLt, hUsed, rfl⟩
  have hLive : sl.object s.cache.size j ∈ s.live := (h.live _).mpr ⟨sl, hIn, hHolds⟩
  have hSet : s.cache.ring.set before.length (sl.give j) = before ++ sl.give j :: after := by
    rw [hRing, set_split]
  have hMem : ∀ t ∈ before ++ sl.give j :: after, t = sl.give j ∨ t ∈ s.cache.ring := by
    rw [hRing]
    exact fun t ht => mem_replaced ht
  have hElse : ¬ RingHolds (before ++ after) s.cache.size (sl.object s.cache.size j) :=
    (hRing ▸ h.ring).rest_unheld h.size_pos hHolds
  rw [hSet]
  constructor
  · exact h.size_pos
  · exact h.size_le
  · exact (hRing ▸ h.ring).replace rfl rfl (hOk.give hLt hUsed)
  · intro t ht
    obtain rfl | hOld := hMem t ht
    · exact h.counts sl hIn
    · exact h.counts t hOld
  · intro t ht
    obtain rfl | hOld := hMem t ht
    · have hUsing := h.usingFree sl hIn
      dsimp only [Slab.give]
      omega
    · exact h.usingFree t hOld
  · have hFree := h.totalFree
    rw [hRing, sum_split] at hFree
    rw [sum_split]
    dsimp only [Slab.give]
    omega
  · have hTotal := h.totalUsing
    have hPos := List.length_pos_of_mem hLive
    dsimp only
    rw [List.length_erase_of_mem hLive]
    omega
  · intro a
    rw [h.nodup.mem_erase_iff, h.live, hRing, ringHolds_split, ringHolds_split,
      holds_give h.size_pos hUsed]
    constructor
    · rintro ⟨hNe, hSl | hRest⟩
      · exact Or.inl ⟨hSl, hNe⟩
      · exact Or.inr hRest
    · rintro (⟨hSl, hNe⟩ | hRest)
      · exact ⟨hNe, Or.inl hSl⟩
      · refine ⟨?_, Or.inr hRest⟩
        rintro rfl
        exact hElse hRest
  · exact h.nodup.erase _

theorem released_inv (h : Inv s) {pos : Nat} {sl : Slab} (hAt : s.cache.ring[pos]? = some sl)
    (hEmpty : sl.usingCount = 0) :
    Inv ⟨{ s.cache with
      ring := s.cache.ring.eraseIdx pos, totalFree := s.cache.totalFree - sl.colorCount },
      s.live⟩ := by
  have hIn : sl ∈ s.cache.ring := List.mem_of_getElem? hAt
  obtain ⟨before, after, hRing, rfl⟩ := exists_split hAt
  obtain ⟨hNotPool, hClear⟩ := h.empty hIn hEmpty
  have hUsing := h.usingFree sl hIn
  rw [if_neg hNotPool] at hUsing
  have hNone : ∀ a, ¬ sl.Holds s.cache.size a := by
    rintro a ⟨j, hLt, hUsed, -⟩
    rw [hClear j hLt] at hUsed
    cases hUsed
  have hErase : s.cache.ring.eraseIdx before.length = before ++ after := by
    rw [hRing, eraseIdx_split]
  have hMem : ∀ t ∈ before ++ after, t ∈ s.cache.ring := by
    rw [hRing]
    exact fun t ht => mem_remaining ht
  rw [hErase]
  constructor
  · exact h.size_pos
  · exact h.size_le
  · exact (hRing ▸ h.ring).remove hNotPool
  · exact fun t ht => h.counts t (hMem t ht)
  · exact fun t ht => h.usingFree t (hMem t ht)
  · have hFree := h.totalFree
    rw [hRing, sum_split] at hFree
    dsimp only
    omega
  · exact h.totalUsing
  · intro a
    rw [h.live, hRing, ringHolds_split]
    exact or_iff_right (hNone a)
  · exact h.nodup

theorem freeAt_inv (h : Inv s) {pos j : Nat} {sl : Slab} (hAt : s.cache.ring[pos]? = some sl)
    (hLt : j < sl.colorCount) (hUsed : sl.isUsed j = true) :
    Inv ⟨freeAt s.cache pos sl (sl.object s.cache.size j),
      s.live.erase (sl.object s.cache.size j)⟩ := by
  have hGiven := given_inv h hAt hLt hUsed
  obtain ⟨hPos, -⟩ := List.getElem?_eq_some_iff.mp hAt
  obtain hKept | ⟨hEmpty, -, hReleased⟩ := freeAt_cases s.cache pos sl h.size_pos
  · rw [hKept]
    exact hGiven
  · rw [hReleased]
    exact released_inv hGiven (List.getElem?_set_self hPos) hEmpty

/-- `slab_free` of a live object ends, finds its slab, and returns 1. -/
theorem slabFree_live (h : Inv s) {fuel : Nat} (hFuel : s.cache.ring.length ≤ fuel) {a : Nat}
    (ha : a ∈ s.live) :
    ∃ (pos : Nat) (sl : Slab) (j : Nat), s.cache.ring[pos]? = some sl ∧ j < sl.colorCount ∧
      sl.isUsed j = true ∧ a = sl.object s.cache.size j ∧
      slabFree fuel s.cache a = some (1, freeAt s.cache pos sl a) := by
  obtain ⟨_, sl, j, hAt, hLt, hUsed, rfl⟩ := h.find_live ha
  obtain ⟨k, hLoop, hAtK⟩ := freeLoop_finds h hAt hLt hUsed hFuel
  refine ⟨k, sl, j, hAtK, hLt, hUsed, rfl, ?_⟩
  unfold slabFree
  rw [h.ring.poolPos, Option.bind_some, hLoop, Option.bind_some]
  dsimp only
  rw [hAtK]
  rfl

end

/-! ## Whole runs -/

/-- However many rounds a call is given, if it is over it did what `slabFree_live` says. -/
theorem slabFree_inv {s : State} (h : Inv s) {fuel a ret : Nat} {cache : SlabCache}
    (ha : a ∈ s.live) (hCall : slabFree fuel s.cache a = some (ret, cache)) :
    Inv ⟨cache, s.live.erase a⟩ := by
  obtain ⟨first, hFirst, hRest⟩ := Option.bind_eq_some_iff.mp hCall
  obtain ⟨found, hLoop, hFound⟩ := Option.bind_eq_some_iff.mp hRest
  rw [h.ring.poolPos] at hFirst
  cases hFirst
  obtain ⟨_, sl, j, hAt, hLt, hUsed, rfl⟩ := h.find_live ha
  obtain ⟨k, hFinds, hAtK⟩ := freeLoop_finds h hAt hLt hUsed (Nat.le_max_right fuel _)
  have hSame := (ringLoop_mono (Nat.le_max_left fuel _) hLoop).symm.trans hFinds
  cases hSame
  dsimp only at hFound
  rw [hAtK] at hFound
  obtain ⟨-, rfl⟩ := Prod.mk.inj (Option.some.inj hFound)
  exact freeAt_inv h hAtK hLt hUsed

theorem sizeofLongAlign_le {size : Nat} (hLe : size ≤ page2M) : sizeofLongAlign size ≤ page2M := by
  unfold sizeofLongAlign page2M at *
  omega

theorem sizeofLongAlign_pos {size : Nat} (hPos : 0 < size) : 0 < sizeofLongAlign size := by
  unfold sizeofLongAlign
  omega

theorem Initial.inv {size : Nat} (hPos : 0 < size) (hLe : size ≤ page2M) {s : State}
    (h : Initial size s) : Inv s := by
  obtain ⟨cache, g, hCreate, hLive⟩ := h
  unfold slabCreate at hCreate
  split at hCreate
  · next header page colorMap _ _ _ =>
    obtain ⟨c, live⟩ := s
    dsimp only at hCreate hLive
    cases hCreate
    cases hLive
    have hOk : SlabOk (sizeofLongAlign size)
        (newSlab (sizeofLongAlign size) header page colorMap) := newSlab_ok header page colorMap
    constructor
    · exact sizeofLongAlign_pos hPos
    · exact sizeofLongAlign_le hLe
    · refine ⟨rfl, List.nodup_singleton _, List.nodup_singleton _, fun t ht => ?_⟩
      cases List.mem_singleton.mp ht
      exact ⟨hOk.address, hOk.fits, ⟨hOk.counted.free⟩⟩
    · intro t ht
      cases List.mem_singleton.mp ht
      rfl
    · intro t ht
      cases List.mem_singleton.mp ht
      exact congrArg _ (if_pos rfl).symm
    · exact (add_zero _).symm
    · rfl
    · intro a
      constructor
      · intro ha
        cases ha
      · rintro ⟨t, ht, hHolds⟩
        cases List.mem_singleton.mp ht
        exact absurd hHolds (newSlab_holds (sizeofLongAlign size) header page colorMap a)
    · exact List.nodup_nil
  · cases hCreate

theorem step_inv {s t : State} {a : Action} (h : Inv s) (hStep : Step s a t) : Inv t := by
  cases hStep with
  | slabMalloc unheld call => exact slabMalloc_inv h unheld call
  | slabFree live call => exact slabFree_inv h live call

theorem reach_inv {size : Nat} (hPos : 0 < size) (hLe : size ≤ page2M) {s : State}
    (h : Reach (Initial size) Step s) : Inv s :=
  Reach.invariant (P := Inv) (fun _ hs => hs.inv hPos hLe) (fun _ _ _ hs hStep => step_inv hs hStep) h

/-! ## Safety -/

/-- `slab_free` of `a` frees one object of one slab, and gives the slab up only if it is empty. -/
structure Frees (c c' : SlabCache) (a pos j : Nat) (sl : Slab) : Prop where
  found : c.ring[pos]? = some sl
  object : j < sl.colorCount ∧ a = sl.object c.size j ∧ sl.isUsed j = true
  marked : ∀ k, (sl.give j).isUsed k = (sl.isUsed k && decide (k ≠ j))
  ring : c'.ring = c.ring.set pos (sl.give j) ∨
    (c'.ring = c.ring.eraseIdx pos ∧ ∀ k < sl.colorCount, (sl.give j).isUsed k = false)

structure Spec (s : State) : Prop where
  apart : s.live.Pairwise fun a b => a + s.cache.size ≤ b ∨ b + s.cache.size ≤ a
  within : ∀ a ∈ s.live, ∃ sl ∈ s.cache.ring,
    sl.vaddress ≤ a ∧ a + s.cache.size ≤ sl.vaddress + page2M
  malloc : ∀ fuel g, s.cache.ring.length ≤ fuel →
    ∃ ret cache, slabMalloc fuel s.cache g = some (ret, cache) ∧
      (0 < s.cache.totalFree → ret ≠ none)
  free : ∀ fuel, s.cache.ring.length ≤ fuel → ∀ a ∈ s.live,
    ∃ cache pos j sl, slabFree fuel s.cache a = some (1, cache) ∧ Frees s.cache cache a pos j sl
  pool : ∃ sl ∈ s.cache.ring, sl.header = s.cache.cachePool

section
variable {s : State}

theorem Inv.apart (h : Inv s) :
    s.live.Pairwise fun a b => a + s.cache.size ≤ b ∨ b + s.cache.size ≤ a := by
  apply h.nodup.pairwise_of_forall_ne
  intro a ha b hb hNe
  obtain ⟨sl, hsl, hA⟩ := (h.live a).mp ha
  obtain ⟨t, ht, hB⟩ := (h.live b).mp hb
  by_cases hSame : sl.page = t.page
  · cases List.inj_on_of_nodup_map h.ring.pages hsl ht hSame
    obtain ⟨i, -, -, rfl⟩ := hA
    obtain ⟨j, -, -, rfl⟩ := hB
    apply object_apart
    rintro rfl
    exact hNe rfl
  · have hApart := page_apart hSame
    rw [← (h.ring.slabs sl hsl).address, ← (h.ring.slabs t ht).address] at hApart
    have hInA := hA.within (h.ring.slabs sl hsl)
    have hInB := hB.within (h.ring.slabs t ht)
    omega

theorem Inv.malloc (h : Inv s) {fuel : Nat} (g : Grants) (hFuel : s.cache.ring.length ≤ fuel) :
    ∃ ret cache, slabMalloc fuel s.cache g = some (ret, cache) ∧
      (0 < s.cache.totalFree → ret ≠ none) := by
  unfold slabMalloc
  by_cases hZero : s.cache.totalFree = 0
  · rw [if_pos hZero]
    have hEnds : ∃ r, mallocNew s.cache g = some r := by
      unfold mallocNew
      rw [h.ring.poolPos]
      split
      · exact ⟨_, rfl⟩
      · exact ⟨_, rfl⟩
    obtain ⟨⟨ret, cache⟩, hCall⟩ := hEnds
    refine ⟨ret, cache, hCall, fun hFree => ?_⟩
    omega
  · rw [if_neg hZero]
    obtain ⟨a, cache, hCall⟩ := mallocSearch_total h hZero hFuel
    exact ⟨some a, cache, hCall, fun _ => Option.some_ne_none a⟩

theorem isUsed_given {sl : Slab} {j : Nat} (hUsed : sl.isUsed j = true) (k : Nat) :
    (sl.give j).isUsed k = (sl.isUsed k && decide (k ≠ j)) := by
  rw [Slab.isUsed_give]
  by_cases hEq : k = j
  · subst hEq
    simp [hUsed]
  · simp [hEq]

theorem Inv.free (h : Inv s) {fuel : Nat} (hFuel : s.cache.ring.length ≤ fuel) {a : Nat}
    (ha : a ∈ s.live) : ∃ cache pos j sl,
      slabFree fuel s.cache a = some (1, cache) ∧ Frees s.cache cache a pos j sl := by
  obtain ⟨pos, sl, j, hAt, hLt, hUsed, rfl, hCall⟩ := slabFree_live h hFuel ha
  refine ⟨_, pos, j, sl, hCall, hAt, ⟨hLt, rfl, hUsed⟩, isUsed_given hUsed, ?_⟩
  obtain hKept | ⟨hEmpty, -, hReleased⟩ := freeAt_cases s.cache pos sl h.size_pos
  · left
    rw [hKept]
  · right
    rw [hReleased]
    obtain ⟨hPos, -⟩ := List.getElem?_eq_some_iff.mp hAt
    have hGiven := given_inv h hAt hLt hUsed
    have hIn : sl.give j ∈ s.cache.ring.set pos (sl.give j) := List.mem_set hPos _
    refine ⟨?_, (hGiven.empty hIn hEmpty).2⟩
    dsimp only
    rw [List.eraseIdx_set_eq]

theorem Inv.pool (h : Inv s) : ∃ sl ∈ s.cache.ring, sl.header = s.cache.cachePool := by
  have hPool := h.ring.pool
  obtain ⟨p, rest, hRing⟩ := List.exists_cons_of_ne_nil h.ring.nonempty
  rw [hRing] at hPool
  refine ⟨p, ?_, Option.some.inj hPool⟩
  rw [hRing]
  exact List.mem_cons_self

end

/-- A slab cache hands out disjoint objects, takes back exactly those, and keeps its pool. -/
theorem cache_safe (size : Nat) (hPos : 0 < size) (hLe : size ≤ page2M) (s : State)
    (h : Reach (Initial size) Step s) : Spec s := by
  have hInv := reach_inv hPos hLe h
  constructor
  · exact hInv.apart
  · intro a ha
    obtain ⟨sl, hsl, hHolds⟩ := (hInv.live a).mp ha
    exact ⟨sl, hsl, hHolds.within (hInv.ring.slabs sl hsl)⟩
  · intro fuel g hFuel
    exact hInv.malloc g hFuel
  · intro fuel hFuel a ha
    exact hInv.free hFuel ha
  · exact hInv.pool

/-! ## A run -/

instance (c : SlabCache) (g : Grants) : Decidable (Unheld c g) :=
  inferInstanceAs (Decidable ((∀ header ∈ g.header, header ∉ c.ring.map Slab.header) ∧
    ∀ page ∈ g.page, page ∉ c.ring.map Slab.page))

/-- A step with as many rounds as the ring has slabs. -/
def next (s : State) : Action → Option State
  | .slabMalloc g =>
    if Unheld s.cache g then
      (slabMalloc s.cache.ring.length s.cache g).map fun r => ⟨r.2, r.1.toList ++ s.live⟩
    else none
  | .slabFree address =>
    if address ∈ s.live then
      (slabFree s.cache.ring.length s.cache address).map fun r => ⟨r.2, s.live.erase address⟩
    else none

theorem step_of_next (s : State) (a : Action) (t : State) (h : next s a = some t) : Step s a t := by
  cases a with
  | slabMalloc g =>
    obtain ⟨hUnheld, hCall⟩ := Option.ite_none_right_eq_some.mp h
    obtain ⟨⟨address, cache⟩, hMalloc, rfl⟩ := Option.map_eq_some_iff.mp hCall
    exact .slabMalloc hUnheld hMalloc
  | slabFree address =>
    obtain ⟨hLive, hCall⟩ := Option.ite_none_right_eq_some.mp h
    obtain ⟨⟨ret, cache⟩, hFree, rfl⟩ := Option.map_eq_some_iff.mp hCall
    exact .slabFree hLive hFree

/-- Page 7 and the storage at 64 and 160; the next slabs get other pages and other storage. -/
def grants (n : Nat) : Grants := ⟨some (64 + 1024 * n), some (7 + n), some (160 + 1024 * n)⟩

def firstCache : State :=
  ⟨(slabCreate 1048576 (some 0) (grants 0)).getD ⟨0, 0, 0, 0, []⟩, []⟩

theorem firstCache_initial : Initial 1048576 firstCache := ⟨some 0, grants 0, rfl, rfl⟩


/-- Five objects of 1MB, in two slabs that are added to the pool. -/
def fiveObjects : List Action :=
  [.slabMalloc (grants 1), .slabMalloc (grants 1), .slabMalloc (grants 1), .slabMalloc (grants 2),
    .slabMalloc (grants 2)]

/-- The objects of the two slabs come back, and one of the slabs is given back. -/
def threeFreed : List Action :=
  [.slabFree (pageAddress 9), .slabFree (pageAddress 8), .slabFree (pageAddress 8 + 1048576)]

theorem cache_safe_threeSlabs : ∃ s t, Run Step s threeFreed t ∧ s.live.length = 5 ∧ s.cache.ring.length = 3 ∧
    t.live.length = 2 ∧ t.cache.ring.length = 2 ∧ Spec s ∧ Spec t := by
  have hSome : (runList next firstCache fiveObjects).bind (fun s => (runList next s threeFreed).map fun t =>
      (s.live.length, s.cache.ring.length, t.live.length, t.cache.ring.length)) = some (5, 3, 2, 2) := by
    decide +kernel
  obtain ⟨s, hs, hMap⟩ := Option.bind_eq_some_iff.mp hSome
  obtain ⟨t, ht, hCounts⟩ := Option.map_eq_some_iff.mp hMap
  simp only [Prod.mk.injEq] at hCounts
  obtain ⟨hLive, hRing, hLiveT, hRingT⟩ := hCounts
  have hRun := run_of_runList step_of_next ht
  have hReach := (Reach.start firstCache_initial).run (run_of_runList step_of_next hs)
  exact ⟨s, t, hRun, hLive, hRing, hLiveT, hRingT, cache_safe 1048576 (by decide) (by decide) s hReach,
    cache_safe 1048576 (by decide) (by decide) t (hReach.run hRun)⟩

/-! ## Counters -/

/-- The set bits below `color_count`. -/
def usedBits (sl : Slab) : Finset Nat :=
  (Finset.range sl.colorCount).filter fun j => sl.isUsed j = true

structure Counters (c : SlabCache) : Prop where
  usingCount : ∀ sl ∈ c.ring, sl.usingCount = (usedBits sl).card
  colorCount : ∀ sl ∈ c.ring, sl.usingCount + sl.freeCount = sl.colorCount
  totalUsing : c.totalUsing = (c.ring.map Slab.usingCount).sum
  totalFree : c.totalFree = (c.ring.map Slab.freeCount).sum

theorem card_usedBits {sl : Slab} (h : sl.Counted) :
    ((usedBits sl).card : Int) + sl.freeCount = sl.colorCount := by
  have hClear : sl.clear = (Finset.range sl.colorCount).filter fun j => ¬ sl.isUsed j = true := by
    ext j
    rw [Slab.mem_clear, Finset.mem_filter, Finset.mem_range, Bool.not_eq_true]
  have hSum := Finset.card_filter_add_card_filter_not (s := Finset.range sl.colorCount)
    (fun j => sl.isUsed j = true)
  rw [← hClear, Finset.card_range] at hSum
  have hFree := h.free
  unfold usedBits
  omega

/-- The counters of every slab are right, except that the pool counts all its objects as used on
top of those that are. -/
theorem usingCount_exact {size : Nat} (hPos : 0 < size) (hLe : size ≤ page2M) {s : State}
    (h : Reach (Initial size) Step s) : ∀ sl ∈ s.cache.ring, sl.usingCount =
      (usedBits sl).card + if sl.header = s.cache.cachePool then (sl.colorCount : Int) else 0 := by
  have hInv := reach_inv hPos hLe h
  intro sl hsl
  have hUsing := hInv.usingFree sl hsl
  have hCard := card_usedBits (hInv.ring.slabs sl hsl).counted
  omega

/-- No cache has right counters, at any time. -/
theorem counters_never (size : Nat) (hPos : 0 < size) (hLe : size ≤ page2M) (s : State)
    (h : Reach (Initial size) Step s) : ¬ Counters s.cache := by
  have hInv := reach_inv hPos hLe h
  obtain ⟨sl, hsl, hPool⟩ := hInv.pool
  intro hCounters
  have hExact := usingCount_exact hPos hLe h sl hsl
  have hRight := hCounters.usingCount sl hsl
  have hCount := count_pos hInv.size_pos hInv.size_le
  rw [if_pos hPool] at hExact
  rw [← hInv.counts sl hsl] at hCount
  omega

/-- A new cache for objects of 2MB: one object, none given out, one counted as used. -/
theorem pool_counted_used : ¬ ∀ size s, 0 < size → size ≤ page2M →
    Reach (Initial size) Step s → Counters s.cache := by
  intro h
  let g : Grants := ⟨some 64, some 7, some 160⟩
  obtain ⟨cache, hCreate⟩ : ∃ cache, slabCreate page2M (some 0) g = some cache := ⟨_, rfl⟩
  have hInit : Initial page2M ⟨cache, []⟩ := ⟨some 0, g, hCreate, rfl⟩
  have hTotal := (h page2M ⟨cache, []⟩ (by decide) (le_refl _) (Reach.start hInit)).totalUsing
  cases hCreate
  exact absurd hTotal (by decide)

theorem counters_never_page : ∃ s : State, s.live = [] ∧ ¬ Counters s.cache := by
  let g : Grants := ⟨some 64, some 7, some 160⟩
  obtain ⟨cache, hCreate⟩ : ∃ cache, slabCreate page2M (some 0) g = some cache := ⟨_, rfl⟩
  have hInit : Initial page2M ⟨cache, []⟩ := ⟨some 0, g, hCreate, rfl⟩
  exact ⟨⟨cache, []⟩, rfl, counters_never page2M (by decide) (le_refl _) _ (Reach.start hInit)⟩

end KalinoteOS.Memory.Cache
