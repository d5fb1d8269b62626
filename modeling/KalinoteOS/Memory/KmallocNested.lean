import KalinoteOS.Memory.KmallocCall

/-! # Headers and bitmaps that `kmalloc` takes from itself

For the sizes from 1KB on, a slab besides the pool owns two objects of the small sizes: they go
out when it is made and come back when it is released.
-/
namespace KalinoteOS.Memory.Kmalloc
open Lib Boot Pages
set_option autoImplicit false

/-- The objects that a slab outside its page owns. -/
def backingOf (sl : Slab) : List Obj :=
  [⟨sl.header, sizeofSlab⟩, ⟨sl.colorMapAt, sl.colorLength⟩]

/-- The objects that the slabs behind the pool own. -/
def backing (c : SlabCache) : List Obj := c.ring.tail.flatMap backingOf

/-- All objects that `kmalloc_create` took from `kmalloc`. -/
def internal (s : State) : List Obj := (List.range' 5 11).flatMap fun k => backing (s.caches k)

theorem flatMap_set {f : Slab → List Obj} {ring : List Slab} {pos : Nat} {sl sl' : Slab}
    (hAt : ring[pos]? = some sl) (hSame : f sl' = f sl) :
    (ring.set pos sl').tail.flatMap f = ring.tail.flatMap f := by
  obtain ⟨before, after, rfl, rfl⟩ := exists_split hAt
  rw [set_split]
  cases before with
  | nil => rfl
  | cons p before =>
    simp only [List.cons_append, List.tail_cons, List.flatMap_append, List.flatMap_cons, hSame]

theorem backing_takeAt {c : SlabCache} {pos : Nat} {sl : Slab} (hAt : c.ring[pos]? = some sl)
    (j : Nat) : backing (takeAt c pos sl j) = backing c := flatMap_set hAt rfl

theorem backing_giveAt {c : SlabCache} {pos : Nat} {sl : Slab} (hAt : c.ring[pos]? = some sl)
    (j : Nat) : backing (giveAt c pos sl j) = backing c := flatMap_set hAt rfl

theorem backing_addSlab {c : SlabCache} (hSome : c.ring ≠ []) (sl : Slab) :
    (backing (addSlab c sl)).Perm (backingOf sl ++ backing c) := by
  unfold backing addSlab
  dsimp only
  rw [List.tail_append_of_ne_nil hSome, List.flatMap_append, List.flatMap_singleton]
  exact List.perm_append_comm

theorem backing_dropAt {k : Nat} {c : SlabCache} (h : ClassInv k c) {pos : Nat} {sl : Slab}
    (hAt : c.ring[pos]? = some sl) (hNotPool : sl.header ≠ c.cachePool) :
    (backing c).Perm (backingOf sl ++ backing (dropAt c pos sl)) := by
  obtain ⟨before, after, hRing, rfl⟩ := exists_split hAt
  have hPool := h.ring.pool
  unfold backing dropAt
  dsimp only
  rw [hRing] at hPool ⊢
  rw [eraseIdx_split]
  cases before with
  | nil => exact absurd (Option.some.inj hPool) hNotPool
  | cons p before =>
    simp only [List.cons_append, List.tail_cons, List.flatMap_append, List.flatMap_cons]
    exact List.perm_append_comm_assoc _ _ _

/-! ## One size in the list of all -/

theorem flatMap_update {f g : Nat → List Obj} {i : Nat} {extra : List Obj} {ks : List Nat}
    (hNodup : ks.Nodup) (hMem : i ∈ ks) (hSame : ∀ k ∈ ks, k ≠ i → g k = f k)
    (hSelf : (g i).Perm (extra ++ f i)) : (ks.flatMap g).Perm (extra ++ ks.flatMap f) := by
  induction ks with
  | nil => cases hMem
  | cons k ks ih =>
    obtain ⟨hNotMem, hRest⟩ := List.nodup_cons.mp hNodup
    rw [List.flatMap_cons, List.flatMap_cons]
    by_cases hEq : k = i
    · subst hEq
      have hTail : ks.flatMap g = ks.flatMap f := by
        apply List.flatMap_congr
        intro q hq
        apply hSame q (List.mem_cons_of_mem _ hq)
        rintro rfl
        exact hNotMem hq
      rw [hTail, ← List.append_assoc]
      exact hSelf.append_right _
    · have hIn : i ∈ ks := (List.mem_cons.mp hMem).resolve_left fun h => hEq h.symm
      rw [hSame k List.mem_cons_self hEq]
      refine ((ih hRest hIn fun q hq => hSame q (List.mem_cons_of_mem _ hq)).append_left _).trans ?_
      exact List.perm_append_comm_assoc _ _ _

theorem internal_congr {s t : State} (h : ∀ k, 5 ≤ k → t.caches k = s.caches k) :
    internal t = internal s := by
  apply List.flatMap_congr
  intro k hk
  rw [h k (List.mem_range'_1.mp hk).1]

theorem internal_setCache {s : State} {i : Nat} {c : SlabCache}
    (h : backing c = backing (s.caches i)) : internal (s.setCache i c) = internal s := by
  apply List.flatMap_congr
  intro k _
  by_cases hEq : k = i
  · subst hEq
    rw [setCache_self, h]
  · rw [setCache_other _ _ hEq]

/-- Size `i` got `extra`; the small sizes do not matter. -/
theorem internal_grows {s t : State} {i : Nat} {extra : List Obj} (hi : i < 16) (hLarge : 5 ≤ i)
    (hOthers : ∀ k, 5 ≤ k → k ≠ i → t.caches k = s.caches k)
    (hSelf : (backing (t.caches i)).Perm (extra ++ backing (s.caches i))) :
    (internal t).Perm (extra ++ internal s) := by
  refine flatMap_update List.nodup_range' (List.mem_range'_1.mpr ⟨hLarge, hi⟩) ?_ hSelf
  intro k hk hNe
  rw [hOthers k (List.mem_range'_1.mp hk).1 hNe]

theorem mem_internal {s : State} {i : Nat} (hi : i < 16) (hLarge : 5 ≤ i) {o : Obj}
    (ho : o ∈ backing (s.caches i)) : o ∈ internal s :=
  List.mem_flatMap.mpr ⟨i, List.mem_range'_1.mpr ⟨hLarge, hi⟩, ho⟩

/-- Every slab of the ring is the pool or owns its header. -/
theorem header_backed {k : Nat} {c : SlabCache} (h : ClassInv k c) {sl : Slab} (hsl : sl ∈ c.ring)
    (hNotPool : sl.header ≠ c.cachePool) : ⟨sl.header, sizeofSlab⟩ ∈ backing c := by
  obtain ⟨p, rest, hRing⟩ := List.exists_cons_of_ne_nil h.ring.nonempty
  have hPool := h.ring.pool
  rw [hRing] at hPool hsl
  unfold backing
  rw [hRing, List.tail_cons]
  obtain rfl | hIn := List.mem_cons.mp hsl
  · exact absurd (Option.some.inj hPool) hNotPool
  · exact List.mem_flatMap.mpr ⟨sl, hIn, List.mem_cons_self⟩

section
variable {s : State} {objs live : List Obj} {allocPages : AllocPages}

/-! ## `kmalloc` -/

/-- `kmalloc_create` for one of the large sizes, over its own page. -/
theorem kmallocCreate_large (h : Inv s objs) {i p : Nat} (hi : i < 16) (hLarge : 5 ≤ i)
    (hPage : allocPages s.held = some p) (kmalloc : Nat → State → Option (Option Nat × State)) :
    kmallocCreate allocPages kmalloc (s.caches i).size s =
      match kmalloc sizeofSlab { s with held := p :: s.held } with
      | some (some header, t) =>
        match kmalloc (colorLengthOf (page2M / kmallocSize i)) t with
        | some (some colorMap, u) => some (some (slabOutside (kmallocSize i) p header colorMap), u)
        | _ => none
      | _ => none := by
  have hSize := (h.classes i hi).size
  have hNotInPage : kmallocSize i ∉ sizesInPage := fun hMem =>
    absurd ((inPage_iff i hi).mp hMem) (not_lt.mpr hLarge)
  unfold kmallocCreate
  rw [hPage, hSize]
  dsimp only
  rw [if_neg hNotInPage]
  exact if_pos (outside_of_le i hi hLarge)

/-- A page, a header and a bitmap for a slab of one of the large sizes. -/
theorem kmallocCreate_outside (h : Inv s objs) (hAlloc : NeverFails allocPages) {i : Nat}
    (hi : i < 16) (hLarge : 5 ≤ i) (depth : Nat) :
    ∃ p header colorMap t,
      kmallocCreate allocPages (kmalloc allocPages (depth + 1)) (s.caches i).size s =
        some (some (slabOutside (kmallocSize i) p header colorMap), t) ∧
      Inv t (⟨colorMap, colorLengthOf (page2M / kmallocSize i)⟩ :: ⟨header, sizeofSlab⟩ :: objs) ∧
      Unowned t p ∧ ∀ k, 5 ≤ k → t.caches k = s.caches k := by
  obtain ⟨p, hPage, hNew⟩ := hAlloc s.held
  obtain ⟨m, hm, hIndexM⟩ := index_colorLength i hi hLarge
  obtain ⟨header, t, hHeader, hInvT, hTouchT⟩ :=
    kmalloc_small (h.alloc p) hAlloc index_sizeofSlab (by decide) depth
  obtain ⟨colorMap, u, hMap, hInvU, hTouchU⟩ := kmalloc_small hInvT hAlloc hIndexM hm depth
  refine ⟨p, header, colorMap, u, ?_, hInvU, ?_, ?_⟩
  · rw [kmallocCreate_large h hi hLarge hPage, hHeader]
    dsimp only
    rw [hMap]
  · exact hTouchU.unowned p (hTouchT.unowned p (h.unowned_new hNew))
  · intro k hk
    rw [hTouchU.others k (by omega), hTouchT.others k (by omega)]

theorem header_new_outside (h : Inv s objs) {o : Obj} (ho : o ∈ objs) {i : Nat} (hi : i < 16)
    (hElse : ∀ u ∈ backing (s.caches i), u ∈ objs ∧ u ≠ o) :
    o.address ∉ (s.caches i).ring.map Slab.header := by
  have hClass := h.classes i hi
  intro hMem
  obtain ⟨t, ht, hEq⟩ := List.mem_map.mp hMem
  by_cases hPool : t.header = (s.caches i).cachePool
  · -- the pool's header is in no page of a slab
    obtain ⟨k, pos, sl, j, hk, -, hAt, hLt, hUsed, hAddress⟩ := h.find ho
    have hIn : sl ∈ (s.caches k).ring := List.mem_of_getElem? hAt
    have hOk := (h.classes k hk).ring.slabs sl hIn
    have hPos := (h.classes k hk).size_pos
    have hHolds : sl.Holds (s.caches k).size o.address := ⟨j, hLt, hUsed, hAddress⟩
    obtain ⟨hLow, hHigh⟩ := hHolds.within hOk
    rw [hOk.address] at hLow hHigh
    have hFrame := frame_of_page hLow (by omega)
    rw [← hEq, hPool] at hFrame
    exact h.poolAway i hi k hk sl hIn hFrame.symm
  · obtain ⟨hIn, hNe⟩ := hElse _ (header_backed hClass ht hPool)
    exact hNe (List.inj_on_of_nodup_map h.nodup hIn ho hEq)

/-- A full size gets the slab that `kmalloc_create` made. -/
theorem kmalloc_large_of_create (h : Inv s objs) (hPerm : objs.Perm (live ++ internal s))
    {size i : Nat} (hIndex : index size = some i) (hLe : size ≤ 1048576) (hLarge : 5 ≤ i)
    (hFull : (s.caches i).totalFree = 0) {depth p header colorMap : Nat} {t : State}
    (hCreate : kmallocCreate allocPages (kmalloc allocPages (depth + 1)) (s.caches i).size s =
      some (some (slabOutside (kmallocSize i) p header colorMap), t))
    (hInvT : Inv t
      (⟨colorMap, colorLengthOf (page2M / kmallocSize i)⟩ :: ⟨header, sizeofSlab⟩ :: objs))
    (hUnowned : Unowned t p) (hLater : ∀ k, 5 ≤ k → t.caches k = s.caches k) :
    ∃ a t objs', kmalloc allocPages (depth + 2) size s = some (some a, t) ∧ Inv t objs' ∧
      objs'.Perm (⟨a, size⟩ :: live ++ internal t) := by
  have hi := (index_some hIndex).1
  have hFresh := slabOutside_fresh hLarge p header colorMap
  have hCache := hLater i hLarge
  have hFullT : (t.caches i).totalFree = 0 := by
    rw [hCache]
    exact hFull
  have hNodup := List.nodup_cons.mp (List.nodup_cons.mp hInvT.nodup_objs).2
  have hHeader : header ∉ (t.caches i).ring.map Slab.header := by
    refine header_new_outside hInvT (o := ⟨header, sizeofSlab⟩)
      (List.mem_cons_of_mem _ List.mem_cons_self) hi fun u hu => ?_
    rw [hCache] at hu
    have hOld : u ∈ objs :=
      hPerm.mem_iff.mpr (List.mem_append_right _ (mem_internal hi hLarge hu))
    refine ⟨List.mem_cons_of_mem _ (List.mem_cons_of_mem _ hOld), ?_⟩
    rintro rfl
    exact hNodup.1 hOld
  have hJoin := join_inv hInvT hi hFullT hFresh hUnowned rfl hHeader
    fun hLt => absurd hLt (not_lt.mpr hLarge)
  obtain ⟨a, j, u, hTake, hInvU, hTouches, hTaken, -⟩ :=
    createTake_spec hi hFresh hJoin hIndex hLe
  refine ⟨a, u, _, ?_, hInvU, ?_⟩
  · rw [kmalloc_eq h hIndex hLe, if_neg (not_not.mpr hFull), hCreate]
    exact hTake
  · have hGrows : (internal u).Perm
        (backingOf (slabOutside (kmallocSize i) p header colorMap) ++ internal s) := by
      refine internal_grows hi hLarge (fun k hk hNe => ?_) ?_
      · rw [hTouches.others k hNe, setCache_other _ _ hNe, hLater k hk]
      · rw [hTaken, backing_takeAt (addSlab_at _ _), hCache]
        exact backing_addSlab (h.classes i hi).ring.nonempty _
    have hOwn : (⟨colorMap, colorLengthOf (page2M / kmallocSize i)⟩ ::
        ⟨header, sizeofSlab⟩ :: objs).Perm (live ++ internal u) := by
      refine (List.Perm.swap _ _ _).trans ?_
      refine (List.Perm.append_left (backingOf (slabOutside (kmallocSize i) p header colorMap))
        hPerm).trans ?_
      refine (List.perm_append_comm_assoc _ _ _).trans ?_
      exact hGrows.symm.append_left _
    exact hOwn.cons _

theorem kmalloc_large (h : Inv s objs) (hPerm : objs.Perm (live ++ internal s))
    (hAlloc : NeverFails allocPages) {size i : Nat} (hIndex : index size = some i)
    (hLe : size ≤ 1048576) (hLarge : 5 ≤ i) (hFull : (s.caches i).totalFree = 0) (depth : Nat) :
    ∃ a t objs', kmalloc allocPages (depth + 2) size s = some (some a, t) ∧ Inv t objs' ∧
      objs'.Perm (⟨a, size⟩ :: live ++ internal t) := by
  obtain ⟨p, header, colorMap, t, hCreate, hInvT, hUnowned, hLater⟩ :=
    kmallocCreate_outside h hAlloc (index_some hIndex).1 hLarge depth
  exact kmalloc_large_of_create h hPerm hIndex hLe hLarge hFull hCreate hInvT hUnowned hLater

/-- Whatever the size, `kmalloc` returns a new object, and what it took for itself is in `internal`. -/
theorem kmalloc_spec (h : Inv s objs) (hPerm : objs.Perm (live ++ internal s))
    (hAlloc : NeverFails allocPages) {size : Nat} (hLe : size ≤ 1048576) (depth : Nat) :
    ∃ a t objs', kmalloc allocPages (depth + 2) size s = some (some a, t) ∧ Inv t objs' ∧
      objs'.Perm (⟨a, size⟩ :: live ++ internal t) := by
  obtain ⟨i, hIndex⟩ := index_total hLe
  by_cases hFree : (s.caches i).totalFree ≠ 0
  · obtain ⟨a, pos, sl, j, hAt, hCall, hInv⟩ := kmalloc_search h hIndex hLe hFree (depth + 1)
    refine ⟨a, _, _, hCall, hInv, hPerm.cons _ |>.trans ?_⟩
    rw [internal_setCache (backing_takeAt hAt j)]
    exact List.Perm.refl _
  · by_cases hSmall : i < 5
    · obtain ⟨a, t, hCall, hInv, hTouches⟩ := kmalloc_small h hAlloc hIndex hSmall (depth + 1)
      refine ⟨a, t, _, hCall, hInv, hPerm.cons _ |>.trans ?_⟩
      rw [internal_congr fun k hk => hTouches.others k (by omega)]
      exact List.Perm.refl _
    · exact kmalloc_large h hPerm hAlloc hIndex hLe (not_lt.mp hSmall) (not_not.mp hFree) depth

/-! ## `kfree` -/

theorem erase_live (hPerm : objs.Perm (live ++ internal s)) {o : Obj} (ho : o ∈ live) :
    (objs.erase o).Perm (live.erase o ++ internal s) := by
  have hErase := hPerm.erase o
  rwa [List.erase_append_left _ ho] at hErase

/-- A slab of a large size owns a header and a bitmap of small sizes. -/
theorem backing_sizes (h : Inv s objs) {i : Nat} (hi : i < 16) (hLarge : 5 ≤ i) {sl : Slab}
    (hsl : sl ∈ (s.caches i).ring) (hNotPool : sl.header ≠ (s.caches i).cachePool) :
    ∃ m < 5, index sl.colorLength = some m := by
  have hFine := (h.classes i hi).slabs sl hsl
  have hCount := hFine.count
  rw [if_neg hNotPool, createdCount, if_neg (not_lt.mpr hLarge)] at hCount
  rw [hFine.length, hCount]
  exact index_colorLength i hi hLarge

theorem internal_small (h : Inv s objs) {o : Obj} (ho : o ∈ internal s) :
    ∃ m < 5, index o.size = some m := by
  obtain ⟨k, hk, hBacking⟩ := List.mem_flatMap.mp ho
  obtain ⟨sl, hsl, hMem⟩ := List.mem_flatMap.mp hBacking
  obtain ⟨hLarge, hLt⟩ := List.mem_range'_1.mp hk
  have hk16 : k < 16 := hLt
  obtain ⟨p, rest, hRing⟩ := List.exists_cons_of_ne_nil (h.classes k hk16).ring.nonempty
  have hPool := (h.classes k hk16).ring.pool
  have hHeaders := (h.classes k hk16).ring.headers
  rw [hRing] at hPool hHeaders hsl
  rw [List.map_cons, List.nodup_cons] at hHeaders
  have hNotPool : sl.header ≠ (s.caches k).cachePool := by
    intro hEq
    exact hHeaders.1 (Option.some.inj hPool ▸ hEq ▸ List.mem_map_of_mem hsl)
  have hIn : sl ∈ (s.caches k).ring := hRing ▸ List.mem_cons_of_mem p hsl
  rcases List.mem_pair.mp hMem with rfl | rfl
  · exact ⟨2, by decide, index_sizeofSlab⟩
  · exact backing_sizes h hk16 hLarge hIn hNotPool

theorem internal_dropAt (h : Inv s objs) {o : Obj} {i pos j : Nat} {sl : Slab}
    (hAt : At s o i pos sl j) (hLarge : 5 ≤ i) (hNotPool : sl.header ≠ (s.caches i).cachePool) :
    (internal s).Perm (backingOf (sl.give j) ++
      internal (s.setCache i (dropAt (giveAt (s.caches i) pos sl j) pos (sl.give j)))) := by
  have hGiven := (giveAt_inv (h.classes i hAt.lt) hAt.ring hAt.slot hAt.isUsed).1
  refine internal_grows hAt.lt hLarge (fun k _ hNe => (setCache_other _ _ hNe).symm) ?_
  rw [setCache_self, ← backing_giveAt hAt.ring j]
  exact backing_dropAt hGiven (giveAt_at hAt) hNotPool

theorem giveBack_outside {i pos : Nat} {c : SlabCache} {sl : Slab}
    (hSize : c.size ∉ sizesInPage) {t : State} (hT : s.setCache i (dropAt c pos sl) = t)
    (hInv : Inv t objs) (hUnowned : Unowned t sl.page) {rest : List Obj}
    (hPerm : objs.Perm (backingOf sl ++ rest))
    {m : Nat} (hm : m < 5) (hIndex : index sl.colorLength = some m) (depth : Nat) :
    ∃ u objs', giveBack (kfree (depth + 1)) s i c pos sl = some u ∧ Inv u objs' ∧
      objs'.Perm rest ∧ ∀ k, 5 ≤ k → u.caches k = t.caches k := by
  have hMap : (⟨sl.colorMapAt, sl.colorLength⟩ : Obj) ∈ objs :=
    hPerm.mem_iff.mpr (List.mem_append_left _ (List.mem_cons_of_mem _ List.mem_cons_self))
  obtain ⟨u, hCall, hInvU, hTouchU⟩ := kfree_small hInv hMap hIndex hm depth
  have hPermU : (objs.erase ⟨sl.colorMapAt, sl.colorLength⟩).Perm (⟨sl.header, sizeofSlab⟩ :: rest) := by
    have hSwap : objs.Perm (⟨sl.colorMapAt, sl.colorLength⟩ :: ⟨sl.header, sizeofSlab⟩ :: rest) :=
      hPerm.trans (List.Perm.swap _ _ _)
    have hErase := hSwap.erase ⟨sl.colorMapAt, sl.colorLength⟩
    rwa [List.erase_cons_head] at hErase
  have hFreed := hInvU.freePage (hTouchU.unowned _ hUnowned)
  obtain ⟨v, hCallV, hInvV, hTouchV⟩ := kfree_small hFreed (hPermU.mem_iff.mpr List.mem_cons_self)
    index_sizeofSlab (by decide) depth
  have hPermV := hPermU.erase ⟨sl.header, sizeofSlab⟩
  rw [List.erase_cons_head] at hPermV
  refine ⟨v, _, ?_, hInvV, hPermV, fun k hk => ?_⟩
  · unfold giveBack
    dsimp only
    rw [hT, if_neg hSize, hCall, Option.bind_some]
    dsimp only
    rw [hCallV]
    rfl
  · rw [hTouchV.others k (by omega)]
    exact hTouchU.others k (by omega)

/-- `kfree` of a live object returns 1; what it took back besides is gone from `internal`. -/
theorem kfree_spec (h : Inv s objs) (hPerm : objs.Perm (live ++ internal s)) {o : Obj}
    (ho : o ∈ live) (depth : Nat) :
    ∃ (t : State) (objs' : List Obj) (i pos : Nat) (sl : Slab) (j : Nat),
      kfree (depth + 2) o.address s = some (1, t) ∧ Inv t objs' ∧
      objs'.Perm (live.erase o ++ internal t) ∧ At s o i pos sl j ∧
      (t.caches i = giveAt (s.caches i) pos sl j ∨
        (sl.give j).usingCount = 0 ∧ sl.header ≠ (s.caches i).cachePool ∧
          t.caches i = dropAt (giveAt (s.caches i) pos sl j) pos (sl.give j)) := by
  have hIn : o ∈ objs := hPerm.mem_iff.mpr (List.mem_append_left _ ho)
  obtain ⟨i, pos, sl, j, hAt, hCall⟩ := kfree_eq h hIn
  have hErase := erase_live hPerm ho
  by_cases hDrop : Releases (giveAt (s.caches i) pos sl j) (sl.give j)
  · obtain ⟨hInv, hUnowned⟩ := dropped_inv h hIn hAt hDrop
    have hNotPool : sl.header ≠ (s.caches i).cachePool := fun hEq => hDrop.2.2 hEq.symm
    have hSizeEq : (giveAt (s.caches i) pos sl j).size = kmallocSize i := (h.classes i hAt.lt).size
    by_cases hSmall : i < 5
    · have hSize : (giveAt (s.caches i) pos sl j).size ∈ sizesInPage := by
        rw [hSizeEq]
        exact (inPage_iff i hAt.lt).mpr hSmall
      refine ⟨_, _, i, pos, sl, j, ?_, hInv.freePage hUnowned, ?_, hAt,
        Or.inr ⟨hDrop.1, hNotPool, ?_⟩⟩
      · rw [hCall, if_pos hDrop, giveBack, if_pos hSize]
        rfl
      · refine hErase.trans (List.Perm.of_eq ?_)
        congr 1
        exact (internal_congr fun k hk => setCache_other _ _ (by omega)).symm
      · exact setCache_self _ _ _
    · have hLarge : 5 ≤ i := not_lt.mp hSmall
      have hSize : (giveAt (s.caches i) pos sl j).size ∉ sizesInPage := by
        rw [hSizeEq]
        exact fun hMem => absurd ((inPage_iff i hAt.lt).mp hMem) (not_lt.mpr hLarge)
      obtain ⟨m, hm, hIndexM⟩ := backing_sizes h hAt.lt hLarge hAt.mem hNotPool
      have hOwn : (objs.erase o).Perm (backingOf (sl.give j) ++ (live.erase o ++
          internal (s.setCache i (dropAt (giveAt (s.caches i) pos sl j) pos (sl.give j))))) :=
        hErase.trans (((internal_dropAt h hAt hLarge hNotPool).append_left _).trans
          (List.perm_append_comm_assoc _ _ _))
      obtain ⟨u, objs', hGive, hInvU, hPermU, hLater⟩ :=
        giveBack_outside hSize rfl hInv hUnowned hOwn hm hIndexM depth
      refine ⟨u, objs', i, pos, sl, j, ?_, hInvU, ?_, hAt, Or.inr ⟨hDrop.1, hNotPool, ?_⟩⟩
      · rw [hCall, if_pos hDrop, hGive]
        rfl
      · rw [internal_congr hLater]
        exact hPermU
      · rw [hLater i hLarge, setCache_self]
  · refine ⟨_, _, i, pos, sl, j, ?_, kept_inv h hIn hAt hDrop, ?_, hAt, Or.inl (setCache_self _ _ _)⟩
    · rw [hCall, if_neg hDrop]
    · rw [internal_setCache (backing_giveAt hAt.ring j)]
      exact hErase

end

end KalinoteOS.Memory.Kmalloc
