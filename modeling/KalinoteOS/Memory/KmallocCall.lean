import KalinoteOS.Memory.KmallocState

/-! # The calls of `kmalloc` and `kfree`

First the sizes that need no call inside the call, then the others.
-/
namespace KalinoteOS.Memory.Kmalloc
open Lib Boot Pages
set_option autoImplicit false

/-- `alloc_pages` never fails, and hands out a page that nobody holds. -/
def NeverFails (allocPages : AllocPages) : Prop :=
  ∀ held, ∃ p, allocPages held = some p ∧ p ∉ held

/-- A call that changes size `i` only, and leaves the pages alone that nobody has. -/
structure Touches (s t : State) (i : Nat) : Prop where
  others : ∀ k, k ≠ i → t.caches k = s.caches k
  unowned : ∀ p, Unowned s p → Unowned t p

section
variable {s : State} {objs : List Obj}

theorem setCache_touches {i : Nat} {c : SlabCache} (hPool : c.cachePool = (s.caches i).cachePool)
    (hPages : ∀ p, Unowned s p → ∀ sl ∈ c.ring, sl.page ≠ p) : Touches s (s.setCache i c) i :=
  ⟨fun _ hk => setCache_other s c hk, fun p hp => hp.setCache hPool (hPages p hp)⟩

/-! ## One object out -/

/-- The loop over the bitmap finds a free object, and nobody has it. -/
theorem takeSlot_spec (h : Inv s objs) {i : Nat} (hi : i < 16) {pos : Nat} {sl : Slab}
    (hAt : (s.caches i).ring[pos]? = some sl) (hFree : sl.freeCount ≠ 0) {size : Nat}
    (hIndex : index size = some i) (hLe : size ≤ 1048576) :
    ∃ j, takeSlot s i pos = some (some (sl.object (s.caches i).size j),
        s.setCache i (takeAt (s.caches i) pos sl j)) ∧
      Inv (s.setCache i (takeAt (s.caches i) pos sl j))
        (⟨sl.object (s.caches i).size j, size⟩ :: objs) := by
  have hClass := h.classes i hi
  have hIn : sl ∈ (s.caches i).ring := List.mem_of_getElem? hAt
  have hOk := hClass.ring.slabs sl hIn
  obtain ⟨q, hq⟩ := hOk.counted.exists_clear hFree
  obtain ⟨hLtQ, hClearQ⟩ := Slab.mem_clear.mp hq
  obtain ⟨j, hSearch⟩ := Words.search_total hLtQ hClearQ
  have hMem : j ∈ sl.clear := Slab.mem_clear.mpr (Words.search_some hSearch)
  obtain ⟨hTaken, hSpares, hHolds⟩ := takeAt_inv hClass hAt hMem
  have hUnheld := hClass.ring.object_unheld hClass.size_pos hIn hMem
  -- an object at this address would be in the page of `sl`
  have hNew : ∀ o ∈ objs, o.address ≠ sl.object (s.caches i).size j := by
    intro o ho hEq
    obtain ⟨k, posK, t, r, hk, hIndexK, hAtK, hLtK, hUsedK, hAddress⟩ := h.find ho
    have hInK : t ∈ (s.caches k).ring := List.mem_of_getElem? hAtK
    have hBase := h.base hk hInK ⟨r, hLtK, hUsedK, hAddress⟩
    have hFits := object_within sl hOk.fits (Slab.mem_clear.mp hMem).1
    have hPos := hClass.size_pos
    have hLow : sl.vaddress ≤ sl.object (s.caches i).size j := Nat.le_add_right _ _
    rw [hEq, hOk.base hLow (by omega)] at hBase
    obtain ⟨rfl, rfl⟩ := h.same_slab hi hk hIn hInK hBase
    exact hUnheld ⟨sl, hIn, r, hLtK, hUsedK, hEq ▸ hAddress⟩
  refine ⟨j, ?_, h.setCache hi hTaken (hSpares.trans (h.spares i hi)) rfl ?_ ?_ ?_ ?_ ?_⟩
  · unfold takeSlot
    dsimp only
    rw [hAt, Option.map_some, hSearch]
  · intro t ht
    left
    obtain hOld | rfl := List.mem_or_eq_of_mem_set ht
    · exact List.mem_map_of_mem hOld
    · exact List.mem_map.mpr ⟨sl, hIn, rfl⟩
  · intro a
    have hObjects := h.objects i hi a
    refine (hHolds a).trans ?_
    rw [hObjects]
    constructor
    · rintro (⟨o, ho, hA, hO⟩ | rfl)
      · exact ⟨o, List.mem_cons_of_mem _ ho, hA, hO⟩
      · exact ⟨_, List.mem_cons_self, rfl, hIndex⟩
    · rintro ⟨o, ho, hA, hO⟩
      obtain rfl | ho := List.mem_cons.mp ho
      · exact Or.inr hA.symm
      · exact Or.inl ⟨o, ho, hA, hO⟩
  · intro o hO
    rw [List.mem_cons]
    refine or_iff_right ?_
    rintro rfl
    exact hO hIndex
  · intro o ho
    obtain rfl | ho := List.mem_cons.mp ho
    · exact hLe
    · exact h.sizes o ho
  · rw [List.map_cons, List.nodup_cons]
    refine ⟨fun hMemA => ?_, h.nodup⟩
    obtain ⟨o, ho, hEq⟩ := List.mem_map.mp hMemA
    exact hNew o ho hEq

theorem takeAt_touches {i pos j : Nat} {sl : Slab} (hi : i < 16)
    (hAt : (s.caches i).ring[pos]? = some sl) :
    Touches s (s.setCache i (takeAt (s.caches i) pos sl j)) i := by
  refine setCache_touches (c := takeAt (s.caches i) pos sl j) rfl fun p hp t ht => ?_
  have hIn : sl ∈ (s.caches i).ring := List.mem_of_getElem? hAt
  obtain hOld | rfl := List.mem_or_eq_of_mem_set ht
  · exact hp.slabs i hi t hOld
  · exact hp.slabs i hi sl hIn

/-! ## A slab joins -/

/-- The header of a new slab differs from those on the ring when it is not where theirs are. -/
theorem join_inv (h : Inv s objs) {i : Nat} (hi : i < 16) (hFull : (s.caches i).totalFree = 0)
    {sl : Slab} (hFresh : Fresh (createdCount i) sl) (hPage : Unowned s sl.page)
    (hAddress : sl.vaddress = pageAddress sl.page)
    (hHeader : sl.header ∉ (s.caches i).ring.map Slab.header)
    (hPlace : i < 5 → sl.header + structSize (kmallocSize i) = sl.vaddress + page2M ∧
      sl.colorMapAt = sl.header + sizeofSlab) :
    Inv (s.setCache i (addSlab (s.caches i) sl)) objs := by
  have hClass := h.classes i hi
  have hPool : sl.header ≠ (s.caches i).cachePool := by
    intro hEq
    have hHead := List.mem_of_head? hClass.ring.pool
    exact hHeader (hEq ▸ hHead)
  have hOk : SlabOk (s.caches i).size sl := by
    refine ⟨hAddress, ?_, hFresh.counted⟩
    rw [hClass.size, hFresh.count]
    exact created_fits i hi
  have hFine : SlabFine i (s.caches i).cachePool sl := by
    refine hFresh.fine ?_ fun _ => hPlace
    rw [if_neg hPool]
  have hPages : sl.page ∉ (s.caches i).ring.map Slab.page := by
    intro hMem
    obtain ⟨t, ht, hEq⟩ := List.mem_map.mp hMem
    exact hPage.slabs i hi t ht hEq
  obtain ⟨hAdded, hSpares, hHolds⟩ := addSlab_inv hClass hOk hFine hFresh.using_zero
    (fun a => hFresh.holds_nothing _ a) hHeader hPages
  rw [hClass.no_spare hi hFull] at hSpares
  refine h.setCache hi hAdded hSpares rfl ?_ ?_ (fun _ _ => Iff.rfl) h.sizes h.nodup
  · intro t ht
    obtain ht | ht := List.mem_append.mp ht
    · exact Or.inl (List.mem_map_of_mem ht)
    · cases List.mem_singleton.mp ht
      exact Or.inr hPage
  · intro a
    exact (hHolds a).trans (h.objects i hi a)

theorem Unowned.join {p : Nat} (hp : Unowned s p) {i : Nat} (hi : i < 16) {sl : Slab}
    (hNe : sl.page ≠ p) : Unowned (s.setCache i (addSlab (s.caches i) sl)) p := by
  refine hp.setCache rfl fun t ht => ?_
  obtain ht | ht := List.mem_append.mp ht
  · exact hp.slabs i hi t ht
  · cases List.mem_singleton.mp ht
    exact hNe

theorem addSlab_at (c : SlabCache) (sl : Slab) : (addSlab c sl).ring[c.ring.length]? = some sl :=
  List.getElem?_concat_length

theorem createTake_spec {i : Nat} (hi : i < 16) {sl : Slab} (hFresh : Fresh (createdCount i) sl)
    (hJoin : Inv (s.setCache i (addSlab (s.caches i) sl)) objs) {size : Nat}
    (hIndex : index size = some i) (hLe : size ≤ 1048576) :
    ∃ a j t, takeSlot (s.setCache i (addSlab (s.caches i) sl)) i (s.caches i).ring.length =
        some (some a, t) ∧
      Inv t (⟨a, size⟩ :: objs) ∧ Touches (s.setCache i (addSlab (s.caches i) sl)) t i ∧
      t.caches i = takeAt (addSlab (s.caches i) sl) (s.caches i).ring.length sl j ∧
      t.held = s.held := by
  have hAt : ((s.setCache i (addSlab (s.caches i) sl)).caches i).ring[(s.caches i).ring.length]? =
      some sl := by
    rw [setCache_self]
    exact addSlab_at _ _
  have hFree : sl.freeCount ≠ 0 := by
    have hPos := createdCount_pos i hi
    rw [hFresh.free]
    omega
  obtain ⟨j, hTake, hInv⟩ := takeSlot_spec hJoin hi hAt hFree hIndex hLe
  refine ⟨_, j, _, hTake, hInv, takeAt_touches hi hAt, ?_, rfl⟩
  rw [setCache_self, setCache_self]

/-! ## `kmalloc` without a call inside -/

variable {allocPages : AllocPages}

theorem kmalloc_eq (h : Inv s objs) {size i : Nat} (hIndex : index size = some i)
    (hLe : size ≤ 1048576) (depth : Nat) :
    kmalloc allocPages (depth + 1) size s =
      if (s.caches i).totalFree ≠ 0 then
        (freeSlab (s.caches i)).bind fun pos => takeSlot s i pos
      else
        match kmallocCreate allocPages (kmalloc allocPages depth) (s.caches i).size s with
        | some (some sl, s) =>
          takeSlot (s.setCache i (addSlab (s.caches i) sl)) i (s.caches i).ring.length
        | some (none, s) => some (none, s)
        | none => none := by
  rw [kmalloc, if_neg (not_lt.mpr hLe), h.sizeIndex_eq, hIndex]
  rfl

theorem kmalloc_search (h : Inv s objs) {size i : Nat} (hIndex : index size = some i)
    (hLe : size ≤ 1048576) (hFree : (s.caches i).totalFree ≠ 0) (depth : Nat) :
    ∃ (a pos : Nat) (sl : Slab) (j : Nat), (s.caches i).ring[pos]? = some sl ∧
      kmalloc allocPages (depth + 1) size s =
        some (some a, s.setCache i (takeAt (s.caches i) pos sl j)) ∧
      Inv (s.setCache i (takeAt (s.caches i) pos sl j)) (⟨a, size⟩ :: objs) := by
  have hi := (index_some hIndex).1
  obtain ⟨pos, sl, hSlab, hAt, hSome⟩ := (h.classes i hi).freeSlab_spec hFree
  obtain ⟨j, hTake, hInv⟩ := takeSlot_spec h hi hAt hSome hIndex hLe
  refine ⟨_, pos, sl, j, hAt, ?_, hInv⟩
  rw [kmalloc_eq h hIndex hLe, if_pos hFree, hSlab]
  exact hTake

theorem slabInPage_fresh {i : Nat} (hi : i < 5) (page : Nat) :
    Fresh (createdCount i) (slabInPage (kmallocSize i) page) := by
  unfold createdCount
  rw [if_pos hi]
  exact ⟨rfl, rfl, rfl, rfl, rfl⟩

theorem slabOutside_fresh {i : Nat} (hi : 5 ≤ i) (page header colorMap : Nat) :
    Fresh (createdCount i) (slabOutside (kmallocSize i) page header colorMap) := by
  unfold createdCount
  rw [if_neg (not_lt.mpr hi)]
  exact ⟨rfl, rfl, rfl, rfl, rfl⟩

theorem slabInPage_header {i : Nat} (hi : i < 5) (page : Nat) :
    (slabInPage (kmallocSize i) page).header + structSize (kmallocSize i) =
      (slabInPage (kmallocSize i) page).vaddress + page2M := by
  have hRoom := created_room i hi
  show pageAddress page + page2M - structSize (kmallocSize i) + structSize (kmallocSize i) =
    pageAddress page + page2M
  omega

theorem frame_of_page {p a : Nat} (hLow : pageAddress p ≤ a) (hHigh : a < pageAddress p + page2M) :
    frame (virtToPhy a) = p := by
  unfold pageAddress frame virtToPhy pageOffset page2M at *
  omega

/-- A header at the end of a page that nobody had is new. -/
theorem header_new_inPage (h : Inv s objs) {i p : Nat} (hi : i < 5) (hPage : Unowned s p) :
    (slabInPage (kmallocSize i) p).header ∉ (s.caches i).ring.map Slab.header := by
  have hi16 : i < 16 := hi.trans (by decide)
  have hNew := slabInPage_header hi p
  have hRoom := created_room i hi
  have hStart : (slabInPage (kmallocSize i) p).vaddress = pageAddress p := rfl
  have hStruct : 0 < structSize (kmallocSize i) := Nat.add_pos_left (by decide) _
  intro hMem
  obtain ⟨t, ht, hEq⟩ := List.mem_map.mp hMem
  by_cases hPool : t.header = (s.caches i).cachePool
  · apply hPage.pools i hi16
    rw [← hPool, hEq]
    exact frame_of_page (by omega) (by omega)
  · have hPlace := (((h.classes i hi16).slabs t ht).place hPool hi).1
    have hAddress := ((h.classes i hi16).ring.slabs t ht).address
    apply hPage.slabs i hi16 t ht
    apply pageAddress_inj
    rw [← hAddress, ← hStart]
    omega

theorem kmallocCreate_inPage (hClass : ∀ k < 16, (s.caches k).size = kmallocSize k) {i p : Nat}
    (hi : i < 5) (hAlloc : allocPages s.held = some p)
    (kmalloc : Nat → State → Option (Option Nat × State)) :
    kmallocCreate allocPages kmalloc (s.caches i).size s =
      some (some (slabInPage (kmallocSize i) p), { s with held := p :: s.held }) := by
  have hi16 : i < 16 := hi.trans (by decide)
  unfold kmallocCreate
  rw [hAlloc, hClass i hi16]
  exact if_pos ((inPage_iff i hi16).mpr hi)

/-- A full size gets the slab that is made of `p`. -/
theorem kmalloc_small_new (h : Inv s objs) {size i p : Nat} (hIndex : index size = some i) (hi : i < 5)
    (hLe : size ≤ 1048576) (hFull : (s.caches i).totalFree = 0) (hPage : allocPages s.held = some p)
    (hNew : p ∉ s.held) (depth : Nat) :
    ∃ a t, kmalloc allocPages (depth + 1) size s = some (some a, t) ∧
      Inv t (⟨a, size⟩ :: objs) ∧ Touches s t i ∧ t.held = p :: s.held ∧
      (t.caches i).totalFree = createdCount i - 1 := by
  have hi16 := (index_some hIndex).1
  have hUnowned := h.unowned_new hNew
  have hGrown := h.alloc p
  have hFresh := slabInPage_fresh hi p
  have hJoin := join_inv hGrown hi16 hFull hFresh hUnowned rfl
    (header_new_inPage hGrown hi hUnowned) fun _ => ⟨slabInPage_header hi p, rfl⟩
  obtain ⟨a, j, t, hTake, hInv, hTouches, hCache, hHeld⟩ :=
    createTake_spec hi16 hFresh hJoin hIndex hLe
  refine ⟨a, t, ?_, hInv, ?_, hHeld, ?_⟩
  · rw [kmalloc_eq h hIndex hLe, if_neg (not_not.mpr hFull),
      kmallocCreate_inPage (fun k hk => (h.classes k hk).size) hi hPage]
    exact hTake
  · constructor
    · intro k hk
      rw [hTouches.others k hk, setCache_other _ _ hk]
    · intro q hq
      have hNe : p ≠ q := by
        rintro rfl
        exact hNew hq.held
      exact hTouches.unowned q ((hq.alloc p).join hi16 hNe)
  · rw [hCache]
    change (s.caches i).totalFree + (slabInPage (kmallocSize i) p).colorCount - 1 = _
    rw [hFull, hFresh.count, zero_add]

theorem small_le {size i : Nat} (hIndex : index size = some i) (hi : i < 5) : size ≤ 1048576 := by
  have hBound : ∀ k < 5, kmallocSize k ≤ 1048576 := by decide
  exact (index_some hIndex).2.trans (hBound i hi)

theorem kmalloc_small (h : Inv s objs) (hAlloc : NeverFails allocPages) {size i : Nat}
    (hIndex : index size = some i) (hi : i < 5) (depth : Nat) :
    ∃ a t, kmalloc allocPages (depth + 1) size s = some (some a, t) ∧
      Inv t (⟨a, size⟩ :: objs) ∧ Touches s t i := by
  have hLe := small_le hIndex hi
  by_cases hFree : (s.caches i).totalFree ≠ 0
  · obtain ⟨a, pos, sl, j, hAt, hCall, hInv⟩ := kmalloc_search h hIndex hLe hFree depth
    exact ⟨a, _, hCall, hInv, takeAt_touches (index_some hIndex).1 hAt⟩
  · obtain ⟨p, hPage, hNew⟩ := hAlloc s.held
    obtain ⟨a, t, hCall, hInv, hTouches, -⟩ :=
      kmalloc_small_new h hIndex hi hLe (not_not.mp hFree) hPage hNew depth
    exact ⟨a, t, hCall, hInv, hTouches⟩

/-! ## One object back -/

/-- Where an object is. -/
structure At (s : State) (o : Obj) (i pos : Nat) (sl : Slab) (j : Nat) : Prop where
  lt : i < 16
  index : index o.size = some i
  ring : (s.caches i).ring[pos]? = some sl
  slot : j < sl.colorCount
  isUsed : sl.isUsed j = true
  address : o.address = sl.object (s.caches i).size j

theorem At.mem {o : Obj} {i pos j : Nat} {sl : Slab} (h : At s o i pos sl j) :
    sl ∈ (s.caches i).ring := List.mem_of_getElem? h.ring

theorem Inv.nodup_objs (h : Inv s objs) : objs.Nodup := h.nodup.of_map _

theorem Inv.give (h : Inv s objs) {o : Obj} (ho : o ∈ objs) {i : Nat} (hi : i < 16)
    (hIndex : index o.size = some i) {c : SlabCache} (hClass : ClassInv i c)
    (hSpares : Kmalloc.spares c ≤ 1) (hPool : c.cachePool = (s.caches i).cachePool)
    (hPages : ∀ t ∈ c.ring, t.page ∈ (s.caches i).ring.map Slab.page)
    (hHolds : ∀ a, RingHolds c.ring c.size a ↔
      RingHolds (s.caches i).ring (s.caches i).size a ∧ a ≠ o.address) :
    Inv (s.setCache i c) (objs.erase o) := by
  refine h.setCache hi hClass hSpares hPool (fun t ht => Or.inl (hPages t ht)) ?_ ?_ ?_ ?_
  · intro a
    rw [hHolds, h.objects i hi]
    constructor
    · rintro ⟨⟨u, hu, rfl, hU⟩, hNe⟩
      refine ⟨u, (h.nodup_objs.mem_erase_iff).mpr ⟨?_, hu⟩, rfl, hU⟩
      rintro rfl
      exact hNe rfl
    · rintro ⟨u, hu, rfl, hU⟩
      obtain ⟨hNe, hu⟩ := h.nodup_objs.mem_erase_iff.mp hu
      exact ⟨⟨u, hu, rfl, hU⟩, fun hEq => hNe (List.inj_on_of_nodup_map h.nodup hu ho hEq)⟩
  · intro u hU
    refine List.mem_erase_of_ne ?_
    rintro rfl
    exact hU hIndex
  · exact fun u hu => h.sizes u (List.mem_of_mem_erase hu)
  · exact h.nodup.sublist (List.erase_sublist.map _)

theorem giveAt_holds (h : Inv s objs) {o : Obj} {i pos j : Nat} {sl : Slab} (hAt : At s o i pos sl j)
    (a : Nat) : RingHolds (giveAt (s.caches i) pos sl j).ring (s.caches i).size a ↔
      RingHolds (s.caches i).ring (s.caches i).size a ∧ a ≠ o.address := by
  rw [hAt.address]
  exact (giveAt_inv (h.classes i hAt.lt) hAt.ring hAt.slot hAt.isUsed).2 a

theorem giveAt_at {o : Obj} {i pos j : Nat} {sl : Slab} (hAt : At s o i pos sl j) :
    (giveAt (s.caches i) pos sl j).ring[pos]? = some (sl.give j) := by
  obtain ⟨hPos, -⟩ := List.getElem?_eq_some_iff.mp hAt.ring
  exact List.getElem?_set_self hPos

theorem giveAt_pages {o : Obj} {i pos j : Nat} {sl t : Slab} (hAt : At s o i pos sl j)
    (ht : t ∈ (giveAt (s.caches i) pos sl j).ring) : t.page ∈ (s.caches i).ring.map Slab.page := by
  obtain hOld | rfl := List.mem_or_eq_of_mem_set ht
  · exact List.mem_map_of_mem hOld
  · exact List.mem_map.mpr ⟨sl, hAt.mem, rfl⟩

theorem kept_inv (h : Inv s objs) {o : Obj} (ho : o ∈ objs) {i pos j : Nat} {sl : Slab}
    (hAt : At s o i pos sl j) (hKept : ¬ Releases (giveAt (s.caches i) pos sl j) (sl.give j)) :
    Inv (s.setCache i (giveAt (s.caches i) pos sl j)) (objs.erase o) := by
  have hClass := h.classes i hAt.lt
  have hGiven := (giveAt_inv hClass hAt.ring hAt.slot hAt.isUsed).1
  have hSpares := (giveAt_spares hClass (h.spares i hAt.lt) hAt.ring hAt.slot hAt.isUsed).1 hKept
  exact h.give ho hAt.lt hAt.index hGiven hSpares rfl (fun t ht => giveAt_pages hAt ht)
    (giveAt_holds h hAt)

/-- The slab leaves the ring, and its page is nobody's. -/
theorem dropped_inv (h : Inv s objs) {o : Obj} (ho : o ∈ objs) {i pos j : Nat} {sl : Slab}
    (hAt : At s o i pos sl j) (hDrop : Releases (giveAt (s.caches i) pos sl j) (sl.give j)) :
    Inv (s.setCache i (dropAt (giveAt (s.caches i) pos sl j) pos (sl.give j))) (objs.erase o) ∧
      Unowned (s.setCache i (dropAt (giveAt (s.caches i) pos sl j) pos (sl.give j))) sl.page := by
  have hClass := h.classes i hAt.lt
  have hGiven := (giveAt_inv hClass hAt.ring hAt.slot hAt.isUsed).1
  have hSpares := (giveAt_spares hClass (h.spares i hAt.lt) hAt.ring hAt.slot hAt.isUsed).2
  obtain ⟨hDropped, hHolds⟩ :=
    dropAt_inv hGiven (giveAt_at hAt) hDrop.1 fun hEq => hDrop.2.2 hEq.symm
  have hSub : ∀ t ∈ (dropAt (giveAt (s.caches i) pos sl j) pos (sl.give j)).ring,
      t ∈ (giveAt (s.caches i) pos sl j).ring := fun t ht => List.mem_of_mem_eraseIdx ht
  constructor
  · exact h.give ho hAt.lt hAt.index hDropped hSpares rfl (fun t ht => giveAt_pages hAt (hSub t ht))
      fun a => (hHolds a).trans (giveAt_holds h hAt a)
  · constructor
    · exact h.held i hAt.lt sl hAt.mem
    · refine setCache_forall (P := fun _ c => ∀ t ∈ c.ring, t.page ≠ sl.page) (fun _ t ht => ?_)
        fun k hk hNe t ht => h.apart k hk i hAt.lt hNe t ht sl hAt.mem
      -- the page was on the ring once
      have hNodup := hGiven.ring.pages
      obtain ⟨before, after, hRing, hLength⟩ := exists_split (giveAt_at hAt)
      rw [hRing, List.map_append, List.map_cons, List.nodup_middle, List.nodup_cons,
        ← List.map_append] at hNodup
      rw [dropAt, hRing, ← hLength, eraseIdx_split] at ht
      exact fun hPage => hNodup.1 (List.mem_map.mpr ⟨t, ht, hPage⟩)
    · have hAway : ∀ k < 16, frame (virtToPhy (s.caches k).cachePool) ≠ sl.page := fun k hk =>
        (h.poolAway k hk i hAt.lt sl hAt.mem).symm
      exact setCache_forall (P := fun _ c => frame (virtToPhy c.cachePool) ≠ sl.page) (hAway i)
        fun k hk _ => hAway k hk

theorem kfree_eq (h : Inv s objs) {o : Obj} (ho : o ∈ objs) :
    ∃ (i pos : Nat) (sl : Slab) (j : Nat), At s o i pos sl j ∧ ∀ depth,
      kfree (depth + 1) o.address s =
        if Releases (giveAt (s.caches i) pos sl j) (sl.give j) then
          (giveBack (kfree depth) s i (giveAt (s.caches i) pos sl j) pos (sl.give j)).map
            fun s => (1, s)
        else some (1, s.setCache i (giveAt (s.caches i) pos sl j)) := by
  obtain ⟨i, _, sl, j, hi, hIndex, hAtAny, hLt, hUsed, hAddress⟩ := h.find ho
  have hIn : sl ∈ (s.caches i).ring := List.mem_of_getElem? hAtAny
  obtain ⟨pos, hOwner, hAt⟩ := h.findOwner_spec hi hIn
  refine ⟨i, pos, sl, j, ⟨hi, hIndex, hAt, hLt, hUsed, hAddress⟩, fun depth => ?_⟩
  have hBase := h.base hi hIn ⟨j, hLt, hUsed, hAddress⟩
  have hSlot : (o.address - sl.vaddress) / (s.caches i).size = j := by
    rw [hAddress]
    exact object_index sl (h.classes i hi).size_pos j
  rw [kfree, hBase, hOwner, Option.bind_some]
  dsimp only
  rw [hAt, Option.bind_some, hSlot]

theorem giveAt_touches {o : Obj} {i pos j : Nat} {sl : Slab} (hAt : At s o i pos sl j) :
    Touches s (s.setCache i (giveAt (s.caches i) pos sl j)) i := by
  refine setCache_touches (c := giveAt (s.caches i) pos sl j) rfl fun p hp t ht hPage => ?_
  obtain ⟨u, hu, hEq⟩ := List.mem_map.mp (giveAt_pages hAt ht)
  exact hp.slabs i hAt.lt u hu (hEq.trans hPage)

theorem dropAt_touches {o : Obj} {i pos j : Nat} {sl : Slab} (hAt : At s o i pos sl j) :
    Touches s (s.setCache i (dropAt (giveAt (s.caches i) pos sl j) pos (sl.give j))) i := by
  refine setCache_touches (c := dropAt (giveAt (s.caches i) pos sl j) pos (sl.give j)) rfl
    fun p hp t ht hPage => ?_
  obtain ⟨u, hu, hEq⟩ := List.mem_map.mp (giveAt_pages hAt (List.mem_of_mem_eraseIdx ht))
  exact hp.slabs i hAt.lt u hu (hEq.trans hPage)

theorem kfree_small (h : Inv s objs) {o : Obj} (ho : o ∈ objs) {i : Nat}
    (hIndex : index o.size = some i) (hi : i < 5) (depth : Nat) :
    ∃ t, kfree (depth + 1) o.address s = some (1, t) ∧ Inv t (objs.erase o) ∧ Touches s t i := by
  obtain ⟨k, pos, sl, j, hAt, hCall⟩ := kfree_eq h ho
  cases Option.some.inj (hAt.index.symm.trans hIndex)
  by_cases hDrop : Releases (giveAt (s.caches i) pos sl j) (sl.give j)
  · obtain ⟨hInv, hUnowned⟩ := dropped_inv h ho hAt hDrop
    have hSize : (giveAt (s.caches i) pos sl j).size ∈ sizesInPage := by
      have hSizeEq := (h.classes i hAt.lt).size
      show (s.caches i).size ∈ sizesInPage
      rw [hSizeEq]
      exact (inPage_iff i hAt.lt).mpr hi
    refine ⟨_, ?_, hInv.freePage hUnowned, ?_⟩
    · rw [hCall, if_pos hDrop, giveBack, if_pos hSize]
      rfl
    · have hTouches := dropAt_touches hAt
      refine ⟨hTouches.others, fun p hp => (hTouches.unowned p hp).freePage ?_⟩
      exact (hp.slabs i hAt.lt sl hAt.mem).symm
  · refine ⟨_, ?_, kept_inv h ho hAt hDrop, giveAt_touches hAt⟩
    rw [hCall, if_neg hDrop]

end

end KalinoteOS.Memory.Kmalloc
