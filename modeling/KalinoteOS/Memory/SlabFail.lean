import KalinoteOS.Memory.FirstFit
import KalinoteOS.Memory.Storage

/-! # Failing `slab_create` and `slab_malloc`

Both take a header, a page and a bitmap, and each failure gives back what was taken before it. The
reference that `page_init` counts is not taken back.
-/
namespace KalinoteOS.Memory
open Lib Pages
open Boot (pageInit)
set_option autoImplicit false

/-- `sizeof(struct Slab_cache)`. -/
def sizeofSlabCache : Nat := 56

namespace Storage

/-- Page and bitmap of a new slab, in both functions; `none` when the count of objects divides by 0
or `kmalloc` follows a null pointer. -/
def pageAndMap (size : Nat) (w : Storage) : Option (Option (Nat × Nat) × Storage) :=
  match allocPages w.m zoneNormal 1 with
  | (none, _) => some (none, w)
  | (some page, m) =>
    let w := { w with m := pageInit m page pgKernel }
    if size = 0 then none
    else
      match w.kmalloc (colorLengthOf (page2M / size)) with
      | none => none
      | some (none, w) => some (none, { w with m := freePages w.m (some page) 1 })
      | some (some colorMap, w) => some (some (page, colorMap), w)

def slabCreate (size : Nat) (w : Storage) : Option (Option SlabCache × Storage) :=
  match w.kmalloc sizeofSlabCache with
  | none => none
  | some (none, w) => some (none, w)
  | some (some cache, w) =>
    match w.kmalloc sizeofSlab with
    | none => none
    | some (none, w) => (w.kfree cache).map fun w => (none, w)
    | some (some header, w) =>
      match w.pageAndMap (Cache.sizeofLongAlign size) with
      | none => none
      | some (none, w) => (w.kfree header).bind fun w => (w.kfree cache).map fun w => (none, w)
      | some (some (page, colorMap), w) =>
        some (Cache.slabCreate size (some cache) ⟨some header, some page, some colorMap⟩, w)

def slabMalloc (fuel : Nat) (c : SlabCache) (w : Storage) : Option (Option Nat × SlabCache × Storage) :=
  if c.totalFree = 0 then
    match w.kmalloc sizeofSlab with
    | none => none
    | some (none, w) => some (none, c, w)
    | some (some header, w) =>
      match w.pageAndMap c.size with
      | none => none
      | some (none, w) => (w.kfree header).map fun w => (none, c, w)
      | some (some (page, colorMap), w) =>
        (Cache.mallocNew c ⟨some header, some page, some colorMap⟩).bind fun (address, c) =>
          match address with
          | some address => some (some address, c, w)
          | none =>
            (w.kfree colorMap).bind fun w =>
              ({ w with m := givePage w.m page }.kfree header).map fun w => (none, c, w)
  else (Cache.mallocSearch fuel c).map fun (address, c) => (address, c, w)

end Storage

/-- The set bits of the bitmaps of `kmalloc` are the objects in `live` and its own, and but for its
own pages the page allocator is as before. -/
structure GivenBack (w : Storage) (live : List Kmalloc.Obj) (w' : Storage) : Prop where
  objects : ∀ k < 16, ∀ a, RingHolds (w'.heap.caches k).ring (w'.heap.caches k).size a ↔
    ∃ o ∈ live ++ Kmalloc.internal w'.heap, o.address = a ∧ Kmalloc.index o.size = some k
  pages : Follows w w'

/-- The bitmap of a slab fails, and its page does not come back without a trace. -/
def LosesPage (size : Nat) (w : Storage) : Prop :=
  ∃ page m w', allocPages w.m zoneNormal 1 = (some page, m) ∧ size ≠ 0 ∧
    Storage.kmalloc (colorLengthOf (page2M / size)) { w with m := pageInit m page pgKernel } =
      some (none, w') ∧
    ¬ Traceless w.m page

def CreateLosesPage (size : Nat) (w : Storage) : Prop :=
  ∃ cache w₁ header w₂, w.kmalloc sizeofSlabCache = some (some cache, w₁) ∧
    w₁.kmalloc sizeofSlab = some (some header, w₂) ∧ LosesPage (Cache.sizeofLongAlign size) w₂

def MallocLosesPage (c : SlabCache) (w : Storage) : Prop :=
  c.totalFree = 0 ∧ ∃ header w₁, w.kmalloc sizeofSlab = some (some header, w₁) ∧ LosesPage c.size w₁

section
variable {words : Nat} {w w' : Storage} {live : List Kmalloc.Obj} {owned : List Nat}

theorem colorLength_le (count : Nat) (hLe : count ≤ page2M) : colorLengthOf count ≤ 1048576 := by
  unfold colorLengthOf page2M at *
  omega

theorem div_le_page (size : Nat) : page2M / size ≤ page2M := Nat.div_le_self _ _

/-! ## The page of a failing call -/

theorem StorageInv.initPage (h : StorageInv words w live owned) {page : Nat} {m : Management}
    (hPage : allocPages w.m zoneNormal 1 = (some page, m)) :
    StorageInv words { w with m := pageInit m page pgKernel } live (page :: owned) :=
  ⟨h.heap, (h.pages.init hPage).perm List.perm_middle.symm⟩

theorem StorageInv.freePage {page : Nat} (h : StorageInv words w live (page :: owned)) :
    StorageInv words { w with m := freePages w.m (some page) 1 } live owned :=
  ⟨h.heap, (h.pages.perm List.perm_middle).freePage⟩

/-- Page and bitmap fail: either the pages are as before, or one is lost. -/
theorem StorageInv.pageAndMap_null (h : StorageInv words w live owned) {size : Nat}
    (hNull : w.pageAndMap size = some (none, w')) :
    StorageInv words w' live owned ∧ w'.moves = w.moves ∧
      ((¬ LosesPage size w ∧ w'.m = w.m) ∨
        LosesPage size w ∧ ∃ e d, Shifted e d w.m w'.m ∧ (e ≠ 0 ∨ d ≠ 0)) := by
  unfold Storage.pageAndMap at hNull
  split at hNull
  · next hPage =>
    obtain rfl := (Prod.mk.inj (Option.some.inj hNull)).2
    refine ⟨h, rfl, Or.inl ⟨?_, rfl⟩⟩
    rintro ⟨page, m, _, hSome, -⟩
    cases (Prod.mk.inj (hPage.symm.trans hSome)).1
  · next page m hPage =>
    have hInit := h.initPage hPage
    dsimp only at hNull
    split at hNull
    · cases hNull
    · next hSize =>
      split at hNull
      · cases hNull
      · next w₁ hMap =>
        obtain rfl := hInit.kmalloc_null (colorLength_le _ (div_le_page size)) hMap
        obtain rfl := (Prod.mk.inj (Option.some.inj hNull)).2
        refine ⟨hInit.freePage, rfl, ?_⟩
        obtain ⟨hTraceless, hSame⟩ | ⟨hNot, hShifted⟩ := undo_cases h.pages hPage
        · left
          refine ⟨?_, hSame⟩
          rintro ⟨page', _, _, hPage', -, -, hNot⟩
          obtain rfl := Option.some.inj (Prod.mk.inj (hPage.symm.trans hPage')).1
          exact hNot hTraceless
        · right
          exact ⟨⟨page, m, _, hPage, hSize, hMap, hNot⟩, hShifted⟩
      · cases hNull

/-- What follows gives pages back on both sides, so a lost page stays lost. -/
theorem follows_iff {w₁ w₂ w₃ : Storage} {size : Nat} (hBefore : Follows w w₁)
    (hMoves : w₂.moves = w₁.moves)
    (hUndone : (¬ LosesPage size w₁ ∧ w₂.m = w₁.m) ∨
      LosesPage size w₁ ∧ ∃ e d, Shifted e d w₁.m w₂.m ∧ (e ≠ 0 ∨ d ≠ 0))
    (hGives : Gives w₂ w₃) : Follows w w₃ ↔ ¬ LosesPage size w₁ := by
  obtain ⟨hNot, hSame⟩ | ⟨hLoses, e, d, hShifted, hNonzero⟩ := hUndone
  · have hStill : Follows w₁ w₂ := ⟨[], by rw [hMoves, List.append_nil], hSame⟩
    exact iff_of_true (hBefore.trans (hStill.trans hGives.follows)) hNot
  · refine iff_of_false ?_ (not_not.mpr hLoses)
    rintro ⟨moves, hAll, hReplay⟩
    obtain ⟨first, hMoves₁, hReplay₁⟩ := hBefore
    obtain ⟨pages, hMoves₃, hReplay₃⟩ := hGives
    have hSplit : moves = first ++ pages.map .give := by
      rw [hMoves₃, hMoves, hMoves₁, List.append_assoc] at hAll
      exact (List.append_cancel_left hAll).symm
    have hEq : replay w₂.m (pages.map .give) = replay w₁.m (pages.map .give) := by
      rw [← hReplay₃, hReplay, hSplit, replay_append, hReplay₁]
    have hAfter := hShifted.gives pages
    rw [hEq] at hAfter
    obtain hReference | hUsing := hNonzero
    · apply hReference
      funext p
      have hAt := hAfter.reference p
      rw [Pi.zero_apply]
      omega
    · apply hUsing
      funext i
      have hAt := hAfter.usedPages i
      rw [Pi.zero_apply]
      omega

/-! ## The whole calls -/

theorem StorageInv.kfree_head {a size : Nat} (h : StorageInv words w (⟨a, size⟩ :: live) owned)
    (hCall : w.kfree a = some w') : StorageInv words w' live owned ∧ Gives w w' := by
  have hFreed := h.kfree_some List.mem_cons_self hCall
  rw [List.erase_cons_head] at hFreed
  exact hFreed

theorem createLosesPage_iff {size cache header : Nat} {w₁ w₂ : Storage}
    (hCache : w.kmalloc sizeofSlabCache = some (some cache, w₁))
    (hHeader : w₁.kmalloc sizeofSlab = some (some header, w₂)) :
    CreateLosesPage size w ↔ LosesPage (Cache.sizeofLongAlign size) w₂ := by
  constructor
  · rintro ⟨cache', w₁', header', w₂', hCache', hHeader', hLoses⟩
    obtain ⟨-, rfl⟩ := Prod.mk.inj (Option.some.inj (hCache.symm.trans hCache'))
    obtain ⟨-, rfl⟩ := Prod.mk.inj (Option.some.inj (hHeader.symm.trans hHeader'))
    exact hLoses
  · exact fun hLoses => ⟨cache, w₁, header, w₂, hCache, hHeader, hLoses⟩

theorem mallocLosesPage_iff {c : SlabCache} {header : Nat} {w₁ : Storage} (hFull : c.totalFree = 0)
    (hHeader : w.kmalloc sizeofSlab = some (some header, w₁)) :
    MallocLosesPage c w ↔ LosesPage c.size w₁ := by
  constructor
  · rintro ⟨-, header', w₁', hHeader', hLoses⟩
    obtain ⟨-, rfl⟩ := Prod.mk.inj (Option.some.inj (hHeader.symm.trans hHeader'))
    exact hLoses
  · exact fun hLoses => ⟨hFull, header, w₁, hHeader, hLoses⟩

theorem StorageInv.slabCreate_null (h : StorageInv words w live owned) {size : Nat}
    (hNull : w.slabCreate size = some (none, w')) :
    StorageInv words w' live owned ∧ (Follows w w' ↔ ¬ CreateLosesPage size w) := by
  unfold Storage.slabCreate at hNull
  split at hNull
  · cases hNull
  · next w₁ hCache =>
    obtain rfl := h.kmalloc_null (by decide) hCache
    obtain rfl := (Prod.mk.inj (Option.some.inj hNull)).2
    refine ⟨h, iff_of_true (Follows.refl _) ?_⟩
    rintro ⟨cache, _, _, _, hSome, -⟩
    cases (Prod.mk.inj (Option.some.inj (hCache.symm.trans hSome))).1
  · next cache w₁ hCache =>
    obtain ⟨hInv₁, hFollows₁⟩ := h.kmalloc_some (by decide) hCache
    split at hNull
    · cases hNull
    · next w₂ hHeader =>
      obtain rfl := hInv₁.kmalloc_null (by decide) hHeader
      obtain ⟨w₃, hFree, hEq⟩ := Option.map_eq_some_iff.mp hNull
      obtain rfl := (Prod.mk.inj hEq).2
      obtain ⟨hInv₃, hGives⟩ := hInv₁.kfree_head hFree
      refine ⟨hInv₃, iff_of_true (hFollows₁.trans hGives.follows) ?_⟩
      rintro ⟨cache', w₁', header, _, hCache', hSome, -⟩
      obtain ⟨-, rfl⟩ := Prod.mk.inj (Option.some.inj (hCache.symm.trans hCache'))
      cases (Prod.mk.inj (Option.some.inj (hHeader.symm.trans hSome))).1
    · next header w₂ hHeader =>
      obtain ⟨hInv₂, hFollows₂⟩ := hInv₁.kmalloc_some (by decide) hHeader
      split at hNull
      · cases hNull
      · next w₃ hPage =>
        obtain ⟨hInv₃, hMoves, hUndone⟩ := hInv₂.pageAndMap_null hPage
        obtain ⟨w₄, hFreeHeader, hRest⟩ := Option.bind_eq_some_iff.mp hNull
        obtain ⟨w₅, hFreeCache, hEq⟩ := Option.map_eq_some_iff.mp hRest
        obtain rfl := (Prod.mk.inj hEq).2
        obtain ⟨hInv₄, hGives₄⟩ := hInv₃.kfree_head hFreeHeader
        obtain ⟨hInv₅, hGives₅⟩ := hInv₄.kfree_head hFreeCache
        rw [createLosesPage_iff hCache hHeader]
        exact ⟨hInv₅, follows_iff (hFollows₁.trans hFollows₂) hMoves hUndone
          (hGives₄.trans hGives₅)⟩
      · cases (Prod.mk.inj (Option.some.inj hNull)).1

/-- Page and bitmap are there only where the count of objects is a division that is done. -/
theorem pageAndMap_some {size page colorMap : Nat}
    (hSome : w.pageAndMap size = some (some (page, colorMap), w')) : 0 < size := by
  unfold Storage.pageAndMap at hSome
  split at hSome
  · cases (Prod.mk.inj (Option.some.inj hSome)).1
  · dsimp only at hSome
    split at hSome
    · cases hSome
    · next hSize => exact Nat.pos_of_ne_zero hSize

/-- The first object of a new slab is clear, so the loop of `slab_malloc` finds it. -/
theorem mallocNew_finds {c c' : SlabCache} (hPos : 0 < c.size) (hLe : c.size ≤ page2M)
    {header page colorMap : Nat} {address : Option Nat}
    (hCall : Cache.mallocNew c ⟨some header, some page, some colorMap⟩ = some (address, c')) :
    address ≠ none := by
  have hScan := Cache.newSlab_scan c.size header page colorMap (Cache.count_pos hPos hLe)
  unfold Cache.mallocNew at hCall
  obtain ⟨first, -, hEq⟩ := Option.map_eq_some_iff.mp hCall
  dsimp only at hEq hScan
  rw [hScan] at hEq
  rw [← (Prod.mk.inj hEq).1]
  exact Option.some_ne_none _

theorem mallocSearch_null {c c' : SlabCache} {fuel : Nat}
    (hCall : Cache.mallocSearch fuel c = some (none, c')) : c' = c := by
  obtain ⟨first, -, hRest⟩ := Option.bind_eq_some_iff.mp hCall
  obtain ⟨found, -, hFound⟩ := Option.bind_eq_some_iff.mp hRest
  cases found with
  | none => exact (Prod.mk.inj (Option.some.inj hFound)).2.symm
  | some place =>
    obtain ⟨sl, -, hTake⟩ := Option.map_eq_some_iff.mp hFound
    cases (Prod.mk.inj hTake).1

theorem StorageInv.slabMalloc_null (h : StorageInv words w live owned) {c c' : SlabCache} {fuel : Nat}
    (hLe : c.size ≤ page2M) (hNull : w.slabMalloc fuel c = some (none, c', w')) :
    StorageInv words w' live owned ∧ c' = c ∧ (Follows w w' ↔ ¬ MallocLosesPage c w) := by
  unfold Storage.slabMalloc at hNull
  split at hNull
  · next hFull =>
    split at hNull
    · cases hNull
    · next w₁ hHeader =>
      obtain rfl := h.kmalloc_null (by decide) hHeader
      obtain ⟨-, hSame⟩ := Prod.mk.inj (Option.some.inj hNull)
      obtain ⟨rfl, rfl⟩ := Prod.mk.inj hSame
      refine ⟨h, rfl, iff_of_true (Follows.refl _) ?_⟩
      rintro ⟨-, header, _, hSome, -⟩
      cases (Prod.mk.inj (Option.some.inj (hHeader.symm.trans hSome))).1
    · next header w₁ hHeader =>
      obtain ⟨hInv₁, hFollows₁⟩ := h.kmalloc_some (by decide) hHeader
      split at hNull
      · cases hNull
      · next w₂ hPage =>
        obtain ⟨hInv₂, hMoves, hUndone⟩ := hInv₁.pageAndMap_null hPage
        obtain ⟨w₃, hFree, hEq⟩ := Option.map_eq_some_iff.mp hNull
        obtain ⟨rfl, rfl⟩ := Prod.mk.inj (Prod.mk.inj hEq).2
        obtain ⟨hInv₃, hGives⟩ := hInv₂.kfree_head hFree
        rw [mallocLosesPage_iff hFull hHeader]
        exact ⟨hInv₃, rfl, follows_iff hFollows₁ hMoves hUndone hGives⟩
      · next page colorMap w₂ hPage =>
        -- a new slab has an object to give, so the exit behind the loop is not reached
        obtain ⟨⟨address, c₁⟩, hNew, hRest⟩ := Option.bind_eq_some_iff.mp hNull
        cases address with
        | none => exact absurd rfl (mallocNew_finds (pageAndMap_some hPage) hLe hNew)
        | some address => cases (Prod.mk.inj (Option.some.inj hRest)).1
  · next hFree =>
    obtain ⟨⟨address, c₁⟩, hSearch, hEq⟩ := Option.map_eq_some_iff.mp hNull
    obtain ⟨rfl, hSame⟩ := Prod.mk.inj hEq
    obtain ⟨rfl, rfl⟩ := Prod.mk.inj hSame
    refine ⟨h, mallocSearch_null hSearch, iff_of_true (Follows.refl _) ?_⟩
    exact fun hLoses => hFree hLoses.1

theorem StorageInv.givenBack_iff (h : StorageInv words w' live owned) :
    GivenBack w live w' ↔ Follows w w' :=
  ⟨fun hGiven => hGiven.pages, fun hFollows => ⟨fun k hk a => h.heap.objects k hk a, hFollows⟩⟩

end

/-- A call that returns `NULL` gives everything back, or it leaves a trace on the page. -/
theorem slab_givesBack_iff (words : Nat) (u : Users)
    (hReach : Reach (Users.Initial words) (Users.Step words) u) :
    (∀ size w', u.storage.slabCreate size = some (none, w') →
      (GivenBack u.storage u.live w' ↔ ¬ CreateLosesPage size u.storage)) ∧
    ∀ fuel c c' w', c.size ≤ page2M → u.storage.slabMalloc fuel c = some (none, c', w') →
      (GivenBack u.storage u.live w' ∧ c' = c ↔ ¬ MallocLosesPage c u.storage) := by
  have h := Users.reach_inv hReach
  constructor
  · intro size w' hNull
    obtain ⟨hInv, hIff⟩ := h.slabCreate_null hNull
    exact hInv.givenBack_iff.trans hIff
  · intro fuel c c' w' hLe hNull
    obtain ⟨hInv, hSame, hIff⟩ := h.slabMalloc_null hLe hNull
    rw [hInv.givenBack_iff, and_iff_left hSame]
    exact hIff

/-! ## Running out -/

section
variable {words : Nat} {w : Storage} {live : List Kmalloc.Obj} {owned : List Nat}
  (h : StorageInv words w live owned)
  {size k : Nat} (hIndex : Kmalloc.index size = some k) (hLe : size ≤ 1048576)
include h hIndex hLe

theorem StorageInv.kmalloc_one (hSome : (w.heap.caches k).totalFree ≠ 0) :
    ∃ a t, w.kmalloc size = some (some a, { w with heap := t }) ∧
      (t.caches k).totalFree = (w.heap.caches k).totalFree - 1 ∧
      ∀ q, q ≠ k → t.caches q = w.heap.caches q := by
  obtain ⟨a, t, hCall, hLess, hSame, hHeld⟩ :=
    Kmalloc.kmalloc_one h.heap hIndex hLe hSome (Storage.supply w.m w.heap.held)
  refine ⟨a, t, ?_, hLess, hSame⟩
  unfold Storage.kmalloc Storage.moved
  rw [hCall, Option.map_some]
  dsimp only
  rw [hHeld, Nat.sub_self, List.replicate_zero, List.append_nil]
  rfl

theorem StorageInv.kmalloc_out (hFull : (w.heap.caches k).totalFree = 0)
    (hNone : allocPages w.m zoneNormal 1 = (none, w.m)) : w.kmalloc size = some (none, w) := by
  have hSupply : Storage.supply w.m w.heap.held w.heap.held = none := by
    unfold Storage.supply
    rw [Nat.sub_self, List.replicate_zero]
    exact congrArg Prod.fst hNone
  unfold Storage.kmalloc Storage.moved
  rw [Kmalloc.kmalloc_eq h.heap hIndex hLe, if_neg (not_not.mpr hFull),
    Kmalloc.kmallocCreate_null hSupply, Option.map_some]
  dsimp only
  rw [Nat.sub_self, List.replicate_zero, List.append_nil]
  rfl

end

theorem Users.exhaust {words k : Nat} (hk : k < 16) (n : Nat) {u : Users}
    (hReach : Reach (Initial words) (Step words) u) (hFree : (u.storage.heap.caches k).totalFree = n) :
    ∃ t, Reach (Initial words) (Step words) t ∧ (t.storage.heap.caches k).totalFree = 0 ∧
      (∀ q, q ≠ k → t.storage.heap.caches q = u.storage.heap.caches q) ∧
      t.storage.m = u.storage.m := by
  induction n generalizing u with
  | zero => exact ⟨u, hReach, hFree, fun _ _ => rfl, rfl⟩
  | succ n ih =>
    have hSome : (u.storage.heap.caches k).totalFree ≠ 0 := by omega
    have hLe := Kmalloc.kmallocSize_le k hk
    obtain ⟨a, heap, hCall, hLess, hSame⟩ :=
      (reach_inv hReach).kmalloc_one (Kmalloc.index_kmallocSize k hk) hLe hSome
    have hNext := hReach.next (.kmalloc hLe hCall)
    have hFreeNext : (heap.caches k).totalFree = n := by omega
    obtain ⟨t, hReachT, hZero, hOthers, hPages⟩ := ih hNext hFreeNext
    exact ⟨t, hReachT, hZero, fun q hq => (hOthers q hq).trans (hSame q hq), hPages⟩

theorem allocPages_full {m : Management} (hFull : ∀ p, m.bitsMap.used p = true) :
    allocPages m zoneNormal 1 = (none, m) := by
  cases hCall : allocPages m zoneNormal 1 with
  | mk page m' =>
    cases page with
    | none => rw [allocPages_none hCall]
    | some page =>
      obtain ⟨_, -, -, hClear⟩ := allocPages_normal hCall
      rw [hFull] at hClear
      cases hClear

def allUsed : Words := fun _ => BitVec.allOnes 64

/-- One zone that ends behind page `last`. -/
def oneZone (bits : Words) (last free : Nat) : Management where
  bitsMap := bits
  pages p := ⟨0, p * 2 ^ 21, 0, 0⟩
  zones _ := ⟨last + 1, 0, (last + 1) * 2 ^ 21, last + 1 - free, free, 0⟩
  zonesSize := 1
  zoneDmaIndex := 0
  zoneNormalIndex := 0
  zoneUnmapedIndex := 0

theorem used_allUsed (p : Nat) : allUsed.used p = true := Words.used_of_allOnes rfl

theorem used_lastPage (last p : Nat) : (allUsed.clearBit last).used p = decide (p ≠ last) := by
  rw [Words.used_clearBit, used_allUsed, Bool.true_and]

theorem lastPage_single (last : Nat) :
    SingleZone (oneZone (allUsed.clearBit last) last 1) zoneNormal 0 (last + 2) := by
  have hStop : frame ((last + 1) * 2 ^ 21) = last + 1 := Nat.mul_div_cancel _ (by decide)
  have hStart : frame 0 = 0 := by decide
  have hClear : (allUsed.clearBit last).clearBits 0 (64 * (last + 2)) = {last} := by
    ext p
    rw [Words.mem_clearBits, used_lastPage, Finset.mem_singleton, decide_eq_false_iff_not, not_not]
    omega
  constructor
  · change 0 ∈ zoneRange 0 0
    decide
  · intro i hi hNe
    change i ∈ zoneRange 0 0 at hi
    exact absurd (List.mem_singleton.mp hi) hNe
  · change frame ((last + 1) * 2 ^ 21) ≤ _
    omega
  · intro p hp hOut
    change ¬ (frame 0 ≤ p ∧ p < frame ((last + 1) * 2 ^ 21)) at hOut
    change (allUsed.clearBit last).used p = true
    rw [used_lastPage, decide_eq_true_eq]
    omega
  · change (1 : Int) = ((allUsed.clearBit last).clearBits 0 (64 * (last + 2))).card
    rw [hClear, Finset.card_singleton]
    rfl
  · exact fun p _ _ => Nat.mul_div_cancel p (by decide)

theorem lastPage_taken (last : Nat) :
    ∃ m, allocPages (oneZone (allUsed.clearBit last) last 1) zoneNormal 1 = (some last, m) ∧
      ∀ p, m.bitsMap.used p = true := by
  rcases (lastPage_single last).allocPages_cases (le_refl 1) (by decide) with
    ⟨-, hNone⟩ | ⟨p, attr, hCall, hLeast⟩
  · refine absurd ⟨by omega, fun l hl => ?_⟩ (hNone last)
    change (allUsed.clearBit last).used (last + l) = false
    rw [used_lastPage, decide_eq_false_iff_not]
    omega
  · have hClear : (allUsed.clearBit last).used p = false := hLeast.1.2 0 (by decide)
    rw [used_lastPage, decide_eq_false_iff_not, not_not] at hClear
    subst hClear
    refine ⟨_, hCall, fun q => ?_⟩
    have hFrame : frame (p * 2 ^ 21) = p := Nat.mul_div_cancel p (by decide)
    change ((allUsed.clearBit p).setBit (frame (p * 2 ^ 21))).used q = true
    rw [hFrame, Words.used_setBit, used_lastPage, ← Bool.decide_or]
    exact decide_eq_true (ne_or_eq q p)

/-- The heap of `bootHeap` over the pages of `m`. -/
def bootUsers (m : Management) : Users := ⟨⟨Kmalloc.bootHeap.state, m, []⟩, [], []⟩

theorem bootHeap_nodup : Kmalloc.bootHeap.state.held.Nodup := by
  have hTaken := Kmalloc.bootHeap_endOfStruct.takenPages_eq
  change (0 :: Boot.takenPages _).Nodup
  rw [hTaken, List.nodup_cons, List.mem_range'_1]
  exact ⟨by omega, List.nodup_range'⟩

theorem bootUsers_initial {bits : Words} (last free : Nat)
    (hUsed : ∀ p ∈ Kmalloc.bootHeap.state.held, bits.used p = true) :
    Users.Initial (last + 1) (bootUsers (oneZone bits last free)) where
  heap := Kmalloc.bootHeap_initial.1
  pages := by
    refine ⟨bootHeap_nodup, hUsed, fun p _ => Nat.mul_div_cancel p (by decide),
      fun _ _ _ => rfl, fun _ _ => ?_⟩
    change frame ((last + 1) * 2 ^ 21) ≤ _
    unfold frame
    omega
  live := rfl
  owned := rfl

section
variable {words : Nat} {w w' : Storage} {live : List Kmalloc.Obj} {owned : List Nat}

/-- `slab_create` gets its two objects from the pools of 64 and of 128 bytes. -/
theorem StorageInv.headers (h : StorageInv words w live owned)
    (hCacheFree : (w.heap.caches 1).totalFree ≠ 0) (hHeaderFree : (w.heap.caches 2).totalFree ≠ 0) :
    ∃ cache w₁ header w₂, w.kmalloc sizeofSlabCache = some (some cache, w₁) ∧
      w₁.kmalloc sizeofSlab = some (some header, w₂) ∧ w₂.m = w.m ∧
      ∀ q, q ≠ 1 → q ≠ 2 → w₂.heap.caches q = w.heap.caches q := by
  have hIndexCache : Kmalloc.index sizeofSlabCache = some 1 := by decide
  have hIndexHeader : Kmalloc.index sizeofSlab = some 2 := by decide
  obtain ⟨cache, heap₁, hCache, -, hSame₁⟩ := h.kmalloc_one hIndexCache (by decide) hCacheFree
  obtain ⟨hInv₁, -⟩ := h.kmalloc_some (by decide) hCache
  have hFree₁ : (heap₁.caches 2).totalFree ≠ 0 := by
    rw [hSame₁ 2 (by decide)]
    exact hHeaderFree
  obtain ⟨header, heap₂, hHeader, -, hSame₂⟩ :=
    hInv₁.kmalloc_one hIndexHeader (by decide) hFree₁
  exact ⟨cache, _, header, _, hCache, hHeader, rfl,
    fun q hq hq' => (hSame₂ q hq').trans (hSame₁ q hq)⟩

theorem pageAndMap_noPage {size : Nat} {m : Management}
    (hNone : allocPages w.m zoneNormal 1 = (none, m)) : w.pageAndMap size = some (none, w) := by
  unfold Storage.pageAndMap
  rw [hNone]

theorem pageAndMap_noMap {size page : Nat} {m : Management}
    (hPage : allocPages w.m zoneNormal 1 = (some page, m)) (hSize : size ≠ 0)
    (hMap : Storage.kmalloc (colorLengthOf (page2M / size))
      { w with m := pageInit m page pgKernel } = some (none, w')) :
    w.pageAndMap size = some (none, { w' with m := freePages w'.m (some page) 1 }) := by
  unfold Storage.pageAndMap
  rw [hPage]
  dsimp only
  rw [if_neg hSize, hMap]

theorem StorageInv.slabCreate_fails (h : StorageInv words w live owned) {size cache header : Nat}
    {w₁ w₂ w₃ : Storage} (hCache : w.kmalloc sizeofSlabCache = some (some cache, w₁))
    (hHeader : w₁.kmalloc sizeofSlab = some (some header, w₂))
    (hPage : w₂.pageAndMap (Cache.sizeofLongAlign size) = some (none, w₃)) :
    ∃ w', w.slabCreate size = some (none, w') := by
  obtain ⟨hInv₁, -⟩ := h.kmalloc_some (by decide) hCache
  obtain ⟨hInv₂, -⟩ := hInv₁.kmalloc_some (by decide) hHeader
  obtain ⟨hInv₃, -⟩ := hInv₂.pageAndMap_null hPage
  obtain ⟨w₄, hFreeHeader, -⟩ := hInv₃.kfree List.mem_cons_self
  obtain ⟨hInv₄, -⟩ := hInv₃.kfree_head hFreeHeader
  obtain ⟨w₅, hFreeCache, -⟩ := hInv₄.kfree List.mem_cons_self
  refine ⟨w₅, ?_⟩
  unfold Storage.slabCreate
  rw [hCache]
  dsimp only
  rw [hHeader]
  dsimp only
  rw [hPage]
  dsimp only at hFreeHeader hFreeCache ⊢
  rw [hFreeHeader, Option.bind_some, hFreeCache, Option.map_some]

end

/-- One page is left and no object of 32 bytes. -/
theorem lastPage_reached : ∃ u last, Reach (Users.Initial (last + 1)) (Users.Step (last + 1)) u ∧
    u.storage.m = oneZone (allUsed.clearBit last) last 1 ∧
    (u.storage.heap.caches 0).totalFree = 0 ∧ (u.storage.heap.caches 1).totalFree ≠ 0 ∧
    (u.storage.heap.caches 2).totalFree ≠ 0 := by
  have hUsed : ∀ p ∈ Kmalloc.bootHeap.state.held,
      (allUsed.clearBit (Kmalloc.bootHeap.state.held.sum + 1)).used p = true := by
    intro p hp
    have hLe := List.le_sum_of_mem hp
    rw [used_lastPage, decide_eq_true_eq]
    omega
  generalize Kmalloc.bootHeap.state.held.sum + 1 = last at hUsed
  have hCount : (Kmalloc.bootHeap.state.caches 0).totalFree =
      (page2M / Boot.kmallocSize 0 : Nat) := rfl
  have hCache : (Kmalloc.bootHeap.state.caches 1).totalFree ≠ 0 := by decide
  have hHeader : (Kmalloc.bootHeap.state.caches 2).totalFree ≠ 0 := by decide
  obtain ⟨u, hReach, hFull, hOthers, hPages⟩ :=
    Users.exhaust (k := 0) (by decide) _ (.start (bootUsers_initial last 1 hUsed)) hCount
  refine ⟨u, last, hReach, hPages, hFull, ?_, ?_⟩
  · rw [hOthers 1 (by decide)]
    exact hCache
  · rw [hOthers 2 (by decide)]
    exact hHeader

/-- Objects of 2MB there: the bitmap fails, and the page keeps its reference. -/
theorem slab_page_lost : ∃ words u w', Reach (Users.Initial words) (Users.Step words) u ∧
    u.storage.slabCreate page2M = some (none, w') ∧ ¬ GivenBack u.storage u.live w' := by
  obtain ⟨u, last, hReach, hPages, hFull, hCacheFree, hHeaderFree⟩ := lastPage_reached
  have h := Users.reach_inv hReach
  obtain ⟨cache, w₁, header, w₂, hCache, hHeader, hM, hSame⟩ := h.headers hCacheFree hHeaderFree
  obtain ⟨hInv₁, -⟩ := h.kmalloc_some (by decide) hCache
  obtain ⟨hInv₂, -⟩ := hInv₁.kmalloc_some (by decide) hHeader
  obtain ⟨m, hPage, hUsed⟩ := lastPage_taken last
  rw [← hPages, ← hM] at hPage
  have hNoPage : ∀ p, (pageInit m last pgKernel).bitsMap.used p = true := by
    rw [(pageInit_marks m last pgKernel).bits]
    exact hUsed
  have hIndex : Kmalloc.index (colorLengthOf (page2M / Cache.sizeofLongAlign page2M)) = some 0 := by
    decide
  have hMapFull : (w₂.heap.caches 0).totalFree = 0 := by
    rw [hSame 0 (by decide) (by decide)]
    exact hFull
  have hNoMap := (hInv₂.initPage hPage).kmalloc_out hIndex (by decide) hMapFull
    (allocPages_full hNoPage)
  have hReference : (w₂.m.pages last).referenceCount = 0 := by
    rw [hM, hPages]
    rfl
  have hSize : Cache.sizeofLongAlign page2M ≠ 0 := by decide
  have hLoses : CreateLosesPage page2M u.storage :=
    ⟨cache, w₁, header, _, hCache, hHeader, last, m, _, hPage, hSize, hNoMap,
      fun hTraceless => hTraceless.1 hReference⟩
  have hNull := pageAndMap_noMap hPage hSize hNoMap
  obtain ⟨w', hCreate⟩ := h.slabCreate_fails hCache hHeader hNull
  obtain ⟨hInv', hIff⟩ := h.slabCreate_null hCreate
  refine ⟨last + 1, u, w', hReach, hCreate, ?_⟩
  rw [hInv'.givenBack_iff, hIff]
  exact not_not.mpr hLoses

/-- Objects of 64 bytes when no page is left. -/
theorem slab_givesBack_iff_boot : ∃ words u w', Reach (Users.Initial words) (Users.Step words) u ∧
    u.storage.slabCreate 64 = some (none, w') ∧ GivenBack u.storage u.live w' := by
  have hInitial : Users.Initial 1 (bootUsers (oneZone allUsed 0 0)) :=
    bootUsers_initial 0 0 fun p _ => used_allUsed p
  obtain ⟨cache, w₁, header, w₂, hCache, hHeader, hM, -⟩ :=
    hInitial.inv.headers (by decide) (by decide)
  have hNone : allocPages w₂.m zoneNormal 1 = (none, w₂.m) := by
    rw [hM]
    exact allocPages_full used_allUsed
  obtain ⟨w', hCreate⟩ := hInitial.inv.slabCreate_fails hCache hHeader (pageAndMap_noPage hNone)
  refine ⟨1, _, w', .start hInitial, hCreate, ?_⟩
  apply ((slab_givesBack_iff 1 _ (.start hInitial)).1 64 w' hCreate).mpr
  rintro ⟨cache', w₁', header', w₂', hCache', hHeader', page, m, _, hPage, -⟩
  obtain ⟨-, rfl⟩ := Prod.mk.inj (Option.some.inj (hCache.symm.trans hCache'))
  obtain ⟨-, rfl⟩ := Prod.mk.inj (Option.some.inj (hHeader.symm.trans hHeader'))
  cases hPage.symm.trans hNone

end KalinoteOS.Memory
