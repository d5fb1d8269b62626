import KalinoteOS.Memory.Boot

/-! # `kmalloc` and `kfree`

There are 16 sizes of objects. A slab of one of the five small sizes keeps its header and bitmap
at the end of its own page; for the others both come from `kmalloc` and go back through `kfree`.
`alloc_pages` is a parameter: from the pages handed out so far it picks the next one.
-/
namespace KalinoteOS.Memory.Kmalloc
open Lib Boot
set_option autoImplicit false

/-- `kmalloc_cache_size` and the pages that `alloc_pages` handed out. Each ring starts at its
`cache_pool`. -/
structure State where
  caches : Nat → SlabCache
  held : List Nat

/-- `alloc_pages(ZONE_NORMAL,1, 0)`: `none` for `NULL`. -/
abbrev AllocPages := List Nat → Option Nat

def State.setCache (s : State) (i : Nat) (c : SlabCache) : State :=
  { s with caches := Function.update s.caches i c }

/-- `free_pages(page,1)`. -/
def State.freePage (s : State) (page : Nat) : State := { s with held := s.held.erase page }

/-- The `case`s of `kmalloc_create` and `kfree` with header and bitmap in the page. -/
def sizesInPage : List Nat := [32, 64, 128, 256, 512]

def sizesOutside : List Nat :=
  [1024, 2048, 4096, 8192, 16384, 32768, 65536, 131072, 262144, 524288, 1048576]

/-! ## `kmalloc` -/

def structSize (size : Nat) : Nat := sizeofSlab + page2M / size / 8

/-- The slab that has its header and bitmap at the end of `page`. -/
def slabInPage (size page : Nat) : Slab where
  header := pageAddress page + page2M - structSize size
  page := page
  usingCount := 0
  freeCount := ((page2M - page2M / size / 8 - sizeofSlab) / size : Nat)
  vaddress := pageAddress page
  colorLength := colorLengthOf ((page2M - page2M / size / 8 - sizeofSlab) / size)
  colorCount := (page2M - page2M / size / 8 - sizeofSlab) / size
  colorMapAt := pageAddress page + page2M - structSize size + sizeofSlab
  colorMap := freshMap ((page2M - page2M / size / 8 - sizeofSlab) / size)

/-- The slab whose header and bitmap are objects of `kmalloc`. -/
def slabOutside (size page header colorMapAt : Nat) : Slab where
  header := header
  page := page
  usingCount := 0
  freeCount := (page2M / size : Nat)
  vaddress := pageAddress page
  colorLength := colorLengthOf (page2M / size)
  colorCount := page2M / size
  colorMapAt := colorMapAt
  colorMap := freshMap (page2M / size)

/-- `kmalloc_create`, which calls `kmalloc`. It writes to the header and the bitmap without a
look at what the calls returned. -/
def kmallocCreate (allocPages : AllocPages) (kmalloc : Nat → State → Option (Option Nat × State))
    (size : Nat) (s : State) : Option (Option Slab × State) :=
  match allocPages s.held with
  | none => some (none, s)
  | some page =>
    let s := { s with held := page :: s.held }
    if size ∈ sizesInPage then some (some (slabInPage size page), s)
    else if size ∈ sizesOutside then
      match kmalloc sizeofSlab s with
      | some (some header, s) =>
        match kmalloc (colorLengthOf (page2M / size)) s with
        | some (some colorMap, s) => some (some (slabOutside size page header colorMap), s)
        | _ => none
      | _ => none
    else some (none, s.freePage page)

def freeVisit (sl : Slab) : Visit Unit := if sl.freeCount = 0 then .next else .done ()

/-- The loop over the slabs: where it stops, the pool when it came back there. No round stays at a
slab, so the length of the ring is rounds enough. -/
def freeSlab (c : SlabCache) : Option Nat :=
  (ringLoop c.ring 0 freeVisit c.ring.length 0).map fun found =>
    match found with
    | some (pos, _) => pos
    | none => 0

/-- Object `j` of the slab at `pos` is given out. -/
def takeAt (c : SlabCache) (pos : Nat) (sl : Slab) (j : Nat) : SlabCache :=
  { c with
    ring := c.ring.set pos (sl.take j)
    totalFree := c.totalFree - 1
    totalUsing := c.totalUsing + 1 }

/-- The loop over the bitmap of the slab at `pos`. -/
def takeSlot (s : State) (i pos : Nat) : Option (Option Nat × State) :=
  let c := s.caches i
  (c.ring[pos]?).map fun sl =>
    match sl.colorMap.search sl.colorCount sl.colorCount 0 with
    | some j => (some (sl.object c.size j), s.setCache i (takeAt c pos sl j))
    | none => (none, s)

/-- `total_free` and `list_add_to_before(&cache_pool->list,&slab->list)`. -/
def addSlab (c : SlabCache) (sl : Slab) : SlabCache :=
  { c with ring := c.ring ++ [sl], totalFree := c.totalFree + sl.colorCount }

/-- The first size that is large enough. -/
def sizeIndex (caches : Nat → SlabCache) (size : Nat) : Option Nat :=
  (List.range 16).find? fun i => size ≤ (caches i).size

/-- `kmalloc` with at most `depth` calls inside each other; `none` if there are more. -/
def kmalloc (allocPages : AllocPages) : Nat → Nat → State → Option (Option Nat × State)
  | 0, _, _ => none
  | depth + 1, size, s =>
    if 1048576 < size then some (none, s)
    else
      (sizeIndex s.caches size).bind fun i =>
        if (s.caches i).totalFree ≠ 0 then
          (freeSlab (s.caches i)).bind fun pos => takeSlot s i pos
        else
          match kmallocCreate allocPages (kmalloc allocPages depth) (s.caches i).size s with
          | some (some sl, s) =>
            takeSlot (s.setCache i (addSlab (s.caches i) sl)) i (s.caches i).ring.length
          | some (none, s) => some (none, s)
          | none => none

/-! ## `kfree` -/

def ownerVisit (base : Nat) (sl : Slab) : Visit Unit := if sl.vaddress = base then .done () else .next

/-- The loops over the sizes and the slabs: size and place of the slab with that page. -/
def findOwner (s : State) (base : Nat) : List Nat → Option (Option (Nat × Nat))
  | [] => some none
  | i :: rest =>
    match ringLoop (s.caches i).ring 0 (ownerVisit base) (s.caches i).ring.length 0 with
    | none => none
    | some (some (pos, _)) => some (some (i, pos))
    | some none => findOwner s base rest

/-- Object `j` of the slab at `pos` comes back. -/
def giveAt (c : SlabCache) (pos : Nat) (sl : Slab) (j : Nat) : SlabCache :=
  { c with
    ring := c.ring.set pos (sl.give j)
    totalFree := c.totalFree + 1
    totalUsing := c.totalUsing - 1 }

/-- `list_del`, and the objects of the slab are no longer free ones. -/
def dropAt (c : SlabCache) (pos : Nat) (sl : Slab) : SlabCache :=
  { c with ring := c.ring.eraseIdx pos, totalFree := c.totalFree - sl.colorCount }

/-- The slab is given back. -/
def Releases (c : SlabCache) (sl : Slab) : Prop :=
  sl.usingCount = 0 ∧ ((sl.colorCount * 3 / 2 : Nat) : Int) ≤ c.totalFree ∧ c.cachePool ≠ sl.header

instance (c : SlabCache) (sl : Slab) : Decidable (Releases c sl) :=
  inferInstanceAs (Decidable (_ ∧ _ ∧ _))

/-- What `kfree` does with a slab to be given back; header and bitmap go through `kfree`. -/
def giveBack (kfree : Nat → State → Option (Nat × State)) (s : State) (i : Nat) (c : SlabCache)
    (pos : Nat) (sl : Slab) : Option State :=
  let s := s.setCache i (dropAt c pos sl)
  if c.size ∈ sizesInPage then some (s.freePage sl.page)
  else
    (kfree sl.colorMapAt s).bind fun (_, s) =>
      (kfree sl.header (s.freePage sl.page)).map fun (_, s) => s

/-- `kfree` with at most `depth` calls inside each other, and its return value. -/
def kfree : Nat → Nat → State → Option (Nat × State)
  | 0, _, _ => none
  | depth + 1, address, s =>
    (findOwner s (address / page2M * page2M) (List.range 16)).bind fun owner =>
      match owner with
      | none => some (0, s)
      | some (i, pos) =>
        ((s.caches i).ring[pos]?).bind fun sl =>
          let j := (address - sl.vaddress) / (s.caches i).size
          let c := giveAt (s.caches i) pos sl j
          if Releases c (sl.give j) then
            (giveBack (kfree depth) s i c pos (sl.give j)).map fun s => (1, s)
          else some (1, s.setCache i c)

end KalinoteOS.Memory.Kmalloc
