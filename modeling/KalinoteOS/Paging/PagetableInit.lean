import KalinoteOS.Paging.Access
import Mathlib.Data.Finset.Card

/-! # `pagetable_init`

The direct map of the zones. The tables that `kmalloc` hands out are `tables 0`, `tables 1` and so on, by their
physical addresses.
-/
namespace KalinoteOS.Paging
open Lib PageWalk
set_option autoImplicit false

/-- `pages` are the `PHY_address` of the zone's pages. -/
structure Zone where
  pages : List Word

/-- `calls` counts the tables that were handed out. -/
structure State where
  memory : PhysMem
  calls : Nat

section
variable (tables : Nat → Word) (cr3 : Word)

/-- `if(*tmp == 0)` with a new table for the entry. -/
def ensureTable (attr tmp : Word) (s : State) : Option State := do
  let e ← load s.memory tmp
  if e = 0 then
    let virtual := phyToVirt (tables s.calls)
    let memory ← store s.memory tmp (mkEntry (virtToPhy virtual) attr)
    some ⟨memory, s.calls + 1⟩
  else some s

/-- The body of the inner loop. -/
def mapPage (s : State) (phyAddress : Word) : Option State := do
  let tmp := entryPtr cr3 (phyToVirt phyAddress) 39
  let s ← ensureTable tables pageKernelGdt tmp s
  let e ← load s.memory tmp
  let tmp := entryPtr e (phyToVirt phyAddress) 30
  let s ← ensureTable tables pageKernelDir tmp s
  let e ← load s.memory tmp
  let tmp := entryPtr e (phyToVirt phyAddress) 21
  let memory ← store s.memory tmp (mkEntry phyAddress pageKernelPage)
  some { s with memory := memory }

/-- The outer loop from zone `i` on. -/
def zonesLoop (zoneUnmapedIndex : Nat) : Nat → List Zone → State → Option State
  | _, [], s => some s
  | i, z :: zones, s =>
    if zoneUnmapedIndex ≠ 0 ∧ i = zoneUnmapedIndex then some s
    else do
      let s ← z.pages.foldlM (mapPage tables cr3) s
      zonesLoop zoneUnmapedIndex (i + 1) zones s

/-- The two reads in front of the loops have no effect. -/
def pagetableInit (zones : List Zone) (zoneUnmapedIndex : Nat) (s : State) : Option State := do
  let e ← load s.memory (phyToVirt (cr3 &&& ~~~0xfff#64) + 8 * 256)
  let _ ← load s.memory (phyToVirt (e &&& ~~~0xfff#64))
  zonesLoop tables cr3 zoneUnmapedIndex 0 zones s

end

/-! ## The direct map -/

/-- The zones before `ZONE_UNMAPED_INDEX`, which is 0 when there is none behind it. -/
def mappedZones (zones : List Zone) (zoneUnmapedIndex : Nat) : List Zone :=
  if zoneUnmapedIndex = 0 then zones else zones.take zoneUnmapedIndex

def mappedPages (zones : List Zone) (zoneUnmapedIndex : Nat) : List Word :=
  (mappedZones zones zoneUnmapedIndex).flatMap Zone.pages

/-- A page of 2MB below 512GB. -/
structure PageAddress (phyAddress : Word) : Prop where
  aligned : phyAddress.toNat % 2 ^ 21 = 0
  low : phyAddress.toNat < 2 ^ 39

/-- The virtual address is that of the page in the direct map. -/
def InPage (phyAddress v : Word) : Prop := (virtToPhy v).toNat / 2 ^ 21 = phyAddress.toNat / 2 ^ 21

instance (phyAddress v : Word) : Decidable (InPage phyAddress v) := inferInstanceAs (Decidable (_ = _))

/-- The slot of the direct map in the first table. -/
def kernelSlot : Slot := slotOf 256

/-- The slots of a page in the tables behind it. -/
def pdptSlot (phyAddress : Word) : Slot := slot (phyToVirt phyAddress) 2

def pdtSlot (phyAddress : Word) : Slot := slot (phyToVirt phyAddress) 1

/-- The code takes the entry as it should: it is zero, or leads to a table at an address with no bits in front
of the physical ones. -/
def Usable (e : Word) : Prop := e = 0 ∨ Leads e ∧ e.toNat < 2 ^ 47

/-- `kmalloc` hands out `count` different tables. -/
structure Supply (tables : Nat → Word) (count : Nat) : Prop where
  aligned : ∀ j < count, (tables j).toNat % 2 ^ 12 = 0
  low : ∀ j < count, (tables j).toNat < 2 ^ 47
  different : ∀ j < count, ∀ k < count, tables j = tables k → j = k

/-- The tables that are still to be handed out are not in use. -/
def Unused (tables : Nat → Word) (count root : Nat) (m : PhysMem) (calls : Nat) : Prop :=
  ∀ j, calls ≤ j → j < count → ∀ is, is.length ≤ 3 → tableAt m is root ≠ some (frame (tables j))

/-- The tables on the way to the pages, by their slots. -/
def ways (pages : List Word) : Finset (List Slot) :=
  (pages.flatMap fun p => [[kernelSlot], [kernelSlot, pdptSlot p]]).toFinset

/-- The number of tables that the pages are short of. -/
def missing (root : Nat) (pages : List Word) (m : PhysMem) : Nat :=
  ((ways pages).filter fun path => tableAt m path root = none).card

/-- The tables are fit for the direct map of `pages`, with `calls` of `count` tables handed out. On the way to a
page every entry is usable, and a table that is written has no other path to it. The tables that are handed out
for the pages have no present entry, and zero where they are tested. -/
structure Ready (tables : Nat → Word) (count root : Nat) (pages : List Word) (m : PhysMem) (calls : Nat) :
    Prop where
  readable : (m root kernelSlot).toNat < 2 ^ 47
  pml4 : pages ≠ [] → Usable (m root kernelSlot)
  pdpt : ∀ p ∈ pages, ∀ g, tableAt m [kernelSlot] root = some g → Usable (m g (pdptSlot p))
  ownRoot : pages ≠ [] → m root kernelSlot = 0 → Owned m root [] root
  ownPdpt : ∀ p ∈ pages, ∀ g, tableAt m [kernelSlot] root = some g → m g (pdptSlot p) = 0 →
    Owned m root [kernelSlot] g
  ownPdt : ∀ p ∈ pages, ∀ g, tableAt m [kernelSlot, pdptSlot p] root = some g →
    Owned m root [kernelSlot, pdptSlot p] g
  enough : calls + missing root pages m ≤ count
  unused : Unused tables count root m calls
  blank : ∀ j, calls ≤ j → j < count → Blank m (frame (tables j))
  tested : m root kernelSlot = 0 → ∀ p ∈ pages, m (frame (tables calls)) (pdptSlot p) = 0

/-! ## A new table -/

section
variable {tables : Nat → Word} {count : Nat} (hSupply : Supply tables count)

include hSupply in
theorem Supply.leads {k : Nat} (hk : k < count) : Leads (mkEntry (tables k) pageKernelGdt) := by
  unfold Leads present large
  rw [getLsbD_mkEntry (hSupply.aligned k hk) (by decide), getLsbD_mkEntry (hSupply.aligned k hk) (by decide)]
  decide

include hSupply in
theorem Supply.frame_entry {k : Nat} (hk : k < count) : frame (mkEntry (tables k) pageKernelGdt) =
    frame (tables k) :=
  frame_mkEntry (hSupply.aligned k hk) (by decide)

include hSupply in
theorem Supply.entry_low {k : Nat} (hk : k < count) : (mkEntry (tables k) pageKernelGdt).toNat < 2 ^ 47 := by
  rw [toNat_mkEntry (hSupply.aligned k hk) (by decide)]
  have hAligned := hSupply.aligned k hk
  have hLow := hSupply.low k hk
  have hAttr : pageKernelGdt.toNat = 3 := rfl
  omega

include hSupply in
theorem Supply.frame_ne {j k : Nat} (hj : j < count) (hk : k < count) (h : j ≠ k) :
    frame (tables j) ≠ frame (tables k) := by
  intro hFrame
  refine h (hSupply.different j hj k hk (BitVec.eq_of_toNat_eq ?_))
  have hAlignedJ := hSupply.aligned j hj
  have hAlignedK := hSupply.aligned k hk
  have hLowJ := hSupply.low j hj
  have hLowK := hSupply.low k hk
  unfold frame at hFrame
  omega

section
variable {root g k : Nat} {path : List Slot} {m : PhysMem} {i : Slot} (hTable : tableAt m path root = some g)
  (hOwned : Owned m root path g) (hShort : path.length ≤ 2) (hUnused : Unused tables count root m k)
    (hk : k < count)

include hTable hShort hUnused in
theorem Unused.ne {j : Nat} (hj : k ≤ j) (hCount : j < count) : frame (tables j) ≠ g := fun hEq =>
  hUnused j hj hCount path (Nat.le_succ_of_le hShort) (hEq ▸ hTable)

variable (hBlank : Blank m (frame (tables k)))

include hSupply hTable hOwned hShort hUnused hk hBlank in
theorem Unused.tableAt_link {is : List Slot} (hLength : is.length ≤ 3) {h : Nat}
    (hAfter : tableAt (m.store g i (mkEntry (tables k) pageKernelGdt)) is root = some h) :
    tableAt m is root = some h ∨ is = path ++ [i] ∧ h = frame (tables k) := by
  have hFrame := hSupply.frame_entry hk
  rw [← hFrame]
  apply hOwned.tableAt_store_empty ?_ ?_ hLength hAfter
  · rw [hFrame]
    exact hBlank
  · rw [hFrame]
    exact hUnused.ne hTable hShort (Nat.le_refl k) hk

include hSupply hTable hOwned hShort hUnused hk hBlank in
theorem Unused.owned_link {p : List Slot} {h : Nat} (hNe : h ≠ frame (tables k)) (hOld : Owned m root p h) :
    Owned (m.store g i (mkEntry (tables k) pageKernelGdt)) root p h := by
  intro is hLength hAfter
  obtain hBefore | ⟨-, hEq⟩ := hUnused.tableAt_link hSupply hTable hOwned hShort hk hBlank hLength hAfter
  · exact hOld is hLength hBefore
  · exact absurd hEq hNe

include hSupply hTable hOwned hShort hUnused hk hBlank in
theorem Unused.owned_new : Owned (m.store g i (mkEntry (tables k) pageKernelGdt)) root (path ++ [i])
    (frame (tables k)) := by
  intro is hLength hAfter
  obtain hBefore | ⟨hPath, -⟩ := hUnused.tableAt_link hSupply hTable hOwned hShort hk hBlank hLength hAfter
  · exact absurd hBefore (hUnused k (Nat.le_refl k) hk is hLength)
  · exact hPath

include hSupply hTable hOwned hShort hUnused hk hBlank in
theorem Unused.link : Unused tables count root (m.store g i (mkEntry (tables k) pageKernelGdt)) (k + 1) := by
  intro j hj hCount is hLength hAfter
  obtain hBefore | ⟨-, hEq⟩ := hUnused.tableAt_link hSupply hTable hOwned hShort hk hBlank hLength hAfter
  · exact hUnused j (Nat.le_of_succ_le hj) hCount is hLength hBefore
  · exact hSupply.frame_ne hCount hk (Nat.ne_of_gt hj) hEq

include hTable hShort hUnused in
theorem Unused.blank {j : Nat} (hj : k ≤ j) (hCount : j < count) (e : Word) (hOld : Blank m (frame (tables j))) :
    Blank (m.store g i e) (frame (tables j)) := by
  intro l
  rw [store_frame_ne e (hUnused.ne hTable hShort hj hCount)]
  exact hOld l

include hSupply hTable hOwned hShort hUnused hk hBlank in
/-- A new table changes no translation. -/
theorem Unused.walk_link (hZero : m g i = 0) {is : List Slot} (hLength : is.length = 4) (user : Bool) :
    walk (m.store g i (mkEntry (tables k) pageKernelGdt)) is root user = walk m is root user := by
  have hFrame := hSupply.frame_entry hk
  apply hOwned.walk_store_empty hTable ?_ (hSupply.leads hk) ?_ ?_ hShort hLength
  · rw [hZero]
    rfl
  · rw [hFrame]
    exact hBlank
  · rw [hFrame]
    exact hUnused.ne hTable hShort (Nat.le_refl k) hk

include hSupply hTable hOwned hShort hk in
theorem table_new : tableAt (m.store g i (mkEntry (tables k) pageKernelGdt)) (path ++ [i]) root =
    some (frame (tables k)) := by
  rw [← hSupply.frame_entry hk]
  exact hOwned.table_new hTable (hSupply.leads hk) (Nat.le_succ_of_le hShort)

end

end

/-! ## The tables on the way -/

theorem mem_ways {pages : List Word} {path : List Slot} :
    path ∈ ways pages ↔ ∃ p ∈ pages, path = [kernelSlot] ∨ path = [kernelSlot, pdptSlot p] := by
  simp [ways]

theorem length_of_mem_ways {pages : List Word} {path : List Slot} (h : path ∈ ways pages) : path.length ≤ 2 := by
  obtain ⟨p, -, rfl | rfl⟩ := mem_ways.mp h
  · exact Nat.le_succ 1
  · exact Nat.le_refl 2

theorem missing_pos {root : Nat} {pages : List Word} {m : PhysMem} {path : List Slot} (hWay : path ∈ ways pages)
    (hNone : tableAt m path root = none) : 0 < missing root pages m :=
  Finset.card_pos.mpr ⟨path, Finset.mem_filter.mpr ⟨hWay, hNone⟩⟩

theorem missing_congr {root : Nat} {pages : List Word} {m m' : PhysMem}
    (h : ∀ path ∈ ways pages, tableAt m' path root = tableAt m path root) :
    missing root pages m' = missing root pages m := by
  unfold missing
  refine congrArg Finset.card (Finset.filter_congr fun path hPath => ?_)
  rw [h path hPath]

theorem missing_link {root : Nat} {pages : List Word} {m m' : PhysMem} {path : List Slot}
    (hWay : path ∈ ways pages)
    (hNone : tableAt m path root = none) (hNew : tableAt m' path root ≠ none)
    (hOthers : ∀ q ∈ ways pages, q ≠ path → (tableAt m' q root = none ↔ tableAt m q root = none)) :
    missing root pages m = missing root pages m' + 1 := by
  unfold missing
  have hNotMem : path ∉ (ways pages).filter fun q => tableAt m' q root = none := fun h =>
    hNew (Finset.mem_filter.mp h).2
  rw [← Finset.card_insert_of_notMem hNotMem]
  congr 1
  ext q
  rw [Finset.mem_insert, Finset.mem_filter, Finset.mem_filter]
  by_cases hEq : q = path
  · subst hEq
    exact iff_of_true ⟨hWay, hNone⟩ (Or.inl rfl)
  · rw [or_iff_right hEq]
    exact and_congr_right fun hq => (hOthers q hq hEq).symm

/-- The next table is handed out for the path, or there is one and nothing happens. -/
structure Supplied (tables : Nat → Word) (root : Nat) (pages : List Word) (path : List Slot) (s t : State) :
    Prop where
  there : tableAt t.memory path root ≠ none
  step : t = s ∨ tableAt s.memory path root = none ∧ t.calls = s.calls + 1 ∧
    tableAt t.memory path root = some (frame (tables s.calls)) ∧
    ∀ q ∈ ways pages, q ≠ path → tableAt t.memory q root = tableAt s.memory q root

/-! ## The steps of a page -/

/-- All translations are the same. -/
def SameWalks (root : Nat) (m m' : PhysMem) : Prop :=
  ∀ is, is.length = 4 → ∀ user, walk m' is root user = walk m is root user

theorem usable_new {tables : Nat → Word} {count k : Nat} (hSupply : Supply tables count) (hk : k < count) :
    Usable (mkEntry (tables k) pageKernelGdt) := Or.inr ⟨hSupply.leads hk, hSupply.entry_low hk⟩

theorem usable_zero : Usable 0 := Or.inl rfl

theorem leads_ne_zero {e : Word} (h : Leads e) : e ≠ 0 := by
  rintro rfl
  exact zero_not_leads h

theorem ensureTable_eq (tables : Nat → Word) {tmp : Word} {g : Nat} {i : Slot} (h : locate tmp = some (g, i))
    (s : State) :
    ensureTable tables pageKernelGdt tmp s = if s.memory g i = 0 then
      some ⟨s.memory.store g i (mkEntry (tables s.calls) pageKernelGdt), s.calls + 1⟩ else some s := by
  unfold ensureTable load store
  dsimp only
  rw [h, virtToPhy_phyToVirt]
  rfl

section
variable {tables : Nat → Word} {count root k : Nat} {pages : List Word} {m : PhysMem}

theorem tableAt_kernel (h : Leads (m root kernelSlot)) : tableAt m [kernelSlot] root =
    some (frame (m root kernelSlot)) :=
  tableAt_link h

theorem tableAt_kernel_iff {g : Nat} (h : Leads (m root kernelSlot)) :
    tableAt m [kernelSlot] root = some g ↔ g = frame (m root kernelSlot) := by
  rw [tableAt_kernel h, Option.some_inj, eq_comm]

variable (hSupply : Supply tables count) (hReady : Ready tables count root pages m k)

include hReady in
/-- While a table is missing there is a blank one to be handed out. -/
theorem Ready.next {path : List Slot} (hWay : path ∈ ways pages) (hNone : tableAt m path root = none) :
    k < count ∧ Blank m (frame (tables k)) := by
  have hk : k < count := Nat.lt_of_lt_of_le (Nat.lt_add_of_pos_right (missing_pos hWay hNone)) hReady.enough
  exact ⟨hk, hReady.blank k (Nat.le_refl k) hk⟩

include hSupply hReady in
/-- The first table gets its entry for the direct map. -/
theorem Ready.link_pml4 (hPages : pages ≠ []) (hZero : m root kernelSlot = 0) :
    k < count ∧ Ready tables count root pages (m.store root kernelSlot (mkEntry (tables k) pageKernelGdt))
      (k + 1) ∧
      SameWalks root m (m.store root kernelSlot (mkEntry (tables k) pageKernelGdt)) ∧
      Supplied tables root pages [kernelSlot] ⟨m, k⟩
        ⟨m.store root kernelSlot (mkEntry (tables k) pageKernelGdt), k + 1⟩ := by
  have hRoot : tableAt m [] root = some root := rfl
  have hShort : ([] : List Slot).length ≤ 2 := by decide
  have hOwned : Owned m root [] root := hReady.ownRoot hPages hZero
  have hNone : ∀ is, tableAt m (kernelSlot :: is) root = none := fun _ =>
    tableAt_none (by rw [hZero]; exact zero_not_leads)
  have hKernelWay : [kernelSlot] ∈ ways pages := by
    obtain ⟨p, hp⟩ := List.exists_mem_of_ne_nil pages hPages
    exact mem_ways.mpr ⟨p, hp, Or.inl rfl⟩
  obtain ⟨hk, hBlank⟩ := hReady.next hKernelWay (hNone [])
  generalize hNext : m.store root kernelSlot (mkEntry (tables k) pageKernelGdt) = m'
  have hNew : m' root kernelSlot = mkEntry (tables k) pageKernelGdt := hNext ▸ store_self root kernelSlot _
  have hNeRoot : frame (tables k) ≠ root := hReady.unused.ne hRoot hShort (Nat.le_refl k) hk
  have hFresh : ∀ i, m' (frame (tables k)) i = m (frame (tables k)) i := hNext ▸ store_frame_ne _ hNeRoot
  have hKernel : tableAt m' [kernelSlot] root = some (frame (tables k)) :=
    hNext ▸ table_new hSupply hRoot hOwned hShort hk
  have hPdpt : ∀ g, tableAt m' [kernelSlot] root = some g → g = frame (tables k) := fun g hg =>
    (Option.some.inj (hKernel.symm.trans hg)).symm
  have hNoPdt : ∀ p ∈ pages, tableAt m' [kernelSlot, pdptSlot p] root = none := by
    intro p hp
    change tableAt m' ([kernelSlot] ++ [pdptSlot p]) root = none
    rw [tableAt_append, hKernel]
    change tableAt m' [pdptSlot p] (frame (tables k)) = none
    exact tableAt_none (by rw [hFresh, hReady.tested hZero p hp]; exact zero_not_leads)
  have hThere : tableAt m' [kernelSlot] root ≠ none := by
    rw [hKernel]
    exact Option.some_ne_none _
  have hOthers : ∀ q ∈ ways pages, q ≠ [kernelSlot] → tableAt m' q root = tableAt m q root := by
    intro q hq hNe
    obtain ⟨p, hp, rfl | rfl⟩ := mem_ways.mp hq
    · exact absurd rfl hNe
    · rw [hNoPdt p hp, hNone]
  have hMissing : missing root pages m = missing root pages m' + 1 :=
    missing_link hKernelWay (hNone []) hThere fun q hq hNe => by rw [hOthers q hq hNe]
  refine ⟨hk, ?_, ?_, ⟨hThere, Or.inr ⟨hNone [], rfl, hKernel, hOthers⟩⟩⟩
  · constructor
    case readable =>
      rw [hNew]
      exact hSupply.entry_low hk
    case pml4 =>
      rw [hNew]
      exact fun _ => usable_new hSupply hk
    case pdpt =>
      intro p hp g hg
      rw [hPdpt g hg, hFresh, hReady.tested hZero p hp]
      exact usable_zero
    case ownRoot =>
      intro _ hAgain
      rw [hNew] at hAgain
      exact absurd hAgain (leads_ne_zero (hSupply.leads hk))
    case ownPdpt =>
      intro p _ g hg _
      rw [hPdpt g hg, ← hNext]
      exact hReady.unused.owned_new hSupply hRoot hOwned hShort hk hBlank
    case ownPdt =>
      intro p hp g hg
      rw [hNoPdt p hp] at hg
      cases hg
    case enough =>
      have hEnough := hReady.enough
      omega
    case unused => exact hNext ▸ hReady.unused.link hSupply hRoot hOwned hShort hk hBlank
    case blank =>
      intro j hj hLt
      rw [← hNext]
      exact hReady.unused.blank hRoot hShort (Nat.le_of_succ_le hj) hLt _
        (hReady.blank j (Nat.le_of_succ_le hj) hLt)
    case tested =>
      intro hAgain
      rw [hNew] at hAgain
      exact absurd hAgain (leads_ne_zero (hSupply.leads hk))
  · intro is hLength user
    rw [← hNext]
    exact hReady.unused.walk_link hSupply hRoot hOwned hShort hk hBlank hZero hLength user

include hSupply hReady in
/-- The second table gets its entry for a page. -/
theorem Ready.link_pdpt {p : Word} (hp : p ∈ pages) (hLeads : Leads (m root kernelSlot)) {g : Nat}
    (hg : g = frame (m root kernelSlot)) (hZero : m g (pdptSlot p) = 0) :
    k < count ∧ Ready tables count root pages (m.store g (pdptSlot p) (mkEntry (tables k) pageKernelGdt))
      (k + 1) ∧
      SameWalks root m (m.store g (pdptSlot p) (mkEntry (tables k) pageKernelGdt)) ∧
      Supplied tables root pages [kernelSlot, pdptSlot p] ⟨m, k⟩
        ⟨m.store g (pdptSlot p) (mkEntry (tables k) pageKernelGdt), k + 1⟩ := by
  have hTable : tableAt m [kernelSlot] root = some g := (tableAt_kernel_iff hLeads).mpr hg
  have hOwned : Owned m root [kernelSlot] g := hReady.ownPdpt p hp g hTable hZero
  have hShort : [kernelSlot].length ≤ 2 := by decide
  have hNeRoot : root ≠ g := by
    rintro rfl
    exact absurd (hOwned [] (by decide) rfl) (by simp)
  have hSecond : ∀ i, tableAt m [kernelSlot, i] root = tableAt m [i] g := by
    intro i
    rw [tableAt_link hLeads, hg]
  have hNone : tableAt m [kernelSlot, pdptSlot p] root = none := by
    rw [hSecond]
    exact tableAt_none (by rw [hZero]; exact zero_not_leads)
  have hWay : [kernelSlot, pdptSlot p] ∈ ways pages := mem_ways.mpr ⟨p, hp, Or.inr rfl⟩
  obtain ⟨hk, hBlank⟩ := hReady.next hWay hNone
  have hFreshNe : ∀ {is : List Slot}, is.length ≤ 3 → ∀ {h : Nat}, tableAt m is root = some h →
    h ≠ frame (tables k) :=
    fun hLength h hh hEq => hReady.unused k (Nat.le_refl k) hk _ hLength (hEq ▸ hh)
  generalize hNext : m.store g (pdptSlot p) (mkEntry (tables k) pageKernelGdt) = m'
  have hKernel : m' root kernelSlot = m root kernelSlot := hNext ▸ store_frame_ne _ hNeRoot _
  have hPdpt : ∀ h, tableAt m' [kernelSlot] root = some h → h = g := by
    intro h hh
    rw [tableAt_kernel_iff (by rw [hKernel]; exact hLeads), hKernel] at hh
    rw [hh, hg]
  have hEntry : ∀ q, pdptSlot q ≠ pdptSlot p → m' g (pdptSlot q) = m g (pdptSlot q) := fun q hSlot =>
    hNext ▸ store_ne _ fun hEq => hSlot hEq.2
  have hSelf : m' g (pdptSlot p) = mkEntry (tables k) pageKernelGdt := hNext ▸ store_self g _ _
  have hKept : ∀ {is path : List Slot} {h : Nat}, is.length ≤ 3 → tableAt m is root = some h →
    Owned m root path h →
      Owned m' root path h := fun hLength hh hOld =>
    hNext ▸ hReady.unused.owned_link hSupply hTable hOwned hShort hk hBlank (hFreshNe hLength hh) hOld
  have hNew : tableAt m' [kernelSlot, pdptSlot p] root = some (frame (tables k)) :=
    hNext ▸ table_new hSupply hTable hOwned hShort hk
  have hThere : tableAt m' [kernelSlot, pdptSlot p] root ≠ none := by
    rw [hNew]
    exact Option.some_ne_none _
  have hOthers : ∀ q ∈ ways pages, q ≠ [kernelSlot, pdptSlot p] → tableAt m' q root = tableAt m q root := by
    intro q hq hNe
    have hLength : q.length ≤ 2 := length_of_mem_ways hq
    rw [← hNext, hOwned.tableAt_store (Nat.le_trans hLength (by decide)) fun hBefore => hNe ?_]
    exact (hBefore.eq_of_length_le hLength).symm
  have hMissing : missing root pages m = missing root pages m' + 1 :=
    missing_link hWay hNone hThere fun q hq hNe => by rw [hOthers q hq hNe]
  refine ⟨hk, ?_, ?_, ⟨hThere, Or.inr ⟨hNone, rfl, hNew, hOthers⟩⟩⟩
  · constructor
    case readable =>
      rw [hKernel]
      exact hReady.readable
    case pml4 =>
      rw [hKernel]
      exact hReady.pml4
    case pdpt =>
      intro q hq h hh
      rw [hPdpt h hh]
      by_cases hSlot : pdptSlot q = pdptSlot p
      · rw [hSlot, hSelf]
        exact usable_new hSupply hk
      · rw [hEntry q hSlot]
        exact hReady.pdpt q hq g hTable
    case ownRoot =>
      intro _ hAgain
      rw [hKernel] at hAgain
      exact absurd hAgain (leads_ne_zero hLeads)
    case ownPdpt =>
      intro q _ h hh _
      rw [hPdpt h hh]
      exact hKept (by decide) hTable hOwned
    case ownPdt =>
      intro q hq h hh
      have hTwo : [kernelSlot, pdptSlot q].length ≤ 3 := Nat.le_succ 2
      rw [← hNext] at hh
      obtain hOld | ⟨hPath, rfl⟩ := hReady.unused.tableAt_link hSupply hTable hOwned hShort hk hBlank hTwo hh
      · exact hKept hTwo hOld (hReady.ownPdt q hq h hOld)
      · rw [hPath, ← hNext]
        exact hReady.unused.owned_new hSupply hTable hOwned hShort hk hBlank
    case enough =>
      have hEnough := hReady.enough
      omega
    case unused => exact hNext ▸ hReady.unused.link hSupply hTable hOwned hShort hk hBlank
    case blank =>
      intro j hj hLt
      rw [← hNext]
      exact hReady.unused.blank hTable hShort (Nat.le_of_succ_le hj) hLt _
        (hReady.blank j (Nat.le_of_succ_le hj) hLt)
    case tested =>
      intro hAgain
      rw [hKernel] at hAgain
      exact absurd hAgain (leads_ne_zero hLeads)
  · intro is hLength user
    rw [← hNext]
    exact hReady.unused.walk_link hSupply hTable hOwned hShort hk hBlank hZero hLength user

theorem pageEntry {p : Word} (hp : PageAddress p) : present (mkEntry p pageKernelPage) = true ∧
    large (mkEntry p pageKernelPage) = true ∧ userBit (mkEntry p pageKernelPage) = false ∧
    frame (mkEntry p pageKernelPage) = p.toNat / 2 ^ 12 := by
  have hAligned : p.toNat % 2 ^ 12 = 0 := by
    have h := hp.aligned
    omega
  unfold present large userBit
  rw [getLsbD_mkEntry hAligned (by decide), getLsbD_mkEntry hAligned (by decide),
    getLsbD_mkEntry hAligned (by decide),
    frame_mkEntry hAligned (by decide)]
  refine ⟨by decide, by decide, by decide, ?_⟩
  have hLow := hp.low
  unfold frame
  omega

include hReady in
/-- The third table gets the page. -/
theorem Ready.map_pdt {p : Word} (hp : p ∈ pages) (hPage : PageAddress p) (hLeads : Leads (m root kernelSlot))
    {g : Nat}
    (hTable : tableAt m [kernelSlot, pdptSlot p] root = some g) :
    Ready tables count root pages (m.store g (pdtSlot p) (mkEntry p pageKernelPage)) k ∧
      ∀ q ∈ ways pages, tableAt (m.store g (pdtSlot p) (mkEntry p pageKernelPage)) q root =
        tableAt m q root := by
  obtain ⟨-, hLarge, -, -⟩ := pageEntry hPage
  have hOwned : Owned m root [kernelSlot, pdptSlot p] g := hReady.ownPdt p hp g hTable
  have hTwo : [kernelSlot, pdptSlot p].length ≤ 2 := Nat.le_refl 2
  have hNeRoot : root ≠ g := by
    rintro rfl
    exact absurd (hOwned [] (by decide) rfl) (by simp)
  have hSame : ∀ q ∈ ways pages, tableAt (m.store g (pdtSlot p) (mkEntry p pageKernelPage)) q root =
      tableAt m q root := by
    intro q hq
    have hLength : q.length ≤ 2 := length_of_mem_ways hq
    refine hOwned.tableAt_store (Nat.le_trans hLength (by decide)) fun hBefore => ?_
    exact absurd (Nat.le_trans hBefore.length_le hLength) (by simp)
  have hMissing := missing_congr hSame
  refine ⟨?_, hSame⟩
  generalize hNext : m.store g (pdtSlot p) (mkEntry p pageKernelPage) = m' at hMissing
  have hKernel : m' root kernelSlot = m root kernelSlot := hNext ▸ store_frame_ne _ hNeRoot _
  have hBack : ∀ {is : List Slot} {h : Nat}, tableAt m' is root = some h → tableAt m is root = some h :=
    fun hAfter =>
    tableAt_store_large hLarge (hNext ▸ hAfter)
  have hKept : ∀ {path : List Slot} {h : Nat}, Owned m root path h → Owned m' root path h :=
    fun hOld is hLength hAfter =>
    hOld is hLength (hBack hAfter)
  have hPdpt : ∀ {h : Nat}, tableAt m [kernelSlot] root = some h → ∀ i, m' h i = m h i := by
    intro h hh i
    have hNe : h ≠ g := by
      rintro rfl
      exact absurd (hOwned [kernelSlot] (by decide) hh) (by simp)
    exact hNext ▸ store_frame_ne _ hNe i
  constructor
  case readable =>
    rw [hKernel]
    exact hReady.readable
  case pml4 =>
    rw [hKernel]
    exact hReady.pml4
  case pdpt =>
    intro q hq h hh
    rw [hPdpt (hBack hh)]
    exact hReady.pdpt q hq h (hBack hh)
  case ownRoot =>
    intro _ hAgain
    rw [hKernel] at hAgain
    exact absurd hAgain (leads_ne_zero hLeads)
  case ownPdpt =>
    intro q hq h hh hZero
    rw [hPdpt (hBack hh)] at hZero
    exact hKept (hReady.ownPdpt q hq h (hBack hh) hZero)
  case ownPdt => exact fun q hq h hh => hKept (hReady.ownPdt q hq h (hBack hh))
  case enough =>
    rw [hMissing]
    exact hReady.enough
  case unused => exact fun j hj hLt is hLength hAfter => hReady.unused j hj hLt is hLength (hBack hAfter)
  case blank =>
    intro j hj hLt
    rw [← hNext]
    exact hReady.unused.blank hTable hTwo hj hLt _ (hReady.blank j hj hLt)
  case tested =>
    intro hAgain
    rw [hKernel] at hAgain
    exact absurd hAgain (leads_ne_zero hLeads)

end

/-! ## Addresses -/

section
variable {p : Word} (hp : PageAddress p)

include hp in
theorem toNat_phyToVirt : (phyToVirt p).toNat = p.toNat + 0xffff800000000000 := by
  have hLow := hp.low
  have hOffset : pageOffset.toNat = 0xffff800000000000 := rfl
  unfold phyToVirt
  rw [BitVec.toNat_add, hOffset]
  omega

include hp in
theorem kernelSlot_page : slot (phyToVirt p) 3 = kernelSlot := by
  have hLow := hp.low
  apply Fin.ext
  change (phyToVirt p).toNat / 2 ^ 39 % 512 = 256 % 512
  rw [toNat_phyToVirt hp]
  omega

include hp in
theorem inPage_iff (v : Word) : InPage p v ↔
    Canonical v ∧ slot v 3 = kernelSlot ∧ slot v 2 = pdptSlot p ∧ slot v 1 = pdtSlot p := by
  have hLow := hp.low
  have hOffset : pageOffset.toNat = 0xffff800000000000 := rfl
  have hPhysical : (virtToPhy v).toNat = (2 ^ 64 - 0xffff800000000000 + v.toNat) % 2 ^ 64 := by
    unfold virtToPhy
    rw [BitVec.toNat_sub, hOffset]
  have hLt := v.isLt
  have hKernel : (kernelSlot : Nat) = 256 := rfl
  unfold InPage Canonical
  rw [hPhysical, Fin.ext_iff, Fin.ext_iff, Fin.ext_iff, pdptSlot, pdtSlot, slot_val, slot_val, slot_val,
    slot_val, slot_val,
    hKernel, toNat_phyToVirt hp]
  -- everything in pages of 2MB
  have hThird : ∀ n : Nat, n / 2 ^ (12 + 9 * 3) = n / 2 ^ 21 / 2 ^ 18 := fun n => by omega
  have hSecond : ∀ n : Nat, n / 2 ^ (12 + 9 * 2) = n / 2 ^ 21 / 2 ^ 9 := fun n => by omega
  have hFirst : ∀ n : Nat, n / 2 ^ (12 + 9 * 1) = n / 2 ^ 21 := fun _ => rfl
  rw [hThird, hSecond, hSecond, hFirst, hFirst]
  omega

/-- The page that an address of the direct map is in. -/
def directPage (v : Word) : Page := ⟨(virtToPhy v).toNat / 2 ^ 21 * 512, 1, false⟩

end

section
variable {table p : Word} (hTable : table.toNat < 2 ^ 47)

include hTable in
theorem locate_pml4 (hPage : PageAddress p) : locate (entryPtr table (phyToVirt p) 39) =
    some (frame table, kernelSlot) := by
  rw [← kernelSlot_page hPage]
  exact locate_entryPtr hTable (phyToVirt p) 3

include hTable in
theorem locate_pdpt : locate (entryPtr table (phyToVirt p) 30) = some (frame table, pdptSlot p) :=
  locate_entryPtr hTable (phyToVirt p) 2

include hTable in
theorem locate_pdt : locate (entryPtr table (phyToVirt p) 21) = some (frame table, pdtSlot p) :=
  locate_entryPtr hTable (phyToVirt p) 1

end

section
variable {tables : Nat → Word} {count : Nat} {cr3 : Word} {pages : List Word} (hSupply : Supply tables count)
  (hCr3 : cr3.toNat < 2 ^ 47)

theorem SameWalks.refl (root : Nat) (m : PhysMem) : SameWalks root m m := fun _ _ _ => rfl

theorem SameWalks.trans {root : Nat} {m m' m'' : PhysMem} (h : SameWalks root m m') (h' : SameWalks root m' m'') :
    SameWalks root m m'' := fun is hLength user => (h' is hLength user).trans (h is hLength user)

theorem SameWalks.translation {root : Nat} {m m' : PhysMem} (h : SameWalks root m m') (v : Word) :
    PageWalk.translation m' root v = PageWalk.translation m root v := by
  unfold PageWalk.translation
  rw [h (slots v) rfl true]

include hSupply hCr3 in
theorem ensureTable_pml4 {s : State} (hReady : Ready tables count (frame cr3) pages s.memory s.calls) {p : Word}
    (hp : p ∈ pages)
    (hPage : PageAddress p) : ∃ t, ensureTable tables pageKernelGdt (entryPtr cr3 (phyToVirt p) 39) s = some t ∧
      Ready tables count (frame cr3) pages t.memory t.calls ∧ SameWalks (frame cr3) s.memory t.memory ∧
      Leads (t.memory (frame cr3) kernelSlot) ∧ Supplied tables (frame cr3) pages [kernelSlot] s t := by
  rw [ensureTable_eq tables (locate_pml4 hCr3 hPage)]
  have hPages : pages ≠ [] := List.ne_nil_of_mem hp
  obtain hZero | ⟨hLeads, -⟩ := hReady.pml4 hPages
  · rw [if_pos hZero]
    obtain ⟨hCount, hNext, hSame, hSupplied⟩ := hReady.link_pml4 hSupply hPages hZero
    refine ⟨_, rfl, hNext, hSame, ?_, hSupplied⟩
    dsimp only
    rw [store_self]
    exact hSupply.leads hCount
  · rw [if_neg (leads_ne_zero hLeads)]
    refine ⟨s, rfl, hReady, .refl _ _, hLeads, ?_, Or.inl rfl⟩
    rw [tableAt_kernel hLeads]
    exact Option.some_ne_none _

include hSupply in
theorem ensureTable_pdpt {root : Nat} {s : State} (hReady : Ready tables count root pages s.memory s.calls)
    {p : Word}
    (hp : p ∈ pages) (hLeads : Leads (s.memory root kernelSlot)) :
    ∃ t, ensureTable tables pageKernelDir (entryPtr (s.memory root kernelSlot) (phyToVirt p) 30) s = some t ∧
      Ready tables count root pages t.memory t.calls ∧ SameWalks root s.memory t.memory ∧
      t.memory root kernelSlot = s.memory root kernelSlot ∧
      Leads (t.memory (frame (s.memory root kernelSlot)) (pdptSlot p)) ∧
      (t.memory (frame (s.memory root kernelSlot)) (pdptSlot p)).toNat < 2 ^ 47 ∧
      Supplied tables root pages [kernelSlot, pdptSlot p] s t := by
  have hTable := tableAt_kernel hLeads
  change ∃ t, ensureTable tables pageKernelGdt _ s = some t ∧ _
  rw [ensureTable_eq tables (locate_pdpt hReady.readable)]
  obtain hZero | ⟨hNext, hLow⟩ := hReady.pdpt p hp _ hTable
  · rw [if_pos hZero]
    obtain ⟨hCount, hReady', hSame, hSupplied⟩ := hReady.link_pdpt hSupply hp hLeads rfl hZero
    have hNeRoot : root ≠ frame (s.memory root kernelSlot) := fun hEq =>
      absurd (hReady.ownPdpt p hp _ hTable hZero [] (by decide) (congrArg some hEq)) (by simp)
    refine ⟨_, rfl, hReady', hSame, store_frame_ne _ hNeRoot _, ?_⟩
    dsimp only
    rw [store_self]
    exact ⟨hSupply.leads hCount, hSupply.entry_low hCount, hSupplied⟩
  · rw [if_neg (leads_ne_zero hNext)]
    refine ⟨s, rfl, hReady, .refl _ _, rfl, hNext, hLow, ?_, Or.inl rfl⟩
    rw [tableAt_link hLeads, tableAt_link hNext]
    exact Option.some_ne_none _

theorem translation_map {root : Nat} {m : PhysMem} {p : Word} (hPage : PageAddress p) {g : Nat}
    (hTable : tableAt m [kernelSlot, pdptSlot p] root = some g)
    (hOwned : Owned m root [kernelSlot, pdptSlot p] g) (v : Word) :
    translation (m.store g (pdtSlot p) (mkEntry p pageKernelPage)) root v =
      if InPage p v then some (directPage v) else translation m root v := by
  obtain ⟨hPresent, hLarge, hUser, hFrame⟩ := pageEntry hPage
  unfold translation
  by_cases hIn : InPage p v
  · obtain ⟨hCanonical, h₃, h₂, h₁⟩ := (inPage_iff hPage v).mp hIn
    obtain ⟨user, hWalk⟩ := hOwned.walk_store_large hTable (Nat.le_succ 2) (pdtSlot p) hPresent hLarge
      (List.cons_ne_nil (slot v 0) []) (by decide : 1 < 3) true
    have hSlots : slots v = [kernelSlot, pdptSlot p] ++ pdtSlot p :: [slot v 0] := by
      rw [← h₃, ← h₂, ← h₁]
      rfl
    have hSame : p.toNat / 2 ^ 12 / 512 * 512 = (virtToPhy v).toNat / 2 ^ 21 * 512 := by
      have hEq : (virtToPhy v).toNat / 2 ^ 21 = p.toNat / 2 ^ 21 := hIn
      omega
    rw [if_pos hCanonical, if_pos hIn, hSlots, hWalk, hUser, hFrame, Bool.and_false, List.length_singleton,
      Nat.pow_one,
      hSame]
    rfl
  · rw [if_neg hIn]
    by_cases hCanonical : Canonical v
    · rw [if_pos hCanonical, if_pos hCanonical]
      refine hOwned.walk_store (Nat.le_refl (slots v).length) ?_ true
      rintro ⟨ks, hSlots⟩
      obtain ⟨h₃, hSlots⟩ := List.cons.inj hSlots
      obtain ⟨h₂, hSlots⟩ := List.cons.inj hSlots
      obtain ⟨h₁, -⟩ := List.cons.inj hSlots
      exact hIn ((inPage_iff hPage v).mpr ⟨hCanonical, h₃.symm, h₂.symm, h₁.symm⟩)
    · rw [if_neg hCanonical, if_neg hCanonical]

theorem mapPage_eq {s s₁ s₂ : State} {p e₁ e₂ : Word} {m : PhysMem}
    (hFirst : ensureTable tables pageKernelGdt (entryPtr cr3 (phyToVirt p) 39) s = some s₁)
    (hLoad₁ : load s₁.memory (entryPtr cr3 (phyToVirt p) 39) = some e₁)
    (hSecond : ensureTable tables pageKernelDir (entryPtr e₁ (phyToVirt p) 30) s₁ = some s₂)
    (hLoad₂ : load s₂.memory (entryPtr e₁ (phyToVirt p) 30) = some e₂)
    (hStore : store s₂.memory (entryPtr e₂ (phyToVirt p) 21) (mkEntry p pageKernelPage) = some m) :
    mapPage tables cr3 s p = some { s₂ with memory := m } := by
  unfold mapPage
  dsimp only
  rw [hFirst, Option.bind_eq_bind, Option.bind_some, hLoad₁, Option.bind_eq_bind, Option.bind_some, hSecond,
    Option.bind_eq_bind, Option.bind_some, hLoad₂, Option.bind_some, hStore, Option.bind_some]

include hSupply hCr3 in
/-- A round of the inner loop maps its page and nothing else. -/
theorem mapPage_ready {s : State} (hReady : Ready tables count (frame cr3) pages s.memory s.calls) {p : Word}
    (hp : p ∈ pages)
    (hPage : PageAddress p) : ∃ t, mapPage tables cr3 s p = some t ∧
      Ready tables count (frame cr3) pages t.memory t.calls ∧
      ∀ v, translation t.memory (frame cr3) v =
        if InPage p v then some (directPage v) else translation s.memory (frame cr3) v := by
  obtain ⟨s₁, hFirst, hReady₁, hSame₁, hLeads₁, -⟩ := ensureTable_pml4 hSupply hCr3 hReady hp hPage
  obtain ⟨s₂, hSecond, hReady₂, hSame₂, hKernel, hLeads₂, hLow, -⟩ :=
    ensureTable_pdpt hSupply hReady₁ hp hLeads₁
  have hLoad₁ := load_eq (locate_pml4 hCr3 hPage) s₁.memory
  have hLoad₂ : load s₂.memory (entryPtr (s₁.memory (frame cr3) kernelSlot) (phyToVirt p) 30) =
      some (s₂.memory (frame (s₁.memory (frame cr3) kernelSlot)) (pdptSlot p)) :=
    load_eq (locate_pdpt hReady₁.readable) s₂.memory
  have hTable : tableAt s₂.memory [kernelSlot, pdptSlot p] (frame cr3) =
      some (frame (s₂.memory (frame (s₁.memory (frame cr3) kernelSlot)) (pdptSlot p))) := by
    rw [tableAt_link (by rw [hKernel]; exact hLeads₁), hKernel, tableAt_link hLeads₂]
    rfl
  generalize s₂.memory (frame (s₁.memory (frame cr3) kernelSlot)) (pdptSlot p) = e at hLoad₂ hTable hLow
  have hStore : store s₂.memory (entryPtr e (phyToVirt p) 21) (mkEntry p pageKernelPage) =
      some (s₂.memory.store (frame e) (pdtSlot p) (mkEntry p pageKernelPage)) :=
    store_eq (locate_pdt hLow) s₂.memory _
  refine ⟨{ s₂ with memory := s₂.memory.store (frame e) (pdtSlot p) (mkEntry p pageKernelPage) }, ?_,
    ?_, fun v => ?_⟩
  · exact mapPage_eq hFirst hLoad₁ hSecond hLoad₂ hStore
  · exact (hReady₂.map_pdt hp hPage (by rw [hKernel]; exact hLeads₁) hTable).1
  · rw [translation_map hPage hTable (hReady₂.ownPdt p hp _ hTable) v, (hSame₁.trans hSame₂).translation v]

include hSupply hCr3 in
theorem foldlM_mapPage {s : State} (hReady : Ready tables count (frame cr3) pages s.memory s.calls)
    (hPages : ∀ p ∈ pages, PageAddress p) {todo : List Word} (hTodo : ∀ p ∈ todo, p ∈ pages) :
    ∃ t, todo.foldlM (mapPage tables cr3) s = some t ∧ ∀ v, translation t.memory (frame cr3) v =
      if ∃ p ∈ todo, InPage p v then some (directPage v) else translation s.memory (frame cr3) v := by
  induction todo generalizing s with
  | nil => exact ⟨s, rfl, fun v => by simp⟩
  | cons p todo ih =>
    have hp := hTodo p List.mem_cons_self
    obtain ⟨s', hPage, hReady', hMap⟩ := mapPage_ready hSupply hCr3 hReady hp (hPages p hp)
    obtain ⟨t, hRest, hWalk⟩ := ih hReady' fun q hq => hTodo q (List.mem_cons_of_mem _ hq)
    refine ⟨t, ?_, fun v => ?_⟩
    · rw [List.foldlM_cons, hPage]
      exact hRest
    · rw [hWalk v, hMap v]
      by_cases hIn : InPage p v
      · rw [if_pos hIn, ite_self, if_pos ⟨p, List.mem_cons_self, hIn⟩]
      · rw [if_neg hIn]
        refine if_congr ?_ rfl rfl
        rw [List.exists_mem_cons_iff, or_iff_right hIn]

end

end KalinoteOS.Paging
