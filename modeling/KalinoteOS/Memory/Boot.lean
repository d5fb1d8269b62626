import KalinoteOS.Memory.E820
import KalinoteOS.Memory.Pool
import KalinoteOS.Memory.PageRun

/-! # The memory tables at boot

`init_memory` puts the bitmap, the pages and the zones behind the kernel, `slab_init` the first
slabs behind those. Each takes the pages it has written to out of the free ones. Virtual addresses
are natural numbers; what the BIOS reports is added in 64 bits.
-/
namespace KalinoteOS.Memory.Boot
open Lib Pages
set_option autoImplicit false

/-- `memory_management_struct`, with the addresses of its tables. -/
structure Descriptor extends Management where
  endBrk : Nat
  bitsMapAt : Nat
  bitsLength : Nat
  pagesAt : Nat
  pagesLength : Nat
  zonesAt : Nat
  zonesLength : Nat
  endOfStruct : Nat

def sizeofPage : Nat := 40
def sizeofZone : Nat := 80

/-- `(addr + PAGE_4K_SIZE - 1) & PAGE_4K_MASK`. -/
def page4KAlign (address : Nat) : Nat := (address + 4095) / 4096 * 4096

def page2MAlign (address : Nat) : Nat := (address + page2M - 1) / page2M * page2M

/-- `& ( ~ (sizeof(long) - 1))`. -/
def longMask (n : Nat) : Nat := n / 8 * 8

def virtToPhy (address : Nat) : Nat := address - pageOffset

/-- `PG_PTable_Maped | PG_Kernel_Init | PG_Kernel`. -/
def kernelFlags : BitVec 64 := 0b1011#64

def pgShared : BitVec 64 := 0b10000#64

/-! ## `init_memory` -/

/-- `PAGE_2M_ALIGN(e820[i].address)`. -/
def zoneStartOf (e : E820) : Nat :=
  (e.address + BitVec.ofNat 64 page2M - 1).toNat / page2M * page2M

def zoneEndOf (e : E820) : Nat := (e.address + e.length).toNat / page2M * page2M

/-- The zone of an entry, if the loop does not `continue`. -/
def zoneBounds? (e : E820) : Option (Nat × Nat) :=
  if e.type ≠ 1 then none
  else if zoneEndOf e ≤ zoneStartOf e then none
  else some (zoneStartOf e, zoneEndOf e)

def zoneBounds (e820 : List E820) : List (Nat × Nat) := e820.filterMap zoneBounds?

/-- Where the last entry ends. -/
def totalMem (e820 : List E820) : Nat :=
  match e820.getLast? with
  | some e => (e.address + e.length).toNat
  | none => 0

/-- The three tables, and what `memset` leaves in them. A zeroed `zone_struct` is `NULL`. -/
def placeTables (d : Descriptor) (size : Nat) : Descriptor :=
  let bitsMapAt := page4KAlign d.endBrk
  let bitsLength := longMask ((size + 63) / 8)
  let pagesAt := page4KAlign (bitsMapAt + bitsLength)
  let pagesLength := longMask (size * sizeofPage + 7)
  { d with
    bitsMapAt := bitsMapAt
    bitsLength := bitsLength
    bitsMap := d.bitsMap.fill (bitsLength / 8)
    pagesAt := pagesAt
    pagesLength := pagesLength
    pages := fun p => if p < size then ⟨0, 0, 0, 0⟩ else d.pages p
    zonesAt := page4KAlign (pagesAt + pagesLength)
    zonesSize := 0
    zonesLength := longMask (5 * sizeofZone + 7)
    zones := fun i => if i < 5 then ⟨0, 0, 0, 0, 0, 0⟩ else d.zones i }

/-- The loop over the pages of zone `i`. -/
def initPages (m : Management) (i start : Nat) : Nat → Management
  | 0 => m
  | j + 1 =>
    let m := initPages m i start j
    let phyAddress := start + page2M * j
    { m with
      pages := Function.update m.pages (frame start + j) ⟨i, phyAddress, 0, 0⟩
      bitsMap := m.bitsMap.flipBit (frame phyAddress) }

def newZone (start stop : Nat) : Zone where
  pagesLength := (stop - start) / page2M
  zoneStartAddress := start
  zoneEndAddress := stop
  pageUsingCount := 0
  pageFreeCount := ((stop - start) / page2M : Nat)
  totalPagesLink := 0

/-- One round of the loop over the entries that make a zone. -/
def addZone (m : Management) (bounds : Nat × Nat) : Management :=
  let z := newZone bounds.1 bounds.2
  initPages { m with
    zones := Function.update m.zones m.zonesSize z
    zonesSize := m.zonesSize + 1 } m.zonesSize bounds.1 z.pagesLength

/-- Page 0 belongs to the first zone, whose range it is not in. -/
def initPageZero (m : Management) : Management :=
  { m with pages := Function.update m.pages 0 ⟨0, 0, kernelFlags, 1⟩ }

/-- The loop that looks for the first zone above 4GB; 0 stands for none yet. -/
def unmapedIndex (zones : Nat → Zone) (zonesSize : Nat) : Nat :=
  (List.range zonesSize).foldl
    (fun index i => if 0x100000000 ≤ (zones i).zoneStartAddress ∧ index = 0 then i else index) 0

def closeTables (d : Descriptor) : Descriptor :=
  let zonesLength := longMask (d.zonesSize * sizeofZone + 7)
  { d with
    zonesLength := zonesLength
    zoneDmaIndex := 0
    zoneNormalIndex := 0
    zoneUnmapedIndex := unmapedIndex d.zones d.zonesSize
    endOfStruct := longMask (d.zonesAt + zonesLength + 8 * 32) }

def pageInit (m : Management) (p : Nat) (flags : BitVec 64) : Management :=
  let page := { m.pages p with attr := (m.pages p).attr ||| flags }
  if page.referenceCount = 0 ∨ page.attr &&& pgShared ≠ 0 then
    { m with
      pages := Function.update m.pages p { page with referenceCount := page.referenceCount + 1 }
      zones := Function.update m.zones page.zoneStruct { m.zones page.zoneStruct with
        totalPagesLink := (m.zones page.zoneStruct).totalPagesLink + 1 } }
  else { m with pages := Function.update m.pages p page }

/-- The bit of a page and the counters of its zone, when the page is taken at boot. -/
def takeBit (m : Management) (p : Nat) : Management :=
  let i := (m.pages p).zoneStruct
  { m with
    bitsMap := m.bitsMap.setBit (frame (m.pages p).phyAddress)
    zones := Function.update m.zones i { m.zones i with
      pageUsingCount := (m.zones i).pageUsingCount + 1
      pageFreeCount := (m.zones i).pageFreeCount - 1 } }

/-- The pages that `init_memory` takes. -/
def initPagesTaken (endOfStruct : Nat) : List Nat :=
  List.range' 1 (frame (virtToPhy endOfStruct))

/-- `init_memory` up to the end of `memory_management_struct`. -/
def buildTables (d : Descriptor) (e820 : List E820) : Descriptor :=
  let d := placeTables d (totalMem e820 / page2M)
  closeTables { d with
    toManagement := initPageZero ((zoneBounds e820).foldl addZone d.toManagement) }

def initMemory (d : Descriptor) (e820 : List E820) : Descriptor :=
  let d := buildTables d e820
  { d with
    toManagement := (initPagesTaken d.endOfStruct).foldl
      (fun m j => takeBit (pageInit m j kernelFlags) j) d.toManagement }

/-! ## `slab_init` -/

/-- `kmalloc_cache_size[i].size`. -/
def kmallocSize (i : Nat) : Nat := 32 * 2 ^ i

/-- `end_of_struct` behind a slab whose header is at `address`, its bitmap, and two gaps. -/
def behindSlab (address size : Nat) : Nat :=
  longMask (address + sizeofSlab + 8 * 10 + colorLengthOf (page2M / size) + 8 * 10)

/-- `end_of_struct` after `i` rounds of the first loop. -/
def slabsEnd (endOfStruct : Nat) : Nat → Nat
  | 0 => endOfStruct
  | i + 1 => behindSlab (slabsEnd endOfStruct i) (kmallocSize i)

/-- The first slab of a size, with its header at `address`. -/
def firstSlab (address size page vaddress : Nat) : Slab where
  header := address
  page := page
  usingCount := 0
  freeCount := (page2M / size : Nat)
  vaddress := vaddress
  colorLength := colorLengthOf (page2M / size)
  colorCount := page2M / size
  colorMapAt := address + sizeofSlab + 8 * 10
  colorMap := freshMap (page2M / size)

/-- The address `virtual` of the last loop. -/
def poolAddress (endOfStruct i : Nat) : Nat := page2MAlign (endOfStruct + page2M * i)

/-- `Virt_To_2M_Page(virtual)`. -/
def poolPage (endOfStruct i : Nat) : Nat := frame (virtToPhy (poolAddress endOfStruct i))

/-- `kmalloc_cache_size[i]` after `slab_init`, which started at `endOfStruct`. -/
def kmallocCache (endOfStruct i : Nat) : SlabCache where
  size := kmallocSize i
  totalUsing := 0
  totalFree := (page2M / kmallocSize i : Nat)
  cachePool := slabsEnd endOfStruct i
  ring := [firstSlab (slabsEnd endOfStruct i) (kmallocSize i)
    (poolPage (slabsEnd endOfStruct 16) i) (poolAddress (slabsEnd endOfStruct 16) i)]

/-- The pages that `slab_init` takes for the headers, from `endOfStruct` on. -/
def slabPagesTaken (endOfStruct : Nat) : List Nat :=
  let first := frame (page2MAlign (virtToPhy endOfStruct))
  List.range' first (frame (virtToPhy (slabsEnd endOfStruct 16)) + 1 - first)

/-- The pages that it takes for the objects. -/
def poolPages (endOfStruct : Nat) : List Nat :=
  (List.range 16).map (poolPage (slabsEnd endOfStruct 16))

/-- All pages taken at boot, in this order; the first `end_of_struct` is `endOfStruct`. -/
def takenPages (endOfStruct : Nat) : List Nat :=
  initPagesTaken endOfStruct ++ (slabPagesTaken endOfStruct ++ poolPages endOfStruct)

def slabInit (d : Descriptor) : Descriptor :=
  { d with
    endOfStruct := slabsEnd d.endOfStruct 16
    toManagement := (slabPagesTaken d.endOfStruct ++ poolPages d.endOfStruct).foldl
      (fun m j => pageInit (takeBit m j) j kernelFlags) d.toManagement }

/-! ## What the BIOS reports -/

/-- The addresses of an entry. -/
def Has (e : E820) (x : Nat) : Prop :=
  e.address.toNat ≤ x ∧ x < e.address.toNat + e.length.toNat

structure Table (e820 : List E820) : Prop where
  length : e820.length ≤ 32
  /-- Neither the end of an entry nor its rounding to 2MB wraps around. -/
  fits : ∀ e ∈ e820, e.address.toNat + e.length.toNat + page2M ≤ 2 ^ 64
  sorted : e820.Pairwise fun a b => a.address.toNat ≤ b.address.toNat
  disjoint : e820.Pairwise fun a b => ∀ x, ¬ (Has a x ∧ Has b x)
  highest : ∀ last ∈ e820.getLast?, ∀ e ∈ e820,
    e.address.toNat + e.length.toNat ≤ last.address.toNat + last.length.toNat

theorem zoneStartOf_eq {e : E820} (h : e.address.toNat + e.length.toNat + page2M ≤ 2 ^ 64) :
    zoneStartOf e = page2MAlign e.address.toNat := by
  have hSum : (e.address + BitVec.ofNat 64 page2M - 1).toNat = e.address.toNat + page2M - 1 := by
    have hOne : (1 : BitVec 64).toNat = 1 := rfl
    have hPage : (BitVec.ofNat 64 page2M).toNat = page2M := rfl
    rw [BitVec.toNat_sub, BitVec.toNat_add, hPage, hOne]
    unfold page2M at *
    omega
  unfold zoneStartOf page2MAlign
  rw [hSum]

theorem toNat_end {e : E820} (h : e.address.toNat + e.length.toNat + page2M ≤ 2 ^ 64) :
    (e.address + e.length).toNat = e.address.toNat + e.length.toNat := by
  unfold page2M at h
  rw [BitVec.toNat_add]
  omega

/-- Whole pages inside one entry. -/
structure InEntry (e : E820) (b : Nat × Nat) : Prop where
  startAligned : page2M * frame b.1 = b.1
  endAligned : page2M * frame b.2 = b.2
  nonempty : b.1 < b.2
  low : b.1 = page2MAlign e.address.toNat
  high : b.2 ≤ e.address.toNat + e.length.toNat

theorem zoneBounds?_spec {e : E820} (h : e.address.toNat + e.length.toNat + page2M ≤ 2 ^ 64) {b : Nat × Nat}
    (hBounds : zoneBounds? e = some b) : InEntry e b := by
  unfold zoneBounds? at hBounds
  split at hBounds
  · cases hBounds
  · split at hBounds
    · cases hBounds
    · next hLt =>
      cases hBounds
      have hStart := zoneStartOf_eq h
      have hEnd : zoneEndOf e = (e.address.toNat + e.length.toNat) / page2M * page2M := by
        unfold zoneEndOf
        rw [toNat_end h]
      constructor
      · dsimp only
        rw [hStart]
        unfold page2MAlign frame page2M
        omega
      · dsimp only
        rw [hEnd]
        unfold frame page2M
        omega
      · exact not_le.mp hLt
      · exact hStart
      · dsimp only
        rw [hEnd]
        exact Nat.div_mul_le_self _ _

theorem InEntry.le_start {e : E820} {b : Nat × Nat} (h : InEntry e b) : e.address.toNat ≤ b.1 := by
  rw [h.low]
  unfold page2MAlign page2M
  omega

section
variable {e820 : List E820} (h : Table e820)
include h

theorem Table.inEntry {b : Nat × Nat} (hb : b ∈ zoneBounds e820) : ∃ e ∈ e820, InEntry e b := by
  obtain ⟨e, he, hSome⟩ := List.mem_filterMap.mp hb
  exact ⟨e, he, zoneBounds?_spec (h.fits e he) hSome⟩

theorem Table.zones_le : (zoneBounds e820).length ≤ 32 :=
  (List.length_filterMap_le _ _).trans h.length

theorem Table.sorted_starts : (zoneBounds e820).Pairwise fun a b => a.1 ≤ b.1 := by
  unfold zoneBounds
  rw [List.pairwise_filterMap]
  refine h.sorted.imp_of_mem fun {a b} ha hb hLe x hx y hy => ?_
  rw [(zoneBounds?_spec (h.fits a ha) hx).low, (zoneBounds?_spec (h.fits b hb) hy).low]
  unfold page2MAlign page2M
  omega

theorem Table.apart :
    (zoneBounds e820).Pairwise fun a b => frame a.2 ≤ frame b.1 ∨ frame b.2 ≤ frame a.1 := by
  unfold zoneBounds
  rw [List.pairwise_filterMap]
  refine h.disjoint.imp_of_mem fun {a b} ha hb hDisjoint x hx y hy => ?_
  have hA := zoneBounds?_spec (h.fits a ha) hx
  have hB := zoneBounds?_spec (h.fits b hb) hy
  have hLeA := hA.le_start
  have hLeB := hB.le_start
  have hHighA := hA.high
  have hHighB := hB.high
  have hSomeA := hA.nonempty
  have hSomeB := hB.nonempty
  have hApart : x.2 ≤ y.1 ∨ y.2 ≤ x.1 := by
    by_contra hNot
    apply hDisjoint (max x.1 y.1)
    unfold Has
    omega
  unfold frame
  exact hApart.imp (fun hLe => Nat.div_le_div_right hLe) fun hLe => Nat.div_le_div_right hLe

theorem Table.le_totalMem {e : E820} (he : e ∈ e820) :
    e.address.toNat + e.length.toNat ≤ totalMem e820 := by
  cases hLast : e820.getLast? with
  | none =>
    rw [List.getLast?_eq_none_iff.mp hLast] at he
    cases he
  | some last =>
    unfold totalMem
    rw [hLast]
    dsimp only
    rw [toNat_end (h.fits last (List.mem_of_getLast? hLast))]
    exact h.highest last hLast e he

theorem Table.frame_le {b : Nat × Nat} (hb : b ∈ zoneBounds e820) :
    frame b.2 ≤ totalMem e820 / page2M := by
  obtain ⟨e, he, hIn⟩ := h.inEntry hb
  exact Nat.div_le_div_right (hIn.high.trans (h.le_totalMem he))

end

/-! ## The zones -/

/-- What the loop over the pages of one zone leaves. -/
structure PagesInit (m m' : Management) (i start n : Nat) : Prop where
  zones : m'.zones = m.zones
  zonesSize : m'.zonesSize = m.zonesSize
  inside : ∀ p, frame start ≤ p → p < frame start + n → m'.pages p = ⟨i, page2M * p, 0, 0⟩
  outside : ∀ p, ¬ (frame start ≤ p ∧ p < frame start + n) → m'.pages p = m.pages p
  used : ∀ p, m'.bitsMap.used p =
    (m.bitsMap.used p ^^ decide (frame start ≤ p ∧ p < frame start + n))

theorem initPages_spec (m : Management) (i : Nat) {start : Nat}
    (hStart : page2M * frame start = start) (n : Nat) :
    PagesInit m (initPages m i start n) i start n := by
  induction n with
  | zero =>
    refine ⟨rfl, rfl, fun p hLow hHigh => by omega, fun _ _ => rfl, fun p => ?_⟩
    have hNot : ¬ (frame start ≤ p ∧ p < frame start + 0) := by omega
    rw [initPages, decide_eq_false hNot, Bool.xor_false]
  | succ n ih =>
    have hAddress : start + page2M * n = page2M * (frame start + n) := by
      rw [Nat.mul_add, hStart]
    have hFrame : frame (start + page2M * n) = frame start + n := by
      rw [hAddress]
      exact Nat.mul_div_cancel_left _ (by decide)
    rw [initPages]
    constructor
    · exact ih.zones
    · exact ih.zonesSize
    · intro p hLow hHigh
      dsimp only
      by_cases hEq : p = frame start + n
      · rw [hEq, Function.update_self, hAddress]
      · rw [Function.update_of_ne hEq]
        exact ih.inside p hLow (by omega)
    · intro p hNot
      dsimp only
      rw [Function.update_of_ne (by omega)]
      exact ih.outside p (by omega)
    · intro p
      dsimp only
      rw [hFrame, Words.used_flipBit, ih.used, Bool.xor_assoc]
      congr 1
      by_cases hEq : p = frame start + n
      · have hNot : ¬ (frame start ≤ p ∧ p < frame start + n) := by omega
        have hIn : frame start ≤ p ∧ p < frame start + (n + 1) := by omega
        rw [decide_eq_false hNot, decide_eq_true hEq, decide_eq_true hIn]
        rfl
      · have hSame : (frame start ≤ p ∧ p < frame start + n) ↔
            (frame start ≤ p ∧ p < frame start + (n + 1)) := by omega
        rw [decide_eq_false hEq, Bool.xor_false, decide_eq_decide.mpr hSame]

/-- The zones of `bounds` stand in the tables, and their bits are the clear ones. -/
structure Built (m : Management) (bounds : List (Nat × Nat)) (size : Nat) : Prop where
  zonesSize : m.zonesSize = bounds.length
  zone : ∀ (i : Nat) (b : Nat × Nat), bounds[i]? = some b → m.zones i = newZone b.1 b.2
  page : ∀ (i : Nat) (b : Nat × Nat), bounds[i]? = some b →
    ∀ p, frame b.1 ≤ p → p < frame b.2 → m.pages p = ⟨i, page2M * p, 0, 0⟩
  clear : ∀ b ∈ bounds, ∀ p, frame b.1 ≤ p → p < frame b.2 → m.bitsMap.used p = false
  other : ∀ p < size, (∀ b ∈ bounds, ¬ (frame b.1 ≤ p ∧ p < frame b.2)) → m.bitsMap.used p = true

/-- The bounds of a zone: whole pages that the bitmap has bits for. -/
structure Fits (size : Nat) (b : Nat × Nat) : Prop where
  startAligned : page2M * frame b.1 = b.1
  endAligned : page2M * frame b.2 = b.2
  le : frame b.1 ≤ frame b.2
  size : frame b.2 ≤ size

theorem Fits.length {size : Nat} {b : Nat × Nat} (h : Fits size b) :
    frame b.1 + (b.2 - b.1) / page2M = frame b.2 := by
  have hStart := h.startAligned
  have hEnd := h.endAligned
  have hLe := h.le
  unfold frame page2M at *
  omega

theorem addZone_built {m : Management} {bounds : List (Nat × Nat)} {b : Nat × Nat} {size : Nat}
    (h : Built m bounds size) (hFits : Fits size b)
    (hApart : ∀ a ∈ bounds, frame a.2 ≤ frame b.1 ∨ frame b.2 ≤ frame a.1) :
    Built (addZone m b) (bounds ++ [b]) size := by
  have hSpec : PagesInit { m with
      zones := Function.update m.zones m.zonesSize (newZone b.1 b.2)
      zonesSize := m.zonesSize + 1 } (addZone m b) m.zonesSize b.1 ((b.2 - b.1) / page2M) :=
    initPages_spec _ _ hFits.startAligned _
  have hLength := hFits.length
  have hSize := h.zonesSize
  have hLast : (bounds ++ [b])[m.zonesSize]? = some b := by
    rw [hSize]
    exact List.getElem?_concat_length
  have hSplit : ∀ (i : Nat) (a : Nat × Nat), (bounds ++ [b])[i]? = some a →
      (i = m.zonesSize ∧ a = b) ∨ (i < m.zonesSize ∧ bounds[i]? = some a) := by
    intro i a hAt
    obtain hLt | rfl | hGt := Nat.lt_trichotomy i bounds.length
    · rw [List.getElem?_append_left hLt] at hAt
      exact Or.inr ⟨hSize ▸ hLt, hAt⟩
    · rw [← hSize, hLast] at hAt
      exact Or.inl ⟨hSize.symm, (Option.some.inj hAt).symm⟩
    · rw [List.getElem?_eq_none (by rw [List.length_append, List.length_singleton]; omega)] at hAt
      cases hAt
  constructor
  · rw [hSpec.zonesSize, List.length_append, List.length_singleton]
    dsimp only
    rw [hSize]
  · intro i a hAt
    rw [hSpec.zones]
    dsimp only
    obtain ⟨rfl, rfl⟩ | ⟨hLt, hAt⟩ := hSplit i a hAt
    · exact Function.update_self _ _ _
    · rw [Function.update_of_ne hLt.ne]
      exact h.zone i a hAt
  · intro i a hAt p hLow hHigh
    obtain ⟨rfl, rfl⟩ | ⟨hLt, hAt⟩ := hSplit i a hAt
    · exact hSpec.inside p hLow (by omega)
    · have hAside := hApart a (List.mem_of_getElem? hAt)
      rw [hSpec.outside p (by omega)]
      exact h.page i a hAt p hLow hHigh
  · intro a ha p hLow hHigh
    rw [hSpec.used]
    dsimp only
    obtain ha | ha := List.mem_append.mp ha
    · have hAside := hApart a ha
      have hNot : ¬ (frame b.1 ≤ p ∧ p < frame b.1 + (b.2 - b.1) / page2M) := by omega
      rw [decide_eq_false hNot, h.clear a ha p hLow hHigh]
      rfl
    · cases List.mem_singleton.mp ha
      have hIn : frame b.1 ≤ p ∧ p < frame b.1 + (b.2 - b.1) / page2M := by omega
      have hSet : m.bitsMap.used p = true := by
        apply h.other p (hHigh.trans_le hFits.size)
        intro a ha
        have hAside := hApart a ha
        omega
      rw [decide_eq_true hIn, hSet]
      rfl
  · intro p hp hNone
    have hNot : ¬ (frame b.1 ≤ p ∧ p < frame b.1 + (b.2 - b.1) / page2M) := by
      rw [hLength]
      exact hNone b (List.mem_append_right _ (List.mem_singleton_self b))
    rw [hSpec.used]
    dsimp only
    rw [decide_eq_false hNot, Bool.xor_false]
    exact h.other p hp fun a ha => hNone a (List.mem_append_left _ ha)

theorem foldl_addZone_built {m : Management} {size : Nat} (h : Built m [] size)
    (bounds : List (Nat × Nat)) (hFits : ∀ b ∈ bounds, Fits size b)
    (hApart : bounds.Pairwise fun a b => frame a.2 ≤ frame b.1 ∨ frame b.2 ≤ frame a.1) :
    Built (bounds.foldl addZone m) bounds size := by
  induction bounds using List.reverseRecOn with
  | nil => exact h
  | append_singleton bounds b ih =>
    rw [List.foldl_append]
    rw [List.pairwise_append] at hApart
    have hInit := ih (fun a ha => hFits a (List.mem_append_left _ ha)) hApart.1
    exact addZone_built hInit (hFits b (List.mem_append_right _ (List.mem_singleton_self b)))
      fun a ha => hApart.2.2 a ha b (List.mem_singleton_self b)

/-- The bits behind the last page stay as they are. -/
theorem foldl_addZone_used {size p : Nat} (hp : size ≤ p) (bounds : List (Nat × Nat))
    (hFits : ∀ b ∈ bounds, Fits size b) (m : Management) :
    (bounds.foldl addZone m).bitsMap.used p = m.bitsMap.used p := by
  induction bounds generalizing m with
  | nil => rfl
  | cons b bounds ih =>
    have hHere := hFits b List.mem_cons_self
    have hSpec : PagesInit { m with
        zones := Function.update m.zones m.zonesSize (newZone b.1 b.2)
        zonesSize := m.zonesSize + 1 } (addZone m b) m.zonesSize b.1 ((b.2 - b.1) / page2M) :=
      initPages_spec _ _ hHere.startAligned _
    have hLength := hHere.length
    have hSize := hHere.size
    have hNot : ¬ (frame b.1 ≤ p ∧ p < frame b.1 + (b.2 - b.1) / page2M) := by omega
    rw [List.foldl_cons, ih (fun a ha => hFits a (List.mem_cons_of_mem b ha)), hSpec.used,
      decide_eq_false hNot, Bool.xor_false]

/-! ## Taking pages -/

/-- Page `p` is used now, and its zone is charged for it. -/
structure Takes (m m' : Management) (p : Nat) : Prop where
  same : SameLayout m m'
  charged : Charged m m' (m.pages p).zoneStruct 1
  used : ∀ q, m'.bitsMap.used q =
    (m.bitsMap.used q || decide (q = frame (m.pages p).phyAddress))

theorem pageInit_same (m : Management) (p : Nat) (flags : BitVec 64) :
    SameLayout m (pageInit m p flags) := by
  unfold pageInit
  dsimp only
  split
  · exact ⟨rfl, rfl, rfl, rfl, update_field m.zones Zone.start _ rfl,
      update_field m.zones Zone.stop _ rfl, update_field m.zones Zone.pagesLength _ rfl,
      update_field m.pages Page.zoneStruct p rfl, update_field m.pages Page.phyAddress p rfl⟩
  · exact ⟨rfl, rfl, rfl, rfl, fun _ => rfl, fun _ => rfl, fun _ => rfl,
      update_field m.pages Page.zoneStruct p rfl, update_field m.pages Page.phyAddress p rfl⟩

theorem pageInit_counts (m : Management) (p : Nat) (flags : BitVec 64) :
    (pageInit m p flags).bitsMap = m.bitsMap ∧ Charged m (pageInit m p flags) (m.pages p).zoneStruct 0 := by
  unfold pageInit
  dsimp only
  split
  · refine ⟨rfl, ?_, ?_, fun k hk => Function.update_of_ne hk _ _⟩
    · dsimp only
      rw [Function.update_self, add_zero]
    · dsimp only
      rw [Function.update_self, sub_zero]
  · exact ⟨rfl, (add_zero _).symm, (sub_zero _).symm, fun _ _ => rfl⟩

theorem takeBit_takes (m : Management) (p : Nat) : Takes m (takeBit m p) p := by
  unfold takeBit
  constructor
  · exact ⟨rfl, rfl, rfl, rfl, update_field m.zones Zone.start _ rfl,
      update_field m.zones Zone.stop _ rfl, update_field m.zones Zone.pagesLength _ rfl,
      fun _ => rfl, fun _ => rfl⟩
  · constructor
    · dsimp only
      rw [Function.update_self]
    · dsimp only
      rw [Function.update_self]
    · exact fun k hk => Function.update_of_ne hk _ _
  · exact fun q => Words.used_setBit _ _ _

theorem initTake_takes (m : Management) (p : Nat) (flags : BitVec 64) :
    Takes m (takeBit (pageInit m p flags) p) p := by
  have hSame := pageInit_same m p flags
  obtain ⟨hBits, hCounts⟩ := pageInit_counts m p flags
  have hTakes := takeBit_takes (pageInit m p flags) p
  have hCharged := hTakes.charged
  rw [hSame.zoneStruct] at hCharged
  constructor
  · exact hSame.trans hTakes.same
  · exact hCounts.trans hCharged
  · intro q
    rw [hTakes.used, hBits, hSame.phyAddress]

theorem slabTake_takes (m : Management) (p : Nat) (flags : BitVec 64) :
    Takes m (pageInit (takeBit m p) p flags) p := by
  have hTakes := takeBit_takes m p
  have hSame := pageInit_same (takeBit m p) p flags
  obtain ⟨hBits, hCounts⟩ := pageInit_counts (takeBit m p) p flags
  rw [hTakes.same.zoneStruct] at hCounts
  constructor
  · exact hTakes.same.trans hSame
  · exact hTakes.charged.trans hCounts
  · intro q
    rw [hBits]
    exact hTakes.used q

/-- `p` is a page of zone `i`. -/
structure InZone (m : Management) (i p : Nat) : Prop where
  zone : i < m.zonesSize
  low : (m.zones i).start ≤ p
  high : p < (m.zones i).stop

theorem InZone.same {m m' : Management} {i p : Nat} (h : InZone m i p) (hSame : SameLayout m m') :
    InZone m' i p := by
  constructor
  · rw [hSame.zonesSize]
    exact h.zone
  · rw [hSame.start]
    exact h.low
  · rw [hSame.stop]
    exact h.high

theorem Takes.accounting {m m' : Management} {i p : Nat} (h : Takes m m' p) (hLayout : Layout m)
    (hAccounting : Accounting m) (hIn : InZone m i p) (hClear : m.bitsMap.used p = false) :
    Accounting m' ∧ ∀ q, m'.bitsMap.used q = (m.bitsMap.used q || decide (q = p)) := by
  obtain ⟨hZone, hFrame⟩ := hLayout.pages i hIn.zone p hIn.low hIn.high
  have hCharged := h.charged
  have hUsed := h.used
  rw [hZone] at hCharged
  rw [hFrame] at hUsed
  have hRest : ∀ q, ¬ (p ≤ q ∧ q < p + 1) → m'.bitsMap.used q = m.bitsMap.used q := by
    intro q hNot
    have hNe : q ≠ p := by omega
    rw [hUsed, decide_eq_false hNe, Bool.or_false]
  have hBlock : ∀ q, m'.bitsMap.used q = (m.bitsMap.used q || decide (p ≤ q ∧ q < p + 1)) := by
    intro q
    have hOne : q = p ↔ p ≤ q ∧ q < p + 1 := by omega
    rw [hUsed, decide_eq_decide.mpr hOne]
  have hRun : ClearRun m.bitsMap p 1 := by
    intro l hl
    rw [Nat.lt_one_iff.mp hl, Nat.add_zero, hClear]
  have hCard := clearPages_taken h.same hIn.low hIn.high hRun hBlock
  refine ⟨?_, hUsed⟩
  apply hAccounting.charged hLayout h.same hIn.zone hIn.low hIn.high hCharged _ hRest
  omega

/-- A loop that takes pages of one zone, each of them once. -/
theorem foldl_takes {f : Management → Nat → Management} (hf : ∀ m p, Takes m (f m p) p) {i : Nat}
    (ps : List Nat) {m : Management} (hLayout : Layout m) (hAccounting : Accounting m)
    (hIn : ∀ p ∈ ps, InZone m i p) (hClear : ∀ p ∈ ps, m.bitsMap.used p = false) (hNodup : ps.Nodup) :
    SameLayout m (ps.foldl f m) ∧ Accounting (ps.foldl f m) ∧
      ∀ q, (ps.foldl f m).bitsMap.used q = (m.bitsMap.used q || decide (q ∈ ps)) := by
  induction ps generalizing m with
  | nil =>
    refine ⟨SameLayout.refl m, hAccounting, fun q => ?_⟩
    rw [decide_eq_false List.not_mem_nil, Bool.or_false]
    rfl
  | cons p ps ih =>
    obtain ⟨hNotMem, hRest⟩ := List.nodup_cons.mp hNodup
    have hTakes := hf m p
    have hSame := hTakes.same
    obtain ⟨hNext, hUsed⟩ := hTakes.accounting hLayout hAccounting (hIn p List.mem_cons_self)
      (hClear p List.mem_cons_self)
    have hClearRest : ∀ q ∈ ps, (f m p).bitsMap.used q = false := by
      intro q hq
      have hNe : q ≠ p := by
        rintro rfl
        exact hNotMem hq
      rw [hUsed, hClear q (List.mem_cons_of_mem _ hq), decide_eq_false hNe]
      rfl
    obtain ⟨hSameEnd, hEnd, hUsedEnd⟩ := ih (hLayout.same hSame) hNext
      (fun q hq => (hIn q (List.mem_cons_of_mem _ hq)).same hSame) hClearRest hRest
    refine ⟨hSame.trans hSameEnd, hEnd, fun q => ?_⟩
    rw [List.foldl_cons, hUsedEnd, hUsed, Bool.or_assoc, ← Bool.decide_or]
    congr 1
    rw [decide_eq_decide, List.mem_cons]

theorem loops_take {f g : Management → Nat → Management} (hf : ∀ m p, Takes m (f m p) p)
    (hg : ∀ m p, Takes m (g m p) p) {i : Nat} {ps qs : List Nat} {m : Management}
    (hLayout : Layout m) (hAccounting : Accounting m)
    (hFree : ∀ p ∈ ps ++ qs, InZone m i p ∧ m.bitsMap.used p = false) (hNodup : (ps ++ qs).Nodup) :
    SameLayout m (qs.foldl g (ps.foldl f m)) ∧ Accounting (qs.foldl g (ps.foldl f m)) ∧
      ∀ q, (qs.foldl g (ps.foldl f m)).bitsMap.used q =
        (m.bitsMap.used q || decide (q ∈ ps ++ qs)) := by
  obtain ⟨hNodupFirst, hNodupSecond, hApart⟩ := List.nodup_append.mp hNodup
  obtain ⟨hSame, hFirst, hUsed⟩ := foldl_takes hf ps hLayout hAccounting
    (fun p hp => (hFree p (List.mem_append_left _ hp)).1)
    (fun p hp => (hFree p (List.mem_append_left _ hp)).2) hNodupFirst
  have hClear : ∀ p ∈ qs, (ps.foldl f m).bitsMap.used p = false := by
    intro p hp
    have hNotMem : p ∉ ps := fun hMem => hApart p hMem p hp rfl
    rw [hUsed, (hFree p (List.mem_append_right _ hp)).2, decide_eq_false hNotMem]
    rfl
  obtain ⟨hSameEnd, hEnd, hUsedEnd⟩ := foldl_takes hg qs (hLayout.same hSame) hFirst
    (fun p hp => (hFree p (List.mem_append_right _ hp)).1.same hSame) hClear hNodupSecond
  refine ⟨hSame.trans hSameEnd, hEnd, fun q => ?_⟩
  rw [hUsedEnd, hUsed, Bool.or_assoc, ← Bool.decide_or, decide_eq_decide.mpr List.mem_append]

/-! ## Where the tables are -/

/-- The bytes that `i` rounds of `slab_init` put behind the zones. -/
def slabsLength : Nat → Nat
  | 0 => 0
  | i + 1 => slabsLength i + (sizeofSlab + 8 * 10 + colorLengthOf (page2M / kmallocSize i) + 8 * 10)

theorem slabsEnd_eq {e : Nat} (h : e % 8 = 0) (i : Nat) :
    slabsEnd e i = e + slabsLength i ∧ slabsEnd e i % 8 = 0 := by
  induction i with
  | zero => exact ⟨rfl, h⟩
  | succ i ih =>
    obtain ⟨hEnd, hAligned⟩ := ih
    rw [slabsEnd, slabsLength, ← Nat.add_assoc, ← hEnd]
    unfold behindSlab longMask sizeofSlab colorLengthOf
    omega

theorem slabsLength_all : slabsLength 16 = 20128 := by decide +kernel

theorem slabsEnd_mono {e : Nat} (h : e % 8 = 0) {i j : Nat} (hLe : i ≤ j) :
    slabsEnd e i ≤ slabsEnd e j := by
  induction hLe with
  | refl => exact le_refl _
  | @step j _ ih =>
    have hAligned := (slabsEnd_eq h j).2
    refine ih.trans ?_
    rw [slabsEnd]
    unfold behindSlab longMask
    omega

/-- The tables lie one behind the other; `z` is the number of zones. -/
structure Placed (d : Descriptor) (z : Nat) : Prop where
  brk : pageOffset ≤ d.endBrk
  bitsMap : d.endBrk ≤ d.bitsMapAt
  pages : d.bitsMapAt + d.bitsLength ≤ d.pagesAt
  zones : d.pagesAt + d.pagesLength ≤ d.zonesAt
  aligned : d.zonesAt % 4096 = 0
  zonesLength : d.zonesLength = sizeofZone * z
  endOfStruct : d.endOfStruct = d.zonesAt + d.zonesLength + 256

/-- `end_of_struct` as `slab_init` finds it: neither it nor the end of the slabs is on the
boundary of a 2MB page. -/
structure EndOfStruct (e : Nat) : Prop where
  virtual : pageOffset ≤ e
  aligned : e % 8 = 0
  inside : virtToPhy e % page2M ≠ 0
  insideSlabs : virtToPhy (slabsEnd e 16) % page2M ≠ 0

/-- An address inside a 4KB page is inside a 2MB page. -/
theorem inside_page2M {n r : Nat} (h : n % 4096 = r) (hInside : r ≠ 0) : n % page2M ≠ 0 := by
  intro hZero
  have hMod := Nat.mod_mod_of_dvd n (show 4096 ∣ page2M by decide)
  rw [hZero, h] at hMod
  exact hInside hMod.symm

theorem Placed.endOfStruct_spec {d : Descriptor} {z : Nat} (h : Placed d z) (hSome : 1 ≤ z)
    (hFew : z ≤ 32) : EndOfStruct d.endOfStruct := by
  have hBrk := h.brk
  have hBits := h.bitsMap
  have hPages := h.pages
  have hZones := h.zones
  have hAligned := h.aligned
  have hLength := h.zonesLength
  have hEnd := h.endOfStruct
  unfold sizeofZone at hLength
  have hWord : d.endOfStruct % 8 = 0 := by omega
  have hSlabs := (slabsEnd_eq hWord 16).1
  have hOffset : pageOffset % 4096 = 0 := rfl
  rw [slabsLength_all] at hSlabs
  constructor
  · omega
  · exact hWord
  · have hMod : virtToPhy d.endOfStruct % 4096 = 80 * z + 256 := by
      unfold virtToPhy
      omega
    exact inside_page2M hMod (by omega)
  · have hMod : virtToPhy (slabsEnd d.endOfStruct 16) % 4096 = (80 * z + 4000) % 4096 := by
      unfold virtToPhy
      omega
    exact inside_page2M hMod (by omega)

section
variable {e : Nat} (h : EndOfStruct e)
include h

theorem EndOfStruct.le_slabsEnd : e ≤ slabsEnd e 16 := slabsEnd_mono h.aligned (Nat.zero_le 16)

/-- `slab_init` starts behind the last page that `init_memory` took. -/
theorem EndOfStruct.slabPagesTaken_eq :
    slabPagesTaken e = List.range' (frame (virtToPhy e) + 1)
      (frame (virtToPhy (slabsEnd e 16)) - frame (virtToPhy e)) := by
  have hInside := h.inside
  have hFirst : frame (page2MAlign (virtToPhy e)) = frame (virtToPhy e) + 1 := by
    unfold frame page2MAlign page2M at *
    omega
  unfold slabPagesTaken
  dsimp only
  rw [hFirst, Nat.add_sub_add_right]

/-- The pools start behind the last page that holds a header. -/
theorem EndOfStruct.poolPage_eq (i : Nat) :
    poolPage (slabsEnd e 16) i = frame (virtToPhy (slabsEnd e 16)) + 1 + i := by
  have hInside := h.insideSlabs
  have hVirtual := h.virtual.trans h.le_slabsEnd
  unfold poolPage poolAddress page2MAlign virtToPhy frame pageOffset page2M at *
  omega

theorem EndOfStruct.poolAddress_eq (i : Nat) :
    poolAddress (slabsEnd e 16) i = pageAddress (poolPage (slabsEnd e 16) i) := by
  have hVirtual := h.virtual.trans h.le_slabsEnd
  unfold poolPage poolAddress page2MAlign virtToPhy frame pageAddress pageOffset page2M at *
  omega

theorem EndOfStruct.takenPages_eq :
    takenPages e = List.range' 1 (frame (virtToPhy (slabsEnd e 16)) + 16) := by
  have hLe : frame (virtToPhy e) ≤ frame (virtToPhy (slabsEnd e 16)) :=
    Nat.div_le_div_right (Nat.sub_le_sub_right h.le_slabsEnd _)
  have hPools : poolPages e = List.range' (frame (virtToPhy (slabsEnd e 16)) + 1) 16 := by
    unfold poolPages
    rw [List.range'_eq_map_range]
    exact List.map_congr_left fun i _ => h.poolPage_eq i
  obtain ⟨n, hLast⟩ := Nat.exists_eq_add_of_le hLe
  have hSplit := List.range'_append_1 (s := 1) (m := frame (virtToPhy e)) (n := n + 16)
  have hNext : frame (virtToPhy e) + n + 1 = frame (virtToPhy e) + 1 + n := by omega
  unfold takenPages
  rw [h.slabPagesTaken_eq, hPools, hLast, Nat.add_sub_cancel_left, hNext, List.range'_append_1,
    Nat.add_assoc _ n 16, ← hSplit, Nat.add_comm 1]
  rfl

end

/-! ## The tables before a page is taken -/

theorem placeTables_built (d : Descriptor) (size : Nat) :
    Built (placeTables d size).toManagement [] size := by
  constructor
  · rfl
  · intro i b hAt
    cases hAt
  · intro i b hAt
    cases hAt
  · intro b hb
    cases hb
  · intro p hp _
    apply Words.used_fill
    unfold longMask
    omega

theorem unmapedIndex_lt (zones : Nat → Zone) {zonesSize : Nat} (hSome : 0 < zonesSize) :
    unmapedIndex zones zonesSize < zonesSize := by
  have hRounds : ∀ n ≤ zonesSize, (List.range n).foldl (fun index i =>
      if 0x100000000 ≤ (zones i).zoneStartAddress ∧ index = 0 then i else index) 0 < zonesSize := by
    intro n
    induction n with
    | zero => exact fun _ => hSome
    | succ n ih =>
      intro hLe
      rw [List.range_succ, List.foldl_append, List.foldl_cons, List.foldl_nil]
      split
      · exact hLe
      · exact ih (Nat.le_of_succ_le hLe)
  exact hRounds zonesSize (le_refl _)

theorem Table.zone_fits {e820 : List E820} (h : Table e820) {b : Nat × Nat} (hb : b ∈ zoneBounds e820) :
    Fits (totalMem e820 / page2M) b := by
  obtain ⟨e, he, hIn⟩ := h.inEntry hb
  exact ⟨hIn.startAligned, hIn.endAligned, Nat.div_le_div_right hIn.nonempty.le, h.frame_le hb⟩

theorem newZone_counts {size : Nat} {b : Nat × Nat} (h : Fits size b) :
    (newZone b.1 b.2).pageFreeCount = ((frame b.2 - frame b.1 : Nat) : Int) ∧
      (newZone b.1 b.2).pageUsingCount + (newZone b.1 b.2).pageFreeCount =
        (newZone b.1 b.2).pagesLength := by
  have hLength := h.length
  have hCount : (b.2 - b.1) / page2M = frame b.2 - frame b.1 := by
    rw [← hLength, Nat.add_sub_cancel_left]
  exact ⟨congrArg Nat.cast hCount, Int.zero_add _⟩

section
variable {e820 : List E820} (h : Table e820)
include h

theorem Table.built (d : Descriptor) :
    Built ((zoneBounds e820).foldl addZone (placeTables d (totalMem e820 / page2M)).toManagement)
      (zoneBounds e820) (totalMem e820 / page2M) :=
  foldl_addZone_built (placeTables_built d _) _ (fun _ hb => h.zone_fits hb) h.apart

/-- Page 0 is in no zone when the first zone starts behind it. -/
theorem Table.first_le {stop : Nat} (hFirst : (zoneBounds e820).head? = some (page2M, stop))
    {b : Nat × Nat} (hb : b ∈ zoneBounds e820) : 1 ≤ frame b.1 := by
  have hSorted := h.sorted_starts
  cases hBounds : zoneBounds e820 with
  | nil =>
    rw [hBounds] at hFirst
    cases hFirst
  | cons a rest =>
    rw [hBounds] at hFirst hSorted hb
    cases Option.some.inj hFirst
    have hLe : page2M ≤ b.1 := by
      obtain rfl | hb := List.mem_cons.mp hb
      · exact le_refl _
      · exact (List.pairwise_cons.mp hSorted).1 b hb
    exact (Nat.one_le_div_iff (by decide)).mpr hLe

theorem Table.size_eq (d : Descriptor) :
    (buildTables d e820).zonesSize = (zoneBounds e820).length := (h.built d).zonesSize

theorem Table.zone_eq (d : Descriptor) {i : Nat} {b : Nat × Nat} (hAt : (zoneBounds e820)[i]? = some b) :
    (buildTables d e820).zones i = newZone b.1 b.2 := (h.built d).zone i b hAt

theorem Table.exists_bounds (d : Descriptor) {i : Nat} (hi : i < (buildTables d e820).zonesSize) :
    ∃ b, (zoneBounds e820)[i]? = some b ∧ b ∈ zoneBounds e820 ∧
      (buildTables d e820).zones i = newZone b.1 b.2 := by
  rw [h.size_eq d] at hi
  have hAt := List.getElem?_eq_getElem hi
  exact ⟨_, hAt, List.getElem_mem hi, h.zone_eq d hAt⟩

theorem Table.buildTables_layout (d : Descriptor) {stop : Nat}
    (hFirst : (zoneBounds e820).head? = some (page2M, stop)) :
    Layout (buildTables d e820).toManagement := by
  have hSize := h.size_eq d
  have hSome : 0 < (buildTables d e820).zonesSize := by
    rw [hSize]
    exact List.length_pos_of_mem (List.mem_of_mem_head? hFirst)
  constructor
  · intro i hi j hj hNe
    rw [hSize] at hi hj
    rw [h.zone_eq d (List.getElem?_eq_getElem hi), h.zone_eq d (List.getElem?_eq_getElem hj)]
    have hApart := List.pairwise_iff_getElem.mp h.apart
    obtain hLt | hGt := Nat.lt_or_gt_of_ne hNe
    · exact hApart i j hi hj hLt
    · exact (hApart j i hj hi hGt).symm
  · intro i hi p hLow hHigh
    obtain ⟨b, hAt, hb, hEq⟩ := h.exists_bounds d hi
    rw [hEq] at hLow hHigh
    have hOne : 1 ≤ p := (h.first_le hFirst hb).trans hLow
    -- the last write of `init_memory` to the pages is to page 0
    have hPage : (buildTables d e820).pages p = ⟨i, page2M * p, 0, 0⟩ :=
      (Function.update_of_ne (Nat.one_le_iff_ne_zero.mp hOne) _ _).trans
        ((h.built d).page i b hAt p hLow hHigh)
    rw [hPage]
    exact ⟨rfl, Nat.mul_div_cancel_left p (by decide)⟩
  · exact hSome
  · exact hSome
  · exact unmapedIndex_lt _ hSome

theorem Table.buildTables_accounting (d : Descriptor) :
    Accounting (buildTables d e820).toManagement := by
  constructor
  · intro i hi
    obtain ⟨b, hAt, hb, hEq⟩ := h.exists_bounds d hi
    have hAll : clearPages (buildTables d e820).toManagement i = Finset.Ico (frame b.1) (frame b.2) := by
      ext p
      rw [mem_clearPages, hEq, Finset.mem_Ico]
      exact and_iff_left_of_imp fun hIn => (h.built d).clear b hb p hIn.1 hIn.2
    rw [hAll, Nat.card_Ico, hEq]
    exact (newZone_counts (h.zone_fits hb)).1
  · intro i hi
    obtain ⟨b, _, hb, hEq⟩ := h.exists_bounds d hi
    rw [hEq]
    exact (newZone_counts (h.zone_fits hb)).2

theorem Table.buildTables_free (d : Descriptor) {stop : Nat}
    (hFirst : (zoneBounds e820).head? = some (page2M, stop)) {p : Nat} (hLow : 1 ≤ p)
    (hHigh : p < frame stop) : InZone (buildTables d e820).toManagement 0 p ∧
      (buildTables d e820).bitsMap.used p = false := by
  have hMem : (page2M, stop) ∈ zoneBounds e820 := List.mem_of_mem_head? hFirst
  have hZero : (buildTables d e820).zones 0 = newZone page2M stop := by
    rw [List.head?_eq_getElem?] at hFirst
    exact h.zone_eq d (b := (page2M, stop)) hFirst
  have hOne : frame page2M = 1 := by decide
  have hStart : frame page2M ≤ p := hOne ▸ hLow
  refine ⟨⟨?_, ?_, ?_⟩, (h.built d).clear _ hMem p hStart hHigh⟩
  · rw [h.size_eq d]
    exact List.length_pos_of_mem hMem
  · rw [hZero]
    exact hStart
  · rw [hZero]
    exact hHigh

end

theorem buildTables_placed (d : Descriptor) {e820 : List E820} (h : Table e820)
    (hBrk : pageOffset ≤ d.endBrk) :
    Placed (buildTables d e820) (zoneBounds e820).length := by
  have hSize : (buildTables d e820).zonesLength = longMask ((zoneBounds e820).length * sizeofZone + 7) :=
    congrArg (fun n => longMask (n * sizeofZone + 7)) (h.built d).zonesSize
  constructor
  · exact hBrk
  · show d.endBrk ≤ page4KAlign d.endBrk
    unfold page4KAlign
    omega
  · show (buildTables d e820).bitsMapAt + (buildTables d e820).bitsLength ≤
      page4KAlign ((buildTables d e820).bitsMapAt + (buildTables d e820).bitsLength)
    unfold page4KAlign
    omega
  · show (buildTables d e820).pagesAt + (buildTables d e820).pagesLength ≤
      page4KAlign ((buildTables d e820).pagesAt + (buildTables d e820).pagesLength)
    unfold page4KAlign
    omega
  · exact Nat.mul_mod_left _ _
  · rw [hSize]
    unfold longMask sizeofZone
    omega
  · have hEnd : (buildTables d e820).endOfStruct =
        longMask ((buildTables d e820).zonesAt + (buildTables d e820).zonesLength + 8 * 32) := rfl
    have hAligned : (buildTables d e820).zonesAt % 4096 = 0 := Nat.mul_mod_left _ _
    rw [hEnd, hSize]
    unfold longMask sizeofZone
    omega

/-! ## After boot -/

/-- Start and length of the kernel image, the three tables, and the headers and bitmaps of the
first slabs, which begin at `e`. -/
def regions (d : Descriptor) (e : Nat) : List (Nat × Nat) :=
  [(pageOffset, d.endBrk - pageOffset), (d.bitsMapAt, d.bitsLength), (d.pagesAt, d.pagesLength),
    (d.zonesAt, d.zonesLength)] ++
  (List.range 16).map (fun i => (slabsEnd e i, sizeofSlab)) ++
  (List.range 16).map fun i =>
    (slabsEnd e i + sizeofSlab + 8 * 10, colorLengthOf (page2M / kmallocSize i))

/-- The first zone starts at 2MB and has all the pages `ps`. -/
def FirstZone (e820 : List E820) (ps : List Nat) : Prop :=
  ∃ stop, (zoneBounds e820).head? = some (page2M, stop) ∧
    ∀ p ∈ ps, page2M ≤ page2M * p ∧ page2M * p + page2M ≤ stop

structure Booted (d : Descriptor) (e : Nat) : Prop where
  layout : Layout d.toManagement
  accounting : Accounting d.toManagement
  reserved : ∀ p, 1 ≤ p → p ≤ frame (virtToPhy d.endOfStruct) → d.bitsMap.used p = true
  pools : ∀ i < 16, d.bitsMap.used (poolPage d.endOfStruct i) = true
  distinct : ∀ i < 16, ∀ j < 16, i ≠ j → poolPage d.endOfStruct i ≠ poolPage d.endOfStruct j
  apart : ∀ i < 16, ∀ r ∈ regions d e,
    virtToPhy r.1 + r.2 ≤ page2M * poolPage d.endOfStruct i ∨
      page2M * poolPage d.endOfStruct i + page2M ≤ virtToPhy r.1

/-- Everything the kernel wrote to lies below the end of the slabs. -/
theorem Placed.regions_le {d : Descriptor} {z : Nat} (h : Placed d z) (hEnd : EndOfStruct d.endOfStruct)
    {r : Nat × Nat} (hr : r ∈ regions d d.endOfStruct) :
    pageOffset ≤ r.1 ∧ r.1 + r.2 ≤ slabsEnd d.endOfStruct 16 := by
  have hBrk := h.brk
  have hBits := h.bitsMap
  have hPages := h.pages
  have hZones := h.zones
  have hStruct := h.endOfStruct
  have hLast := hEnd.le_slabsEnd
  have hSlab : ∀ i < 16, d.endOfStruct ≤ slabsEnd d.endOfStruct i ∧
      slabsEnd d.endOfStruct i + sizeofSlab + 8 * 10 + colorLengthOf (page2M / kmallocSize i) ≤
        slabsEnd d.endOfStruct 16 := by
    intro i hi
    have hLow := slabsEnd_mono hEnd.aligned (Nat.zero_le i)
    have hNext := slabsEnd_mono hEnd.aligned (Nat.succ_le_of_lt hi)
    refine ⟨hLow, le_trans ?_ hNext⟩
    rw [slabsEnd]
    unfold behindSlab longMask
    omega
  unfold regions at hr
  obtain hr | hr := List.mem_append.mp hr
  · obtain hr | hr := List.mem_append.mp hr
    · simp only [List.mem_cons, List.not_mem_nil, or_false] at hr
      rcases hr with rfl | rfl | rfl | rfl <;> dsimp only <;> omega
    · obtain ⟨i, hi, rfl⟩ := List.mem_map.mp hr
      obtain ⟨hLow, hHigh⟩ := hSlab i (List.mem_range.mp hi)
      dsimp only
      omega
  · obtain ⟨i, hi, rfl⟩ := List.mem_map.mp hr
    obtain ⟨hLow, hHigh⟩ := hSlab i (List.mem_range.mp hi)
    dsimp only
    omega

theorem page_in_zone {p stop : Nat} (h : page2M ≤ page2M * p ∧ page2M * p + page2M ≤ stop) :
    1 ≤ p ∧ p < frame stop := by
  unfold frame page2M at *
  omega

theorem initMemory_endOfStruct (d : Descriptor) (e820 : List E820) :
    (initMemory d e820).endOfStruct = (buildTables d e820).endOfStruct := rfl

theorem slabInit_endOfStruct (d : Descriptor) :
    (slabInit d).endOfStruct = slabsEnd d.endOfStruct 16 := rfl

theorem slabInit_management (d : Descriptor) (e820 : List E820) :
    (slabInit (initMemory d e820)).toManagement =
      (slabPagesTaken (buildTables d e820).endOfStruct ++
        poolPages (buildTables d e820).endOfStruct).foldl
        (fun m j => pageInit (takeBit m j) j kernelFlags)
        ((initPagesTaken (buildTables d e820).endOfStruct).foldl
          (fun m j => takeBit (pageInit m j kernelFlags) j) (buildTables d e820).toManagement) := rfl

theorem regions_slabInit (d : Descriptor) (e820 : List E820) (e : Nat) :
    regions (slabInit (initMemory d e820)) e = regions (buildTables d e820) e := by
  have hBrk : (slabInit (initMemory d e820)).endBrk = (buildTables d e820).endBrk := rfl
  unfold regions
  rw [hBrk]
  rfl

theorem takenPages_nodup {e : Nat} (hEnd : EndOfStruct e) : (takenPages e).Nodup := by
  rw [hEnd.takenPages_eq]
  exact List.nodup_range'

/-- First the pages of `init_memory` are taken, then those of `slab_init`. -/
theorem boot_takes (d : Descriptor) {e820 : List E820} (hTable : Table e820)
    (hBrk : pageOffset ≤ d.endBrk)
    (hFirst : FirstZone e820 (takenPages (initMemory d e820).endOfStruct)) :
    Layout (buildTables d e820).toManagement ∧
      SameLayout (buildTables d e820).toManagement (slabInit (initMemory d e820)).toManagement ∧
      Accounting (slabInit (initMemory d e820)).toManagement ∧
      ∀ q, (slabInit (initMemory d e820)).bitsMap.used q = ((buildTables d e820).bitsMap.used q ||
        decide (q ∈ takenPages (initMemory d e820).endOfStruct)) := by
  obtain ⟨stop, hHead, hContains⟩ := hFirst
  have hSome : 1 ≤ (zoneBounds e820).length := List.length_pos_of_mem (List.mem_of_mem_head? hHead)
  have hEnd := (buildTables_placed d hTable hBrk).endOfStruct_spec hSome hTable.zones_le
  rw [initMemory_endOfStruct] at hContains ⊢
  have hInFirst : ∀ p ∈ takenPages (buildTables d e820).endOfStruct,
      InZone (buildTables d e820).toManagement 0 p ∧ (buildTables d e820).bitsMap.used p = false := by
    intro p hp
    obtain ⟨hLow, hHigh⟩ := page_in_zone (hContains p hp)
    exact hTable.buildTables_free d hHead hLow hHigh
  have hLayout := hTable.buildTables_layout d hHead
  have hLoops := loops_take (fun m p => initTake_takes m p kernelFlags)
    (fun m p => slabTake_takes m p kernelFlags) hLayout
    (hTable.buildTables_accounting d) hInFirst (takenPages_nodup hEnd)
  rw [← slabInit_management] at hLoops
  exact ⟨hLayout, hLoops⟩

/-- Boot leaves the page allocator with right counters, and takes every page it wrote to. -/
theorem boot_invariant (d : Descriptor) (e820 : List E820) (hTable : Table e820)
    (hBrk : pageOffset ≤ d.endBrk)
    (hFirst : FirstZone e820 (takenPages (initMemory d e820).endOfStruct)) :
    Booted (slabInit (initMemory d e820)) (initMemory d e820).endOfStruct := by
  obtain ⟨hLayout, hSame, hAccounting, hUsedEnd⟩ := boot_takes d hTable hBrk hFirst
  obtain ⟨stop, hHead, -⟩ := hFirst
  have hPlaced := buildTables_placed d hTable hBrk
  have hSome : 1 ≤ (zoneBounds e820).length := List.length_pos_of_mem (List.mem_of_mem_head? hHead)
  have hEnd := hPlaced.endOfStruct_spec hSome hTable.zones_le
  have hLast : (slabInit (initMemory d e820)).endOfStruct =
      slabsEnd (buildTables d e820).endOfStruct 16 := by
    rw [slabInit_endOfStruct, initMemory_endOfStruct]
  rw [initMemory_endOfStruct] at hUsedEnd ⊢
  have hUsed : ∀ p, 1 ≤ p →
      p < 1 + (frame (virtToPhy (slabsEnd (buildTables d e820).endOfStruct 16)) + 16) →
      (slabInit (initMemory d e820)).bitsMap.used p = true := by
    intro p hLow hHigh
    have hMem : p ∈ takenPages (buildTables d e820).endOfStruct := by
      rw [hEnd.takenPages_eq, List.mem_range'_1]
      exact ⟨hLow, hHigh⟩
    rw [hUsedEnd, decide_eq_true hMem, Bool.or_true]
  constructor
  · exact hLayout.same hSame
  · exact hAccounting
  · intro p hLow hHigh
    rw [hLast] at hHigh
    exact hUsed p hLow (by omega)
  · intro i hi
    rw [hLast, hEnd.poolPage_eq]
    exact hUsed _ (by omega) (by omega)
  · intro i _ j _ hNe hEq
    rw [hLast, hEnd.poolPage_eq, hEnd.poolPage_eq] at hEq
    omega
  · intro i _ r hr
    left
    rw [regions_slabInit] at hr
    obtain ⟨hLow, hHigh⟩ := hPlaced.regions_le hEnd hr
    rw [hLast, hEnd.poolPage_eq]
    calc virtToPhy r.1 + r.2
        ≤ virtToPhy (slabsEnd (buildTables d e820).endOfStruct 16) := by unfold virtToPhy; omega
      _ ≤ page2M * (frame (virtToPhy (slabsEnd (buildTables d e820).endOfStruct 16)) + 1) :=
        (Nat.lt_mul_div_succ _ (by decide)).le
      _ ≤ _ := Nat.mul_le_mul_left _ (Nat.le_add_right _ i)

/-- A kernel that ends at 2MB, and nothing in memory yet. -/
def freshDescriptor : Descriptor where
  bitsMap := fun _ => 0
  pages := fun _ => ⟨0, 0, 0, 0⟩
  zones := fun _ => ⟨0, 0, 0, 0, 0, 0⟩
  zonesSize := 0
  zoneDmaIndex := 0
  zoneNormalIndex := 0
  zoneUnmapedIndex := 0
  endBrk := pageOffset + 0x200000
  bitsMapAt := 0
  bitsLength := 0
  pagesAt := 0
  pagesLength := 0
  zonesAt := 0
  zonesLength := 0
  endOfStruct := 0

/-- RAM from 1MB to 64MB. -/
theorem boot_invariant_ram : Booted (slabInit (initMemory freshDescriptor [⟨0x100000, 0x3f00000, 1⟩]))
    (initMemory freshDescriptor [⟨0x100000, 0x3f00000, 1⟩]).endOfStruct := by
  apply boot_invariant
  · constructor
    · decide
    · decide
    · exact List.pairwise_singleton _ _
    · exact List.pairwise_singleton _ _
    · decide
  · exact Nat.le_add_right _ _
  · exact ⟨0x4000000, by decide, by decide +kernel⟩

end KalinoteOS.Memory.Boot
