import Mathlib.Algebra.Group.Pi.Basic
import KalinoteOS.Memory.Boot

/-! # References to pages

`page_init` counts a reference to a page and `page_clean` takes it back. `alloc_pages` and
`free_pages` set the attribute of a page and leave its references alone.
-/
namespace KalinoteOS.Memory.Pages
open Lib
open Boot (pageInit pgShared)
set_option autoImplicit false

def pgKernel : BitVec 64 := 8#64

/-- `page->attribute = attr`. -/
def setAttr (m : Management) (p : Nat) (attr : BitVec 64) : Management :=
  { m with pages := Function.update m.pages p { m.pages p with attr := attr } }

/-- `reference_count` of a page and `total_pages_link` of its zone. -/
def addReference (m : Management) (p : Nat) (d : Int) : Management :=
  let i := (m.pages p).zoneStruct
  { m with
    pages := Function.update m.pages p { m.pages p with
      referenceCount := (m.pages p).referenceCount + d }
    zones := Function.update m.zones i { m.zones i with
      totalPagesLink := (m.zones i).totalPagesLink + d } }

theorem pageInit_eq (m : Management) (p : Nat) (flags : BitVec 64) :
    pageInit m p flags =
      if (m.pages p).referenceCount = 0 ∨ ((m.pages p).attr ||| flags) &&& pgShared ≠ 0 then
        addReference (setAttr m p ((m.pages p).attr ||| flags)) p 1
      else setAttr m p ((m.pages p).attr ||| flags) := by
  have hPage : (setAttr m p ((m.pages p).attr ||| flags)).pages p =
      { m.pages p with attr := (m.pages p).attr ||| flags } := Function.update_self _ _ _
  unfold pageInit addReference
  dsimp only
  rw [hPage]
  unfold setAttr
  dsimp only
  rw [Function.update_idem]

def pageClean (m : Management) (p : Nat) : Management :=
  let m := addReference m p (-1)
  if (m.pages p).referenceCount = 0 then setAttr m p ((m.pages p).attr &&& pgPTableMaped) else m

/-! ## Pages in use -/

/-- `taken` are in use, and a bitmap of `words` words covers the zones of the kernel. The pages of its
clear bits have no attribute, and both know their address. -/
structure PagesInv (words : Nat) (m : Management) (taken : List Nat) : Prop where
  nodup : taken.Nodup
  used : ∀ p ∈ taken, m.bitsMap.used p = true
  known : ∀ p, p ∈ taken ∨ (p < 64 * words ∧ m.bitsMap.used p = false) →
    frame (m.pages p).phyAddress = p
  attr : ∀ p < 64 * words, m.bitsMap.used p = false → (m.pages p).attr = 0
  covered : ∀ i ∈ selected m zoneNormal, (m.zones i).stop ≤ 64 * words

theorem PagesInv.perm {words : Nat} {m : Management} {taken taken' : List Nat}
    (h : PagesInv words m taken) (hPerm : taken.Perm taken') : PagesInv words m taken' :=
  ⟨hPerm.nodup_iff.mp h.nodup, fun p hp => h.used p (hPerm.mem_iff.mpr hp),
    fun p hp => h.known p (hp.imp_left hPerm.mem_iff.mpr), h.attr, h.covered⟩

theorem PagesInv.clear_notMem {words : Nat} {m : Management} {taken : List Nat}
    (h : PagesInv words m taken) {p : Nat} (hClear : m.bitsMap.used p = false) : p ∉ taken := by
  intro hMem
  have hUsed := h.used p hMem
  rw [hClear] at hUsed
  cases hUsed

theorem SameLayout.selected {m m' : Management} (h : SameLayout m m') (zoneSelect : Int) :
    selected m' zoneSelect = selected m zoneSelect := by
  unfold Pages.selected selection
  rw [h.dma, h.normal, h.unmaped, h.zonesSize]

theorem PagesInv.covered_same {words : Nat} {m m' : Management} {taken : List Nat}
    (h : PagesInv words m taken) (hSame : SameLayout m m') :
    ∀ i ∈ selected m' zoneNormal, (m'.zones i).stop ≤ 64 * words := by
  intro i hi
  rw [hSame.selected] at hi
  rw [hSame.stop]
  exact h.covered i hi

/-- Nothing moved, and only the attribute of `p` may have changed. -/
structure Marks (m m' : Management) (p : Nat) : Prop where
  bits : m'.bitsMap = m.bitsMap
  same : SameLayout m m'
  attr : ∀ q, q ≠ p → (m'.pages q).attr = (m.pages q).attr

theorem Marks.trans {m m' m'' : Management} {p : Nat} (h : Marks m m' p) (h' : Marks m' m'' p) :
    Marks m m'' p :=
  ⟨h'.bits.trans h.bits, h.same.trans h'.same, fun q hq => (h'.attr q hq).trans (h.attr q hq)⟩

theorem setAttr_marks (m : Management) (p : Nat) (attr : BitVec 64) : Marks m (setAttr m p attr) p := by
  refine ⟨rfl, ⟨rfl, rfl, rfl, rfl, fun _ => rfl, fun _ => rfl, fun _ => rfl,
    update_field m.pages Page.zoneStruct p rfl, update_field m.pages Page.phyAddress p rfl⟩,
    fun q hq => ?_⟩
  exact congrArg Page.attr (Function.update_of_ne hq _ _)

theorem addReference_marks (m : Management) (p : Nat) (d : Int) : Marks m (addReference m p d) p := by
  refine ⟨rfl, ⟨rfl, rfl, rfl, rfl, update_field m.zones Zone.start _ rfl,
    update_field m.zones Zone.stop _ rfl, update_field m.zones Zone.pagesLength _ rfl,
    update_field m.pages Page.zoneStruct p rfl, update_field m.pages Page.phyAddress p rfl⟩,
    fun q hq => ?_⟩
  exact congrArg Page.attr (Function.update_of_ne hq _ _)

theorem pageInit_marks (m : Management) (p : Nat) (flags : BitVec 64) :
    Marks m (pageInit m p flags) p := by
  have hAttr := setAttr_marks m p ((m.pages p).attr ||| flags)
  rw [pageInit_eq]
  split
  · exact hAttr.trans (addReference_marks _ p 1)
  · exact hAttr

theorem pageClean_marks (m : Management) (p : Nat) : Marks m (pageClean m p) p := by
  have hReference := addReference_marks m p (-1)
  unfold pageClean
  dsimp only
  split
  · exact hReference.trans (setAttr_marks _ p _)
  · exact hReference

section
variable {words : Nat} {m m' : Management} {taken : List Nat} {p : Nat}

theorem PagesInv.marks (h : PagesInv words m taken) (hp : p ∈ taken) (hMarks : Marks m m' p) :
    PagesInv words m' taken := by
  refine ⟨h.nodup, ?_, ?_, ?_, h.covered_same hMarks.same⟩
  · rw [hMarks.bits]
    exact h.used
  · intro q hq
    rw [hMarks.bits] at hq
    rw [hMarks.same.phyAddress]
    exact h.known q hq
  · intro q hLt hClear
    rw [hMarks.bits] at hClear
    have hNe : q ≠ p := by
      rintro rfl
      exact h.clear_notMem hClear hp
    rw [hMarks.attr q hNe]
    exact h.attr q hLt hClear

theorem PagesInv.takePage (h : PagesInv words m taken) (hLt : p < 64 * words)
    (hClear : m.bitsMap.used p = false) (i : Nat) (attr : BitVec 64) :
    PagesInv words (takePage m i attr p) (p :: taken) := by
  have hKnown := h.known p (Or.inr ⟨hLt, hClear⟩)
  have hUsed : ∀ q, (Pages.takePage m i attr p).bitsMap.used q =
      (m.bitsMap.used q || decide (q = p)) := by
    intro q
    unfold Pages.takePage
    dsimp only
    rw [hKnown, Words.used_setBit]
  have hSame := takePage_same m i attr p
  constructor
  · exact List.nodup_cons.mpr ⟨h.clear_notMem hClear, h.nodup⟩
  · intro q hq
    rw [hUsed]
    obtain rfl | hOld := List.mem_cons.mp hq
    · rw [decide_eq_true rfl, Bool.or_true]
    · rw [h.used q hOld, Bool.true_or]
  · intro q hq
    rw [hSame.phyAddress]
    obtain hTaken | ⟨hLtQ, hStill⟩ := hq
    · obtain rfl | hOld := List.mem_cons.mp hTaken
      · exact hKnown
      · exact h.known q (Or.inl hOld)
    · rw [hUsed, Bool.or_eq_false_iff] at hStill
      exact h.known q (Or.inr ⟨hLtQ, hStill.1⟩)
  · intro q hLtQ hStill
    rw [hUsed, Bool.or_eq_false_iff] at hStill
    have hNe : q ≠ p := of_decide_eq_false hStill.2
    have hPage : (Pages.takePage m i attr p).pages q = m.pages q := Function.update_of_ne hNe _ _
    rw [hPage]
    exact h.attr q hLtQ hStill.1
  · exact h.covered_same hSame

theorem PagesInv.freePage (h : PagesInv words m (p :: taken)) :
    PagesInv words (freePage m p) taken := by
  have hKnown := h.known p (Or.inl List.mem_cons_self)
  obtain ⟨hNew, hNodup⟩ := List.nodup_cons.mp h.nodup
  have hUsed : ∀ q, (Pages.freePage m p).bitsMap.used q =
      (m.bitsMap.used q && decide (q ≠ p)) := by
    intro q
    unfold Pages.freePage
    dsimp only
    rw [hKnown, Words.used_clearBit]
  have hSame := freePage_same m p
  constructor
  · exact hNodup
  · intro q hq
    have hNe : q ≠ p := by
      rintro rfl
      exact hNew hq
    rw [hUsed, h.used q (List.mem_cons_of_mem p hq), decide_eq_true hNe]
    rfl
  · intro q hq
    rw [hSame.phyAddress]
    by_cases hEq : q = p
    · rw [hEq]
      exact hKnown
    · apply h.known
      refine hq.imp (List.mem_cons_of_mem p) (And.imp_right fun hClear => ?_)
      rwa [hUsed, decide_eq_true hEq, Bool.and_true] at hClear
  · intro q hLt hClear
    by_cases hEq : q = p
    · unfold Pages.freePage
      dsimp only
      rw [hEq, Function.update_self]
    · have hPage : (Pages.freePage m p).pages q = m.pages q := Function.update_of_ne hEq _ _
      rw [hUsed, decide_eq_true hEq, Bool.and_true] at hClear
      rw [hPage]
      exact h.attr q hLt hClear
  · exact h.covered_same hSame

/-- The `number` pages from `page` on, the last one first. -/
def block (page : Nat) : Nat → List Nat
  | 0 => []
  | l + 1 => (page + l) :: block page l

theorem PagesInv.takePages (h : PagesInv words m taken) (i : Nat) (attr : BitVec 64)
    {page number : Nat} (hLt : page + number ≤ 64 * words)
    (hClear : ClearRun m.bitsMap page number) :
    PagesInv words (takePages m i attr page number) (block page number ++ taken) ∧
      ∀ q, page + number ≤ q →
        (Pages.takePages m i attr page number).bitsMap.used q = m.bitsMap.used q := by
  induction number with
  | zero => exact ⟨h, fun _ _ => rfl⟩
  | succ l ih =>
    obtain ⟨hInv, hRest⟩ := ih (by omega) fun k hk => hClear k (by omega)
    have hNext : (Pages.takePages m i attr page l).bitsMap.used (page + l) = false := by
      rw [hRest _ (le_refl _)]
      exact hClear l (by omega)
    have hLtNext : page + l < 64 * words := by omega
    refine ⟨hInv.takePage hLtNext hNext i attr, fun q hq => ?_⟩
    have hNe : q ≠ page + l := by omega
    rw [← hRest q (by omega), Pages.takePages]
    unfold Pages.takePage
    dsimp only
    rw [hInv.known (page + l) (Or.inr ⟨hLtNext, hNext⟩), Words.used_setBit, decide_eq_false hNe,
      Bool.or_false]

theorem PagesInv.freeLoop {page number : Nat} (h : PagesInv words m (block page number ++ taken)) :
    PagesInv words (freeLoop m page number) taken := by
  induction number generalizing taken with
  | zero => exact h
  | succ l ih =>
    have hMiddle : PagesInv words m (block page l ++ (page + l) :: taken) :=
      h.perm List.perm_middle.symm
    exact (ih hMiddle).freePage

theorem allocPages_some {zoneSelect number : Int} {page : Nat}
    (h : allocPages m zoneSelect number = (some page, m')) :
    ∃ zoneStart zoneEnd attr i, selection m zoneSelect = some (zoneStart, zoneEnd, attr) ∧
      searchZones m number.toNat (zoneRange zoneStart zoneEnd) = some (i, page) ∧
      m' = takePages m i attr page number.toNat ∧ ClearRun m.bitsMap page number.toNat ∧
      1 ≤ number ∧ number ≤ 63 := by
  unfold allocPages at h
  split at h
  · cases h
  · next hNumber =>
    split at h
    · cases h
    · next zoneStart zoneEnd attr hSelection =>
      split at h
      · cases h
      · next i found hSearch =>
        obtain ⟨hPage, hNew⟩ := Prod.mk.inj h
        obtain rfl : found = page := Option.some.inj hPage
        obtain ⟨_, _, -, -, hHere⟩ := searchZones_some hSearch
        have hRun := (searchZone_eq_some (by omega) hHere).2
        exact ⟨zoneStart, zoneEnd, attr, i, hSelection, hSearch, hNew.symm, hRun.clear, by omega,
          by omega⟩

theorem allocPages_none {zoneSelect number : Int} (h : allocPages m zoneSelect number = (none, m')) :
    m' = m := by
  unfold allocPages at h
  split at h
  · exact (Prod.mk.inj h).2.symm
  · split at h
    · exact (Prod.mk.inj h).2.symm
    · split at h
      · exact (Prod.mk.inj h).2.symm
      · cases h

end

/-! ## Pages of slabs -/

/-- A page that is taken for a slab or given back. -/
inductive Move where
  | take
  | give (page : Nat)
  deriving DecidableEq, Repr

/-- `alloc_pages(ZONE_NORMAL,1, 0)` and `page_init(page,PG_Kernel)`. -/
def takeNormal (m : Management) : Management :=
  match allocPages m zoneNormal 1 with
  | (some page, m) => pageInit m page pgKernel
  | (none, m) => m

/-- `page_clean(page)` and `free_pages(page,1)`. -/
def givePage (m : Management) (page : Nat) : Management :=
  freePages (pageClean m page) (some page) 1

def Move.apply (m : Management) : Move → Management
  | .take => takeNormal m
  | .give page => givePage m page

def replay (m : Management) (moves : List Move) : Management := moves.foldl Move.apply m

theorem replay_append (m : Management) (xs ys : List Move) :
    replay m (xs ++ ys) = replay (replay m xs) ys := List.foldl_append

theorem replay_take_succ (m : Management) (n : Nat) :
    replay m (List.replicate (n + 1) .take) = takeNormal (replay m (List.replicate n .take)) := by
  rw [List.replicate_succ', replay_append]
  rfl

theorem freePages_one (m : Management) (p : Nat) : freePages m (some p) 1 = freePage m p := rfl

theorem selection_normal (m : Management) :
    selection m zoneNormal = some (m.zoneDmaIndex, (m.zoneNormalIndex : Int), pgPTableMaped) := rfl

section
variable {words : Nat} {m m' : Management} {taken : List Nat} {page : Nat}

/-- The page that `alloc_pages(ZONE_NORMAL,1,0)` finds, and the zone it is charged to. -/
theorem allocPages_normal (h : allocPages m zoneNormal 1 = (some page, m')) :
    ∃ i, searchZones m 1 (zoneRange m.zoneDmaIndex m.zoneNormalIndex) = some (i, page) ∧
      m' = takePage m i pgPTableMaped page ∧ m.bitsMap.used page = false := by
  obtain ⟨zoneStart, zoneEnd, attr, i, hSelection, hSearch, hNew, hClear, -⟩ := allocPages_some h
  obtain ⟨rfl, rfl, rfl⟩ : m.zoneDmaIndex = zoneStart ∧ (m.zoneNormalIndex : Int) = zoneEnd ∧
      pgPTableMaped = attr := by
    simpa using (selection_normal m).symm.trans hSelection
  exact ⟨i, hSearch, hNew, hClear 0 (by decide)⟩

/-- The scan stays in the words of its zone. -/
theorem PagesInv.normal_lt (h : PagesInv words m taken)
    (hPage : allocPages m zoneNormal 1 = (some page, m')) : page < 64 * words := by
  obtain ⟨i, hSearch, -⟩ := allocPages_normal hPage
  obtain ⟨before, after, hSplit, -, hHere⟩ := searchZones_some hSearch
  obtain ⟨-, hRun⟩ := searchZone_eq_some (by decide) hHere
  have hHigh := hRun.high
  have hMem : i ∈ selected m zoneNormal := by
    change i ∈ zoneRange m.zoneDmaIndex m.zoneNormalIndex
    rw [hSplit]
    exact List.mem_append_right _ List.mem_cons_self
  have hStop := h.covered i hMem
  unfold scanEnd at hHigh
  omega

theorem PagesInv.init (h : PagesInv words m taken)
    (hPage : allocPages m zoneNormal 1 = (some page, m')) :
    PagesInv words (pageInit m' page pgKernel) (page :: taken) := by
  obtain ⟨i, -, hNew, hClear⟩ := allocPages_normal hPage
  have hTaken : PagesInv words m' (page :: taken) := by
    rw [hNew]
    exact h.takePage (h.normal_lt hPage) hClear i pgPTableMaped
  exact hTaken.marks List.mem_cons_self (pageInit_marks m' page pgKernel)

theorem PagesInv.takeNormal (h : PagesInv words m taken)
    (hPage : (allocPages m zoneNormal 1).1 = some page) :
    PagesInv words (takeNormal m) (page :: taken) := by
  have hCall : allocPages m zoneNormal 1 = (some page, (allocPages m zoneNormal 1).2) := by
    rw [← hPage]
  unfold Pages.takeNormal
  rw [hCall]
  exact h.init hCall

theorem PagesInv.givePage (h : PagesInv words m (page :: taken)) :
    PagesInv words (givePage m page) taken := by
  unfold Pages.givePage
  rw [freePages_one]
  exact (h.marks List.mem_cons_self (pageClean_marks m page)).freePage

theorem PagesInv.gives {pages : List Nat} (h : PagesInv words m (pages ++ taken)) :
    PagesInv words (replay m (pages.map .give)) taken := by
  induction pages generalizing m with
  | nil => exact h
  | cons p pages ih => exact ih h.givePage

end

/-! ## A page that comes back unused -/

/-- References and used pages differ by `e` and `d`. -/
structure Shifted (e d : Nat → Int) (m m' : Management) : Prop where
  zone : ∀ p, (m'.pages p).zoneStruct = (m.pages p).zoneStruct
  reference : ∀ p, (m'.pages p).referenceCount = (m.pages p).referenceCount + e p
  usedPages : ∀ i, (m'.zones i).pageUsingCount = (m.zones i).pageUsingCount + d i

theorem Shifted.trans {e d e' d' : Nat → Int} {m m' m'' : Management} (h : Shifted e d m m')
    (h' : Shifted e' d' m' m'') : Shifted (e + e') (d + d') m m'' := by
  refine ⟨fun p => (h'.zone p).trans (h.zone p), fun p => ?_, fun i => ?_⟩
  · rw [h'.reference, h.reference, Pi.add_apply, add_assoc]
  · rw [h'.usedPages, h.usedPages, Pi.add_apply, add_assoc]

theorem setAttr_shifted (m : Management) (p : Nat) (attr : BitVec 64) :
    Shifted 0 0 m (setAttr m p attr) := by
  refine ⟨update_field m.pages Page.zoneStruct p rfl, fun q => ?_, fun i => (add_zero _).symm⟩
  rw [Pi.zero_apply, add_zero]
  refine update_field m.pages Page.referenceCount p ?_ q
  rfl

theorem addReference_shifted (m : Management) (p : Nat) (d : Int) :
    Shifted (Pi.single p d) 0 m (addReference m p d) := by
  refine ⟨update_field m.pages Page.zoneStruct p rfl, fun q => ?_, fun i => ?_⟩
  · unfold addReference
    dsimp only
    by_cases hEq : q = p
    · rw [hEq, Function.update_self, Pi.single_eq_same]
    · rw [Function.update_of_ne hEq, Pi.single_eq_of_ne hEq, add_zero]
  · rw [Pi.zero_apply, add_zero]
    refine update_field m.zones Zone.pageUsingCount _ ?_ i
    rfl

theorem takePage_shifted (m : Management) (i : Nat) (attr : BitVec 64) (p : Nat) :
    Shifted 0 (Pi.single i 1) m (takePage m i attr p) := by
  refine ⟨update_field m.pages Page.zoneStruct p rfl, fun q => ?_, fun k => ?_⟩
  · rw [Pi.zero_apply, add_zero]
    refine update_field m.pages Page.referenceCount p ?_ q
    rfl
  · unfold takePage
    dsimp only
    by_cases hEq : k = i
    · rw [hEq, Function.update_self, Pi.single_eq_same]
    · rw [Function.update_of_ne hEq, Pi.single_eq_of_ne hEq, add_zero]

theorem freePage_shifted (m : Management) (p : Nat) :
    Shifted 0 (Pi.single (m.pages p).zoneStruct (-1)) m (freePage m p) := by
  refine ⟨update_field m.pages Page.zoneStruct p rfl, fun q => ?_, fun k => ?_⟩
  · rw [Pi.zero_apply, add_zero]
    refine update_field m.pages Page.referenceCount p ?_ q
    rfl
  · unfold freePage
    dsimp only
    by_cases hEq : k = (m.pages p).zoneStruct
    · rw [hEq, Function.update_self, Pi.single_eq_same]
      exact Int.sub_eq_add_neg
    · rw [Function.update_of_ne hEq, Pi.single_eq_of_ne hEq, add_zero]

theorem pageClean_shifted (m : Management) (p : Nat) :
    Shifted (Pi.single p (-1)) 0 m (pageClean m p) := by
  have hReference := addReference_shifted m p (-1)
  unfold pageClean
  dsimp only
  split
  · simpa using hReference.trans (setAttr_shifted _ p _)
  · exact hReference

theorem givePage_shifted (m : Management) (p : Nat) :
    Shifted (Pi.single p (-1)) (Pi.single (m.pages p).zoneStruct (-1)) m (givePage m p) := by
  have hClean := pageClean_shifted m p
  have hFree := freePage_shifted (pageClean m p) p
  rw [hClean.zone] at hFree
  simpa [givePage, freePages_one] using hClean.trans hFree

/-- What comes back later comes back on both sides. -/
theorem Shifted.gives {e d : Nat → Int} {m m' : Management} (h : Shifted e d m m')
    (pages : List Nat) :
    Shifted e d (replay m (pages.map .give)) (replay m' (pages.map .give)) := by
  induction pages generalizing m m' with
  | nil => exact h
  | cons p pages ih =>
    apply ih
    have hLeft := givePage_shifted m p
    have hRight := givePage_shifted m' p
    rw [h.zone] at hRight
    refine ⟨fun q => ?_, fun q => ?_, fun i => ?_⟩
    · exact (hRight.zone q).trans ((h.zone q).trans (hLeft.zone q).symm)
    · have hL := hLeft.reference q
      have hR := hRight.reference q
      have hBefore := h.reference q
      change ((givePage m' p).pages q).referenceCount = ((givePage m p).pages q).referenceCount + e q
      omega
    · have hL := hLeft.usedPages i
      have hR := hRight.usedPages i
      have hBefore := h.usedPages i
      change ((givePage m' p).zones i).pageUsingCount = ((givePage m p).zones i).pageUsingCount + d i
      omega

/-- The page that is found has a reference already, and is charged to its own zone. -/
def Traceless (m : Management) (page : Nat) : Prop :=
  (m.pages page).referenceCount ≠ 0 ∧
    searchZones m 1 (zoneRange m.zoneDmaIndex m.zoneNormalIndex) =
      some ((m.pages page).zoneStruct, page)

/-- `page_init` behind `alloc_pages`: the page is not shared. -/
theorem pageInit_taken (m : Management) (i p : Nat) :
    pageInit (takePage m i pgPTableMaped p) p pgKernel =
      if (m.pages p).referenceCount = 0 then
        addReference (setAttr (takePage m i pgPTableMaped p) p (pgPTableMaped ||| pgKernel)) p 1
      else setAttr (takePage m i pgPTableMaped p) p (pgPTableMaped ||| pgKernel) := by
  have hPage : (takePage m i pgPTableMaped p).pages p = { m.pages p with attr := pgPTableMaped } :=
    Function.update_self _ _ _
  have hShared : (pgPTableMaped ||| pgKernel) &&& pgShared = 0 := by decide
  rw [pageInit_eq, hPage]
  dsimp only
  rw [hShared]
  simp only [ne_eq, not_true_eq_false, or_false]

/-- A traceless page that comes back without `page_clean` leaves nothing behind. -/
theorem undo_eq {m : Management} {i p : Nat} (hClear : m.bitsMap.used p = false)
    (hKnown : frame (m.pages p).phyAddress = p) (hAttr : (m.pages p).attr = 0)
    (hReference : (m.pages p).referenceCount ≠ 0) (hZone : (m.pages p).zoneStruct = i) :
    freePage (pageInit (takePage m i pgPTableMaped p) p pgKernel) p = m := by
  subst hZone
  have hBits : (m.bitsMap.setBit p).clearBit p = m.bitsMap := Words.clearBit_setBit hClear
  have hPages : Function.update m.pages p { m.pages p with attr := 0 } = m.pages := by
    rw [← hAttr]
    exact Function.update_eq_self p m.pages
  have hZones : Function.update m.zones (m.pages p).zoneStruct
      { m.zones (m.pages p).zoneStruct with
        pageUsingCount := (m.zones (m.pages p).zoneStruct).pageUsingCount
        pageFreeCount := (m.zones (m.pages p).zoneStruct).pageFreeCount } = m.zones :=
    Function.update_eq_self _ m.zones
  rw [pageInit_taken, if_neg hReference]
  unfold freePage setAttr takePage
  simp only [Function.update_self, Function.update_idem, hKnown, Int.add_sub_cancel,
    Int.sub_add_cancel]
  rw [hBits, hPages, hZones]

theorem undo_shifted (m : Management) (i p : Nat) :
    Shifted (Pi.single p (if (m.pages p).referenceCount = 0 then 1 else 0))
      (Pi.single i 1 + Pi.single (m.pages p).zoneStruct (-1)) m
      (freePage (pageInit (takePage m i pgPTableMaped p) p pgKernel) p) := by
  have hTake := takePage_shifted m i pgPTableMaped p
  have hAttr := setAttr_shifted (takePage m i pgPTableMaped p) p (pgPTableMaped ||| pgKernel)
  have hReference := addReference_shifted
    (setAttr (takePage m i pgPTableMaped p) p (pgPTableMaped ||| pgKernel)) p 1
  have hInit : Shifted (Pi.single p (if (m.pages p).referenceCount = 0 then 1 else 0))
      (Pi.single i 1) m (pageInit (takePage m i pgPTableMaped p) p pgKernel) := by
    rw [pageInit_taken]
    split
    · simpa using (hTake.trans hAttr).trans hReference
    · simpa using hTake.trans hAttr
  have hFree := freePage_shifted (pageInit (takePage m i pgPTableMaped p) p pgKernel) p
  rw [hInit.zone] at hFree
  simpa using hInit.trans hFree

theorem single_one_ne (p : Nat) : (Pi.single p 1 : Nat → Int) ≠ 0 := by
  intro hEq
  have hAt := congrFun hEq p
  rw [Pi.single_eq_same] at hAt
  cases hAt

theorem single_sub_ne {i j : Nat} (hNe : i ≠ j) :
    (Pi.single i 1 + Pi.single j (-1) : Nat → Int) ≠ 0 := by
  intro hEq
  have hAt := congrFun hEq i
  rw [Pi.add_apply, Pi.single_eq_same, Pi.single_eq_of_ne hNe] at hAt
  cases hAt

theorem undo_cases {words page : Nat} {m m' : Management} {taken : List Nat}
    (h : PagesInv words m taken) (hPage : allocPages m zoneNormal 1 = (some page, m')) :
    (Traceless m page ∧ freePages (pageInit m' page pgKernel) (some page) 1 = m) ∨
      ¬ Traceless m page ∧ ∃ e d,
        Shifted e d m (freePages (pageInit m' page pgKernel) (some page) 1) ∧ (e ≠ 0 ∨ d ≠ 0) := by
  obtain ⟨i, hSearch, hNew, hClear⟩ := allocPages_normal hPage
  rw [freePages_one, hNew]
  by_cases hTraceless : Traceless m page
  · left
    have hZone : (m.pages page).zoneStruct = i :=
      (Prod.mk.inj (Option.some.inj (hTraceless.2.symm.trans hSearch))).1
    have hLt := h.normal_lt hPage
    exact ⟨hTraceless, undo_eq hClear (h.known page (Or.inr ⟨hLt, hClear⟩))
      (h.attr page hLt hClear) hTraceless.1 hZone⟩
  · right
    refine ⟨hTraceless, _, _, undo_shifted m i page, ?_⟩
    by_cases hZero : (m.pages page).referenceCount = 0
    · left
      rw [if_pos hZero]
      exact single_one_ne page
    · right
      apply single_sub_ne
      rintro rfl
      exact hTraceless ⟨hZero, hSearch⟩

/-! ## After boot -/

section
open Boot

theorem pageInit_pages (m : Management) {p q : Nat} (flags : BitVec 64) (hNe : q ≠ p) :
    (pageInit m p flags).pages q = m.pages q := by
  have hAttr : (setAttr m p ((m.pages p).attr ||| flags)).pages q = m.pages q :=
    Function.update_of_ne hNe _ _
  rw [pageInit_eq]
  split
  · exact (Function.update_of_ne hNe _ _).trans hAttr
  · exact hAttr

theorem foldl_pages {f : Management → Nat → Management}
    (hf : ∀ m p q, q ≠ p → (f m p).pages q = m.pages q) (ps : List Nat) {q : Nat} (hq : q ∉ ps)
    (m : Management) : (ps.foldl f m).pages q = m.pages q := by
  induction ps generalizing m with
  | nil => rfl
  | cons p ps ih =>
    rw [List.mem_cons, not_or] at hq
    obtain ⟨hNe, hRest⟩ := hq
    rw [List.foldl_cons, ih hRest, hf m p q hNe]

theorem boot_pages_other (d : Descriptor) (e820 : List E820) {q : Nat}
    (hq : q ∉ takenPages (initMemory d e820).endOfStruct) :
    (slabInit (initMemory d e820)).pages q = (buildTables d e820).pages q := by
  have hManagement := congrArg Management.pages (slabInit_management d e820)
  rw [initMemory_endOfStruct, takenPages, List.mem_append, not_or] at hq
  obtain ⟨hFirst, hSecond⟩ := hq
  have hInit : ∀ m p q, q ≠ p → (takeBit (pageInit m p kernelFlags) p).pages q = m.pages q :=
    fun m p q hNe => pageInit_pages m kernelFlags hNe
  have hSlab : ∀ m p q, q ≠ p → (pageInit (takeBit m p) p kernelFlags).pages q = m.pages q :=
    fun m p q hNe => pageInit_pages (takeBit m p) kernelFlags hNe
  rw [hManagement, foldl_pages hSlab _ hSecond, foldl_pages hInit _ hFirst]

/-- A clear bit is that of a free page of a zone. -/
theorem boot_clear (d : Descriptor) {e820 : List E820} (hTable : Table e820) {p : Nat}
    (hLt : p < 64 * ((buildTables d e820).bitsLength / 8))
    (hClear : (buildTables d e820).bitsMap.used p = false) :
    ∃ (i : Nat) (b : Nat × Nat), (zoneBounds e820)[i]? = some b ∧ frame b.1 ≤ p ∧
      p < frame b.2 := by
  have hBuilt := hTable.built d
  by_cases hSize : p < totalMem e820 / page2M
  · by_contra hNone
    have hUsed : _ = true := hBuilt.other p hSize fun b hb hIn => by
      obtain ⟨i, hAt⟩ := List.mem_iff_getElem?.mp hb
      exact hNone ⟨i, b, hAt, hIn⟩
    cases hUsed.symm.trans hClear
  · have hSame := foldl_addZone_used (not_lt.mp hSize) (zoneBounds e820)
      (fun b hb => hTable.zone_fits hb) (placeTables d (totalMem e820 / page2M)).toManagement
    have hFill : (placeTables d (totalMem e820 / page2M)).bitsMap.used p = true :=
      Words.used_fill hLt
    cases (hSame.trans hFill).symm.trans hClear

/-- After `slab_init` the pages taken at boot and page 0 are in use. -/
theorem boot_pagesInv (d : Descriptor) (e820 : List E820) (hTable : Table e820)
    (hBrk : pageOffset ≤ d.endBrk)
    (hFirst : FirstZone e820 (takenPages (initMemory d e820).endOfStruct)) :
    PagesInv ((slabInit (initMemory d e820)).bitsLength / 8)
      (slabInit (initMemory d e820)).toManagement
      (0 :: takenPages (initMemory d e820).endOfStruct) := by
  obtain ⟨hLayout, hSame, -, hUsed⟩ := boot_takes d hTable hBrk hFirst
  obtain ⟨stop, hHead, hContains⟩ := hFirst
  have hBuilt := hTable.built d
  have hMem := List.mem_of_mem_head? hHead
  have hSome : 1 ≤ (zoneBounds e820).length := List.length_pos_of_mem hMem
  have hEnd := (buildTables_placed d hTable hBrk).endOfStruct_spec hSome hTable.zones_le
  have hPageZero : (buildTables d e820).pages 0 = ⟨0, 0, kernelFlags, 1⟩ := rfl
  have hZeroClear : ∀ b ∈ zoneBounds e820, ¬ (frame b.1 ≤ 0 ∧ 0 < frame b.2) := by
    intro b hb hIn
    have hLe := hTable.first_le hHead hb
    omega
  have hStop : frame stop ≤ totalMem e820 / page2M := (hTable.zone_fits hMem).size
  have hZero : (buildTables d e820).bitsMap.used 0 = true := by
    have hLe : frame page2M ≤ frame stop := (hTable.zone_fits hMem).le
    have hOne : frame page2M = 1 := by decide
    exact hBuilt.other 0 (by omega) hZeroClear
  have hNotTaken : 0 ∉ takenPages (initMemory d e820).endOfStruct := by
    intro hTaken
    have hLow := (page_in_zone (hContains 0 hTaken)).1
    omega
  -- a page whose bit is clear is a free page of a zone, and was not touched since
  have hFree : ∀ p < 64 * ((buildTables d e820).bitsLength / 8),
      (slabInit (initMemory d e820)).bitsMap.used p = false →
      ∃ i, (slabInit (initMemory d e820)).pages p = ⟨i, page2M * p, 0, 0⟩ := by
    intro p hLt hClear
    rw [hUsed, Bool.or_eq_false_iff] at hClear
    obtain ⟨hBefore, hNotTaken⟩ := hClear
    obtain ⟨i, b, hAt, hLow, hHigh⟩ := boot_clear d hTable hLt hBefore
    have hPos : p ≠ 0 := by
      rintro rfl
      exact hZeroClear b (List.mem_of_getElem? hAt) ⟨hLow, hHigh⟩
    have hPage : (buildTables d e820).pages p = ⟨i, page2M * p, 0, 0⟩ :=
      (Function.update_of_ne hPos _ _).trans (hBuilt.page i b hAt p hLow hHigh)
    exact ⟨i, (boot_pages_other d e820 (of_decide_eq_false hNotTaken)).trans hPage⟩
  constructor
  · exact List.nodup_cons.mpr ⟨hNotTaken, takenPages_nodup hEnd⟩
  · intro p hp
    rw [hUsed]
    obtain rfl | hTaken := List.mem_cons.mp hp
    · rw [hZero, Bool.true_or]
    · rw [decide_eq_true hTaken, Bool.or_true]
  · intro p hp
    obtain hTaken | ⟨hLt, hClear⟩ := hp
    · rw [hSame.phyAddress]
      obtain rfl | hTaken := List.mem_cons.mp hTaken
      · rw [hPageZero]
        rfl
      · obtain ⟨hLow, hHigh⟩ := page_in_zone (hContains p hTaken)
        have hIn := (hTable.buildTables_free d hHead hLow hHigh).1
        exact (hLayout.pages 0 hIn.zone p hIn.low hIn.high).2
    · obtain ⟨i, hPage⟩ := hFree p hLt hClear
      rw [hPage]
      exact Nat.mul_div_cancel_left p (by decide)
  · intro p hLt hClear
    obtain ⟨i, hPage⟩ := hFree p hLt hClear
    rw [hPage]
  · intro i hi
    rw [hSame.selected] at hi
    change i ∈ zoneRange 0 0 at hi
    obtain rfl : i = 0 := List.mem_singleton.mp hi
    have hFirstZone : (buildTables d e820).zones 0 = newZone page2M stop := by
      rw [List.head?_eq_getElem?] at hHead
      exact hTable.zone_eq d (b := (page2M, stop)) hHead
    have hLength : (slabInit (initMemory d e820)).bitsLength =
        longMask ((totalMem e820 / page2M + 63) / 8) := rfl
    rw [hSame.stop, hFirstZone, hLength]
    change frame stop ≤ _
    unfold longMask
    omega

end

end KalinoteOS.Memory.Pages
