import KalinoteOS.Memory.Pages

/-! # Runs of the page allocator

The counters of a zone are charged for every page found while it is scanned, and given back to
the zone of each page.
-/
namespace KalinoteOS.Memory.Pages
open Lib
set_option autoImplicit false

/-- The clear bits of a zone. -/
def clearPages (m : Management) (i : Nat) : Finset Nat :=
  m.bitsMap.clearBits (m.zones i).start (m.zones i).stop

structure Accounting (m : Management) : Prop where
  free : ∀ i < m.zonesSize, (m.zones i).pageFreeCount = (clearPages m i).card
  total : ∀ i < m.zonesSize,
    (m.zones i).pageUsingCount + (m.zones i).pageFreeCount = (m.zones i).pagesLength

/-- Disjoint zones whose pages know their zone and their address. -/
structure Layout (m : Management) : Prop where
  disjoint : ∀ i < m.zonesSize, ∀ j < m.zonesSize, i ≠ j →
    (m.zones i).stop ≤ (m.zones j).start ∨ (m.zones j).stop ≤ (m.zones i).start
  pages : ∀ i < m.zonesSize, ∀ p, (m.zones i).start ≤ p → p < (m.zones i).stop →
    (m.pages p).zoneStruct = i ∧ frame (m.pages p).phyAddress = p
  dma : m.zoneDmaIndex < m.zonesSize
  normal : m.zoneNormalIndex < m.zonesSize
  unmaped : m.zoneUnmapedIndex < m.zonesSize

/-- The zones that `zone_select` selects, in the order of the scan. -/
def selected (m : Management) (zoneSelect : Int) : List Nat :=
  match selection m zoneSelect with
  | some (zoneStart, zoneEnd, _) => zoneRange zoneStart zoneEnd
  | none => []

/-- The allocator and the blocks it returned that did not come back: first page and number. -/
structure State where
  m : Management
  live : List (Nat × Nat)

inductive Action where
  | allocPages (zoneSelect number : Int)
  | freePages (page number : Nat)
  deriving DecidableEq, Repr

def step (s : State) : Action → Option State
  | .allocPages zoneSelect number =>
    if 1 ≤ number ∧ number ≤ 63 then
      let (page, m) := Pages.allocPages s.m zoneSelect number
      some ⟨m, (page.map fun p => (p, number.toNat)).toList ++ s.live⟩
    else none
  | .freePages page number =>
    if (page, number) ∈ s.live then
      some ⟨Pages.freePages s.m (some page) number, s.live.erase (page, number)⟩
    else none

def Step (s : State) (a : Action) (t : State) : Prop := step s a = some t

/-- Any layout whose counters are right. -/
structure Initial (s : State) : Prop where
  layout : Layout s.m
  accounting : Accounting s.m
  live : s.live = []

/-- The pages of a block are those of one selected zone, and exactly their bits change. -/
def Keeps (s : State) (a : Action) (t : State) : Prop :=
  match a with
  | .allocPages zoneSelect number =>
    ((Pages.allocPages s.m zoneSelect number).1 = none → t.m = s.m) ∧
    ∀ page, (Pages.allocPages s.m zoneSelect number).1 = some page →
      (∃ i ∈ selected s.m zoneSelect,
        (s.m.zones i).start ≤ page ∧ page + number.toNat ≤ (s.m.zones i).stop) ∧
      ClearRun s.m.bitsMap page number.toNat ∧
      ∀ q, t.m.bitsMap.used q =
        (s.m.bitsMap.used q || decide (page ≤ q ∧ q < page + number.toNat))
  | .freePages page number =>
    ∀ q, t.m.bitsMap.used q = (s.m.bitsMap.used q && !decide (page ≤ q ∧ q < page + number))

/-- The scan of zone `i` finds `number` clear bits, inside the zone or not. -/
def Candidate (m : Management) (number i : Nat) : Prop :=
  (number : Int) ≤ (m.zones i).pageFreeCount ∧
    ∃ p, FirstRun m.bitsMap (m.zones i).start (m.zones i).stop number p

/-- In the first selected zone whose scan finds a run, the first run ends inside the zone. -/
def Good (s : State) : Action → Prop
  | .allocPages zoneSelect number =>
    ∀ before i after p, selected s.m zoneSelect = before ++ i :: after →
      (∀ k ∈ before, ¬ Candidate s.m number.toNat k) →
      (number.toNat : Int) ≤ (s.m.zones i).pageFreeCount →
      FirstRun s.m.bitsMap (s.m.zones i).start (s.m.zones i).stop number.toNat p →
      p + number.toNat ≤ (s.m.zones i).stop
  | .freePages _ _ => True

/-! ## What a call leaves alone -/

/-- The zones lie where they lay, and no page moved. -/
structure SameLayout (m m' : Management) : Prop where
  zonesSize : m'.zonesSize = m.zonesSize
  dma : m'.zoneDmaIndex = m.zoneDmaIndex
  normal : m'.zoneNormalIndex = m.zoneNormalIndex
  unmaped : m'.zoneUnmapedIndex = m.zoneUnmapedIndex
  start : ∀ i, (m'.zones i).start = (m.zones i).start
  stop : ∀ i, (m'.zones i).stop = (m.zones i).stop
  length : ∀ i, (m'.zones i).pagesLength = (m.zones i).pagesLength
  zoneStruct : ∀ p, (m'.pages p).zoneStruct = (m.pages p).zoneStruct
  phyAddress : ∀ p, (m'.pages p).phyAddress = (m.pages p).phyAddress

theorem SameLayout.refl (m : Management) : SameLayout m m :=
  ⟨rfl, rfl, rfl, rfl, fun _ => rfl, fun _ => rfl, fun _ => rfl, fun _ => rfl, fun _ => rfl⟩

theorem SameLayout.trans {m m' m'' : Management} (h : SameLayout m m') (h' : SameLayout m' m'') :
    SameLayout m m'' :=
  ⟨h'.zonesSize.trans h.zonesSize, h'.dma.trans h.dma, h'.normal.trans h.normal,
    h'.unmaped.trans h.unmaped, fun i => (h'.start i).trans (h.start i),
    fun i => (h'.stop i).trans (h.stop i), fun i => (h'.length i).trans (h.length i),
    fun p => (h'.zoneStruct p).trans (h.zoneStruct p),
    fun p => (h'.phyAddress p).trans (h.phyAddress p)⟩

theorem Layout.same {m m' : Management} (h : Layout m) (hSame : SameLayout m m') : Layout m' := by
  constructor
  · intro i hi j hj hNe
    rw [hSame.zonesSize] at hi hj
    rw [hSame.start, hSame.start, hSame.stop, hSame.stop]
    exact h.disjoint i hi j hj hNe
  · intro i hi p hLow hHigh
    rw [hSame.zonesSize] at hi
    rw [hSame.start] at hLow
    rw [hSame.stop] at hHigh
    rw [hSame.zoneStruct, hSame.phyAddress]
    exact h.pages i hi p hLow hHigh
  · rw [hSame.dma, hSame.zonesSize]
    exact h.dma
  · rw [hSame.normal, hSame.zonesSize]
    exact h.normal
  · rw [hSame.unmaped, hSame.zonesSize]
    exact h.unmaped

theorem update_field {α β : Type} (f : Nat → α) (field : α → β) (i : Nat) {a : α}
    (h : field a = field (f i)) (j : Nat) : field (Function.update f i a j) = field (f j) := by
  obtain rfl | hNe := eq_or_ne j i
  · rw [Function.update_self, h]
  · rw [Function.update_of_ne hNe]

theorem takePage_same (m : Management) (i : Nat) (attr : BitVec 64) (p : Nat) :
    SameLayout m (takePage m i attr p) :=
  ⟨rfl, rfl, rfl, rfl, update_field m.zones Zone.start i rfl, update_field m.zones Zone.stop i rfl,
    update_field m.zones Zone.pagesLength i rfl, update_field m.pages Page.zoneStruct p rfl,
    update_field m.pages Page.phyAddress p rfl⟩

theorem takePages_same (m : Management) (i : Nat) (attr : BitVec 64) (page n : Nat) :
    SameLayout m (takePages m i attr page n) := by
  induction n with
  | zero => exact SameLayout.refl m
  | succ n ih => exact ih.trans (takePage_same _ i attr (page + n))

theorem freePage_same (m : Management) (p : Nat) : SameLayout m (freePage m p) :=
  ⟨rfl, rfl, rfl, rfl, update_field m.zones Zone.start _ rfl, update_field m.zones Zone.stop _ rfl,
    update_field m.zones Zone.pagesLength _ rfl, update_field m.pages Page.zoneStruct p rfl,
    update_field m.pages Page.phyAddress p rfl⟩

theorem freeLoop_same (m : Management) (page n : Nat) : SameLayout m (freeLoop m page n) := by
  induction n with
  | zero => exact SameLayout.refl m
  | succ n ih => exact ih.trans (freePage_same _ (page + n))

/-! ## What a call changes -/

/-- The counters of zone `i` moved by `n`, those of the other zones did not. -/
structure Charged (m m' : Management) (i : Nat) (n : Int) : Prop where
  using_self : (m'.zones i).pageUsingCount = (m.zones i).pageUsingCount + n
  free_self : (m'.zones i).pageFreeCount = (m.zones i).pageFreeCount - n
  other : ∀ k, k ≠ i → m'.zones k = m.zones k

theorem Charged.trans {m m' m'' : Management} {i : Nat} {a b : Int} (h : Charged m m' i a)
    (h' : Charged m' m'' i b) : Charged m m'' i (a + b) := by
  constructor
  · rw [h'.using_self, h.using_self, add_assoc]
  · rw [h'.free_self, h.free_self, sub_sub]
  · exact fun k hk => (h'.other k hk).trans (h.other k hk)

theorem takePage_charged (m : Management) (i : Nat) (attr : BitVec 64) (p : Nat) :
    Charged m (takePage m i attr p) i 1 := by
  unfold takePage
  constructor
  · dsimp only
    rw [Function.update_self]
  · dsimp only
    rw [Function.update_self]
  · exact fun k hk => Function.update_of_ne hk _ _

theorem freePage_charged {m : Management} {i p : Nat} (hZone : (m.pages p).zoneStruct = i) :
    Charged m (freePage m p) i (-1) := by
  subst hZone
  unfold freePage
  constructor
  · dsimp only
    rw [Function.update_self]
    rfl
  · dsimp only
    rw [Function.update_self, sub_neg_eq_add]
  · exact fun k hk => Function.update_of_ne hk _ _

theorem takePages_charged (m : Management) (i : Nat) (attr : BitVec 64) (page n : Nat) :
    Charged m (takePages m i attr page n) i n := by
  induction n with
  | zero => exact ⟨(add_zero _).symm, (sub_zero _).symm, fun _ _ => rfl⟩
  | succ n ih =>
    rw [takePages, Int.natCast_succ]
    exact ih.trans (takePage_charged _ i attr (page + n))

theorem takePages_used {m : Management} (h : Layout m) {i page n : Nat} (hi : i < m.zonesSize)
    (hLow : (m.zones i).start ≤ page) (hHigh : page + n ≤ (m.zones i).stop) (attr : BitVec 64)
    (q : Nat) : (takePages m i attr page n).bitsMap.used q =
      (m.bitsMap.used q || decide (page ≤ q ∧ q < page + n)) := by
  induction n with
  | zero =>
    have hNot : ¬ (page ≤ q ∧ q < page + 0) := by omega
    rw [takePages, decide_eq_false hNot, Bool.or_false]
  | succ n ih =>
    have hFrame : frame ((takePages m i attr page n).pages (page + n)).phyAddress = page + n := by
      rw [(takePages_same m i attr page n).phyAddress]
      exact (h.pages i hi (page + n) (by omega) (by omega)).2
    rw [takePages]
    unfold takePage
    dsimp only
    rw [hFrame, Words.used_setBit, ih (by omega), Bool.or_assoc, ← Bool.decide_or]
    congr 1
    rw [decide_eq_decide]
    omega

theorem freeLoop_charged {m : Management} (h : Layout m) {i page n : Nat} (hi : i < m.zonesSize)
    (hLow : (m.zones i).start ≤ page) (hHigh : page + n ≤ (m.zones i).stop) :
    Charged m (freeLoop m page n) i (-n) := by
  induction n with
  | zero => exact ⟨(add_zero _).symm, (sub_zero _).symm, fun _ _ => rfl⟩
  | succ n ih =>
    have hZone : ((freeLoop m page n).pages (page + n)).zoneStruct = i := by
      rw [(freeLoop_same m page n).zoneStruct]
      exact (h.pages i hi (page + n) (by omega) (by omega)).1
    rw [freeLoop, Int.natCast_succ, neg_add]
    exact (ih (by omega)).trans (freePage_charged hZone)

theorem freeLoop_used {m : Management} (h : Layout m) {i page n : Nat} (hi : i < m.zonesSize)
    (hLow : (m.zones i).start ≤ page) (hHigh : page + n ≤ (m.zones i).stop) (q : Nat) :
    (freeLoop m page n).bitsMap.used q =
      (m.bitsMap.used q && !decide (page ≤ q ∧ q < page + n)) := by
  induction n with
  | zero =>
    have hNot : ¬ (page ≤ q ∧ q < page + 0) := by omega
    rw [freeLoop, decide_eq_false hNot, Bool.not_false, Bool.and_true]
  | succ n ih =>
    have hFrame : frame ((freeLoop m page n).pages (page + n)).phyAddress = page + n := by
      rw [(freeLoop_same m page n).phyAddress]
      exact (h.pages i hi (page + n) (by omega) (by omega)).2
    rw [freeLoop]
    unfold freePage
    dsimp only
    rw [hFrame, Words.used_clearBit, ih (by omega), Bool.and_assoc, ← decide_not, ← Bool.decide_and]
    congr 1
    rw [← decide_not, decide_eq_decide]
    omega

/-! ## Counting -/

theorem mem_clearPages {m : Management} {i q : Nat} : q ∈ clearPages m i ↔
    ((m.zones i).start ≤ q ∧ q < (m.zones i).stop) ∧ m.bitsMap.used q = false :=
  Words.mem_clearBits

theorem clearPages_other {m m' : Management} (hSame : SameLayout m m') {i : Nat}
    (h : ∀ q, (m.zones i).start ≤ q → q < (m.zones i).stop → m'.bitsMap.used q = m.bitsMap.used q) :
    clearPages m' i = clearPages m i := by
  unfold clearPages
  rw [hSame.start, hSame.stop]
  exact Words.clearBits_congr h

theorem clearPages_taken {m m' : Management} (hSame : SameLayout m m') {i page n : Nat}
    (hLow : (m.zones i).start ≤ page) (hHigh : page + n ≤ (m.zones i).stop)
    (hClear : ClearRun m.bitsMap page n) (hUsed : ∀ q, m'.bitsMap.used q =
      (m.bitsMap.used q || decide (page ≤ q ∧ q < page + n))) :
    (clearPages m' i).card + n = (clearPages m i).card := by
  have hSub : Finset.Ico page (page + n) ⊆ clearPages m i := by
    intro q hq
    rw [Finset.mem_Ico] at hq
    rw [mem_clearPages]
    refine ⟨by omega, ?_⟩
    have hEq : page + (q - page) = q := by omega
    rw [← hEq]
    exact hClear _ (by omega)
  have hSdiff : clearPages m' i = clearPages m i \ Finset.Ico page (page + n) := by
    ext q
    rw [Finset.mem_sdiff, mem_clearPages, mem_clearPages, hSame.start, hSame.stop, hUsed,
      Finset.mem_Ico, Bool.or_eq_false_iff, decide_eq_false_iff_not]
    exact and_assoc.symm
  have hCard := Finset.card_sdiff_add_card_eq_card hSub
  rw [Nat.card_Ico] at hCard
  rw [hSdiff]
  omega

theorem clearPages_freed {m m' : Management} (hSame : SameLayout m m') {i page n : Nat}
    (hLow : (m.zones i).start ≤ page) (hHigh : page + n ≤ (m.zones i).stop)
    (hSet : ∀ l < n, m.bitsMap.used (page + l) = true) (hUsed : ∀ q, m'.bitsMap.used q =
      (m.bitsMap.used q && !decide (page ≤ q ∧ q < page + n))) :
    (clearPages m' i).card = (clearPages m i).card + n := by
  have hUnion : clearPages m' i = clearPages m i ∪ Finset.Ico page (page + n) := by
    ext q
    rw [Finset.mem_union, mem_clearPages, mem_clearPages, hSame.start, hSame.stop, hUsed,
      Finset.mem_Ico, Bool.and_eq_false_iff, Bool.not_eq_false', decide_eq_true_eq]
    constructor
    · rintro ⟨hRange, hOr⟩
      exact hOr.imp_left fun hClear => ⟨hRange, hClear⟩
    · rintro (⟨hRange, hClear⟩ | hBlock)
      · exact ⟨hRange, Or.inl hClear⟩
      · exact ⟨by omega, Or.inr hBlock⟩
  have hDisjoint : Disjoint (clearPages m i) (Finset.Ico page (page + n)) := by
    rw [Finset.disjoint_left]
    intro q hClear hBlock
    rw [Finset.mem_Ico] at hBlock
    have hEq : page + (q - page) = q := by omega
    have hOn := hSet (q - page) (by omega)
    rw [hEq, (mem_clearPages.mp hClear).2] at hOn
    cases hOn
  rw [hUnion, Finset.card_union_of_disjoint hDisjoint, Nat.card_Ico]
  omega

/-! ## The invariant -/

def Apart (a b : Nat × Nat) : Prop := a.1 + a.2 ≤ b.1 ∨ b.1 + b.2 ≤ a.1

theorem Apart.symm {a b : Nat × Nat} (h : Apart a b) : Apart b a := Or.symm h

/-- A block lies in one zone and is marked used. -/
structure Block (m : Management) (b : Nat × Nat) : Prop where
  number : 1 ≤ b.2 ∧ b.2 ≤ 63
  zone : ∃ i < m.zonesSize, (m.zones i).start ≤ b.1 ∧ b.1 + b.2 ≤ (m.zones i).stop
  used : ∀ l < b.2, m.bitsMap.used (b.1 + l) = true

structure Inv (s : State) : Prop where
  layout : Layout s.m
  accounting : Accounting s.m
  blocks : ∀ b ∈ s.live, Block s.m b
  apart : s.live.Pairwise Apart

section
variable {m m' : Management} {i page n : Nat} (hLayout : Layout m) (hSame : SameLayout m m')
  (hi : i < m.zonesSize) (hLow : (m.zones i).start ≤ page) (hHigh : page + n ≤ (m.zones i).stop)
include hLayout hi hLow hHigh hSame

/-- A block of zone `i` leaves the other zones alone. -/
theorem clearPages_apart
    (hRest : ∀ q, ¬ (page ≤ q ∧ q < page + n) → m'.bitsMap.used q = m.bitsMap.used q) {k : Nat}
    (hk : k < m.zonesSize) (hNe : k ≠ i) : clearPages m' k = clearPages m k := by
  have hDisjoint := hLayout.disjoint k hk i hi hNe
  exact clearPages_other hSame fun q hLowQ hHighQ => hRest q (by omega)

/-- The accounts stay right when the counters of zone `i` move with its clear bits. -/
theorem Accounting.charged (h : Accounting m) {d : Int} (hCharged : Charged m m' i d)
    (hSelf : ((clearPages m' i).card : Int) = (clearPages m i).card - d)
    (hRest : ∀ q, ¬ (page ≤ q ∧ q < page + n) → m'.bitsMap.used q = m.bitsMap.used q) :
    Accounting m' := by
  constructor
  · intro k hk
    rw [hSame.zonesSize] at hk
    obtain rfl | hNe := eq_or_ne k i
    · rw [hCharged.free_self, h.free k hk, hSelf]
    · rw [hCharged.other k hNe, clearPages_apart hLayout hSame hi hLow hHigh hRest hk hNe]
      exact h.free k hk
  · intro k hk
    rw [hSame.zonesSize] at hk
    have hTotal := h.total k hk
    rw [hSame.length]
    obtain rfl | hNe := eq_or_ne k i
    · rw [hCharged.using_self, hCharged.free_self]
      omega
    · rw [hCharged.other k hNe]
      exact hTotal

end

theorem Block.same {m m' : Management} {b : Nat × Nat} (h : Block m b) (hSame : SameLayout m m')
    (hUsed : ∀ l < b.2, m'.bitsMap.used (b.1 + l) = true) : Block m' b := by
  obtain ⟨i, hi, hLow, hHigh⟩ := h.zone
  refine ⟨h.number, ⟨i, ?_, ?_, ?_⟩, hUsed⟩
  · rw [hSame.zonesSize]
    exact hi
  · rw [hSame.start]
    exact hLow
  · rw [hSame.stop]
    exact hHigh

theorem mem_selected_lt {m : Management} (h : Layout m) {zoneSelect : Int} {i : Nat}
    (hi : i ∈ selected m zoneSelect) : i < m.zonesSize := by
  have hDma := h.dma
  have hNormal := h.normal
  have hUnmaped := h.unmaped
  unfold selected selection at hi
  split at hi
  · next zoneStart zoneEnd _ hSelection =>
    have hLt : zoneEnd < m.zonesSize := by
      split at hSelection
      · cases hSelection
        omega
      · split at hSelection
        · cases hSelection
          omega
        · split at hSelection
          · cases hSelection
            omega
          · cases hSelection
    unfold zoneRange at hi
    rw [List.mem_range'_1] at hi
    omega
  · cases hi

/-! ## `alloc_pages` -/

theorem searchZones_some {m : Management} {number i page : Nat} {l : List Nat}
    (h : searchZones m number l = some (i, page)) :
    ∃ before after, l = before ++ i :: after ∧ (∀ k ∈ before, searchZone m number k = none) ∧
      searchZone m number i = some page := by
  induction l with
  | nil => cases h
  | cons k rest ih =>
    rw [searchZones] at h
    split at h
    · next hSearch =>
      cases h
      exact ⟨[], rest, rfl, fun k hk => absurd hk List.not_mem_nil, hSearch⟩
    · next hSearch =>
      obtain ⟨before, after, rfl, hBefore, hHere⟩ := ih h
      refine ⟨k :: before, after, rfl, fun k' hk => ?_, hHere⟩
      obtain rfl | hk := List.mem_cons.mp hk
      · exact hSearch
      · exact hBefore k' hk

theorem searchZones_none {m : Management} {number : Nat} {l : List Nat}
    (h : searchZones m number l = none) : ∀ k ∈ l, searchZone m number k = none := by
  induction l with
  | nil => exact fun k hk => absurd hk List.not_mem_nil
  | cons k rest ih =>
    rw [searchZones] at h
    split at h
    · cases h
    · next hSearch =>
      intro k' hk
      obtain rfl | hk := List.mem_cons.mp hk
      · exact hSearch
      · exact ih h k' hk

/-- The first member of a list with a property is the only one of its kind. -/
theorem first_unique {α : Type} {P : α → Prop} {l₁ l₂ r₁ r₂ : List α} {a b : α}
    (h : l₁ ++ a :: r₁ = l₂ ++ b :: r₂) (h₁ : ∀ x ∈ l₁, ¬ P x) (ha : P a) (h₂ : ∀ x ∈ l₂, ¬ P x)
    (hb : P b) : a = b := by
  induction l₁ generalizing l₂ with
  | nil =>
    cases l₂ with
    | nil => exact (List.cons.inj h).1
    | cons y ys =>
      obtain ⟨rfl, -⟩ := List.cons.inj h
      exact absurd ha (h₂ a List.mem_cons_self)
  | cons x xs ih =>
    cases l₂ with
    | nil =>
      obtain ⟨rfl, -⟩ := List.cons.inj h
      exact absurd hb (h₁ x List.mem_cons_self)
    | cons y ys =>
      exact ih (List.cons.inj h).2 (fun z hz => h₁ z (List.mem_cons_of_mem _ hz))
        fun z hz => h₂ z (List.mem_cons_of_mem _ hz)

section
variable {s : State}

theorem Accounting.nonempty {m : Management} (h : Accounting m) {i number : Nat}
    (hi : i < m.zonesSize) (hNumber : 1 ≤ number)
    (hFree : (number : Int) ≤ (m.zones i).pageFreeCount) : (m.zones i).start < (m.zones i).stop := by
  have hCount := h.free i hi
  have hPos : 0 < (clearPages m i).card := by omega
  obtain ⟨q, hq⟩ := Finset.card_pos.mp hPos
  have hRange := (mem_clearPages.mp hq).1
  omega

theorem not_candidate (h : Inv s) {i number : Nat} (hi : i < s.m.zonesSize) (hNumber : 1 ≤ number)
    (hLt : number < 64) (hNone : searchZone s.m number i = none) : ¬ Candidate s.m number i :=
  searchZone_eq_none hLt (fun hFree => h.accounting.nonempty hi hNumber hFree) hNone

/-- What `alloc_pages` returns: nothing, or the first run of the first zone that has one. -/
theorem allocPages_cases (h : Inv s) {zoneSelect number : Int} (hNumber : 1 ≤ number)
    (hMost : number ≤ 63) :
    (allocPages s.m zoneSelect number = (none, s.m) ∧
      ∀ k ∈ selected s.m zoneSelect, ¬ Candidate s.m number.toNat k) ∨
    ∃ before i after page attr, selected s.m zoneSelect = before ++ i :: after ∧
      (∀ k ∈ before, ¬ Candidate s.m number.toNat k) ∧
      (number.toNat : Int) ≤ (s.m.zones i).pageFreeCount ∧
      FirstRun s.m.bitsMap (s.m.zones i).start (s.m.zones i).stop number.toNat page ∧
      allocPages s.m zoneSelect number =
        (some page, takePages s.m i attr page number.toNat) := by
  have hValid : ¬ (64 ≤ number ∨ number ≤ 0) := by omega
  have hLt : number.toNat < 64 := by omega
  have hPos : 1 ≤ number.toNat := by omega
  have hIn : ∀ k ∈ selected s.m zoneSelect, k < s.m.zonesSize := fun k hk =>
    mem_selected_lt h.layout hk
  unfold allocPages
  rw [if_neg hValid]
  unfold selected at hIn ⊢
  cases hSelection : selection s.m zoneSelect with
  | none => exact Or.inl ⟨rfl, fun k hk => absurd hk List.not_mem_nil⟩
  | some choice =>
    obtain ⟨zoneStart, zoneEnd, attr⟩ := choice
    rw [hSelection] at hIn
    dsimp only at hIn ⊢
    cases hSearch : searchZones s.m number.toNat (zoneRange zoneStart zoneEnd) with
    | none =>
      refine Or.inl ⟨rfl, fun k hk => ?_⟩
      exact not_candidate h (hIn k hk) hPos hLt (searchZones_none hSearch k hk)
    | some found =>
      obtain ⟨i, page⟩ := found
      obtain ⟨before, after, hSplit, hBefore, hHere⟩ := searchZones_some hSearch
      obtain ⟨hFree, hRun⟩ := searchZone_eq_some hLt hHere
      refine Or.inr ⟨before, i, after, page, attr, hSplit, fun k hk => ?_, hFree, hRun, rfl⟩
      have hMem : k ∈ zoneRange zoneStart zoneEnd := by
        rw [hSplit]
        exact List.mem_append_left _ hk
      exact not_candidate h (hIn k hMem) hPos hLt (hBefore k hk)

/-- Pages found inside the zone keep the accounts right. -/
theorem take_inv (h : Inv s) {i page n : Nat} (hi : i < s.m.zonesSize) (hn : 1 ≤ n ∧ n ≤ 63)
    (hLow : (s.m.zones i).start ≤ page) (hHigh : page + n ≤ (s.m.zones i).stop)
    (hClear : ClearRun s.m.bitsMap page n) (attr : BitVec 64) :
    Inv ⟨takePages s.m i attr page n, (page, n) :: s.live⟩ := by
  have hSame := takePages_same s.m i attr page n
  have hUsed := takePages_used h.layout hi hLow hHigh attr
  have hRest : ∀ q, ¬ (page ≤ q ∧ q < page + n) →
      (takePages s.m i attr page n).bitsMap.used q = s.m.bitsMap.used q := by
    intro q hNot
    rw [hUsed, decide_eq_false hNot, Bool.or_false]
  have hTaken := clearPages_taken hSame hLow hHigh hClear hUsed
  constructor
  · exact h.layout.same hSame
  · apply h.accounting.charged h.layout hSame hi hLow hHigh (takePages_charged s.m i attr page n) _
      hRest
    omega
  · intro b hb
    obtain rfl | hb := List.mem_cons.mp hb
    · refine ⟨hn, ⟨i, ?_, ?_, ?_⟩, fun l hl => ?_⟩
      · rw [hSame.zonesSize]
        exact hi
      · rw [hSame.start]
        exact hLow
      · rw [hSame.stop]
        exact hHigh
      · have hIn : page ≤ page + l ∧ page + l < page + n := ⟨by omega, Nat.add_lt_add_left hl page⟩
        dsimp only
        rw [hUsed, decide_eq_true hIn, Bool.or_true]
    · have hBlock := h.blocks b hb
      refine hBlock.same hSame fun l hl => ?_
      rw [hUsed, hBlock.used l hl, Bool.true_or]
  · refine List.pairwise_cons.mpr ⟨fun b hb => ?_, h.apart⟩
    obtain ⟨hNumber, -, hUsedB⟩ := h.blocks b hb
    by_contra hOverlap
    unfold Apart at hOverlap
    dsimp only at hOverlap
    -- the larger of the two first pages is in both blocks
    have hBoth : ∃ q, (page ≤ q ∧ q < page + n) ∧ (b.1 ≤ q ∧ q < b.1 + b.2) :=
      ⟨max page b.1, by omega, by omega⟩
    obtain ⟨q, hInBlock, hInB⟩ := hBoth
    have hOff := hClear (q - page) (by omega)
    have hOn := hUsedB (q - b.1) (by omega)
    have hEqA : page + (q - page) = q := by omega
    have hEqB : b.1 + (q - b.1) = q := by omega
    rw [hEqA] at hOff
    rw [hEqB, hOff] at hOn
    cases hOn

/-! ## `free_pages` -/

theorem apart_of_erase {live : List (Nat × Nat)} (h : live.Pairwise Apart) {b c : Nat × Nat}
    (hb : b ∈ live) (hc : c ∈ live.erase b) : Apart b c := by
  have hPerm := (List.perm_cons_erase hb).pairwise_iff (R := Apart) Apart.symm
  exact (List.pairwise_cons.mp (hPerm.mp h)).1 c hc

theorem free_inv (h : Inv s) {page n : Nat} (hLive : (page, n) ∈ s.live) :
    Inv ⟨freeLoop s.m page n, s.live.erase (page, n)⟩ ∧
      ∀ q, (freeLoop s.m page n).bitsMap.used q =
        (s.m.bitsMap.used q && !decide (page ≤ q ∧ q < page + n)) := by
  obtain ⟨hNumber, ⟨i, hi, hLow, hHigh⟩, hSet⟩ := h.blocks _ hLive
  dsimp only at hNumber hLow hHigh hSet
  have hSame := freeLoop_same s.m page n
  have hUsed := freeLoop_used h.layout hi hLow hHigh
  refine ⟨?_, hUsed⟩
  have hRest : ∀ q, ¬ (page ≤ q ∧ q < page + n) →
      (freeLoop s.m page n).bitsMap.used q = s.m.bitsMap.used q := by
    intro q hNot
    rw [hUsed, decide_eq_false hNot, Bool.not_false, Bool.and_true]
  have hFreed := clearPages_freed hSame hLow hHigh hSet hUsed
  constructor
  · exact h.layout.same hSame
  · apply h.accounting.charged h.layout hSame hi hLow hHigh (freeLoop_charged h.layout hi hLow hHigh)
      _ hRest
    omega
  · intro b hb
    have hBlock := h.blocks b (List.mem_of_mem_erase hb)
    refine hBlock.same hSame fun l hl => ?_
    have hApart := apart_of_erase h.apart hLive hb
    unfold Apart at hApart
    dsimp only at hApart
    rw [hRest _ (by omega)]
    exact hBlock.used l hl
  · exact h.apart.sublist List.erase_sublist

/-! ## Whole runs -/

/-- A call keeps the law exactly when the run it finds ends inside the zone. -/
theorem alloc_step (h : Inv s) {zoneSelect number : Int} (hNumber : 1 ≤ number)
    (hMost : number ≤ 63) {t : State} (hStep : Step s (.allocPages zoneSelect number) t) :
    (Good s (.allocPages zoneSelect number) →
      Inv t ∧ Keeps s (.allocPages zoneSelect number) t) ∧
    (Keeps s (.allocPages zoneSelect number) t → Accounting t.m →
      Good s (.allocPages zoneSelect number)) := by
  have hEq : t = ⟨(allocPages s.m zoneSelect number).2,
      ((allocPages s.m zoneSelect number).1.map fun p => (p, number.toNat)).toList ++ s.live⟩ := by
    have hSome := (if_pos ⟨hNumber, hMost⟩).symm.trans hStep
    exact (Option.some.inj hSome).symm
  have hIn : ∀ k ∈ selected s.m zoneSelect, k < s.m.zonesSize := fun k hk =>
    mem_selected_lt h.layout hk
  rcases allocPages_cases h hNumber hMost with ⟨hNull, hNone⟩ |
    ⟨before, i, after, page, attr, hSplit, hBefore, hFree, hRun, hSome⟩
  · rw [hNull] at hEq
    subst hEq
    constructor
    · intro _
      refine ⟨h, fun _ => rfl, fun p hp => ?_⟩
      rw [hNull] at hp
      cases hp
    · intro _ _ before i after p hSplit _ hFree hRun
      have hMem : i ∈ selected s.m zoneSelect := by
        rw [hSplit]
        exact List.mem_append_right _ List.mem_cons_self
      exact absurd ⟨hFree, p, hRun⟩ (hNone i hMem)
  · rw [hSome] at hEq
    subst hEq
    have hMem : i ∈ selected s.m zoneSelect := by
      rw [hSplit]
      exact List.mem_append_right _ List.mem_cons_self
    have hi := hIn i hMem
    have hCandidate : Candidate s.m number.toNat i := ⟨hFree, page, hRun⟩
    have hSame := takePages_same s.m i attr page number.toNat
    constructor
    · intro hGood
      have hHigh := hGood before i after page hSplit hBefore hFree hRun
      refine ⟨take_inv h hi (by omega) hRun.low hHigh hRun.clear attr, ?_, fun p hp => ?_⟩
      · intro hNull
        rw [hSome] at hNull
        cases hNull
      · rw [hSome] at hp
        cases hp
        exact ⟨⟨i, hMem, hRun.low, hHigh⟩, hRun.clear, takePages_used h.layout hi hRun.low hHigh attr⟩
    · rintro ⟨-, hKeeps⟩ hAccounting before' i' after' p' hSplit' hBefore' hFree' hRun'
      have hZone : i' = i :=
        first_unique (hSplit'.symm.trans hSplit) hBefore' ⟨hFree', p', hRun'⟩ hBefore hCandidate
      subst hZone
      cases hRun.unique hRun'
      obtain ⟨⟨k, hk, hLowK, hHighK⟩, -, hUsed⟩ := hKeeps page (congrArg Prod.fst hSome)
      obtain rfl | hNe := eq_or_ne k i'
      · exact hHighK
      · -- the block lies in another zone, but this one was charged for it
        exfalso
        have hOther : clearPages (takePages s.m i' attr page number.toNat) i' = clearPages s.m i' := by
          apply clearPages_apart h.layout hSame (hIn k hk) hLowK hHighK _ hi hNe.symm
          intro q hNot
          rw [hUsed, decide_eq_false hNot, Bool.or_false]
        have hAfter := hAccounting.free i' (by rw [hSame.zonesSize]; exact hi)
        have hBeforeFree := h.accounting.free i' hi
        dsimp only at hAfter
        rw [hOther, (takePages_charged s.m i' attr page number.toNat).free_self] at hAfter
        omega

theorem free_step (h : Inv s) {page number : Nat} {t : State}
    (hStep : Step s (.freePages page number) t) : Inv t ∧ Keeps s (.freePages page number) t := by
  obtain ⟨hLive, hEq⟩ := Option.ite_none_right_eq_some.mp hStep
  obtain ⟨hNumber, -⟩ := h.blocks _ hLive
  have hValid : ¬ (64 ≤ (number : Int) ∨ (number : Int) ≤ 0) := by
    dsimp only at hNumber
    omega
  have hLoop : freePages s.m (some page) number = freeLoop s.m page number := by
    unfold freePages
    dsimp only
    rw [if_neg hValid, Int.toNat_natCast]
  obtain ⟨hInv, hUsed⟩ := free_inv h hLive
  cases hEq
  rw [hLoop]
  refine ⟨hInv, fun q => ?_⟩
  exact hUsed q

theorem step_inv {t : State} {a : Action} (h : Inv s) (hGood : Good s a) (hStep : Step s a t) :
    Inv t ∧ Keeps s a t := by
  cases a with
  | allocPages zoneSelect number =>
    obtain ⟨⟨hNumber, hMost⟩, -⟩ := Option.ite_none_right_eq_some.mp hStep
    exact (alloc_step h hNumber hMost hStep).1 hGood
  | freePages page number => exact free_step h hStep

theorem Initial.inv (h : Initial s) : Inv s := by
  refine ⟨h.layout, h.accounting, ?_, ?_⟩
  · rw [h.live]
    exact fun b hb => absurd hb List.not_mem_nil
  · rw [h.live]
    exact List.Pairwise.nil

theorem reach_inv (h : Reach Initial (Guarded Good Step) s) : Inv s :=
  Reach.invariant (P := Inv) (fun _ hs => hs.inv)
    (fun _ _ _ hs hStep => (step_inv hs hStep.1 hStep.2).1) h

end

/-- As long as every run found ends inside its zone the accounts are right, and the next call
keeps them right, and to the selected zones, exactly when its run does. -/
theorem accounting_iff_good (s : State) (h : Reach Initial (Guarded Good Step) s) :
    Accounting s.m ∧ ∀ a t, Step s a t → (Keeps s a t ∧ Accounting t.m ↔ Good s a) := by
  have hInv := reach_inv h
  refine ⟨hInv.accounting, fun a t hStep => ?_⟩
  constructor
  · rintro ⟨hKeeps, hAccounting⟩
    cases a with
    | allocPages zoneSelect number =>
      obtain ⟨⟨hNumber, hMost⟩, -⟩ := Option.ite_none_right_eq_some.mp hStep
      exact (alloc_step hInv hNumber hMost hStep).2 hKeeps hAccounting
    | freePages page number => trivial
  · intro hGood
    obtain ⟨hNext, hKeeps⟩ := step_inv hInv hGood hStep
    exact ⟨hKeeps, hNext.accounting⟩

/-- Zone 0 has the pages 1 to 3 and zone 1 the pages 4 to 9, all free; they share a word. -/
def twoZones : Management where
  bitsMap := fun i => if i = 0 then 0xfffffffffffffc01 else BitVec.allOnes 64
  pages := fun p => ⟨if p < 4 then 0 else 1, p * 2 ^ 21, 0, 0⟩
  zones := fun i =>
    if i = 0 then ⟨3, 1 * 2 ^ 21, 4 * 2 ^ 21, 0, 3, 0⟩ else ⟨6, 4 * 2 ^ 21, 10 * 2 ^ 21, 0, 6, 0⟩
  zonesSize := 2
  zoneDmaIndex := 0
  zoneNormalIndex := 1
  zoneUnmapedIndex := 1

theorem twoZones_initial : Initial ⟨twoZones, []⟩ where
  layout := by
    constructor
    · decide
    · intro i hi p hLow hHigh
      have hFrame : frame (twoZones.pages p).phyAddress = p := Nat.mul_div_cancel p (by decide)
      refine ⟨?_, hFrame⟩
      have hTwo : i = 0 ∨ i = 1 := by
        change i < 2 at hi
        omega
      obtain rfl | rfl := hTwo
      · change p < 4 at hHigh
        exact if_pos hHigh
      · change 4 ≤ p at hLow
        exact if_neg (by omega)
    · decide
    · decide
    · decide
  accounting := by
    constructor
    · decide +kernel
    · decide
  live := rfl

/-- Page 1 is freed between two used ones, so a block of two pages from zone 0 is the last page of
zone 0 and the first of zone 1, and zone 0 is charged for both. -/
theorem block_over_end : ¬ ∀ s, Reach Initial Step s → Accounting s.m := by
  intro h
  have hRun : (runList step ⟨twoZones, []⟩
      [.allocPages 1 1, .allocPages 1 1, .freePages 1 1, .allocPages 1 2]).map
      (fun s => ((s.m.zones 0).pageFreeCount, (clearPages s.m 0).card, s.m.zonesSize)) =
      some (0, 1, 2) := by decide +kernel
  obtain ⟨s, hs, hEq⟩ := Option.map_eq_some_iff.mp hRun
  obtain ⟨hFree, hRest⟩ := Prod.mk.inj hEq
  obtain ⟨hCard, hSize⟩ := Prod.mk.inj hRest
  have hReach : Reach Initial Step s :=
    ⟨_, _, twoZones_initial, run_of_runList (fun _ _ _ hNext => hNext) hs⟩
  have hAccount := (h s hReach).free 0 (by omega)
  rw [hFree, hCard] at hAccount
  cases hAccount

/-- Two pages from zone 0 while it is free. -/
theorem accounting_iff_good_twoZones :
    ∃ t, Step ⟨twoZones, []⟩ (.allocPages 1 2) t ∧ Accounting t.m := by
  have hGood : Good ⟨twoZones, []⟩ (.allocPages 1 2) := by
    intro before i after p hSplit _ _ hRun
    have hOnly : selected twoZones 1 = [0] := by decide
    dsimp only at hSplit hRun
    rw [hOnly] at hSplit
    have hZone : i = 0 := by
      have hMem : i ∈ [0] := by
        rw [hSplit]
        exact List.mem_append_right _ List.mem_cons_self
      exact List.mem_singleton.mp hMem
    subst hZone
    have hFirst : p ≤ 1 := by
      by_contra hLate
      exact hRun.first 1 (by decide) (not_le.mp hLate) (by decide +kernel)
    change p + 2 ≤ 4
    omega
  have hStep : Step ⟨twoZones, []⟩ (.allocPages 1 2)
      ⟨(allocPages twoZones 1 2).2, ((allocPages twoZones 1 2).1.map fun p => (p, 2)).toList ++ []⟩ := by
    unfold Step step
    exact if_pos ⟨by decide, by decide⟩
  exact ⟨_, hStep,
    (((accounting_iff_good _ (Reach.start twoZones_initial)).2 _ _ hStep).mpr hGood).2⟩

end KalinoteOS.Memory.Pages
