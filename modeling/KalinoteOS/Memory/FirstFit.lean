import Mathlib.Order.Bounds.Defs
import KalinoteOS.Memory.PageRun

/-! # First fit in one zone

With all pages outside the zone marked used the scan cannot leave it, and what it finds is the
first run of the whole bitmap.
-/
namespace KalinoteOS.Memory.Pages
open Lib
set_option autoImplicit false

/-- The first pages of the runs of `number` clear bits in a bitmap of `words` words. -/
def runs (w : Words) (words number : Nat) : Set Nat :=
  {p | p + number ≤ 64 * words ∧ ClearRun w p number}

/-- Zone `i` is the only one of the selected zones with free pages, and the only one with clear
bits in a bitmap of `words` words. -/
structure SingleZone (m : Management) (zoneSelect : Int) (i words : Nat) : Prop where
  mem : i ∈ selected m zoneSelect
  only : ∀ k ∈ selected m zoneSelect, k ≠ i → (m.zones k).pageFreeCount ≤ 0
  last : (m.zones i).stop ≤ 64 * (words - 1)
  outside : ∀ q < 64 * words, ¬ ((m.zones i).start ≤ q ∧ q < (m.zones i).stop) →
    m.bitsMap.used q = true
  free : (m.zones i).pageFreeCount = (m.bitsMap.clearBits 0 (64 * words)).card
  frames : ∀ p, (m.zones i).start ≤ p → p < (m.zones i).stop → frame (m.pages p).phyAddress = p

section
variable {m : Management} {zoneSelect : Int} {i words number : Nat}
  (h : SingleZone m zoneSelect i words)
include h

/-! ## The runs of the bitmap -/

theorem SingleZone.inside {q : Nat} (hLt : q < 64 * words) (hClear : m.bitsMap.used q = false) :
    (m.zones i).start ≤ q ∧ q < (m.zones i).stop := by
  by_contra hOut
  have hUsed := h.outside q hLt hOut
  rw [hClear] at hUsed
  cases hUsed

theorem SingleZone.run_inside (hPos : 1 ≤ number) {p : Nat}
    (hRun : p ∈ runs m.bitsMap words number) :
    (m.zones i).start ≤ p ∧ p + number ≤ (m.zones i).stop := by
  obtain ⟨hLe, hClear⟩ := hRun
  have hFirst := h.inside (by omega) (hClear 0 (by omega))
  have hLast := h.inside (by omega) (hClear (number - 1) (by omega))
  omega

/-- A run pays for itself: its pages are among the free ones. -/
theorem SingleZone.run_free {p : Nat} (hRun : p ∈ runs m.bitsMap words number) :
    (number : Int) ≤ (m.zones i).pageFreeCount := by
  obtain ⟨hLe, hClear⟩ := hRun
  have hSub : Finset.Ico p (p + number) ⊆ m.bitsMap.clearBits 0 (64 * words) := by
    intro q hq
    rw [Finset.mem_Ico] at hq
    rw [Words.mem_clearBits]
    have hBit := hClear (q - p) (by omega)
    rw [Nat.add_sub_cancel' hq.1] at hBit
    exact ⟨by omega, hBit⟩
  have hCard := Finset.card_le_card hSub
  rw [Nat.card_Ico, Nat.add_sub_cancel_left] at hCard
  rw [h.free]
  exact Int.ofNat_le.mpr hCard

theorem SingleZone.nonempty (hPos : 1 ≤ number)
    (hFree : (number : Int) ≤ (m.zones i).pageFreeCount) :
    (m.zones i).start < (m.zones i).stop := by
  have hCount := h.free
  have hCard : 0 < (m.bitsMap.clearBits 0 (64 * words)).card := by omega
  obtain ⟨q, hq⟩ := Finset.card_pos.mp hCard
  obtain ⟨⟨-, hLt⟩, hClear⟩ := Words.mem_clearBits.mp hq
  have hInside := h.inside hLt hClear
  omega

/-- The windows of the scan lie in the bitmap: the word of the last page is not the last one. -/
theorem SingleZone.isLeast_of_firstRun (hPos : 1 ≤ number) (hLt : number < 64) {p : Nat}
    (hFirst : FirstRun m.bitsMap (m.zones i).start (m.zones i).stop number p) :
    IsLeast (runs m.bitsMap words number) p := by
  constructor
  · have hLast := h.last
    have hHigh := hFirst.high
    unfold scanEnd at hHigh
    exact ⟨by omega, hFirst.clear⟩
  · intro q hq
    have hLow := (h.run_inside hPos hq).1
    by_contra hBefore
    exact hFirst.first q hLow (not_le.mp hBefore) hq.2

theorem SingleZone.firstRun_of_isLeast (hPos : 1 ≤ number) {p : Nat}
    (hLeast : IsLeast (runs m.bitsMap words number) p) :
    FirstRun m.bitsMap (m.zones i).start (m.zones i).stop number p := by
  obtain ⟨hRun, hBound⟩ := hLeast
  obtain ⟨hLow, hHigh⟩ := h.run_inside hPos hRun
  constructor
  · exact hLow
  · unfold scanEnd
    omega
  · exact hRun.2
  · intro q _ hBefore hClear
    have hIn : q ∈ runs m.bitsMap words number := ⟨by have := hRun.1; omega, hClear⟩
    exact absurd (hBound hIn) (not_le.mpr hBefore)

/-! ## The search -/

theorem SingleZone.searchZone_some (hPos : 1 ≤ number) (hLt : number < 64) {k p : Nat}
    (hMem : k ∈ selected m zoneSelect) (hSearch : searchZone m number k = some p) :
    k = i ∧ IsLeast (runs m.bitsMap words number) p := by
  obtain ⟨hFree, hFirst⟩ := searchZone_eq_some hLt hSearch
  have hZone : k = i := by
    by_contra hNe
    have hNone := h.only k hMem hNe
    omega
  subst hZone
  exact ⟨rfl, h.isLeast_of_firstRun hPos hLt hFirst⟩

theorem SingleZone.searchZone_none (hPos : 1 ≤ number) (hLt : number < 64)
    (hSearch : searchZone m number i = none) (p : Nat) : p ∉ runs m.bitsMap words number := by
  intro hRun
  obtain ⟨q, hq, hMin⟩ := Nat.lt_wfRel.wf.has_min (runs m.bitsMap words number) ⟨p, hRun⟩
  have hLeast : IsLeast (runs m.bitsMap words number) q :=
    ⟨hq, fun r hr => not_lt.mp (hMin r hr)⟩
  apply searchZone_eq_none hLt (fun hFree => h.nonempty hPos hFree) hSearch
  exact ⟨h.run_free hRun, q, h.firstRun_of_isLeast hPos hLeast⟩

/-- What the call returns: no page when there is no run, else the first one. -/
theorem SingleZone.allocPages_cases (hPos : 1 ≤ number) (hMost : number ≤ 63) :
    (allocPages m zoneSelect number = (none, m) ∧ ∀ p, p ∉ runs m.bitsMap words number) ∨
    ∃ p attr, allocPages m zoneSelect number = (some p, takePages m i attr p number) ∧
      IsLeast (runs m.bitsMap words number) p := by
  have hValid : ¬ (64 ≤ (number : Int) ∨ (number : Int) ≤ 0) := by omega
  have hLt : number < 64 := by omega
  have hMem := h.mem
  have hOnly := fun k p hk => h.searchZone_some hPos hLt (k := k) (p := p) hk
  unfold selected at hMem hOnly
  unfold allocPages
  rw [if_neg hValid, Int.toNat_natCast]
  cases hSelection : selection m zoneSelect with
  | none =>
    rw [hSelection] at hMem
    cases hMem
  | some choice =>
    obtain ⟨zoneStart, zoneEnd, attr⟩ := choice
    rw [hSelection] at hMem hOnly
    dsimp only at hMem hOnly ⊢
    cases hSearch : searchZones m number (zoneRange zoneStart zoneEnd) with
    | none =>
      apply Or.inl
      exact ⟨rfl, h.searchZone_none hPos hLt (searchZones_none hSearch i hMem)⟩
    | some found =>
      obtain ⟨k, p⟩ := found
      obtain ⟨before, after, hSplit, -, hHere⟩ := searchZones_some hSearch
      have hIn : k ∈ zoneRange zoneStart zoneEnd := by
        rw [hSplit]
        exact List.mem_append_right _ List.mem_cons_self
      obtain ⟨rfl, hLeast⟩ := hOnly k p hIn hHere
      apply Or.inr
      exact ⟨p, attr, rfl, hLeast⟩

/-! ## What is charged -/

/-- The bits are found through the address of each page. -/
theorem SingleZone.takePages_used {page n : Nat} (hLow : (m.zones i).start ≤ page)
    (hHigh : page + n ≤ (m.zones i).stop) (attr : BitVec 64) (q : Nat) :
    (takePages m i attr page n).bitsMap.used q =
      (m.bitsMap.used q || decide (page ≤ q ∧ q < page + n)) := by
  induction n with
  | zero =>
    have hNot : ¬ (page ≤ q ∧ q < page + 0) := by omega
    rw [takePages, decide_eq_false hNot, Bool.or_false]
  | succ n ih =>
    have hFrame : frame ((takePages m i attr page n).pages (page + n)).phyAddress = page + n := by
      rw [(takePages_same m i attr page n).phyAddress]
      exact h.frames (page + n) (by omega) (by omega)
    have hSplit : (page ≤ q ∧ q < page + (n + 1)) ↔ (page ≤ q ∧ q < page + n) ∨ q = page + n := by
      omega
    rw [takePages]
    unfold takePage
    dsimp only
    rw [hFrame, Words.used_setBit, ih (by omega), Bool.or_assoc, ← Bool.decide_or,
      decide_eq_decide.mpr hSplit]

end

/-- First fit, and complete: the first run of clear bits is taken, and only when there is none
does the call fail. -/
theorem allocPages_firstFit {m : Management} {zoneSelect : Int} {i words number : Nat}
    (h : SingleZone m zoneSelect i words) (hPos : 1 ≤ number) (hMost : number ≤ 63) :
    (∀ p, (allocPages m zoneSelect number).1 = some p ↔
      IsLeast {p | p + number ≤ 64 * words ∧ ClearRun m.bitsMap p number} p) ∧
    (∀ p, (allocPages m zoneSelect number).1 = some p →
      (∀ q, (allocPages m zoneSelect number).2.bitsMap.used q =
        (m.bitsMap.used q || decide (p ≤ q ∧ q < p + number))) ∧
      Charged m (allocPages m zoneSelect number).2 i number) ∧
    ((allocPages m zoneSelect number).1 = none ↔
      ¬ ∃ p, p + number ≤ 64 * words ∧ ClearRun m.bitsMap p number) ∧
    ((allocPages m zoneSelect number).1 = none → (allocPages m zoneSelect number).2 = m) := by
  obtain ⟨hEq, hNone⟩ | ⟨p, attr, hEq, hLeast⟩ := h.allocPages_cases hPos hMost
  · rw [hEq]
    refine ⟨fun p => ?_, fun p hSome => ?_, ?_, fun _ => rfl⟩
    · constructor
      · intro hSome
        cases hSome
      · intro hLeast
        exact absurd hLeast.1 (hNone p)
    · cases hSome
    · constructor
      · rintro - ⟨p, hRun⟩
        exact hNone p hRun
      · intro _
        rfl
  · rw [hEq]
    refine ⟨fun q => ?_, fun q hSome => ?_, ?_, fun hNull => ?_⟩
    · constructor
      · intro hSome
        cases hSome
        exact hLeast
      · intro hOther
        exact congrArg some (hLeast.unique hOther)
    · cases hSome
      obtain ⟨hLow, hHigh⟩ := h.run_inside hPos hLeast.1
      exact ⟨h.takePages_used hLow hHigh attr, takePages_charged m i attr p number⟩
    · constructor
      · intro hNull
        cases hNull
      · intro hNone
        exact absurd ⟨p, hLeast.1⟩ hNone
    · cases hNull

/-- Pages 60 to 69, of which page 61 is used: a run across the border of two words. -/
def acrossWords : Management where
  bitsMap k :=
    if k = 0 then 0x2fffffffffffffff#64
    else if k = 1 then 0xffffffffffffffc0#64
    else BitVec.allOnes 64
  pages p := ⟨0, p * 2 ^ 21, 0, 0⟩
  zones _ := ⟨10, 60 * 2 ^ 21, 70 * 2 ^ 21, 1, 9, 0⟩
  zonesSize := 1
  zoneDmaIndex := 0
  zoneNormalIndex := 0
  zoneUnmapedIndex := 0

theorem acrossWords_single : SingleZone acrossWords zoneNormal 0 3 where
  mem := by decide
  only := by decide
  last := by decide
  outside := by decide +kernel
  free := by decide +kernel
  frames p _ _ := Nat.mul_div_cancel p (by decide)

theorem allocPages_firstFit_acrossWords : (allocPages acrossWords zoneNormal 4).1 = some 62 := by
  apply ((allocPages_firstFit acrossWords_single (by decide : 1 ≤ 4) (by decide)).1 62).mpr
  constructor
  · constructor
    · decide
    · decide +kernel
  · rintro p ⟨-, hClear⟩
    by_contra hBefore
    have hNone : ∀ q < 62, ¬ ClearRun acrossWords.bitsMap q 4 := by decide +kernel
    exact hNone p (not_le.mp hBefore) hClear

end KalinoteOS.Memory.Pages
