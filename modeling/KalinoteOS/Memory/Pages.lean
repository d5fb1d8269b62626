import KalinoteOS.Lib.Run
import KalinoteOS.Lib.Bitmap

/-! # The page allocator

`alloc_pages` looks for clear bits through a window of 64 pages that may run past the end of the
zone it scans.
-/
namespace KalinoteOS.Memory.Pages
open Lib
set_option autoImplicit false

/-- `struct Page`, as far as the allocator uses it. `zoneStruct` is an index into `zones_struct`. -/
structure Page where
  zoneStruct : Nat
  phyAddress : Nat
  attr : BitVec 64
  referenceCount : Int
  deriving DecidableEq, Repr

structure Zone where
  pagesLength : Nat
  zoneStartAddress : Nat
  zoneEndAddress : Nat
  pageUsingCount : Int
  pageFreeCount : Int
  totalPagesLink : Int
  deriving DecidableEq, Repr

/-- `memory_management_struct` and the zone indices. -/
structure Management where
  bitsMap : Words
  pages : Nat → Page
  zones : Nat → Zone
  zonesSize : Nat
  zoneDmaIndex : Nat
  zoneNormalIndex : Nat
  zoneUnmapedIndex : Nat

/-- `addr >> PAGE_2M_SHIFT`. -/
def frame (address : Nat) : Nat := address / 2 ^ 21

def Zone.start (z : Zone) : Nat := frame z.zoneStartAddress
def Zone.stop (z : Zone) : Nat := frame z.zoneEndAddress

def pgPTableMaped : BitVec 64 := 1#64

/-- The values of `zone_select`. -/
def zoneDma : Int := 1
def zoneNormal : Int := 2
def zoneUnmaped : Int := 4

/-- The `switch` of `alloc_pages`: first zone, last zone, attribute. -/
def selection (m : Management) (zoneSelect : Int) : Option (Nat × Int × BitVec 64) :=
  if zoneSelect = zoneDma then some (0, m.zoneDmaIndex, pgPTableMaped)
  else if zoneSelect = zoneNormal then some (m.zoneDmaIndex, m.zoneNormalIndex, pgPTableMaped)
  else if zoneSelect = zoneUnmaped then some (m.zoneUnmapedIndex, (m.zonesSize : Int) - 1, 0)
  else none

/-- `for(i = zone_start; i <= zone_end; i++)`. -/
def zoneRange (zoneStart : Nat) (zoneEnd : Int) : List Nat :=
  List.range' zoneStart (zoneEnd + 1 - zoneStart).toNat

/-- The 64 bits from bit `k` of the word of page `j` on. -/
def window (w : Words) (j k : Nat) : BitVec 64 :=
  if k ≠ 0 then (w (j / 64) >>> k) ||| (w (j / 64 + 1) <<< (64 - k)) else w (j / 64)

/-- The loop over `k`. -/
def scanWord (w : Words) (number j : Nat) : Nat → Nat → Option Nat
  | 0, _ => none
  | fuel + 1, k =>
    if k < 64 then
      if window w j k &&& (1#64 <<< number - 1) = 0 then some k else scanWord w number j fuel (k + 1)
    else none

/-- The loop over `j`: the page found. -/
def scanZone (w : Words) (number tmp stop : Nat) : Nat → Nat → Option Nat
  | 0, _ => none
  | fuel + 1, j =>
    if j < stop then
      match scanWord w number j (64 - j % 64) (j % 64) with
      | some k => some (j + k - j % 64)
      | none => scanZone w number tmp stop fuel (j + if j % 64 ≠ 0 then tmp else 64)
    else none

/-- What `alloc_pages` finds in zone `i`. -/
def searchZone (m : Management) (number i : Nat) : Option Nat :=
  let z := m.zones i
  if z.pageFreeCount < number then none
  else scanZone m.bitsMap number (64 - z.start % 64) z.stop (z.stop - z.start) z.start

def searchZones (m : Management) (number : Nat) : List Nat → Option (Nat × Nat)
  | [] => none
  | i :: rest =>
    match searchZone m number i with
    | some page => some (i, page)
    | none => searchZones m number rest

/-- One page found while zone `i` is scanned. -/
def takePage (m : Management) (i : Nat) (attr : BitVec 64) (p : Nat) : Management :=
  { m with
    bitsMap := m.bitsMap.setBit (frame (m.pages p).phyAddress)
    zones := Function.update m.zones i { m.zones i with
      pageUsingCount := (m.zones i).pageUsingCount + 1
      pageFreeCount := (m.zones i).pageFreeCount - 1 }
    pages := Function.update m.pages p { m.pages p with attr := attr } }

def takePages (m : Management) (i : Nat) (attr : BitVec 64) (page : Nat) : Nat → Management
  | 0 => m
  | l + 1 => takePage (takePages m i attr page l) i attr (page + l)

/-- `alloc_pages`: the index of the first page, `none` for `NULL`. -/
def allocPages (m : Management) (zoneSelect number : Int) : Option Nat × Management :=
  if 64 ≤ number ∨ number ≤ 0 then (none, m)
  else
    match selection m zoneSelect with
    | none => (none, m)
    | some (zoneStart, zoneEnd, attr) =>
      match searchZones m number.toNat (zoneRange zoneStart zoneEnd) with
      | none => (none, m)
      | some (i, page) => (some page, takePages m i attr page number.toNat)

def freePage (m : Management) (p : Nat) : Management :=
  let i := (m.pages p).zoneStruct
  { m with
    bitsMap := m.bitsMap.clearBit (frame (m.pages p).phyAddress)
    zones := Function.update m.zones i { m.zones i with
      pageUsingCount := (m.zones i).pageUsingCount - 1
      pageFreeCount := (m.zones i).pageFreeCount + 1 }
    pages := Function.update m.pages p { m.pages p with attr := 0 } }

def freeLoop (m : Management) (page : Nat) : Nat → Management
  | 0 => m
  | l + 1 => freePage (freeLoop m page l) (page + l)

def freePages (m : Management) (page : Option Nat) (number : Int) : Management :=
  match page with
  | none => m
  | some page => if 64 ≤ number ∨ number ≤ 0 then m else freeLoop m page number.toNat

/-! ## What the scan finds -/

/-- `number` clear bits from page `p` on. -/
def ClearRun (w : Words) (p number : Nat) : Prop := ∀ l < number, w.used (p + l) = false

instance (w : Words) (p number : Nat) : Decidable (ClearRun w p number) :=
  inferInstanceAs (Decidable (∀ l < number, _))

theorem getLsbD_mask {number : Nat} (hLt : number < 64) (l : Nat) :
    (1#64 <<< number - 1).getLsbD l = decide (l < number) := by
  have hMask : 1#64 <<< number - 1 = BitVec.ofNat 64 (2 ^ number - 1) := by
    apply BitVec.eq_of_toNat_eq
    have hPow : 2 ^ number < 2 ^ 64 := Nat.pow_lt_pow_right (by decide) hLt
    have hPos : 0 < 2 ^ number := Nat.two_pow_pos number
    have hOne : (1 : BitVec 64).toNat = 1 := rfl
    rw [BitVec.toNat_sub, BitVec.toNat_shiftLeft, BitVec.toNat_ofNat, BitVec.toNat_ofNat, hOne,
      Nat.shiftLeft_eq]
    omega
  rw [hMask, BitVec.getLsbD_ofNat, Nat.testBit_two_pow_sub_one]
  by_cases h : l < number
  · simp only [h, decide_true, Bool.and_true, decide_eq_true_eq]
    omega
  · simp only [h, decide_false, Bool.and_false]

theorem getLsbD_window (w : Words) (j : Nat) {k l : Nat} (hk : k < 64) (hl : l < 64) :
    (window w j k).getLsbD l = w.used (64 * (j / 64) + k + l) := by
  unfold Words.used
  by_cases hNext : k + l < 64
  · have hWord : (64 * (j / 64) + k + l) / 64 = j / 64 := by omega
    have hBit : (64 * (j / 64) + k + l) % 64 = k + l := by omega
    rw [hWord, hBit]
    unfold window
    split
    · have hLow : l < 64 - k := by omega
      rw [BitVec.getLsbD_or, BitVec.getLsbD_ushiftRight, BitVec.getLsbD_shiftLeft,
        decide_eq_true hLow]
      simp
    · next hZero =>
      have hk0 : k = 0 := not_not.mp hZero
      rw [hk0, Nat.zero_add]
  · have hWord : (64 * (j / 64) + k + l) / 64 = j / 64 + 1 := by omega
    have hBit : (64 * (j / 64) + k + l) % 64 = l - (64 - k) := by omega
    have hNe : k ≠ 0 := by omega
    have hHigh : ¬ l < 64 - k := by omega
    have hOut : (w (j / 64)).getLsbD (k + l) = false := BitVec.getLsbD_of_ge _ _ (by omega)
    rw [hWord, hBit, window, if_pos hNe, BitVec.getLsbD_or, BitVec.getLsbD_ushiftRight,
      BitVec.getLsbD_shiftLeft, hOut, decide_eq_true hl, decide_eq_false hHigh]
    simp

/-- The test of the scan. -/
theorem window_eq_zero (w : Words) (j : Nat) {k number : Nat} (hk : k < 64) (hLt : number < 64) :
    window w j k &&& (1#64 <<< number - 1) = 0 ↔ ClearRun w (64 * (j / 64) + k) number := by
  constructor
  · intro h l hl
    have hBit := congrArg (fun v => v.getLsbD l) h
    simp only [BitVec.getLsbD_and, getLsbD_mask hLt, decide_eq_true hl, Bool.and_true] at hBit
    rw [← getLsbD_window w j hk (by omega), hBit]
    exact BitVec.getLsbD_zero
  · intro h
    apply BitVec.eq_of_getLsbD_eq
    intro l hl
    rw [BitVec.getLsbD_and, getLsbD_mask hLt, getLsbD_window w j hk hl]
    by_cases hIn : l < number
    · rw [h l hIn]
      simp
    · simp [hIn]

section
variable {w : Words} {number : Nat} (hLt : number < 64)
include hLt

theorem scanWord_some {j fuel k r : Nat} (h : scanWord w number j fuel k = some r) :
    k ≤ r ∧ r < 64 ∧ ClearRun w (64 * (j / 64) + r) number ∧
      ∀ q, k ≤ q → q < r → ¬ ClearRun w (64 * (j / 64) + q) number := by
  induction fuel generalizing k with
  | zero => cases h
  | succ fuel ih =>
    rw [scanWord] at h
    split at h
    · next hk =>
      split at h
      · next hTest =>
        cases h
        exact ⟨le_refl _, hk, (window_eq_zero w j hk hLt).mp hTest, fun q hLow hHigh => by omega⟩
      · next hTest =>
        obtain ⟨hLow, hHigh, hRun, hBefore⟩ := ih h
        refine ⟨by omega, hHigh, hRun, fun q hq hqr => ?_⟩
        obtain rfl | hMore := Nat.eq_or_lt_of_le hq
        · rwa [← window_eq_zero w j hk hLt]
        · exact hBefore q hMore hqr
    · cases h

theorem scanWord_none {j fuel k : Nat} (hFuel : 64 ≤ k + fuel)
    (h : scanWord w number j fuel k = none) :
    ∀ q, k ≤ q → q < 64 → ¬ ClearRun w (64 * (j / 64) + q) number := by
  induction fuel generalizing k with
  | zero =>
    intro q hLow hHigh
    omega
  | succ fuel ih =>
    intro q hLow hHigh
    have hk : k < 64 := by omega
    rw [scanWord, if_pos hk] at h
    split at h
    · cases h
    · next hTest =>
      obtain rfl | hMore := Nat.eq_or_lt_of_le hLow
      · rwa [← window_eq_zero w j hk hLt]
      · exact ih (by omega) h q hMore hHigh

/-- No run starts in what the loop over `k` went through: page `j` and the rest of its word. -/
theorem scanWord_rest {j : Nat} (h : scanWord w number j (64 - j % 64) (j % 64) = none) :
    ∀ q, j ≤ q → q < 64 * (j / 64) + 64 → ¬ ClearRun w q number := by
  intro q hLow hHigh
  have hSame : 64 * (j / 64) + (q - 64 * (j / 64)) = q := by omega
  rw [← hSame]
  exact scanWord_none hLt (by omega) h _ (by omega) (by omega)

omit hLt in
/-- The loop over `j` goes on with the next word, from the start of the zone or of a word. -/
theorem nextWord_eq {start j : Nat} (hStart : j = start ∨ j % 64 = 0) :
    (j + if j % 64 ≠ 0 then 64 - start % 64 else 64) = 64 * (j / 64) + 64 := by
  split
  · next hNe =>
    have hEq : j = start := hStart.resolve_right hNe
    rw [← hEq]
    omega
  · omega

/-- The end of the scan: the end of the word of the last page. -/
def scanEnd (stop : Nat) : Nat := (stop + 63) / 64 * 64

/-- The scan goes through the pages one by one, from `j` to the end of a word. -/
theorem scanZone_some {start stop fuel j p : Nat} (hStart : j = start ∨ j % 64 = 0)
    (h : scanZone w number (64 - start % 64) stop fuel j = some p) :
    j ≤ p ∧ p < scanEnd stop ∧ ClearRun w p number ∧
      ∀ q, j ≤ q → q < p → ¬ ClearRun w q number := by
  induction fuel generalizing j with
  | zero => cases h
  | succ fuel ih =>
    rw [scanZone] at h
    split at h
    · next hj =>
      have hWord : 64 * (j / 64) + j % 64 = j := Nat.div_add_mod j 64
      split at h
      · next k hScan =>
        obtain ⟨hLow, hHigh, hRun, hBefore⟩ := scanWord_some hLt hScan
        cases h
        have hPage : j + k - j % 64 = 64 * (j / 64) + k := by omega
        rw [hPage]
        refine ⟨by omega, by unfold scanEnd; omega, hRun, fun q hq hqp => ?_⟩
        have hSame : 64 * (j / 64) + (q - 64 * (j / 64)) = q := by omega
        rw [← hSame]
        exact hBefore _ (by omega) (by omega)
      · next hScan =>
        rw [nextWord_eq hStart] at h
        obtain ⟨hLow, hHigh, hRun, hBefore⟩ := ih (Or.inr (by omega)) h
        refine ⟨by omega, hHigh, hRun, fun q hq hqp => ?_⟩
        obtain hIn | hOut := Nat.lt_or_ge q (64 * (j / 64) + 64)
        · exact scanWord_rest hLt hScan q hq hIn
        · exact hBefore q hOut hqp
    · cases h

theorem scanZone_none {start stop fuel j : Nat} (hStart : (j = start ∧ j < stop) ∨ j % 64 = 0)
    (hFuel : stop ≤ j + fuel) (h : scanZone w number (64 - start % 64) stop fuel j = none) :
    ∀ q, j ≤ q → q < scanEnd stop → ¬ ClearRun w q number := by
  induction fuel generalizing j with
  | zero =>
    intro q hLow hHigh
    unfold scanEnd at hHigh
    omega
  | succ fuel ih =>
    intro q hLow hHigh
    rw [scanZone] at h
    split at h
    · next hj =>
      split at h
      · cases h
      · next hScan =>
        rw [nextWord_eq (hStart.imp_left And.left)] at h
        obtain hIn | hOut := Nat.lt_or_ge q (64 * (j / 64) + 64)
        · exact scanWord_rest hLt hScan q hLow hIn
        · exact ih (Or.inr (by omega)) (by omega) h q hOut hHigh
    · next hj =>
      unfold scanEnd at hHigh
      omega

end

/-- The first run of clear bits that the scan of a zone meets; it may end behind the zone. -/
structure FirstRun (w : Words) (start stop number p : Nat) : Prop where
  low : start ≤ p
  high : p < scanEnd stop
  clear : ClearRun w p number
  first : ∀ q, start ≤ q → q < p → ¬ ClearRun w q number

theorem FirstRun.unique {w : Words} {start stop number p q : Nat}
    (hp : FirstRun w start stop number p) (hq : FirstRun w start stop number q) : p = q := by
  obtain hLt | hEq | hGt := Nat.lt_trichotomy p q
  · exact absurd hp.clear (hq.first p hp.low hLt)
  · exact hEq
  · exact absurd hq.clear (hp.first q hq.low hGt)

/-- The search of a zone finds its first run. -/
theorem searchZone_eq_some {m : Management} {number i p : Nat} (hLt : number < 64) :
    searchZone m number i = some p → ((number : Int) ≤ (m.zones i).pageFreeCount ∧
      FirstRun m.bitsMap (m.zones i).start (m.zones i).stop number p) := by
  intro h
  unfold searchZone at h
  dsimp only at h
  split at h
  · cases h
  · next hFree =>
    obtain ⟨hLow, hHigh, hRun, hFirst⟩ := scanZone_some hLt (Or.inl rfl) h
    exact ⟨not_lt.mp hFree, hLow, hHigh, hRun, hFirst⟩

theorem searchZone_eq_none {m : Management} {number i : Nat} (hLt : number < 64)
    (hSome : (number : Int) ≤ (m.zones i).pageFreeCount → (m.zones i).start < (m.zones i).stop)
    (h : searchZone m number i = none) :
    ¬ ((number : Int) ≤ (m.zones i).pageFreeCount ∧
      ∃ p, FirstRun m.bitsMap (m.zones i).start (m.zones i).stop number p) := by
  rintro ⟨hFree, p, hRun⟩
  unfold searchZone at h
  dsimp only at h
  rw [if_neg (not_lt.mpr hFree)] at h
  exact scanZone_none hLt (Or.inl ⟨rfl, hSome hFree⟩) (by omega) h p hRun.low hRun.high hRun.clear

end KalinoteOS.Memory.Pages
