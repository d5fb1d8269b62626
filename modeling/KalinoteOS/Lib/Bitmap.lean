import Mathlib.Data.Finset.Card
import Mathlib.Data.Finset.Range
import Mathlib.Order.Interval.Finset.Nat

/-! # Bitmaps in 64-bit words

Bit `i` of the map is bit `i % 64` of the word `i / 64`.
-/
namespace KalinoteOS.Lib
set_option autoImplicit false

abbrev Words := Nat → BitVec 64

namespace Words

def used (w : Words) (i : Nat) : Bool := (w (i / 64)).getLsbD (i % 64)

/-- `*(map + (i >> 6)) |= 1UL << i % 64`. -/
def setBit (w : Words) (i : Nat) : Words :=
  Function.update w (i / 64) (w (i / 64) ||| 1#64 <<< (i % 64))

/-- `*(map + (i >> 6)) &= ~(1UL << i % 64)`. -/
def clearBit (w : Words) (i : Nat) : Words :=
  Function.update w (i / 64) (w (i / 64) &&& ~~~(1#64 <<< (i % 64)))

/-- `*(map + (i >> 6)) ^= 1UL << i % 64`. -/
def flipBit (w : Words) (i : Nat) : Words :=
  Function.update w (i / 64) (w (i / 64) ^^^ 1#64 <<< (i % 64))

/-- The test `*(map + (i >> 6)) & (1UL << (i % 64))`. -/
def testBit (w : Words) (i : Nat) : BitVec 64 := w (i / 64) &&& 1#64 <<< (i % 64)

/-! ## Single bits -/

theorem getLsbD_shift_one {k : Nat} (hk : k < 64) (j : Nat) :
    (1#64 <<< k).getLsbD j = decide (j = k) := by
  rw [BitVec.getLsbD_shiftLeft, BitVec.getLsbD_one]
  by_cases h : j = k
  · subst h
    simp [hk]
  · simp only [h, decide_false, Bool.and_eq_false_iff, decide_eq_false_iff_not, Bool.not_eq_false']
    simp only [decide_eq_true_eq]
    omega

theorem testBit_eq_zero (w : Words) (i : Nat) : w.testBit i = 0 ↔ w.used i = false := by
  have hLt : i % 64 < 64 := Nat.mod_lt i (by decide)
  unfold testBit used
  constructor
  · intro h
    have hBit := congrArg (fun v => v.getLsbD (i % 64)) h
    simpa [getLsbD_shift_one hLt] using hBit
  · intro h
    apply BitVec.eq_of_getLsbD_eq
    intro j hj
    rw [BitVec.getLsbD_and, getLsbD_shift_one hLt]
    by_cases hEq : j = i % 64
    · subst hEq
      simp [h]
    · simp [hEq]

theorem index_ne {i j : Nat} (h : j ≠ i) (hWord : j / 64 = i / 64) : j % 64 ≠ i % 64 := by
  omega

@[simp] theorem used_setBit (w : Words) (i j : Nat) :
    (w.setBit i).used j = (w.used j || decide (j = i)) := by
  have hLt : i % 64 < 64 := Nat.mod_lt i (by decide)
  unfold setBit used
  by_cases hWord : j / 64 = i / 64
  · rw [hWord, Function.update_self, BitVec.getLsbD_or, getLsbD_shift_one hLt]
    by_cases h : j = i
    · simp [h]
    · simp [h, index_ne h hWord]
  · have hNe : j ≠ i := fun h => hWord (by rw [h])
    rw [Function.update_of_ne hWord]
    simp [hNe]

@[simp] theorem used_clearBit (w : Words) (i j : Nat) :
    (w.clearBit i).used j = (w.used j && decide (j ≠ i)) := by
  have hLt : i % 64 < 64 := Nat.mod_lt i (by decide)
  unfold clearBit used
  by_cases hWord : j / 64 = i / 64
  · have hLtJ : j % 64 < 64 := Nat.mod_lt j (by decide)
    rw [hWord, Function.update_self, BitVec.getLsbD_and, BitVec.getLsbD_not, getLsbD_shift_one hLt]
    by_cases h : j = i
    · simp [h]
    · simp [h, index_ne h hWord, hLtJ]
  · have hNe : j ≠ i := fun h => hWord (by rw [h])
    rw [Function.update_of_ne hWord]
    simp [hNe]

theorem clearBit_setBit {w : Words} {i : Nat} (hClear : w.used i = false) :
    (w.setBit i).clearBit i = w := by
  have hLt : i % 64 < 64 := Nat.mod_lt i (by decide)
  have hWord : (w (i / 64) ||| 1#64 <<< (i % 64)) &&& ~~~(1#64 <<< (i % 64)) = w (i / 64) := by
    apply BitVec.eq_of_getLsbD_eq
    intro j hj
    rw [BitVec.getLsbD_and, BitVec.getLsbD_or, BitVec.getLsbD_not, getLsbD_shift_one hLt]
    by_cases hEq : j = i % 64
    · unfold used at hClear
      rw [hEq, hClear]
      simp
    · simp [hEq, hj]
  unfold setBit clearBit
  rw [Function.update_self, Function.update_idem, hWord, Function.update_eq_self]

@[simp] theorem used_flipBit (w : Words) (i j : Nat) :
    (w.flipBit i).used j = (w.used j ^^ decide (j = i)) := by
  have hLt : i % 64 < 64 := Nat.mod_lt i (by decide)
  unfold flipBit used
  by_cases hWord : j / 64 = i / 64
  · rw [hWord, Function.update_self, BitVec.getLsbD_xor, getLsbD_shift_one hLt]
    by_cases h : j = i
    · simp [h]
    · simp [h, index_ne h hWord]
  · have hNe : j ≠ i := fun h => hWord (by rw [h])
    rw [Function.update_of_ne hWord]
    simp [hNe]

theorem used_of_allOnes {w : Words} {i : Nat} (h : w (i / 64) = BitVec.allOnes 64) :
    w.used i = true := by
  unfold used
  rw [h, BitVec.getLsbD_allOnes, decide_eq_true (Nat.mod_lt i (by decide))]

/-- `memset(map,0xff,8 * n)`. -/
def fill (w : Words) (n : Nat) : Words := fun k => if k < n then BitVec.allOnes 64 else w k

theorem used_fill {w : Words} {n i : Nat} (h : i < 64 * n) : (w.fill n).used i = true :=
  used_of_allOnes (if_pos (by omega))

/-! ## Loops over the bits -/

/-- `for(i = from;i < from + n;i++)` flips one bit a round. -/
def flipRange (w : Words) (start : Nat) : Nat → Words
  | 0 => w
  | n + 1 => (flipRange w start n).flipBit (start + n)

theorem used_flipRange (w : Words) (start n j : Nat) :
    (w.flipRange start n).used j = (w.used j ^^ decide (start ≤ j ∧ j < start + n)) := by
  induction n with
  | zero =>
    have hNot : ¬ (start ≤ j ∧ j < start + 0) := by omega
    rw [flipRange, decide_eq_false hNot, Bool.xor_false]
  | succ n ih =>
    rw [flipRange, used_flipBit, ih, Bool.xor_assoc]
    congr 1
    by_cases hEq : j = start + n
    · have hNot : ¬ (start ≤ j ∧ j < start + n) := by omega
      have hIn : start ≤ j ∧ j < start + (n + 1) := by omega
      rw [decide_eq_false hNot, decide_eq_true hEq, decide_eq_true hIn]
      rfl
    · have hSame : (start ≤ j ∧ j < start + n) ↔ (start ≤ j ∧ j < start + (n + 1)) := by omega
      rw [decide_eq_false hEq, Bool.xor_false, decide_eq_decide.mpr hSame]

/-- The search for a clear bit below `count` from `j` on; a full word is passed over. -/
def search (w : Words) (count : Nat) : Nat → Nat → Option Nat
  | 0, _ => none
  | fuel + 1, j =>
    if j < count then
      if w (j / 64) = BitVec.allOnes 64 then search w count fuel (j + 64)
      else if w.testBit j = 0 then some j
      else search w count fuel (j + 1)
    else none

/-- The search that looks at every bit. -/
def scan (w : Words) (count : Nat) : Nat → Nat → Option Nat
  | 0, _ => none
  | fuel + 1, j =>
    if j < count then
      if w.testBit j = 0 then some j else scan w count fuel (j + 1)
    else none

theorem search_some {w : Words} {count fuel j k : Nat} (h : w.search count fuel j = some k) :
    k < count ∧ w.used k = false := by
  induction fuel generalizing j with
  | zero => cases h
  | succ fuel ih =>
    rw [search] at h
    split at h
    · next hLt =>
      split at h
      · exact ih h
      · split at h
        · next hTest =>
          cases h
          exact ⟨hLt, (testBit_eq_zero w _).mp hTest⟩
        · exact ih h
    · cases h

/-- A full word is met at its first bit, so nothing clear is passed over. -/
theorem search_finds {w : Words} {count fuel j k : Nat} (hFuel : count ≤ j + fuel)
    (hStart : j % 64 = 0 ∨ w (j / 64) ≠ BitVec.allOnes 64) (hLow : j ≤ k) (hHigh : k < count)
    (hClear : w.used k = false) : ∃ i, w.search count fuel j = some i := by
  induction fuel generalizing j with
  | zero => omega
  | succ fuel ih =>
    have hLt : j < count := by omega
    rw [search, if_pos hLt]
    by_cases hFull : w (j / 64) = BitVec.allOnes 64
    · have hZero : j % 64 = 0 := hStart.resolve_right fun hNot => hNot hFull
      have hWord : k / 64 ≠ j / 64 := by
        intro hEq
        rw [← hEq] at hFull
        rw [used_of_allOnes hFull] at hClear
        cases hClear
      rw [if_pos hFull]
      apply ih
      · omega
      · left
        omega
      · omega
    · rw [if_neg hFull]
      by_cases hTest : w.testBit j = 0
      · exact ⟨j, if_pos hTest⟩
      · rw [if_neg hTest]
        have hNe : k ≠ j := by
          rintro rfl
          exact hTest ((testBit_eq_zero w k).mpr hClear)
        apply ih
        · omega
        · by_cases hZero : (j + 1) % 64 = 0
          · exact Or.inl hZero
          · have hSame : (j + 1) / 64 = j / 64 := by omega
            rw [hSame]
            exact Or.inr hFull
        · omega

theorem search_total {w : Words} {count k : Nat} (hLt : k < count) (hClear : w.used k = false) :
    ∃ i, w.search count count 0 = some i :=
  search_finds (Nat.le_add_left count 0) (Or.inl rfl) (Nat.zero_le k) hLt hClear

/-! ## Counting the clear bits -/

def clearBits (w : Words) (start stop : Nat) : Finset Nat :=
  (Finset.Ico start stop).filter fun i => w.used i = false

theorem mem_clearBits {w : Words} {start stop i : Nat} :
    i ∈ w.clearBits start stop ↔ (start ≤ i ∧ i < stop) ∧ w.used i = false := by
  unfold clearBits
  rw [Finset.mem_filter, Finset.mem_Ico]

theorem clearBits_setBit (w : Words) (start stop i : Nat) :
    (w.setBit i).clearBits start stop = (w.clearBits start stop).erase i := by
  ext j
  rw [Finset.mem_erase, mem_clearBits, mem_clearBits, used_setBit, Bool.or_eq_false_iff,
    decide_eq_false_iff_not]
  constructor
  · rintro ⟨hRange, hClear, hNe⟩
    exact ⟨hNe, hRange, hClear⟩
  · rintro ⟨hNe, hRange, hClear⟩
    exact ⟨hRange, hClear, hNe⟩

theorem clearBits_congr {w w' : Words} {start stop : Nat}
    (h : ∀ i, start ≤ i → i < stop → w.used i = w'.used i) :
    w.clearBits start stop = w'.clearBits start stop := by
  ext i
  rw [mem_clearBits, mem_clearBits]
  apply and_congr_right
  rintro ⟨hLow, hHigh⟩
  rw [h i hLow hHigh]

end Words

end KalinoteOS.Lib
