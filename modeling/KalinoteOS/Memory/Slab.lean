import KalinoteOS.Lib.Bitmap
import Mathlib.Data.List.Basic

/-! # Slabs

A slab is one 2MB page cut into objects of one size, with a bitmap of the used ones. The slabs
of `kmalloc` and those of a slab cache are the same structure. Addresses are natural numbers.
-/
namespace KalinoteOS.Memory
open Lib
set_option autoImplicit false

/-- `PAGE_2M_SIZE`. -/
abbrev page2M : Nat := 2 ^ 21

def pageOffset : Nat := 0xffff800000000000

/-- `Phy_To_Virt` of a page's `PHY_address`; `page` is its index in `pages_struct`. -/
def pageAddress (page : Nat) : Nat := pageOffset + page2M * page

/-- `sizeof(struct Slab)`. -/
def sizeofSlab : Nat := 72

/-- `struct Slab`. The bitmap is at `colorMapAt`, with the words `colorMap`; `header` is the
address of the structure itself. -/
structure Slab where
  header : Nat
  page : Nat
  usingCount : Int
  freeCount : Int
  vaddress : Nat
  colorLength : Nat
  colorCount : Nat
  colorMapAt : Nat
  colorMap : Words

/-- The bytes of a bitmap of `count` bits, in whole words. -/
def colorLengthOf (count : Nat) : Nat := (count + 63) / 64 * 8

/-- A bitmap of `count` bits after `memset` with `0xff` and one flip for each object. -/
def freshMap (count : Nat) : Words :=
  Words.flipRange (Words.fill (fun _ => 0) (colorLengthOf count / 8)) 0 count

namespace Slab

/-- The object `j` of a slab with objects of `size` bytes. -/
def object (s : Slab) (size j : Nat) : Nat := s.vaddress + size * j

/-- The updates of a slab when object `j` is given out. -/
def take (s : Slab) (j : Nat) : Slab :=
  { s with
    colorMap := s.colorMap.setBit j
    usingCount := s.usingCount + 1
    freeCount := s.freeCount - 1 }

/-- The updates of a slab when object `j` comes back. -/
def give (s : Slab) (j : Nat) : Slab :=
  { s with
    colorMap := s.colorMap.flipBit j
    freeCount := s.freeCount + 1
    usingCount := s.usingCount - 1 }

def isUsed (s : Slab) (j : Nat) : Bool := s.colorMap.used j

/-- The objects not given out. -/
def clear (s : Slab) : Finset Nat := s.colorMap.clearBits 0 s.colorCount

theorem mem_clear {s : Slab} {j : Nat} : j ∈ s.clear ↔ j < s.colorCount ∧ s.isUsed j = false := by
  unfold clear isUsed
  rw [Words.mem_clearBits]
  simp

@[simp] theorem isUsed_take (s : Slab) (j k : Nat) :
    (s.take j).isUsed k = (s.isUsed k || decide (k = j)) := Words.used_setBit _ _ _

@[simp] theorem isUsed_give (s : Slab) (j k : Nat) :
    (s.give j).isUsed k = (s.isUsed k ^^ decide (k = j)) := Words.used_flipBit _ _ _

theorem clear_take (s : Slab) (j : Nat) : (s.take j).clear = s.clear.erase j :=
  Words.clearBits_setBit _ _ _ _

theorem clear_give {s : Slab} {j : Nat} (hLt : j < s.colorCount) (hUsed : s.isUsed j = true) :
    (s.give j).clear = insert j s.clear := by
  ext k
  rw [Finset.mem_insert, mem_clear, mem_clear, isUsed_give]
  show k < s.colorCount ∧ _ ↔ _
  by_cases hEq : k = j
  · subst hEq
    simp [hLt, hUsed]
  · simp [hEq]

/-- `free_count` counts the clear bits. -/
structure Counted (s : Slab) : Prop where
  free : s.freeCount = s.clear.card

theorem Counted.take {s : Slab} (h : s.Counted) {j : Nat} (hMem : j ∈ s.clear) :
    (s.take j).Counted := by
  constructor
  have hPos := Finset.card_pos.mpr ⟨j, hMem⟩
  have hFree := h.free
  rw [clear_take, Finset.card_erase_of_mem hMem]
  show s.freeCount - 1 = _
  omega

theorem Counted.give {s : Slab} (h : s.Counted) {j : Nat} (hLt : j < s.colorCount)
    (hUsed : s.isUsed j = true) : (s.give j).Counted := by
  constructor
  have hNotMem : j ∉ s.clear := by
    rw [mem_clear, hUsed]
    simp
  have hFree := h.free
  rw [clear_give hLt hUsed, Finset.card_insert_of_notMem hNotMem]
  show s.freeCount + 1 = _
  omega

theorem Counted.nonneg {s : Slab} (h : s.Counted) : 0 ≤ s.freeCount := by
  rw [h.free]
  exact Int.natCast_nonneg _

theorem Counted.exists_clear {s : Slab} (h : s.Counted) (hFree : s.freeCount ≠ 0) :
    ∃ j, j ∈ s.clear := by
  have hPos : 0 < s.clear.card := by
    have hEq := h.free
    omega
  exact Finset.card_pos.mp hPos

end Slab

/-! ## Addresses -/

theorem object_apart (s : Slab) (size : Nat) {i j : Nat} (h : i ≠ j) :
    s.object size i + size ≤ s.object size j ∨ s.object size j + size ≤ s.object size i := by
  unfold Slab.object
  obtain hLt | hGt := Nat.lt_or_gt_of_ne h
  · left
    have hMul : size * (i + 1) ≤ size * j := Nat.mul_le_mul_left size hLt
    rw [Nat.mul_add, Nat.mul_one] at hMul
    omega
  · right
    have hMul : size * (j + 1) ≤ size * i := Nat.mul_le_mul_left size hGt
    rw [Nat.mul_add, Nat.mul_one] at hMul
    omega

theorem object_within (s : Slab) {size count j : Nat} (hFits : size * count ≤ page2M)
    (hLt : j < count) : s.object size j + size ≤ s.vaddress + page2M := by
  have hMul : size * (j + 1) ≤ size * count := Nat.mul_le_mul_left size hLt
  rw [Nat.mul_add, Nat.mul_one] at hMul
  unfold Slab.object
  omega

/-- The division that finds the index of an address. -/
theorem object_index (s : Slab) {size : Nat} (hSize : 0 < size) (j : Nat) :
    (s.object size j - s.vaddress) / size = j := by
  unfold Slab.object
  rw [Nat.add_sub_cancel_left, Nat.mul_div_cancel_left j hSize]

theorem object_inj (s : Slab) {size i j : Nat} (hSize : 0 < size)
    (h : s.object size i = s.object size j) : i = j := by
  rw [← object_index s hSize i, h, object_index s hSize j]

theorem pageAddress_inj {p q : Nat} (h : pageAddress p = pageAddress q) : p = q := by
  unfold pageAddress page2M at h
  omega

theorem page_apart {p q : Nat} (h : p ≠ q) :
    pageAddress p + page2M ≤ pageAddress q ∨ pageAddress q + page2M ≤ pageAddress p := by
  unfold pageAddress page2M
  omega

end KalinoteOS.Memory
