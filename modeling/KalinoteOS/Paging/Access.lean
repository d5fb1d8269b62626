import KalinoteOS.Lib.PageWalk
import Mathlib.Tactic.Abel

/-! # Page tables behind the direct map

The kernel reaches a table at `Phy_To_Virt` of its physical address. All of the physical memory is taken to be
mapped there; other addresses cannot be used as tables.
-/
namespace KalinoteOS.Paging
open Lib PageWalk
set_option autoImplicit false

abbrev Word := BitVec 64

def pageOffset : Word := 0xffff800000000000

def virtToPhy (address : Word) : Word := address - pageOffset

def phyToVirt (address : Word) : Word := address + pageOffset

def pageKernelGdt : Word := 0x3
def pageKernelDir : Word := 0x3
def pageKernelPage : Word := 0x83
def pageUserGdt : Word := 0x7
def pageUserDir : Word := 0x7
def pageUserPage : Word := 0x87

/-- `mk_mpl4t`, `mk_pdpt` and `mk_pdt`. -/
def mkEntry (address attr : Word) : Word := address ||| attr

/-- The entry of physical memory at an address of the direct map. -/
def locate (address : Word) : Option (Nat × Slot) :=
  let physical := (virtToPhy address).toNat
  if physical < 2 ^ 47 then some (physical / 2 ^ 12, slotOf (physical / 8)) else none

def load (m : PhysMem) (address : Word) : Option Word := (locate address).map fun (f, i) => m f i

def store (m : PhysMem) (address e : Word) : Option PhysMem := (locate address).map fun (f, i) => m.store f i e

/-- The entry for `address` in the table at physical address `table`. -/
def entryPtr (table address : Word) (shift : Nat) : Word :=
  phyToVirt (table &&& ~~~0xfff#64) + ((address >>> shift) &&& 0x1ff) * 8

theorem and_not_fff (x : Word) : (x &&& ~~~0xfff#64).toNat = x.toNat / 2 ^ 12 * 2 ^ 12 := by
  have hMask : ∀ i < 64, (~~~0xfff#64).getLsbD i = decide (12 ≤ i) := by decide
  have hShift : x &&& ~~~0xfff#64 = (x >>> 12) <<< 12 := by
    apply BitVec.eq_of_getLsbD_eq
    intro i hi
    rw [BitVec.getLsbD_and, hMask i hi, BitVec.getLsbD_shiftLeft, BitVec.getLsbD_ushiftRight]
    by_cases hLow : i < 12
    · simp [hLow]
    · simp [hLow, hi, Nat.le_of_not_lt hLow]
  rw [hShift, BitVec.toNat_shiftLeft, BitVec.toNat_ushiftRight, Nat.shiftLeft_eq, Nat.shiftRight_eq_div_pow]
  have hLt := x.isLt
  omega

theorem toNat_and_1ff (x : Word) : (x &&& 0x1ff).toNat = x.toNat % 512 := by
  rw [BitVec.toNat_and]
  exact Nat.and_two_pow_sub_one_eq_mod x.toNat 9

theorem toNat_index (address : Word) (level : Nat) :
    ((address >>> (12 + 9 * level)) &&& 0x1ff).toNat = slot address level := by
  rw [toNat_and_1ff, BitVec.toNat_ushiftRight, Nat.shiftRight_eq_div_pow]
  rfl

/-- The pointer to an entry of a table, from an entry that leads to the table. -/
theorem locate_entryPtr {table : Word} (hTable : table.toNat < 2 ^ 47) (address : Word) (level : Nat) :
    locate (entryPtr table address (12 + 9 * level)) = some (frame table, slot address level) := by
  have hIndex := toNat_index address level
  have hSlot := (slot address level).isLt
  have hPhysical : (virtToPhy (entryPtr table address (12 + 9 * level))).toNat =
      table.toNat / 2 ^ 12 * 2 ^ 12 + slot address level * 8 := by
    have hEq : virtToPhy (entryPtr table address (12 + 9 * level)) =
        (table &&& ~~~0xfff#64) + ((address >>> (12 + 9 * level)) &&& 0x1ff) * 8 := by
      unfold virtToPhy entryPtr phyToVirt
      abel
    rw [hEq, BitVec.toNat_add, BitVec.toNat_mul, and_not_fff, hIndex]
    have hEight : (8 : Word).toNat = 8 := rfl
    rw [hEight]
    omega
  unfold locate frame
  dsimp only
  rw [hPhysical, if_pos (by omega)]
  have hFrame : (table.toNat / 2 ^ 12 * 2 ^ 12 + slot address level * 8) / 2 ^ 12 = table.toNat / 2 ^ 12 %
    2 ^ 40 := by omega
  have hSlotOf : slotOf ((table.toNat / 2 ^ 12 * 2 ^ 12 + slot address level * 8) / 8) = slot address level := by
    apply Fin.ext
    change (table.toNat / 2 ^ 12 * 2 ^ 12 + slot address level * 8) / 8 % 512 = slot address level
    omega
  rw [hFrame, hSlotOf]

theorem load_eq {tmp : Word} {g : Nat} {i : Slot} (h : locate tmp = some (g, i)) (m : PhysMem) :
    load m tmp = some (m g i) := by
  unfold load
  rw [h]
  rfl

theorem store_eq {tmp : Word} {g : Nat} {i : Slot} (h : locate tmp = some (g, i)) (m : PhysMem) (e : Word) :
    store m tmp e = some (m.store g i e) := by
  unfold store
  rw [h]
  rfl

/-! ## Entries -/

section
variable {x attr : Word}

theorem toNat_mkEntry (hx : x.toNat % 2 ^ 12 = 0) (hAttr : attr.toNat < 2 ^ 12) :
    (mkEntry x attr).toNat = x.toNat + attr.toNat := by
  obtain ⟨q, hq⟩ := Nat.dvd_of_mod_eq_zero hx
  unfold mkEntry
  rw [BitVec.toNat_or, hq]
  exact (Nat.two_pow_add_eq_or_of_lt hAttr q).symm

theorem frame_mkEntry (hx : x.toNat % 2 ^ 12 = 0) (hAttr : attr.toNat < 2 ^ 12) :
    frame (mkEntry x attr) = frame x := by
  unfold frame
  rw [toNat_mkEntry hx hAttr]
  omega

theorem getLsbD_mkEntry (hx : x.toNat % 2 ^ 12 = 0) {i : Nat} (hi : i < 12) :
    (mkEntry x attr).getLsbD i = attr.getLsbD i := by
  obtain ⟨q, hq⟩ := Nat.dvd_of_mod_eq_zero hx
  have hBit : x.getLsbD i = false := by
    unfold BitVec.getLsbD
    rw [hq, Nat.testBit_two_pow_mul]
    simp [Nat.not_le.mpr hi]
  unfold mkEntry
  rw [BitVec.getLsbD_or, hBit, Bool.false_or]

end

theorem virtToPhy_phyToVirt (x : Word) : virtToPhy (phyToVirt x) = x := by
  unfold virtToPhy phyToVirt
  abel

end KalinoteOS.Paging
