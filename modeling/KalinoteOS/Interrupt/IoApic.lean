import Mathlib.Data.List.Basic
import Mathlib.Logic.Function.Basic

/-! # The I/O APIC behind its index and data registers

A redirection entry is 64 bits in two registers of 32, reached through a register of 8 bits that
says which one. The 24 entries stand in the registers from 0x10 on.
-/
namespace KalinoteOS.Interrupt
set_option autoImplicit false

abbrev Word := BitVec 64

structure IoApic where
  index : BitVec 8
  register : BitVec 8 → BitVec 32

namespace IoApic

/-- A write of `*virtual_index_address`. -/
def select (m : IoApic) (i : BitVec 8) : IoApic := { m with index := i }

/-- `*virtual_data_address`. -/
def data (m : IoApic) : BitVec 32 := m.register m.index

def setData (m : IoApic) (v : BitVec 32) : IoApic :=
  { m with register := Function.update m.register m.index v }

end IoApic

def ioapicRteRead (index : BitVec 8) (m : IoApic) : Word × IoApic :=
  let m := m.select (index + 1)
  let ret := m.data.setWidth 64 <<< 32
  let m := m.select index
  (ret ||| m.data.setWidth 64, m)

def ioapicRteWrite (index : BitVec 8) (value : Word) (m : IoApic) : IoApic :=
  let m := (m.select index).setData ((value &&& 0xffffffff).setWidth 32)
  let value := value >>> 32
  (m.select (index + 1)).setData ((value &&& 0xffffffff).setWidth 32)

/-- `(irq - 32) * 2 + 0x10`, passed on as an `unsigned char`. -/
def rteIndex (irq : Word) : BitVec 8 := ((irq - 32) * 2 + 0x10).setWidth 8

def ioapicEnable (irq : Word) (m : IoApic) : IoApic :=
  let read := ioapicRteRead (rteIndex irq) m
  ioapicRteWrite (rteIndex irq) (read.1 &&& ~~~0x10000) read.2

def ioapicDisable (irq : Word) (m : IoApic) : IoApic :=
  let read := ioapicRteRead (rteIndex irq) m
  ioapicRteWrite (rteIndex irq) (read.1 ||| 0x10000) read.2

/-- `entry` is the `struct IO_APIC_RET_entry` behind `arg`, as the word it is. -/
def ioapicInstall (irq entry : Word) (m : IoApic) : IoApic := ioapicRteWrite (rteIndex irq) entry m

def ioapicUninstall (irq : Word) (m : IoApic) : IoApic := ioapicRteWrite (rteIndex irq) 0x10000 m

/-- One round of the loop over the entries. -/
def maskEntry (m : IoApic) (k : Nat) : IoApic :=
  ioapicRteWrite (BitVec.ofNat 8 (0x10 + 2 * k)) (0x10020 + BitVec.ofNat 64 k) m

def ioapicInit (m : IoApic) : IoApic :=
  let m := (m.select 0x00).setData 0x0f000000
  let m := m.select 0x01
  let m := (List.range 24).foldl maskEntry m
  ioapicRteWrite 0x12 0x21 m

/-- The vectors of the I/O APIC. -/
def IsVector (irq : Word) : Prop := 32 ≤ irq.toNat ∧ irq.toNat < 56

instance (irq : Word) : Decidable (IsVector irq) := instDecidableAnd

namespace IoApic

/-- The redirection entry of a vector. -/
def entry (m : IoApic) (irq : Word) : Word := (ioapicRteRead (rteIndex irq) m).1

end IoApic

def Unmasked (entry : Word) : Prop := entry.getLsbD 16 = false

/-! ## One entry -/

section
variable {m : IoApic} {i j : BitVec 8} {v : Word} {irq other : Word}

theorem rteRead_register : (ioapicRteRead i m).2.register = m.register := rfl

theorem setWidth_mask (v : Word) : (v &&& 0xffffffff).setWidth 32 = v.setWidth 32 := by
  have hMask : (0xffffffff : Word).setWidth 32 = BitVec.allOnes 32 := by decide
  rw [BitVec.setWidth_and, hMask, BitVec.and_allOnes]

theorem halves (v : Word) :
    ((v >>> 32).setWidth 32).setWidth 64 <<< 32 ||| (v.setWidth 32).setWidth 64 = v := by
  apply BitVec.eq_of_getLsbD_eq
  intro k hk
  simp only [BitVec.getLsbD_or, BitVec.getLsbD_shiftLeft, BitVec.getLsbD_setWidth,
    BitVec.getLsbD_ushiftRight]
  by_cases hLow : k < 32
  · simp [hk, hLow]
  · have hHigh : k - 32 < 32 := by omega
    have hIndex : 32 + (k - 32) = k := by omega
    have hWide : k - 32 < 64 := by omega
    simp [hk, hLow, hHigh, hIndex, hWide]

theorem rteRead_rteWrite : (ioapicRteRead i (ioapicRteWrite i v m)).1 = v := by
  have hNe : i ≠ i + 1 := by bv_omega
  simp only [ioapicRteRead, ioapicRteWrite, IoApic.select, IoApic.setData, IoApic.data,
    Function.update_self, Function.update_of_ne hNe, setWidth_mask]
  exact halves v

theorem rteRead_rteWrite_other (h : j ≠ i) (hLow : j ≠ i + 1) (hHigh : i ≠ j + 1) :
    (ioapicRteRead j (ioapicRteWrite i v m)).1 = (ioapicRteRead j m).1 := by
  have hBoth : j + 1 ≠ i + 1 := by bv_omega
  simp only [ioapicRteRead, ioapicRteWrite, IoApic.select, IoApic.setData, IoApic.data,
    Function.update_of_ne h, Function.update_of_ne hLow, Function.update_of_ne hHigh.symm,
    Function.update_of_ne hBoth]

theorem entry_congr {m' : IoApic} (h : m'.register = m.register) : m'.entry irq = m.entry irq := by
  simp only [IoApic.entry, ioapicRteRead, IoApic.select, IoApic.data, h]

theorem entry_write : (ioapicRteWrite (rteIndex irq) v m).entry irq = v := rteRead_rteWrite

theorem entry_write_other (hIrq : IsVector irq) (hOther : IsVector other) (hNe : other ≠ irq) :
    (ioapicRteWrite (rteIndex irq) v m).entry other = m.entry other := by
  unfold IsVector at hIrq hOther
  unfold rteIndex IoApic.entry
  apply rteRead_rteWrite_other
  · unfold rteIndex
    bv_omega
  · unfold rteIndex
    bv_omega
  · unfold rteIndex
    bv_omega

@[simp] theorem entry_install : (ioapicInstall irq v m).entry irq = v := entry_write

@[simp] theorem entry_uninstall : (ioapicUninstall irq m).entry irq = 0x10000 := entry_write

@[simp] theorem entry_enable : (ioapicEnable irq m).entry irq = m.entry irq &&& ~~~0x10000 := entry_write

@[simp] theorem entry_disable : (ioapicDisable irq m).entry irq = m.entry irq ||| 0x10000 := entry_write

theorem entry_enable_other (hIrq : IsVector irq) (hOther : IsVector other) (hNe : other ≠ irq) :
    (ioapicEnable irq m).entry other = m.entry other :=
  (entry_write_other hIrq hOther hNe).trans (entry_congr rteRead_register)

theorem entry_disable_other (hIrq : IsVector irq) (hOther : IsVector other) (hNe : other ≠ irq) :
    (ioapicDisable irq m).entry other = m.entry other :=
  (entry_write_other hIrq hOther hNe).trans (entry_congr rteRead_register)

theorem unmasked_enable : Unmasked (v &&& ~~~0x10000) := by
  unfold Unmasked
  simp

/-! ## The entries after `IOAPIC_init` -/

/-- The entry of vector `32 + k`, by its number. -/
theorem rteIndex_eq (hIrq : IsVector irq) :
    rteIndex irq = BitVec.ofNat 8 (0x10 + 2 * (irq.toNat - 32)) := by
  unfold IsVector at hIrq
  unfold rteIndex
  bv_omega

theorem read_maskEntries {n k : Nat} (hn : n ≤ 24) (hk : k < n) :
    (ioapicRteRead (BitVec.ofNat 8 (0x10 + 2 * k)) ((List.range n).foldl maskEntry m)).1 =
      0x10020 + BitVec.ofNat 64 k := by
  induction n with
  | zero => cases hk
  | succ n ih =>
    rw [List.range_succ, List.foldl_append]
    by_cases hLast : k = n
    · rw [hLast]
      exact rteRead_rteWrite
    · have hOther := ih (by omega) (by omega)
      refine Eq.trans ?_ hOther
      apply rteRead_rteWrite_other
      · bv_omega
      · bv_omega
      · bv_omega

/-- All entries are masked but the one of vector 33, which the last write of `IOAPIC_init` opens. -/
theorem entry_ioapicInit (hIrq : IsVector irq) :
    (ioapicInit m).entry irq = if irq = 33 then 0x21 else 0x10020 + (irq - 32) := by
  have hVector : IsVector 33 := by decide
  have hLast : rteIndex 33 = 0x12 := by decide
  unfold ioapicInit
  rw [← hLast]
  split
  · next hEq =>
    rw [hEq]
    exact entry_write
  · next hNe =>
    refine (entry_write_other hVector hIrq hNe).trans ?_
    unfold IoApic.entry
    rw [rteIndex_eq hIrq]
    unfold IsVector at hIrq
    refine (read_maskEntries (Nat.le_refl 24) (by omega)).trans ?_
    bv_omega

theorem masked_ioapicInit (hIrq : IsVector irq) (hNe : irq ≠ 33) :
    ¬ Unmasked ((ioapicInit m).entry irq) := by
  have hMasked : ∀ k < 24, ((0x10020 : Word) + BitVec.ofNat 64 k).getLsbD 16 = true := by decide
  have hNumber : irq - 32 = BitVec.ofNat 64 (irq.toNat - 32) := by
    unfold IsVector at hIrq
    bv_omega
  unfold Unmasked
  rw [entry_ioapicInit hIrq, if_neg hNe, hNumber, hMasked _ (by unfold IsVector at hIrq; omega)]
  decide

end

end KalinoteOS.Interrupt
