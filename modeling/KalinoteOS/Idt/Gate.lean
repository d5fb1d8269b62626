import KalinoteOS.Entry.Paths

/-! # Gates

The descriptors that `_set_gate`, `set_tss_descriptor` and the head of the kernel put together, and what the
processor takes from them.
-/
namespace KalinoteOS.Idt
open Lib Entry
set_option autoImplicit false

/-- `struct gate_struct`, as the two words that are stored. -/
structure GateStruct where
  low : Word
  high : Word
  deriving DecidableEq, Repr

/-- `movw` to the low half of a register's low half. -/
def movw (src dst : Word) : Word := (dst &&& ~~~0xffff) ||| (src &&& 0xffff)

/-- `_set_gate`, with `attr << 8` as the immediate operand. -/
def setGate (attr ist : BitVec 8) (codeAddr : Word) : GateStruct :=
  let rax := (0x8 : Word) <<< 16
  let rdx := codeAddr
  let rcx : Word := ist.setWidth 64
  let rax := movw rdx rax
  let rcx := rcx &&& 0x7
  let rcx := rcx + (attr.setWidth 64 <<< 8)
  let rcx := rcx <<< 32
  let rax := rax + rcx
  let rcx := rdx &&& 0xffffffff
  let rcx := rcx >>> 16
  let rcx := rcx <<< 48
  let rax := rax + rcx
  ⟨rax, rdx >>> 32⟩

/-- `setup_IDT`: the gate that is stored 256 times. -/
def setupGate (ignoreInt : Word) : GateStruct :=
  let rdx := ignoreInt
  let rax := (0x08 : Word) <<< 16
  let rax := movw rdx rax
  let rcx := (0x8E00 : Word) <<< 32
  let rax := rax + rcx
  let rcx := rdx &&& 0xffffffff
  let rcx := rcx >>> 16
  let rcx := rcx <<< 48
  let rax := rax + rcx
  ⟨rax, rdx >>> 32⟩

/-- `set_tss_descriptor`. -/
def setTssDescriptor (addr : Word) : GateStruct :=
  let limit : Word := 103
  ⟨(limit &&& (0xffff : Word)) ||| ((addr &&& (0xffff : Word)) <<< 16) |||
    ((addr >>> 16 &&& (0xff : Word)) <<< 32) |||
      ((0x89 : Word) <<< 40) ||| ((limit >>> 16 &&& (0xf : Word)) <<< 48) |||
      ((addr >>> 24 &&& (0xff : Word)) <<< 56),
    (addr >>> 32 &&& (0xffffffff : Word)) ||| (0 : Word)⟩

/-- `setup_TSS64`. -/
def setupTss64 (table : Word) : GateStruct :=
  let rdx := table
  let rax : Word := 0x89
  let rax := rax <<< 40
  let rcx := rdx &&& 0xffffffff
  let rcx := rcx >>> 24
  let rcx := rcx <<< 56
  let rax := rax + rcx
  let rcx := rdx &&& 0xffffff
  let rcx := rcx <<< 16
  let rax := rax + rcx
  let rax := rax + 103
  ⟨rax, rdx >>> 32⟩

/-! ## What the processor reads -/

/-- A gate of the long mode. -/
structure Gate where
  offset : Word
  selector : BitVec 16
  ist : BitVec 3
  type : BitVec 4
  dpl : BitVec 2
  present : Bool
  deriving DecidableEq, Repr

/-- The descriptor of a task state segment. -/
structure TssDescriptor where
  base : Word
  limit : BitVec 20
  type : BitVec 4
  present : Bool
  deriving DecidableEq, Repr

/-- The bits from `start` on. -/
def field (start width : Nat) (w : Word) : BitVec width := BitVec.ofNat width (w.toNat / 2 ^ start)

def GateStruct.gate (g : GateStruct) : Gate where
  offset := BitVec.ofNat 64 ((field 0 16 g.low).toNat + (field 48 16 g.low).toNat * 2 ^ 16 +
    (field 0 32 g.high).toNat * 2 ^ 32)
  selector := field 16 16 g.low
  ist := field 32 3 g.low
  type := field 40 4 g.low
  dpl := field 45 2 g.low
  present := field 47 1 g.low = 1

def GateStruct.tssDescriptor (g : GateStruct) : TssDescriptor where
  base := BitVec.ofNat 64 ((field 16 24 g.low).toNat + (field 56 8 g.low).toNat * 2 ^ 24 +
    (field 0 32 g.high).toNat * 2 ^ 32)
  limit := BitVec.ofNat 20 ((field 0 16 g.low).toNat + (field 48 4 g.low).toNat * 2 ^ 16)
  type := field 40 4 g.low
  present := field 47 1 g.low = 1

theorem toNat_movw (src : Word) : (movw src ((0x8 : Word) <<< 16)).toNat = 0x80000 + src.toNat % 2 ^ 16 := by
  have hHigh : ((0x8 : Word) <<< 16) &&& ~~~0xffff = BitVec.ofNat 64 (8 * 2 ^ 16) := by decide
  have hLow : (src &&& 0xffff).toNat = src.toNat % 2 ^ 16 := by
    rw [BitVec.toNat_and]
    exact Nat.and_two_pow_sub_one_eq_mod src.toNat 16
  unfold movw
  rw [hHigh, BitVec.toNat_or, hLow]
  have hOr := Nat.two_pow_add_eq_or_of_lt (i := 16) (Nat.mod_lt src.toNat (by decide : 2 ^ 16 > 0)) 8
  have hConst : (BitVec.ofNat 64 (8 * 2 ^ 16)).toNat = 2 ^ 16 * 8 := rfl
  rw [hConst, ← hOr]

/-- The sum that both sequences of additions make. -/
theorem toNat_gate (attrs codeAddr : Word) (hAttrs : attrs.toNat < 2 ^ 16) :
    (movw codeAddr ((0x8 : Word) <<< 16) + attrs <<< 32 + ((codeAddr &&& 0xffffffff) >>> 16) <<< 48).toNat =
      codeAddr.toNat % 2 ^ 16 + 0x80000 + attrs.toNat * 2 ^ 32 + codeAddr.toNat / 2 ^ 16 % 2 ^ 16 * 2 ^ 48 := by
  have hAddr : (codeAddr &&& (0xffffffff : Word)).toNat = codeAddr.toNat % 2 ^ 32 := by
    rw [BitVec.toNat_and]
    exact Nat.and_two_pow_sub_one_eq_mod codeAddr.toNat 32
  have hMovw := toNat_movw codeAddr
  have hFirst : (attrs <<< 32).toNat = attrs.toNat * 2 ^ 32 := by
    rw [BitVec.toNat_shiftLeft, Nat.shiftLeft_eq]
    omega
  have hSecond : (((codeAddr &&& 0xffffffff) >>> 16) <<< 48).toNat = codeAddr.toNat / 2 ^ 16 % 2 ^ 16 *
    2 ^ 48 := by
    rw [BitVec.toNat_shiftLeft, BitVec.toNat_ushiftRight, hAddr, Nat.shiftLeft_eq, Nat.shiftRight_eq_div_pow]
    omega
  rw [BitVec.toNat_add, BitVec.toNat_add, hMovw, hFirst, hSecond]
  omega

theorem toNat_attrs (attr ist : BitVec 8) :
    ((ist.setWidth 64 &&& (0x7 : Word)) + (attr.setWidth 64 <<< 8)).toNat = ist.toNat % 8 + attr.toNat *
      2 ^ 8 := by
  have hIst : (ist.setWidth 64 &&& (0x7 : Word)).toNat = ist.toNat % 8 := by
    rw [BitVec.toNat_and, BitVec.toNat_setWidth, Nat.mod_eq_of_lt (by omega)]
    exact Nat.and_two_pow_sub_one_eq_mod ist.toNat 3
  have hAttr : ((attr.setWidth 64 : Word) <<< 8).toNat = attr.toNat * 2 ^ 8 := by
    rw [BitVec.toNat_shiftLeft, BitVec.toNat_setWidth, Nat.shiftLeft_eq]
    omega
  rw [BitVec.toNat_add, hIst, hAttr]
  omega

theorem setGate_eq (attr ist : BitVec 8) (codeAddr : Word) : setGate attr ist codeAddr =
    ⟨movw codeAddr ((0x8 : Word) <<< 16) + ((ist.setWidth 64 &&& (0x7 : Word)) + (attr.setWidth 64 <<< 8)) <<<
      32 +
      ((codeAddr &&& 0xffffffff) >>> 16) <<< 48, codeAddr >>> 32⟩ := rfl

/-- The places of a sum of digits. -/
theorem gate_fields {d i a e low : Nat} (hd : d < 2 ^ 16) (hi : i < 2 ^ 3) (ha : a < 2 ^ 8) (he : e < 2 ^ 16)
    (hLow : low = d + 0x80000 + (i + a * 2 ^ 8) * 2 ^ 32 + e * 2 ^ 48) :
    low / 2 ^ 0 % 2 ^ 16 = d ∧ low / 2 ^ 16 % 2 ^ 16 = 8 ∧ low / 2 ^ 32 % 2 ^ 3 = i ∧
      low / 2 ^ 40 % 2 ^ 4 = a % 2 ^ 4 ∧ low / 2 ^ 45 % 2 ^ 2 = a / 2 ^ 5 % 2 ^ 2 ∧
      low / 2 ^ 47 % 2 ^ 1 = a / 2 ^ 7 % 2 ^ 1 ∧ low / 2 ^ 48 % 2 ^ 16 = e := by
  have hIst : low / 2 ^ 32 = i + a * 2 ^ 8 + e * 2 ^ 16 := by omega
  have hType : low / 2 ^ 40 = a + e * 2 ^ 8 := by omega
  have hDpl : low / 2 ^ 45 = a / 2 ^ 5 + e * 2 ^ 3 := by omega
  have hPresent : low / 2 ^ 47 = a / 2 ^ 7 + e * 2 := by omega
  exact ⟨by omega, by omega, by omega, by omega, by omega, by omega, by omega⟩

/-- The gate that `attr`, `ist` and the address stand for. -/
def gateOf (attr ist : BitVec 8) (codeAddr : Word) : Gate where
  offset := codeAddr
  selector := 0x8
  ist := ist.setWidth 3
  type := attr.setWidth 4
  dpl := field 5 2 (attr.setWidth 64)
  present := field 7 1 (attr.setWidth 64) = 1

theorem field_eq {start width : Nat} {w : Word} {v : Nat} (h : w.toNat / 2 ^ start % 2 ^ width = v) :
    field start width w = BitVec.ofNat width v := by
  apply BitVec.eq_of_toNat_eq
  rw [← h]
  simp [field]

theorem address_parts (a : Word) : BitVec.ofNat 64 ((BitVec.ofNat 16 (a.toNat % 2 ^ 16)).toNat +
    (BitVec.ofNat 16 (a.toNat / 2 ^ 16 % 2 ^ 16)).toNat * 2 ^ 16 +
    (BitVec.ofNat 32 (a.toNat / 2 ^ 32)).toNat * 2 ^ 32) = a := by
  apply BitVec.eq_of_toNat_eq
  have := a.isLt
  simp only [BitVec.toNat_ofNat]
  omega

theorem gate_setGate (attr ist : BitVec 8) (codeAddr : Word) :
    (setGate attr ist codeAddr).gate = gateOf attr ist codeAddr := by
  have hAttrs := toNat_attrs attr ist
  have hLow := toNat_gate ((ist.setWidth 64 &&& (0x7 : Word)) + (attr.setWidth 64 <<< 8)) codeAddr (by omega)
  rw [hAttrs] at hLow
  obtain ⟨h₀, h₁₆, h₃₂, h₄₀, h₄₅, h₄₇, h₄₈⟩ := gate_fields (by omega) (by omega) (by omega) (by omega) hLow
  have hWide : (attr.setWidth 64 : Word).toNat = attr.toNat := by
    rw [BitVec.toNat_setWidth]
    omega
  have hHigh : (codeAddr >>> 32).toNat / 2 ^ 0 % 2 ^ 32 = codeAddr.toNat / 2 ^ 32 := by
    rw [BitVec.toNat_ushiftRight, Nat.shiftRight_eq_div_pow]
    omega
  rw [setGate_eq]
  unfold GateStruct.gate gateOf
  rw [field_eq h₀, field_eq h₁₆, field_eq h₃₂, field_eq h₄₀, field_eq h₄₅, field_eq h₄₇, field_eq h₄₈,
    field_eq hHigh]
  refine Gate.mk.injEq .. |>.mpr ⟨address_parts codeAddr, rfl, ?_, ?_, ?_, ?_⟩
  · apply BitVec.eq_of_toNat_eq
    simp
  · apply BitVec.eq_of_toNat_eq
    simp
  · rw [field_eq rfl, hWide]
  · rw [field_eq rfl, hWide]

theorem setupGate_eq (ignoreInt : Word) : setupGate ignoreInt = setGate 0x8E 0 ignoreInt := rfl

/-! ## The task state segment -/

/-- Two values that share no bit are added. -/
theorem toNat_or_shift {x y : Word} {k : Nat} (hx : x.toNat < 2 ^ k) (hy : y.toNat * 2 ^ k < 2 ^ 64) :
    (x ||| y <<< k).toNat = x.toNat + y.toNat * 2 ^ k := by
  rw [BitVec.toNat_or, BitVec.toNat_shiftLeft, Nat.shiftLeft_eq, Nat.mod_eq_of_lt hy, Nat.or_comm, Nat.mul_comm,
    ← Nat.two_pow_add_eq_or_of_lt hx]
  exact Nat.add_comm _ _

theorem toNat_six_fields {a b c d e f : Word} (ha : a.toNat < 2 ^ 16) (hb : b.toNat < 2 ^ 16)
    (hc : c.toNat < 2 ^ 8)
    (hd : d.toNat < 2 ^ 8) (he : e.toNat < 2 ^ 8) (hf : f.toNat < 2 ^ 8) :
    (a ||| b <<< 16 ||| c <<< 32 ||| d <<< 40 ||| e <<< 48 ||| f <<< 56).toNat =
      a.toNat + b.toNat * 2 ^ 16 + c.toNat * 2 ^ 32 + d.toNat * 2 ^ 40 + e.toNat * 2 ^ 48 + f.toNat * 2 ^ 56 := by
  have h₁ := toNat_or_shift (y := b) ha (by omega)
  have h₂ := toNat_or_shift (x := a ||| b <<< 16) (y := c) (k := 32) (by omega) (by omega)
  have h₃ := toNat_or_shift (x := a ||| b <<< 16 ||| c <<< 32) (y := d) (k := 40) (by omega) (by omega)
  have h₄ := toNat_or_shift (x := a ||| b <<< 16 ||| c <<< 32 ||| d <<< 40) (y := e) (k := 48) (by omega)
    (by omega)
  have h₅ := toNat_or_shift (x := a ||| b <<< 16 ||| c <<< 32 ||| d <<< 40 ||| e <<< 48) (y := f) (k := 56)
    (by omega)
    (by omega)
  rw [h₅, h₄, h₃, h₂, h₁]

theorem toNat_tssDescriptor (addr : Word) : (setTssDescriptor addr).low.toNat =
    103 + addr.toNat % 2 ^ 24 * 2 ^ 16 + 0x89 * 2 ^ 40 + addr.toNat / 2 ^ 24 % 2 ^ 8 * 2 ^ 56 := by
  have hLow : (addr &&& (0xffff : Word)).toNat = addr.toNat % 2 ^ 16 := by
    rw [BitVec.toNat_and]
    exact Nat.and_two_pow_sub_one_eq_mod addr.toNat 16
  have hMiddle : (addr >>> 16 &&& (0xff : Word)).toNat = addr.toNat / 2 ^ 16 % 2 ^ 8 := by
    rw [BitVec.toNat_and, BitVec.toNat_ushiftRight, Nat.shiftRight_eq_div_pow]
    exact Nat.and_two_pow_sub_one_eq_mod _ 8
  have hHigh : (addr >>> 24 &&& (0xff : Word)).toNat = addr.toNat / 2 ^ 24 % 2 ^ 8 := by
    rw [BitVec.toNat_and, BitVec.toNat_ushiftRight, Nat.shiftRight_eq_div_pow]
    exact Nat.and_two_pow_sub_one_eq_mod _ 8
  refine (toNat_six_fields (by decide) (by omega) (by omega) (by decide) (by decide) (by omega)).trans ?_
  rw [hLow, hMiddle, hHigh]
  have hLimit : ((103 : Word) &&& (0xffff : Word)).toNat = 103 := rfl
  have hType : (0x89 : Word).toNat = 0x89 := rfl
  have hNone : ((103 : Word) >>> 16 &&& (0xf : Word)).toNat = 0 := rfl
  rw [hLimit, hType, hNone]
  omega

theorem toNat_setupTss64 (table : Word) : (setupTss64 table).low.toNat =
    103 + table.toNat % 2 ^ 24 * 2 ^ 16 + 0x89 * 2 ^ 40 + table.toNat / 2 ^ 24 % 2 ^ 8 * 2 ^ 56 := by
  have hLow : (table &&& (0xffffff : Word)).toNat = table.toNat % 2 ^ 24 := by
    rw [BitVec.toNat_and]
    exact Nat.and_two_pow_sub_one_eq_mod table.toNat 24
  have hHalf : (table &&& (0xffffffff : Word)).toNat = table.toNat % 2 ^ 32 := by
    rw [BitVec.toNat_and]
    exact Nat.and_two_pow_sub_one_eq_mod table.toNat 32
  have hHigh : (((table &&& (0xffffffff : Word)) >>> 24) <<< 56).toNat = table.toNat / 2 ^ 24 % 2 ^ 8 *
    2 ^ 56 := by
    rw [BitVec.toNat_shiftLeft, BitVec.toNat_ushiftRight, hHalf, Nat.shiftLeft_eq, Nat.shiftRight_eq_div_pow]
    omega
  have hBase : ((table &&& (0xffffff : Word)) <<< 16).toNat = table.toNat % 2 ^ 24 * 2 ^ 16 := by
    rw [BitVec.toNat_shiftLeft, hLow, Nat.shiftLeft_eq]
    omega
  have hType : ((0x89 : Word) <<< 40).toNat = 0x89 * 2 ^ 40 := rfl
  have hLimit : (103 : Word).toNat = 103 := rfl
  unfold setupTss64
  dsimp only
  rw [BitVec.toNat_add, BitVec.toNat_add, BitVec.toNat_add, hHigh, hBase, hType, hLimit]
  omega

/-- Both ways to make the descriptor make the same one. -/
theorem setupTss64_eq (table : Word) : setupTss64 table = setTssDescriptor table := by
  have hLow : (setupTss64 table).low = (setTssDescriptor table).low :=
    BitVec.eq_of_toNat_eq ((toNat_setupTss64 table).trans (toNat_tssDescriptor table).symm)
  have hHigh : (setupTss64 table).high = (setTssDescriptor table).high := by
    apply BitVec.eq_of_toNat_eq
    have hBound := table.isLt
    have hAnd : (table >>> 32 &&& (0xffffffff : Word)).toNat = table.toNat / 2 ^ 32 % 2 ^ 32 := by
      rw [BitVec.toNat_and, BitVec.toNat_ushiftRight, Nat.shiftRight_eq_div_pow]
      exact Nat.and_two_pow_sub_one_eq_mod _ 32
    have hZero : (setTssDescriptor table).high = table >>> 32 &&& (0xffffffff : Word) := BitVec.or_zero
    rw [hZero, hAnd]
    change (table >>> 32).toNat = _
    rw [BitVec.toNat_ushiftRight, Nat.shiftRight_eq_div_pow]
    omega
  generalize setupTss64 table = g at *
  generalize setTssDescriptor table = g' at *
  cases g
  cases g'
  exact congrArg₂ GateStruct.mk hLow hHigh

/-- The places of the sum that is a TSS descriptor. -/
theorem tss_fields {b e low : Nat} (hb : b < 2 ^ 24) (he : e < 2 ^ 8)
    (hLow : low = 103 + b * 2 ^ 16 + 0x89 * 2 ^ 40 + e * 2 ^ 56) :
    low / 2 ^ 0 % 2 ^ 16 = 103 ∧ low / 2 ^ 16 % 2 ^ 24 = b ∧ low / 2 ^ 40 % 2 ^ 4 = 9 ∧ low / 2 ^ 47 % 2 ^ 1 = 1 ∧
      low / 2 ^ 48 % 2 ^ 4 = 0 ∧ low / 2 ^ 56 % 2 ^ 8 = e := by
  have hType : low / 2 ^ 40 = 0x89 + e * 2 ^ 16 := by omega
  have hPresent : low / 2 ^ 47 = 1 + e * 2 ^ 9 := by omega
  have hLimit : low / 2 ^ 48 = e * 2 ^ 8 := by omega
  exact ⟨by omega, by omega, by omega, by omega, by omega, by omega⟩

theorem tssDescriptor_set (addr : Word) : (setTssDescriptor addr).tssDescriptor = ⟨addr, 103, 9, true⟩ := by
  obtain ⟨h₀, h₁₆, h₄₀, h₄₇, h₄₈, h₅₆⟩ := tss_fields (by omega) (by omega) (toNat_tssDescriptor addr)
  have hHigh : (setTssDescriptor addr).high.toNat / 2 ^ 0 % 2 ^ 32 = addr.toNat / 2 ^ 32 := by
    rw [← setupTss64_eq]
    change (addr >>> 32).toNat / 2 ^ 0 % 2 ^ 32 = _
    have hBound := addr.isLt
    rw [BitVec.toNat_ushiftRight, Nat.shiftRight_eq_div_pow]
    omega
  unfold GateStruct.tssDescriptor
  rw [field_eq h₀, field_eq h₁₆, field_eq h₄₀, field_eq h₄₇, field_eq h₄₈, field_eq h₅₆, field_eq hHigh]
  refine TssDescriptor.mk.injEq .. |>.mpr ⟨?_, rfl, rfl, rfl⟩
  apply BitVec.eq_of_toNat_eq
  have hBound := addr.isLt
  clear h₀ h₁₆ h₄₀ h₄₇ h₄₈ h₅₆ hHigh
  simp only [BitVec.toNat_ofNat]
  omega

end KalinoteOS.Idt
