import KalinoteOS.Lib.Bytes
import Mathlib.Data.BitVec
import Mathlib.Tactic.Simps.Basic

/-! # The machine of the boot loader

Real mode as far as the loader uses it: the stack lies in segment 0 and grows down in the one memory,
`fs` has kept the limit of 4 GB from protected mode. The loader's own variables are reached through
`ds`, which has to be its segment; the return addresses on the stack are left out.
-/
namespace KalinoteOS.Loader
open Lib (Bytes)
set_option autoImplicit false

abbrev Byte := BitVec 8

abbrev Word := BitVec 16

/-- A word from its two bytes, such as `ax` from `ah` and `al`. -/
def word (high low : Byte) : Word := BitVec.ofNat 16 (high.toNat * 256 + low.toNat)

def high (w : Word) : Byte := BitVec.ofNat 8 (w.toNat / 256)

def low (w : Word) : Byte := BitVec.ofNat 8 w.toNat

/-- The segment of the loader. -/
def loaderSegment : Word := 0x1000

structure Machine where
  ax : Word
  eaxHigh : Word
  bx : Word
  cx : Word
  dx : Word
  bp : Word
  sp : Nat
  esi : BitVec 32
  edi : BitVec 32
  ds : Word
  es : Word
  fs : Word
  odd : Byte
  offsetOfKernelFileCount : BitVec 32
  mem : Bytes

/-- The sectors of the floppy disk. -/
abbrev Disk := Nat → Bytes

/-- `count` sectors from `first` on are read to `dest`. -/
def Disk.transfer (disk : Disk) (first count dest : Nat) (m : Bytes) : Bytes := fun a =>
  if dest ≤ a ∧ a < dest + 512 * count then disk (first + (a - dest) / 512) ((a - dest) % 512) else m a

def physical (segment : Word) (offset : Nat) : Nat := segment.toNat * 16 + offset

namespace Machine

section
variable (s : Machine)

@[simps] def setAx (v : Word) : Machine := { s with ax := v }
@[simps] def setBx (v : Word) : Machine := { s with bx := v }
@[simps] def setCx (v : Word) : Machine := { s with cx := v }
@[simps] def setDx (v : Word) : Machine := { s with dx := v }
@[simps] def setBp (v : Word) : Machine := { s with bp := v }
@[simps] def setSp (v : Nat) : Machine := { s with sp := v }
@[simps] def setEsi (v : BitVec 32) : Machine := { s with esi := v }
@[simps] def setEdi (v : BitVec 32) : Machine := { s with edi := v }
@[simps] def setDs (v : Word) : Machine := { s with ds := v }
@[simps] def setEs (v : Word) : Machine := { s with es := v }
@[simps] def setFs (v : Word) : Machine := { s with fs := v }
@[simps] def setOdd (v : Byte) : Machine := { s with odd := v }
@[simps] def setOffset (v : BitVec 32) : Machine := { s with offsetOfKernelFileCount := v }
@[simps] def setMem (m : Bytes) : Machine := { s with mem := m }

def eax : BitVec 32 := BitVec.ofNat 32 (s.eaxHigh.toNat * 65536 + s.ax.toNat)

@[simps] def setEax (v : BitVec 32) : Machine :=
  { s with ax := BitVec.ofNat 16 v.toNat, eaxHigh := BitVec.ofNat 16 (v.toNat / 65536) }

/-- A variable of the loader is accessed. -/
def data : Option Unit := if s.ds = loaderSegment then some () else none

/-- `n` bytes go on the stack. -/
@[simps] def pushN (n v : Nat) : Machine :=
  { s with sp := s.sp - n, mem := Bytes.store s.mem (s.sp - n) n v }

@[simps!] def push (v : Word) : Machine := s.pushN 2 v.toNat

@[simps!] def push32 (v : BitVec 32) : Machine := s.pushN 4 v.toNat

/-- The word on top of the stack. -/
def top : Word := BitVec.ofNat 16 (Bytes.load s.mem s.sp 2)

def top32 : BitVec 32 := BitVec.ofNat 32 (Bytes.load s.mem s.sp 4)

@[simps] def drop (n : Nat) : Machine := { s with sp := s.sp + n }

/-- `mul v` -/
@[simps] def mul (v : Word) : Machine :=
  { s with
    ax := BitVec.ofNat 16 (s.ax.toNat * v.toNat)
    dx := BitVec.ofNat 16 (s.ax.toNat * v.toNat / 65536) }

/-- `div v` of `dx:ax`; a quotient that does not fit raises an exception. -/
def div (v : Word) : Option Machine :=
  let n := s.dx.toNat * 65536 + s.ax.toNat
  if v = 0 ∨ 65536 ≤ n / v.toNat then none
  else some ((s.setAx (BitVec.ofNat 16 (n / v.toNat))).setDx (BitVec.ofNat 16 (n % v.toNat)))

/-- `div v` of `ax`. -/
def div8 (v : Byte) : Option Machine :=
  let n := s.ax.toNat
  if v = 0 ∨ 256 ≤ n / v.toNat then none
  else some (s.setAx (word (BitVec.ofNat 8 (n % v.toNat)) (BitVec.ofNat 8 (n / v.toNat))))

end

/-- The word at `segment:offset`. -/
def load (s : Machine) (segment : Word) (offset : Nat) : Word :=
  BitVec.ofNat 16 (Bytes.load s.mem (physical segment offset) 2)

/-- `int 13h` with `ah = 2` on drive 0: a read of sectors of one track, which succeeds. The disk has 2
heads and 18 sectors in a track. -/
def int13 (disk : Disk) (s : Machine) : Option Machine :=
  let count := (low s.ax).toNat
  let cylinder := (high s.cx).toNat + (low s.cx).toNat / 64 * 256
  let sector := (low s.cx).toNat % 64
  let head := (high s.dx).toNat
  if high s.ax = 2 ∧ low s.dx = 0 ∧ head < 2 ∧ 1 ≤ sector ∧ sector + count ≤ 19 then
    let first := (cylinder * 2 + head) * 18 + (sector - 1)
    some ((s.setAx (word 0 (low s.ax))).setMem
      (disk.transfer first count (physical s.es s.bx.toNat) s.mem))
  else none

end Machine

/-! ## Bytes of a word -/

@[simp] theorem toNat_word (h l : Byte) : (word h l).toNat = h.toNat * 256 + l.toNat := by
  have hHigh := h.isLt
  have hLow := l.isLt
  rw [word, BitVec.toNat_ofNat, Nat.mod_eq_of_lt (by omega)]

@[simp] theorem high_word (h l : Byte) : high (word h l) = h := by
  have hLow := l.isLt
  apply BitVec.eq_of_toNat_eq
  rw [high, toNat_word, BitVec.toNat_ofNat]
  omega

@[simp] theorem low_word (h l : Byte) : low (word h l) = l := by
  have hLow := l.isLt
  apply BitVec.eq_of_toNat_eq
  rw [low, toNat_word, BitVec.toNat_ofNat]
  omega

theorem run_bind {α : Type} {x : Option α} {f : α → Option Machine} {a : α} (h : x = some a) :
    x >>= f = f a := by
  rw [h]
  rfl

/-! ## Memory -/

@[simp] theorem physical_zero (offset : Nat) : physical 0 offset = offset :=
  (congrArg (· + offset) (Nat.zero_mul 16)).trans (Nat.zero_add offset)

section
variable {disk : Disk} {first count dest : Nat} {m : Bytes}

theorem transfer_at {i : Nat} (hi : i < 512 * count) :
    disk.transfer first count dest m (dest + i) = disk (first + i / 512) (i % 512) := by
  have hInside : dest ≤ dest + i ∧ dest + i < dest + 512 * count := by omega
  rw [Disk.transfer, if_pos hInside, Nat.add_sub_cancel_left]

theorem transfer_other {a : Nat} (ha : a < dest ∨ dest + 512 * count ≤ a) :
    disk.transfer first count dest m a = m a := by
  have hOutside : ¬(dest ≤ a ∧ a < dest + 512 * count) := by omega
  rw [Disk.transfer, if_neg hOutside]

end

/-! ## Division -/

theorem Machine.div_spec {s : Machine} {v : Word} {n d : Nat}
    (hDividend : s.dx.toNat * 65536 + s.ax.toNat = n) (hDivisor : v.toNat = d) (hPos : 0 < d)
    (hFits : n / d < 65536) :
    ∃ q r : Word, s.div v = some ((s.setAx q).setDx r) ∧ q.toNat = n / d ∧ r.toNat = n % d := by
  subst hDividend hDivisor
  have hZero : v ≠ 0 := by
    rintro rfl
    exact absurd hPos (by decide)
  have hRemainder := Nat.mod_lt (s.dx.toNat * 65536 + s.ax.toNat) hPos
  refine ⟨_, _, if_neg (not_or.mpr ⟨hZero, Nat.not_le.mpr hFits⟩), ?_, ?_⟩
  · rw [BitVec.toNat_ofNat, Nat.mod_eq_of_lt hFits]
  · rw [BitVec.toNat_ofNat, Nat.mod_eq_of_lt (Nat.lt_trans hRemainder v.isLt)]

theorem Machine.div8_eq {s : Machine} {v : Byte} (hZero : v ≠ 0) (hFits : s.ax.toNat / v.toNat < 256) :
    s.div8 v = some (s.setAx (word (BitVec.ofNat 8 (s.ax.toNat % v.toNat))
      (BitVec.ofNat 8 (s.ax.toNat / v.toNat)))) :=
  if_neg (not_or.mpr ⟨hZero, Nat.not_le.mpr hFits⟩)

/-! ## The stack -/

section
variable {s : Machine}

theorem pushN_mem {n a : Nat} (v : Nat) (hRoom : n ≤ s.sp) (ha : s.sp ≤ a) :
    (s.pushN n v).mem a = s.mem a :=
  Bytes.store_other s.mem v (Or.inr (by omega))

theorem push_mem {a : Nat} (v : Word) (hRoom : 2 ≤ s.sp) (ha : s.sp ≤ a) :
    (s.push v).mem a = s.mem a := pushN_mem v.toNat hRoom ha

/-- What has been pushed is still there when nothing has been written at or above it. -/
theorem top_of_push {t : Machine} {v : Word} (hSp : t.sp = s.sp - 2)
    (hMem : ∀ a, s.sp - 2 ≤ a → a < s.sp - 2 + 2 → t.mem a = (s.push v).mem a) : t.top = v := by
  have hLoad : Bytes.load t.mem t.sp 2 = Bytes.load (s.push v).mem (s.sp - 2) 2 := by
    rw [hSp]
    exact Bytes.load_congr hMem
  have hStore : Bytes.load (s.push v).mem (s.sp - 2) 2 = v.toNat % 256 ^ 2 := Bytes.load_store _ _ _ _
  have hLt : v.toNat < 256 ^ 2 := v.isLt
  rw [Machine.top, hLoad, hStore, Nat.mod_eq_of_lt hLt, BitVec.ofNat_toNat, BitVec.setWidth_eq]

theorem top32_of_push {t : Machine} {v : BitVec 32} (hSp : t.sp = s.sp - 4)
    (hMem : ∀ a, s.sp - 4 ≤ a → a < s.sp - 4 + 4 → t.mem a = (s.push32 v).mem a) : t.top32 = v := by
  have hLoad : Bytes.load t.mem t.sp 4 = Bytes.load (s.push32 v).mem (s.sp - 4) 4 := by
    rw [hSp]
    exact Bytes.load_congr hMem
  have hStore : Bytes.load (s.push32 v).mem (s.sp - 4) 4 = v.toNat % 256 ^ 4 := Bytes.load_store _ _ _ _
  have hLt : v.toNat < 256 ^ 4 := v.isLt
  rw [Machine.top32, hLoad, hStore, Nat.mod_eq_of_lt hLt, BitVec.ofNat_toNat, BitVec.setWidth_eq]

end

end KalinoteOS.Loader
