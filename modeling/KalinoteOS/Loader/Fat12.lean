import KalinoteOS.Loader.ReadSector

/-! # `Func_GetFATEntry`

The entries of a FAT12 table have 12 bits, two of them in three bytes. The two sectors from the first
byte of an entry on are read, as the entry may begin in one and end in the next.
-/
namespace KalinoteOS.Loader
open Lib (Bytes)
set_option autoImplicit false

/-- The constants of `fat12.inc`. -/
def rootDirSectors : Word := 14
def sectorNumOfFAT1Start : Word := 1
def sectorBalance : Word := 17
def bytesPerSec : Word := 512

namespace Machine

/-- Up to the division by 2. -/
def fatByte (s : Machine) : Option Machine := do
  let s := s.push s.es
  let s := s.push s.bx
  let s := s.push s.ax
  let s := s.setAx 0
  let s := s.setEs s.ax
  let s := (s.setAx s.top).drop 2
  s.data
  let s := s.setOdd 0
  let s := s.setBx 3
  let s := s.mul s.bx
  let s := s.setBx 2
  s.div s.bx

/-- Up to `Label_Even`. -/
def markOdd (s : Machine) : Option Machine :=
  if s.dx = 0 then some s
  else do
    s.data
    return s.setOdd 1

/-- From `Label_Even` to `mov ax, [es:bx]`. -/
def labelEven (disk : Disk) (s : Machine) : Option Machine := do
  let s := s.setDx 0
  s.data
  let s := s.setBx bytesPerSec
  let s ← s.div s.bx
  let s := s.push s.dx
  let s := s.setBx 0x8000
  let s := s.setAx (s.ax + sectorNumOfFAT1Start)
  let s := s.setCx (word (high s.cx) 2)
  let s ← funcReadOneSector disk s
  let s := (s.setDx s.top).drop 2
  let s := s.setBx (s.bx + s.dx)
  return s.setAx (s.load s.es s.bx.toNat)

/-- From `cmp byte [Odd], 1` on. -/
def labelEven2 (s : Machine) : Option Machine := do
  s.data
  let s := if s.odd = 1 then s.setAx (s.ax >>> 4) else s
  let s := s.setAx (s.ax &&& 0xFFF)
  let s := (s.setBx s.top).drop 2
  return (s.setEs s.top).drop 2

end Machine

def funcGetFATEntry (disk : Disk) (s : Machine) : Option Machine := do
  let s ← s.fatByte
  let s ← s.markOdd
  let s ← s.labelEven disk
  s.labelEven2

/-! ## The packed table -/

/-- Entry `c`: the entries `2k` and `2k + 1` share the three bytes from `3k` on. -/
def packedEntry (table : Bytes) (c : Nat) : Nat :=
  Bytes.load table (3 * (c / 2)) 3 / 4096 ^ (c % 2) % 4096

/-- The first table of the disk. -/
def fatTable (disk : Disk) : Bytes := fun i => disk (1 + i / 512) (i % 512)

theorem packedEntry_even {table : Bytes} {c : Nat} (h : c % 2 = 0) :
    packedEntry table c = Bytes.load table (c * 3 / 2) 2 % 4096 := by
  have hStart : c * 3 / 2 = 3 * (c / 2) := by omega
  rw [packedEntry, h, hStart, Nat.pow_zero, Nat.div_one]
  simp only [Bytes.load]
  omega

theorem packedEntry_odd {table : Bytes} {c : Nat} (h : c % 2 = 1) :
    packedEntry table c = Bytes.load table (c * 3 / 2) 2 / 16 := by
  have hStart : c * 3 / 2 = 3 * (c / 2) + 1 := by omega
  have hFirst := (table (3 * (c / 2))).isLt
  have hMiddle := (table (3 * (c / 2) + 1)).isLt
  have hLast := (table (3 * (c / 2) + 1 + 1)).isLt
  rw [packedEntry, h, hStart, Nat.pow_one]
  simp only [Bytes.load]
  omega

/-! ## What it returns -/

section
variable {s : Machine} (disk : Disk)

/-- The byte where entry `ax` begins, and the remainder by 2 as the mark of the odd entries. -/
theorem fatByte_spec (hDs : s.ds = loaderSegment) (hAx : s.ax.toNat < 3072) :
    ∃ t, s.fatByte = some t ∧ t.ax.toNat = s.ax.toNat * 3 / 2 ∧ t.dx.toNat = s.ax.toNat % 2 ∧
      t.odd = 0 ∧ t.sp = s.sp - 2 - 2 - 2 + 2 ∧ t.ds = s.ds ∧ t.es = 0 ∧
      t.offsetOfKernelFileCount = s.offsetOfKernelFileCount ∧
      t.mem = (((s.push s.es).push s.bx).push s.ax).mem := by
  obtain ⟨p, hp⟩ : ∃ p, p = ((((s.push s.es).push s.bx).push s.ax).setAx 0).setEs 0 := ⟨_, rfl⟩
  obtain ⟨u, hu⟩ : ∃ u, u = (((((p.setAx p.top).drop 2).setOdd 0).setBx 3).mul 3).setBx 2 := ⟨_, rfl⟩
  have hTop : p.top = s.ax := by
    rw [hp]
    exact top_of_push rfl fun _ _ _ => rfl
  have hRun : s.fatByte = u.div 2 := by
    rw [hu, hp]
    exact run_bind (data_eq hDs)
  have hSmall : s.ax.toNat * 3 < 2 ^ 16 := by omega
  have hUAx : u.ax.toNat = s.ax.toNat * 3 := by
    rw [hu, Machine.setBx_ax, Machine.mul_ax, Machine.setBx_ax, Machine.setOdd_ax, Machine.drop_ax,
      Machine.setAx_ax, hTop, BitVec.toNat_ofNat]
    exact Nat.mod_eq_of_lt hSmall
  have hUDx : u.dx.toNat = 0 := by
    rw [hu, Machine.setBx_dx, Machine.mul_dx, Machine.setBx_ax, Machine.setOdd_ax, Machine.drop_ax,
      Machine.setAx_ax, hTop, BitVec.toNat_ofNat]
    exact congrArg (· % 2 ^ 16) (Nat.div_eq_of_lt hSmall)
  have hDividend : u.dx.toNat * 65536 + u.ax.toNat = s.ax.toNat * 3 := by
    rw [hUAx, hUDx, Nat.zero_mul, Nat.zero_add]
  obtain ⟨q, r, hDiv, hQuotient, hRemainder⟩ := Machine.div_spec (v := 2) (d := 2) hDividend rfl
    (by decide) (by omega)
  refine ⟨_, hRun.trans hDiv, hQuotient, hRemainder.trans (by omega), ?_, ?_, ?_, ?_, ?_, ?_⟩
  all_goals
    subst hu hp
    rfl

theorem markOdd_spec (hDs : s.ds = loaderSegment) (hOdd : s.odd = 0) (hDx : s.dx.toNat < 2) :
    ∃ o : Byte, s.markOdd = some (s.setOdd o) ∧ o.toNat = s.dx.toNat := by
  unfold Machine.markOdd
  by_cases hEven : s.dx = 0
  · refine ⟨s.odd, if_pos hEven, ?_⟩
    rw [hOdd, hEven]
    rfl
  · have hNat : s.dx.toNat ≠ 0 := fun h => hEven (BitVec.eq_of_toNat_eq h)
    have hOne : (1 : Byte).toNat = s.dx.toNat := by
      show 1 = _
      omega
    exact ⟨1, (if_neg hEven).trans (run_bind (data_eq hDs)), hOne⟩

/-- The sector `ax` of the table and the one after it are read, with `dx` on the stack. -/
theorem readTable_spec (hDs : s.ds = loaderSegment) (hEs : s.es = 0) (hLow : 8 ≤ s.sp)
    (hHigh : s.sp ≤ 0x7C00) (hAx : s.ax.toNat < 9) (hDx : s.dx.toNat < 512) :
    ∃ t, funcReadOneSector disk ((((s.push s.dx).setBx 0x8000).setAx (s.ax + sectorNumOfFAT1Start)).setCx
        (word (high s.cx) 2)) = some t ∧ t.top = s.dx ∧ t.bx = 0x8000 ∧ t.es = 0 ∧ t.odd = s.odd ∧
      t.sp = s.sp - 2 ∧ t.ds = s.ds ∧ t.offsetOfKernelFileCount = s.offsetOfKernelFileCount ∧
      (∀ x < 2, t.mem (0x8000 + s.dx.toNat + x) =
        fatTable disk (512 * s.ax.toNat + s.dx.toNat + x)) ∧
      ∀ a, s.sp ≤ a → a < 0x8000 ∨ 0x8400 ≤ a → t.mem a = s.mem a := by
  obtain ⟨u, hu⟩ : ∃ u, u = (((s.push s.dx).setBx 0x8000).setAx (s.ax + sectorNumOfFAT1Start)).setCx
    (word (high s.cx) 2) := ⟨_, rfl⟩
  have hSp : u.sp = s.sp - 2 := by
    rw [hu]
    rfl
  have hStack : u.mem = (s.push s.dx).mem := by
    rw [hu]
    rfl
  have hEsU : u.es = 0 := by
    rw [hu]
    exact hEs
  have hBx : u.bx = 0x8000 := by rw [hu, Machine.setCx_bx, Machine.setAx_bx, Machine.setBx_bx]
  have hDest : physical u.es u.bx.toNat = 0x8000 := by
    rw [hEsU, hBx, physical_zero]
    rfl
  have hSector : u.ax.toNat = s.ax.toNat + 1 := by
    have hOne : sectorNumOfFAT1Start.toNat = 1 := rfl
    rw [hu, Machine.setCx_ax, Machine.setAx_ax, BitVec.toNat_add, hOne]
    omega
  have hCount : (low u.cx).toNat = 2 := by
    rw [hu, Machine.setCx_cx, low_word]
    rfl
  obtain ⟨t, hRead, hKept, hMem⟩ := funcReadOneSector_spec (s := u) disk (by rw [hu]; exact hDs) (by omega)
    (by omega) (by omega) (by omega) (by omega)
  rw [hDest, hCount, hSector] at hMem
  have hOut : ∀ a, s.sp - 2 ≤ a → a < 0x8000 ∨ 0x8400 ≤ a → t.mem a = (s.push s.dx).mem a := by
    intro a ha hOther
    rw [hMem a (by omega), transfer_other hOther, hStack]
  refine ⟨t, hu ▸ hRead, ?_, hKept.bx.trans hBx, hKept.es.trans hEsU, ?_, hKept.sp.trans hSp, ?_, ?_, ?_, ?_⟩
  · exact top_of_push (hKept.sp.trans hSp) fun a hLo hHi => hOut a hLo (by omega)
  · rw [hKept.odd, hu]
    rfl
  · rw [hKept.ds, hu]
    rfl
  · rw [hKept.offset, hu]
    rfl
  · intro x hx
    have hLba : s.ax.toNat + 1 + (s.dx.toNat + x) / 512 =
        1 + (512 * s.ax.toNat + s.dx.toNat + x) / 512 := by omega
    have hByte : (s.dx.toNat + x) % 512 = (512 * s.ax.toNat + s.dx.toNat + x) % 512 := by omega
    rw [hMem _ (by omega), Nat.add_assoc, transfer_at (by omega), hLba, hByte]
    rfl
  · intro a ha hOther
    rw [hOut a (by omega) hOther, push_mem s.dx (by omega) ha]

/-- The two bytes of the table from byte `ax` on, wherever the border of the sectors is. -/
theorem labelEven_spec (hDs : s.ds = loaderSegment) (hEs : s.es = 0) (hLow : 8 ≤ s.sp)
    (hHigh : s.sp ≤ 0x7C00) (hAx : s.ax.toNat < 4608) :
    ∃ t, s.labelEven disk = some t ∧ t.ax.toNat = Bytes.load (fatTable disk) s.ax.toNat 2 ∧
      t.odd = s.odd ∧ t.sp = s.sp ∧ t.ds = s.ds ∧
      t.offsetOfKernelFileCount = s.offsetOfKernelFileCount ∧
      ∀ a, s.sp ≤ a → a < 0x8000 ∨ 0x8400 ≤ a → t.mem a = s.mem a := by
  obtain ⟨u, hu⟩ : ∃ u, u = (s.setDx 0).setBx bytesPerSec := ⟨_, rfl⟩
  have hDividend : u.dx.toNat * 65536 + u.ax.toNat = s.ax.toNat := by
    have hZero : (0 : Word).toNat = 0 := rfl
    rw [hu, Machine.setBx_dx, Machine.setDx_dx, hZero, Nat.zero_mul, Nat.zero_add]
    rfl
  obtain ⟨q, r, hDiv, hQuotient, hRemainder⟩ := Machine.div_spec (v := bytesPerSec) (d := 512) hDividend rfl
    (by decide) (by omega)
  rw [hu] at hDiv
  obtain ⟨t, hRead, hTop, hBx, hEsT, hOdd, hSp, hDsT, hOffset, hIn, hOut⟩ := readTable_spec disk
    (s := (((s.setDx 0).setBx bytesPerSec).setAx q).setDx r) hDs hEs hLow hHigh
    (by rw [Machine.setDx_ax, Machine.setAx_ax]; omega) (by rw [Machine.setDx_dx]; omega)
  have hPlace : 512 * q.toNat + r.toNat = s.ax.toNat := by omega
  have hPointer : (t.bx + t.top).toNat = 0x8000 + r.toNat := by
    have hStart : (0x8000 : Word).toNat = 0x8000 := rfl
    rw [hBx, hTop, Machine.setDx_dx, BitVec.toNat_add, hStart]
    omega
  obtain ⟨v, hv⟩ : ∃ v, v = ((t.setDx t.top).drop 2).setBx (t.bx + t.top) := ⟨_, rfl⟩
  have hBytes : Bytes.load v.mem (physical v.es v.bx.toNat) 2 = Bytes.load (fatTable disk) s.ax.toNat 2 := by
    have hEsV : v.es = 0 := by
      rw [hv]
      exact hEsT
    have hBxV : v.bx.toNat = 0x8000 + r.toNat := by rw [hv, Machine.setBx_bx, hPointer]
    rw [hEsV, hBxV, physical_zero, ← hPlace]
    refine Bytes.load_window fun x hx => ?_
    rw [hv]
    exact hIn x hx
  refine ⟨v.setAx (v.load v.es v.bx.toNat), ?_, ?_, ?_, ?_, ?_, ?_, ?_⟩
  · rw [hv]
    exact (run_bind (data_eq hDs)).trans ((run_bind hDiv).trans (run_bind hRead))
  · rw [Machine.setAx_ax, Machine.load, hBytes, BitVec.toNat_ofNat]
    exact Nat.mod_eq_of_lt (Bytes.load_lt _ _ _)
  · rw [hv]
    exact hOdd
  · have hBack : t.sp + 2 = s.sp := by
      rw [hSp]
      show s.sp - 2 + 2 = s.sp
      omega
    rw [hv]
    exact hBack
  · rw [hv]
    exact hDsT
  · rw [hv]
    exact hOffset
  · intro a ha hOther
    rw [hv]
    exact hOut a ha hOther

/-- The lower or the upper 12 bits of the two bytes, and the registers from the stack. -/
theorem labelEven2_spec {table : Bytes} {c : Nat} {es bx : Word} (hDs : s.ds = loaderSegment)
    (hOdd : s.odd.toNat = c % 2) (hAx : s.ax.toNat = Bytes.load table (c * 3 / 2) 2) (hBx : s.top = bx)
    (hEs : (s.drop 2).top = es) :
    ∃ t, s.labelEven2 = some t ∧ t.ax.toNat = packedEntry table c ∧ t.bx = bx ∧ t.es = es ∧
      t.sp = s.sp + 4 ∧ t.ds = s.ds ∧ t.offsetOfKernelFileCount = s.offsetOfKernelFileCount ∧
      t.mem = s.mem := by
  obtain ⟨w, hw⟩ : ∃ w, w = if s.odd = 1 then s.ax >>> 4 else s.ax := ⟨_, rfl⟩
  have hEntry : (w &&& 0xFFF).toNat = packedEntry table c := by
    have hMask : (0xFFF : Word).toNat = 2 ^ 12 - 1 := rfl
    rw [hw, BitVec.toNat_and, hMask, Nat.and_two_pow_sub_one_eq_mod]
    obtain hEven | hUneven := Nat.mod_two_eq_zero_or_one c
    · have hNot : s.odd ≠ 1 := by
        intro h
        rw [h, hEven] at hOdd
        exact absurd hOdd (by decide)
      rw [if_neg hNot, hAx, packedEntry_even hEven]
    · have hYes : s.odd = 1 := by
        apply BitVec.eq_of_toNat_eq
        rw [hOdd, hUneven]
        rfl
      have hLt := Bytes.load_lt table (c * 3 / 2) 2
      rw [if_pos hYes, BitVec.toNat_ushiftRight, hAx, Nat.shiftRight_eq_div_pow, packedEntry_odd hUneven]
      omega
  have hShift : (if s.odd = 1 then s.setAx (s.ax >>> 4) else s) = s.setAx w := by
    rw [hw]
    split
    · rfl
    · rfl
  obtain ⟨t, ht⟩ : ∃ t, t = (((s.setAx (w &&& 0xFFF)).setBx s.top).drop 2).setEs (s.drop 2).top :=
    ⟨_, rfl⟩
  refine ⟨t.drop 2, ?_, ?_, ?_, ?_, ?_, ?_, ?_, ?_⟩
  · unfold Machine.labelEven2
    rw [run_bind (data_eq hDs), hShift, ht]
    rfl
  · rw [ht]
    exact hEntry
  · rw [ht]
    exact hBx
  · rw [ht]
    exact hEs
  all_goals
    subst ht
    rfl

/-- The entry of the cluster `ax`; the stack and the registers of the caller are as they were. -/
theorem funcGetFATEntry_spec (hDs : s.ds = loaderSegment) (hLow : 16 ≤ s.sp) (hHigh : s.sp ≤ 0x7C00)
    (hAx : s.ax.toNat < 3072) :
    ∃ t, funcGetFATEntry disk s = some t ∧ t.ax.toNat = packedEntry (fatTable disk) s.ax.toNat ∧
      t.bx = s.bx ∧ t.es = s.es ∧ t.sp = s.sp ∧ t.ds = s.ds ∧
      t.offsetOfKernelFileCount = s.offsetOfKernelFileCount ∧
      ∀ a, s.sp ≤ a → a < 0x8000 ∨ 0x8400 ≤ a → t.mem a = s.mem a := by
  obtain ⟨t₁, hByte, hAx₁, hDx₁, hOdd₁, hSp₁, hDs₁, hEs₁, hOffset₁, hMem₁⟩ := fatByte_spec hDs hAx
  obtain ⟨o, hMark, ho⟩ := markOdd_spec (hDs₁.trans hDs) hOdd₁ (by omega)
  obtain ⟨t₂, hRead, hAx₂, hOdd₂, hSp₂, hDs₂, hOffset₂, hMem₂⟩ := labelEven_spec (s := t₁.setOdd o)
    disk (hDs₁.trans hDs) hEs₁ (by rw [Machine.setOdd_sp]; omega) (by rw [Machine.setOdd_sp]; omega)
    (by rw [Machine.setOdd_ax]; omega)
  rw [Machine.setOdd_sp] at hSp₂ hMem₂
  -- What the lookup has pushed outlives the read.
  have hStack : ∀ a, s.sp - 2 - 2 ≤ a → a < 0x8000 ∨ 0x8400 ≤ a →
      t₂.mem a = ((s.push s.es).push s.bx).mem a := by
    intro a ha hOther
    rw [hMem₂ a (by omega) hOther, Machine.setOdd_mem, hMem₁]
    refine push_mem s.ax ?_ ?_
    · show 2 ≤ s.sp - 2 - 2
      omega
    · exact ha
  have hBx : t₂.top = s.bx := by
    refine top_of_push (s := s.push s.es) ?_ fun a hLo hHi => ?_
    · rw [Machine.push_sp]
      omega
    · rw [Machine.push_sp] at hLo hHi
      exact hStack a hLo (by omega)
  have hEs : (t₂.drop 2).top = s.es := by
    refine top_of_push (s := s) ?_ fun a hLo hHi => ?_
    · rw [Machine.drop_sp]
      omega
    · rw [Machine.drop_mem, hStack a (by omega) (by omega)]
      refine push_mem s.bx ?_ hLo
      rw [Machine.push_sp]
      omega
  have hMark₂ : t₂.odd.toNat = s.ax.toNat % 2 := by
    rw [hOdd₂, Machine.setOdd_odd, ho, hDx₁]
  have hBytes : t₂.ax.toNat = Bytes.load (fatTable disk) (s.ax.toNat * 3 / 2) 2 := by
    rw [hAx₂, Machine.setOdd_ax, hAx₁]
  have hData₂ : t₂.ds = s.ds := by rw [hDs₂, Machine.setOdd_ds, hDs₁]
  obtain ⟨t, hLast, hAx', hBx', hEs', hSp', hDs', hOffset', hMem'⟩ := labelEven2_spec (hData₂.trans hDs)
    hMark₂ hBytes hBx hEs
  refine ⟨t, ?_, hAx', hBx', hEs', by omega, hDs'.trans hData₂, ?_, fun a ha hOther => ?_⟩
  · exact (run_bind hByte).trans ((run_bind hMark).trans ((run_bind hRead).trans hLast))
  · rw [hOffset', hOffset₂, Machine.setOdd_offsetOfKernelFileCount, hOffset₁]
  · rw [hMem', hStack a (by omega) hOther, push_mem s.bx _ _, push_mem s.es (by omega) ha]
    · rw [Machine.push_sp]
      omega
    · rw [Machine.push_sp]
      omega

end

end KalinoteOS.Loader
