import KalinoteOS.Loader.KernelFile

/-! # The search of the root directory

From `Lable_Search_In_Root_Dir_Begin` to `Label_FileName_Found` or `Label_No_LoaderBin`. `RootDirSizeForLoop`
and `SectorNo` are arguments; `nameAt` is the offset of `KernelFileName`.
-/
namespace KalinoteOS.Loader
open Lib (Bytes chain length_le_card upper_or_lower)
set_option autoImplicit false

/-- `SectorNumOfRootDirStart` of `fat12.inc`. -/
def sectorNumOfRootDirStart : Word := 19

/-- `KernelFileName` without its NUL. -/
def kernelFileName : List Byte := [75, 69, 82, 78, 69, 76, 32, 32, 66, 73, 78]

namespace Machine

def si (s : Machine) : Word := s.esi.setWidth 16

def di (s : Machine) : Word := s.edi.setWidth 16

@[simps!] def setSi (s : Machine) (v : Word) : Machine := s.setEsi (s.esi &&& 0xFFFF0000 ||| v.setWidth 32)

@[simps!] def setDi (s : Machine) (v : Word) : Machine := s.setEdi (s.edi &&& 0xFFFF0000 ||| v.setWidth 32)

/-- `lodsb`; `cld` has been executed. -/
def lodsb (s : Machine) : Machine :=
  let s := s.setAx (word (high s.ax) (s.mem (physical s.ds s.si.toNat)))
  s.setSi (s.si + 1)

/-- `Label_Different`. -/
def labelDifferent (nameAt : Word) (s : Machine) : Machine :=
  let s := s.setDi (s.di &&& 0xFFE0)
  let s := s.setDi (s.di + 0x20)
  s.setSi nameAt

end Machine

/-- `Label_Cmp_FileName` and `Label_Go_On`, with `cx` characters to go: whether they lead to
`Label_FileName_Found`, and else to `Label_Different`. -/
def labelCmpFileName : Nat → Machine → Bool × Machine
  | 0, s => (true, s)
  | cx + 1, s =>
    let s := s.setCx (BitVec.ofNat 16 cx)
    let s := s.lodsb
    if low s.ax = s.mem (physical s.es s.di.toNat) then labelCmpFileName cx (s.setDi (s.di + 1))
    else (false, s)

/-- `Label_Search_For_LoaderBin`, with `dx` entries to go, behind which is
`Label_Goto_Next_Sector_In_Root_Dir`. -/
def labelSearchForLoaderBin (nameAt : Word) : Nat → Machine → Bool × Machine
  | 0, s => (false, s)
  | dx + 1, s =>
    let s := s.setDx (BitVec.ofNat 16 dx)
    let s := s.setCx 11
    let r := labelCmpFileName 11 s
    if r.1 then r else labelSearchForLoaderBin nameAt dx (r.2.labelDifferent nameAt)

/-- `Lable_Search_In_Root_Dir_Begin`. -/
def lableSearchInRootDirBegin (disk : Disk) (nameAt : Word) : Nat → Word → Machine → Option (Bool × Machine)
  | 0, _, s => do
    s.data
    return (false, s)
  | rootDirSizeForLoop + 1, sectorNo, s => do
    s.data
    let s := s.setAx 0
    let s := s.setEs s.ax
    let s := s.setBx 0x8000
    let s := s.setAx sectorNo
    let s := s.setCx (word (high s.cx) 1)
    let s ← funcReadOneSector disk s
    let s := s.setSi nameAt
    let s := s.setDi 0x8000
    let s := s.setDx 0x10
    let r := labelSearchForLoaderBin nameAt 16 s
    if r.1 then return r
    else
      r.2.data
      lableSearchInRootDirBegin disk nameAt rootDirSizeForLoop (sectorNo + 1) r.2

/-- From the search up to `Label_File_Loaded`. There is no machine when it stops at `Label_No_LoaderBin`. -/
def loadKernel (disk : Disk) (nameAt : Word) (fuel : Nat) (s : Machine) : Option (Option Machine) := do
  s.data
  let r ← lableSearchInRootDirBegin disk nameAt rootDirSectors.toNat sectorNumOfRootDirStart s
  if r.1 then
    let s ← labelFileNameFound disk fuel r.2
    return some s
  else return none

/-! ## One entry -/

/-- The name of the kernel is at `a`. -/
def IsName (m : Bytes) (a : Nat) : Prop := ∀ j < 11, m (a + j) = kernelFileName.getD j 0

instance (m : Bytes) (a : Nat) : Decidable (IsName m a) := inferInstanceAs (Decidable (∀ j < 11, _))

/-- What the search leaves alone. -/
structure Scanning (s t : Machine) : Prop extends Spared s t where
  mem : t.mem = s.mem

namespace Scanning
variable {s t u : Machine}

theorem refl (s : Machine) : Scanning s s := ⟨⟨rfl, rfl, rfl, rfl, rfl⟩, rfl⟩

theorem trans (h : Scanning s t) (h' : Scanning t u) : Scanning s u :=
  ⟨h.toSpared.trans h'.toSpared, h'.mem.trans h.mem⟩

end Scanning

section
variable {s : Machine}

theorem setWidth_low (e : BitVec 32) (v : Word) : (e &&& 0xFFFF0000 ||| v.setWidth 32).setWidth 16 = v := by
  have hMask : ∀ i < 16, (0xFFFF0000 : BitVec 32).getLsbD i = false := by decide
  apply BitVec.eq_of_getLsbD_eq
  intro i hi
  have hClear := hMask i hi
  rw [BitVec.getLsbD_setWidth, BitVec.getLsbD_or, BitVec.getLsbD_and, hClear, Bool.and_false, Bool.false_or,
    BitVec.getLsbD_setWidth]
  simp [hi, Nat.lt_trans hi (by decide : 16 < 32)]

@[simp] theorem si_setSi (v : Word) : (s.setSi v).si = v := setWidth_low _ v

@[simp] theorem di_setDi (v : Word) : (s.setDi v).di = v := setWidth_low _ v

@[simp] theorem di_setSi (v : Word) : (s.setSi v).di = s.di := rfl

@[simp] theorem si_setDi (v : Word) : (s.setDi v).si = s.si := rfl

theorem directoryEntry_eq : directoryEntry s = s.di.toNat / 32 * 32 := by
  rw [directoryEntry, Machine.di, BitVec.toNat_setWidth]

theorem toNat_succ {v : Word} {n : Nat} (hv : v.toNat = n) (hLt : n + 1 < 65536) : (v + 1).toNat = n + 1 := by
  have hOne : (1 : Word).toNat = 1 := rfl
  rw [BitVec.toNat_add, hv, hOne, Nat.mod_eq_of_lt hLt]

/-- The characters from `i` on are compared with those behind `d + i`. -/
theorem labelCmpFileName_spec {nameAt n i d : Nat} (hCount : i + n = 11)
    (hName : IsName s.mem (physical s.ds nameAt)) (hEnd : nameAt + 11 < 65536) (hSi : s.si.toNat = nameAt + i)
    (hDi : s.di.toNat = d + i) (hLast : d + 11 < 65536) :
    Scanning s (labelCmpFileName n s).2 ∧
      ((labelCmpFileName n s).1 = true ↔
        ∀ j, i ≤ j → j < 11 → s.mem (physical s.es (d + j)) = kernelFileName.getD j 0) ∧
      d ≤ (labelCmpFileName n s).2.di.toNat ∧ (labelCmpFileName n s).2.di.toNat ≤ d + 11 := by
  induction n generalizing s i with
  | zero =>
    refine ⟨Scanning.refl s, iff_of_true rfl fun j hFrom hTo => absurd hTo (by omega), ?_, ?_⟩
    · show d ≤ s.di.toNat
      omega
    · show s.di.toNat ≤ d + 11
      omega
  | succ n ih =>
    obtain ⟨u, hu⟩ : ∃ u, u = (s.setCx (BitVec.ofNat 16 n)).lodsb := ⟨_, rfl⟩
    have hScan : Scanning s u := by
      rw [hu]
      exact ⟨⟨rfl, rfl, rfl, rfl, rfl⟩, rfl⟩
    have hDiU : u.di = s.di := by
      rw [hu]
      rfl
    have hSiU : u.si = s.si + 1 := by
      rw [hu]
      exact setWidth_low _ _
    have hChar : low u.ax = kernelFileName.getD i 0 := by
      have hByte := hName i (by omega)
      have hPlace : physical s.ds nameAt + i = physical s.ds s.si.toNat := by
        rw [hSi, physical, physical, Nat.add_assoc]
      rw [← hByte, hPlace, hu]
      exact low_word _ _
    have hRun : labelCmpFileName (n + 1) s = if low u.ax = u.mem (physical u.es u.di.toNat) then
        labelCmpFileName n (u.setDi (u.di + 1)) else (false, u) := by
      rw [hu]
      rfl
    rw [hChar, hScan.mem, hScan.es, hDiU, hDi] at hRun
    rw [hRun]
    by_cases hSame : kernelFileName.getD i 0 = s.mem (physical s.es (d + i))
    · have hSiNext : (s.si + 1).toNat = nameAt + i + 1 := toNat_succ hSi (by omega)
      have hDiNext : (s.di + 1).toNat = d + i + 1 := toNat_succ hDi (by omega)
      rw [if_pos hSame]
      have hMore : Scanning s (u.setDi (s.di + 1)) := hScan.trans ⟨⟨rfl, rfl, rfl, rfl, rfl⟩, rfl⟩
      obtain ⟨hRest, hIff, hLow, hHigh⟩ := ih (s := u.setDi (s.di + 1)) (i := i + 1) (by omega)
        (by rw [hMore.mem, hMore.ds]; exact hName) (by rw [si_setDi, hSiU]; exact hSiNext)
        (by rw [di_setDi]; exact hDiNext)
      rw [hMore.mem, hMore.es] at hIff
      refine ⟨hMore.trans hRest, hIff.trans ⟨fun h j hFrom hTo => ?_, fun h j hFrom hTo => h j (by omega) hTo⟩,
        hLow, hHigh⟩
      obtain rfl | hLt := Nat.eq_or_lt_of_le hFrom
      · exact hSame.symm
      · exact h j hLt hTo
    · rw [if_neg hSame]
      refine ⟨hScan, iff_of_false (by simp) fun h => hSame (h i (Nat.le_refl i) (by omega)).symm, ?_, ?_⟩
      · rw [hDiU]
        omega
      · rw [hDiU]
        omega

/-- The next entry starts 32 bytes behind this one. -/
theorem labelDifferent_spec {nameAt : Word} {d : Nat} (hStart : d % 32 = 0) (hLow : d ≤ s.di.toNat)
    (hHigh : s.di.toNat ≤ d + 11) (hRoom : d + 32 < 65536) :
    Scanning s (s.labelDifferent nameAt) ∧ (s.labelDifferent nameAt).si = nameAt ∧
      (s.labelDifferent nameAt).di.toNat = d + 32 := by
  have hEntry : (s.di &&& 0xFFE0).toNat = d := by
    have hMask : (0xFFE0 : Word).toNat = (2 ^ 11 - 1) <<< 5 := rfl
    have hRound : s.di.toNat &&& (2 ^ 11 - 1) <<< 5 ||| 0 = s.di.toNat / 2 ^ 5 * 2 ^ 5 + 0 :=
      upper_or_lower (by have hLt := s.di.isLt; omega) (by decide)
    rw [Nat.or_zero, Nat.add_zero] at hRound
    rw [BitVec.toNat_and, hMask, hRound]
    omega
  have hDi : (s.labelDifferent nameAt).di = (s.di &&& 0xFFE0) + 0x20 := by
    unfold Machine.labelDifferent
    dsimp only
    rw [di_setSi, di_setDi, di_setDi]
  have hSize : (0x20 : Word).toNat = 32 := rfl
  refine ⟨⟨⟨rfl, rfl, rfl, rfl, rfl⟩, rfl⟩, setWidth_low _ _, ?_⟩
  rw [hDi, BitVec.toNat_add, hEntry, hSize, Nat.mod_eq_of_lt hRoom]

/-- The entries of the buffer from the `k`-th on. -/
theorem labelSearchForLoaderBin_spec {nameAt : Word} {n k : Nat} (hCount : k + n = 16) (hEs : s.es = 0)
    (hName : IsName s.mem (physical s.ds nameAt.toNat)) (hEnd : nameAt.toNat + 11 < 65536) (hSi : s.si = nameAt)
    (hDi : s.di.toNat = 0x8000 + 32 * k) :
    Scanning s (labelSearchForLoaderBin nameAt n s).2 ∧
      ((labelSearchForLoaderBin nameAt n s).1 = true → ∃ j, k ≤ j ∧ j < 16 ∧ IsName s.mem (0x8000 + 32 * j) ∧
        (∀ i, k ≤ i → i < j → ¬IsName s.mem (0x8000 + 32 * i)) ∧
        directoryEntry (labelSearchForLoaderBin nameAt n s).2 = 0x8000 + 32 * j) ∧
      ((labelSearchForLoaderBin nameAt n s).1 = false → ∀ j, k ≤ j → j < 16 →
        ¬IsName s.mem (0x8000 + 32 * j)) := by
  induction n generalizing s k with
  | zero =>
    refine ⟨Scanning.refl s, fun hTrue => absurd hTrue Bool.false_ne_true, fun _ j hFrom hTo => ?_⟩
    exact absurd hTo (by omega)
  | succ n ih =>
    obtain ⟨u, hu⟩ : ∃ u, u = (s.setDx (BitVec.ofNat 16 n)).setCx 11 := ⟨_, rfl⟩
    have hScan : Scanning s u := by
      rw [hu]
      exact ⟨⟨rfl, rfl, rfl, rfl, rfl⟩, rfl⟩
    have hSiU : u.si = s.si := by
      rw [hu]
      rfl
    have hDiU : u.di = s.di := by
      rw [hu]
      rfl
    obtain ⟨hCmp, hIff, hLow, hHigh⟩ := @labelCmpFileName_spec u nameAt.toNat 11 0 (0x8000 + 32 * k)
      (Nat.zero_add 11) (by rw [hScan.mem, hScan.ds]; exact hName) hEnd (by rw [hSiU, hSi, Nat.add_zero])
      (by rw [hDiU, hDi, Nat.add_zero]) (by omega)
    have hHere : (labelCmpFileName 11 u).1 = true ↔ IsName s.mem (0x8000 + 32 * k) := by
      rw [hIff, hScan.mem, hScan.es, hEs]
      simp only [physical_zero]
      exact ⟨fun h j hj => h j (Nat.zero_le j) hj, fun h j _ hj => h j hj⟩
    have hRun : labelSearchForLoaderBin nameAt (n + 1) s = if (labelCmpFileName 11 u).1 then labelCmpFileName 11 u
        else labelSearchForLoaderBin nameAt n ((labelCmpFileName 11 u).2.labelDifferent nameAt) := by
      rw [hu]
      rfl
    rw [hRun]
    by_cases hFound : (labelCmpFileName 11 u).1 = true
    · rw [if_pos hFound]
      refine ⟨hScan.trans hCmp, fun _ => ⟨k, Nat.le_refl k, by omega, hHere.mp hFound, fun i hFrom hTo => ?_, ?_⟩,
        fun hNone => ?_⟩
      · exact absurd hTo (Nat.not_lt.mpr hFrom)
      · rw [directoryEntry_eq]
        omega
      · rw [hFound] at hNone
        cases hNone
    · rw [if_neg hFound]
      have hNot : ¬IsName s.mem (0x8000 + 32 * k) := fun h => hFound (hHere.mpr h)
      obtain ⟨hNext, hSiNext, hDiNext⟩ := @labelDifferent_spec (labelCmpFileName 11 u).2 nameAt (0x8000 + 32 * k)
        (by omega) hLow hHigh (by omega)
      have hAll := (hScan.trans hCmp).trans hNext
      obtain ⟨hRest, hSome, hNone⟩ := ih (s := (labelCmpFileName 11 u).2.labelDifferent nameAt) (k := k + 1)
        (by omega)
        (hAll.es.trans hEs) (by rw [hAll.mem, hAll.ds]; exact hName) hSiNext
        (by rw [hDiNext, Nat.mul_succ, Nat.add_assoc])
      rw [hAll.mem] at hSome hNone
      refine ⟨hAll.trans hRest, fun hTrue => ?_, fun hFalse j hFrom hTo => ?_⟩
      · obtain ⟨j, hFrom, hTo, hIs, hBefore, hEntry⟩ := hSome hTrue
        refine ⟨j, Nat.le_of_succ_le hFrom, hTo, hIs, fun i hi hLt => ?_, hEntry⟩
        obtain rfl | hMore := Nat.eq_or_lt_of_le hi
        · exact hNot
        · exact hBefore i hMore hLt
      · obtain rfl | hMore := Nat.eq_or_lt_of_le hFrom
        · exact hNot
        · exact hNone hFalse j hMore hTo

end

/-! ## All sectors -/

/-- Entry `k` of the root directory has the name of the kernel. -/
def RootName (disk : Disk) (k : Nat) : Prop := IsName (disk (19 + k / 16)) (32 * (k % 16))

instance (disk : Disk) (k : Nat) : Decidable (RootName disk k) := inferInstanceAs (Decidable (IsName _ _))

/-- The first cluster in entry `k`. -/
def rootCluster (disk : Disk) (k : Nat) : Nat := Bytes.load (disk (19 + k / 16)) (32 * (k % 16) + 0x1A) 2

/-- What the search returns when `done` of the 14 sectors had been searched. -/
structure SearchEnds (disk : Disk) (done : Nat) (s : Machine) (r : Bool × Machine) : Prop where
  ds : r.2.ds = loaderSegment
  sp : r.2.sp = s.sp
  offset : r.2.offsetOfKernelFileCount = s.offsetOfKernelFileCount
  mem : ∀ a, s.sp ≤ a → a < 0x8000 ∨ 0x8200 ≤ a → r.2.mem a = s.mem a
  found : r.1 = true → r.2.es = 0 ∧ ∃ k, 16 * done ≤ k ∧ k < 224 ∧ RootName disk k ∧
    (∀ i, 16 * done ≤ i → i < k → ¬RootName disk i) ∧ firstCluster r.2 = rootCluster disk k
  missing : r.1 = false → ∀ k, 16 * done ≤ k → k < 224 → ¬RootName disk k

section
variable {s : Machine} (disk : Disk)

theorem rootName_iff {m : Bytes} {done j : Nat} (hBuffer : ∀ i < 512, m (0x8000 + i) = disk (19 + done) i)
    (hj : j < 16) :
    IsName m (0x8000 + 32 * j) ↔ RootName disk (16 * done + j) := by
  have hSector : (16 * done + j) / 16 = done := by omega
  have hEntry : (16 * done + j) % 16 = j := by omega
  unfold RootName IsName
  rw [hSector, hEntry]
  refine forall_congr' fun i => forall_congr' fun hi => ?_
  rw [Nat.add_assoc, hBuffer _ (by omega)]

/-- One sector is read. -/
theorem readRootSector_spec {done : Nat} {sectorNo : Word} (hSector : sectorNo.toNat = 19 + done)
    (hDone : done < 14)
    (hDs : s.ds = loaderSegment) (hLow : 64 ≤ s.sp) (hHigh : s.sp ≤ 0x7C00) :
    ∃ t, funcReadOneSector disk (((((s.setAx 0).setEs 0).setBx 0x8000).setAx sectorNo).setCx
      (word (high s.cx) 1)) = some t ∧
      t.ds = loaderSegment ∧ t.es = 0 ∧ t.sp = s.sp ∧ t.offsetOfKernelFileCount = s.offsetOfKernelFileCount ∧
      (∀ i < 512, t.mem (0x8000 + i) = disk (19 + done) i) ∧
      ∀ a, s.sp ≤ a → a < 0x8000 ∨ 0x8200 ≤ a → t.mem a = s.mem a := by
  obtain ⟨u, hu⟩ : ∃ u, u = ((((s.setAx 0).setEs 0).setBx 0x8000).setAx sectorNo).setCx (word (high s.cx) 1) :=
    ⟨_, rfl⟩
  have hAx : u.ax.toNat = 19 + done := by
    rw [hu]
    exact hSector
  have hCount : (low u.cx).toNat = 1 := by
    rw [hu, Machine.setCx_cx, low_word]
    rfl
  have hSp : u.sp = s.sp := by
    rw [hu]
    rfl
  have hMemU : u.mem = s.mem := by
    rw [hu]
    rfl
  have hDest : physical u.es u.bx.toNat = 0x8000 := by
    have hBuffer : (0x8000 : Word).toNat = 0x8000 := rfl
    rw [hu]
    exact (physical_zero _).trans hBuffer
  obtain ⟨t, hRead, hKept, hMem⟩ := funcReadOneSector_spec (s := u) disk (by rw [hu]; exact hDs) (by omega)
    (by omega)
    (by omega) (by omega) (by omega)
  rw [hDest, hCount, hAx, hMemU, hSp] at hMem
  refine ⟨t, hu ▸ hRead, ?_, ?_, hKept.sp.trans hSp, ?_, fun i hi => ?_, fun a ha hOther => ?_⟩
  · rw [hKept.ds, hu]
    exact hDs
  · rw [hKept.es, hu]
    rfl
  · rw [hKept.offset, hu]
    rfl
  · have hFirst : 19 + done + i / 512 = 19 + done := by omega
    rw [hMem _ (by omega), transfer_at (by omega), hFirst, Nat.mod_eq_of_lt hi]
  · rw [hMem a ha, transfer_other hOther]

/-- What the loop returns for the sector in the buffer. -/
theorem bufferSearch_spec {nameAt : Word} {done : Nat} {t : Machine} (hDs : t.ds = loaderSegment) (hEs : t.es = 0)
    (hBuffer : ∀ i < 512, t.mem (0x8000 + i) = disk (19 + done) i) (hDone : done < 14)
    (hName : IsName t.mem (physical loaderSegment nameAt.toNat)) (hEnd : nameAt.toNat + 11 < 65536)
    {r : Bool × Machine}
    (hr : r = labelSearchForLoaderBin nameAt 16 (((t.setSi nameAt).setDi 0x8000).setDx 0x10)) :
    Scanning t r.2 ∧
      (r.1 = true → ∃ k, 16 * done ≤ k ∧ k < 224 ∧ RootName disk k ∧
        (∀ i, 16 * done ≤ i → i < k → ¬RootName disk i) ∧ firstCluster r.2 = rootCluster disk k) ∧
      (r.1 = false → ∀ k, 16 * done ≤ k → k < 16 * (done + 1) → ¬RootName disk k) := by
  obtain ⟨u, hu⟩ : ∃ u, u = ((t.setSi nameAt).setDi 0x8000).setDx 0x10 := ⟨_, rfl⟩
  have hScan : Scanning t u := by
    rw [hu]
    exact ⟨⟨rfl, rfl, rfl, rfl, rfl⟩, rfl⟩
  have hSi : u.si = nameAt := by
    rw [hu]
    exact setWidth_low _ _
  have hDi : u.di = 0x8000 := by
    rw [hu]
    exact setWidth_low _ _
  have hStart : (0x8000 : Word).toNat = 0x8000 := rfl
  obtain ⟨hSame, hSome, hNone⟩ := @labelSearchForLoaderBin_spec u nameAt 16 0 (Nat.zero_add 16)
    (hScan.es.trans hEs)
    (by rw [hScan.mem, hScan.ds, hDs]; exact hName) hEnd hSi (by rw [hDi, hStart, Nat.mul_zero, Nat.add_zero])
  rw [← hu] at hr
  rw [← hr, hScan.mem] at hSome
  rw [← hr, hScan.mem] at hNone
  rw [← hr] at hSame
  refine ⟨hScan.trans hSame, fun hTrue => ?_, fun hFalse k hFrom hTo => ?_⟩
  · obtain ⟨j, -, hj, hIs, hBefore, hEntry⟩ := hSome hTrue
    refine ⟨16 * done + j, Nat.le_add_right _ _, by omega,
      (rootName_iff disk hBuffer hj).mp hIs, fun i hFrom hTo => ?_, ?_⟩
    · obtain ⟨i', rfl⟩ := Nat.exists_eq_add_of_le hFrom
      rw [← rootName_iff disk hBuffer (by omega)]
      exact hBefore i' (Nat.zero_le i') (by omega)
    · have hSector : (16 * done + j) / 16 = done := by omega
      have hPlace : (16 * done + j) % 16 = j := by omega
      rw [firstCluster, rootCluster, hEntry, hSame.mem, hScan.mem, hSector, hPlace]
      refine Bytes.load_window fun x hx => ?_
      have hInside : 0x8000 + 32 * j + 0x1A + x = 0x8000 + (32 * j + 0x1A + x) := by omega
      rw [hInside, hBuffer _ (by omega)]
  · obtain ⟨j, rfl⟩ := Nat.exists_eq_add_of_le hFrom
    rw [← rootName_iff disk hBuffer (by omega)]
    exact hNone hFalse j (Nat.zero_le j) (by omega)

theorem lableSearchInRootDirBegin_spec {nameAt : Word} {n done : Nat} {sectorNo : Word} (hCount : done + n = 14)
    (hSector : sectorNo.toNat = 19 + done) (hDs : s.ds = loaderSegment) (hLow : 64 ≤ s.sp) (hHigh : s.sp ≤ 0x7C00)
    (hName : IsName s.mem (physical loaderSegment nameAt.toNat)) (hEnd : nameAt.toNat + 11 < 65536) :
    ∃ r, lableSearchInRootDirBegin disk nameAt n sectorNo s = some r ∧ SearchEnds disk done s r := by
  induction n generalizing s done sectorNo with
  | zero =>
    refine ⟨(false, s), ?_, hDs, rfl, rfl, fun _ _ _ => rfl, fun hTrue => absurd hTrue Bool.false_ne_true,
      fun _ k hFrom hTo => absurd hTo (by omega)⟩
    unfold lableSearchInRootDirBegin
    rw [data_eq hDs]
    rfl
  | succ n ih =>
    obtain ⟨t, hRead, hDsT, hEsT, hSpT, hOffsetT, hBuffer, hMemT⟩ :=
      readRootSector_spec disk hSector (by omega) hDs hLow hHigh
    obtain ⟨r, hr⟩ : ∃ r, r = labelSearchForLoaderBin nameAt 16 (((t.setSi nameAt).setDi 0x8000).setDx 0x10) :=
      ⟨_, rfl⟩
    have hNameT : IsName t.mem (physical loaderSegment nameAt.toNat) := by
      have hSegment : loaderSegment.toNat = 0x1000 := rfl
      intro j hj
      rw [hMemT _ (by rw [physical, hSegment]; omega) (by rw [physical, hSegment]; omega)]
      exact hName j hj
    obtain ⟨hScan, hSome, hNone⟩ := bufferSearch_spec disk hDsT hEsT hBuffer (by omega) hNameT hEnd hr
    have hDsR : r.2.ds = loaderSegment := hScan.ds.trans hDsT
    have hSpR : r.2.sp = s.sp := hScan.sp.trans hSpT
    have hOffsetR : r.2.offsetOfKernelFileCount = s.offsetOfKernelFileCount := hScan.offset.trans hOffsetT
    have hMemR : ∀ a, s.sp ≤ a → a < 0x8000 ∨ 0x8200 ≤ a → r.2.mem a = s.mem a := fun a ha hOther => by
      rw [hScan.mem, hMemT a ha hOther]
    have hRun : lableSearchInRootDirBegin disk nameAt (n + 1) sectorNo s =
        if r.1 then some r else lableSearchInRootDirBegin disk nameAt n (sectorNo + 1) r.2 := by
      rw [lableSearchInRootDirBegin, data_eq hDs, Option.bind_eq_bind, Option.bind_some]
      refine (congrArg (· >>= _) hRead).trans ?_
      rw [Option.bind_eq_bind, Option.bind_some]
      dsimp only
      rw [← hr, data_eq hDsR, Option.bind_some]
      rfl
    rw [hRun]
    by_cases hFound : r.1 = true
    · rw [if_pos hFound]
      obtain ⟨k, hFrom, hTo, hIs, hBefore, hCluster⟩ := hSome hFound
      refine ⟨r, rfl, hDsR, hSpR, hOffsetR,
        hMemR, fun _ => ⟨hScan.es.trans hEsT, k, hFrom, hTo, hIs, hBefore, hCluster⟩,
        fun hFalse => ?_⟩
      rw [hFound] at hFalse
      cases hFalse
    · rw [if_neg hFound]
      have hMissing := hNone (Bool.eq_false_of_not_eq_true hFound)
      have hSectorNext : (sectorNo + 1).toNat = 19 + done + 1 := toNat_succ hSector (by omega)
      have hNameR : IsName r.2.mem (physical loaderSegment nameAt.toNat) := by
        intro j hj
        rw [hScan.mem]
        exact hNameT j hj
      obtain ⟨q, hRest, hEnds⟩ := @ih r.2 (done + 1) (sectorNo + 1) (by omega) hSectorNext hDsR (by omega)
        (by omega) hNameR
      refine ⟨q, hRest, hEnds.ds, hEnds.sp.trans hSpR, hEnds.offset.trans hOffsetR, fun a ha hOther =>
        ?_, fun hTrue => ?_,
        fun hFalse k hFrom hTo => ?_⟩
      · rw [hEnds.mem a (by omega) hOther, hMemR a ha hOther]
      · obtain ⟨hEs, k, hFrom, hTo, hIs, hBefore, hCluster⟩ := hEnds.found hTrue
        refine ⟨hEs, k, by omega, hTo, hIs, fun i hi hLt => ?_, hCluster⟩
        obtain hHere | hLater := Nat.lt_or_ge i (16 * (done + 1))
        · exact hMissing i hi hHere
        · exact hBefore i hLater hLt
      · obtain hHere | hLater := Nat.lt_or_ge k (16 * (done + 1))
        · exact hMissing k hFrom hHere
        · exact hEnds.missing hFalse k hLater hTo

/-- The search stops at `Label_No_LoaderBin` exactly if no entry of the root directory has the name. Else the file
of the first entry that has it, whatever its attributes, is copied to the addresses from 100000h on. -/
theorem kernel_loaded {nameAt : Word} (hDs : s.ds = loaderSegment) (hLow : 64 ≤ s.sp) (hHigh : s.sp ≤ 0x7C00)
    (hOffset : s.offsetOfKernelFileCount = offsetOfKernelFile)
    (hName : IsName s.mem (physical loaderSegment nameAt.toNat)) (hEnd : nameAt.toNat + 11 < 65536) :
    (∀ fuel, loadKernel disk nameAt fuel s = some none ↔ ∀ k < 224, ¬RootName disk k) ∧
    ∀ k < 224, RootName disk k → (∀ i < k, ¬RootName disk i) → ∀ n fuel,
      (∀ j < n, ∃ c, chain (nextCluster disk) (rootCluster disk k) j = some c ∧ c < 3072) →
      chain (nextCluster disk) (rootCluster disk k) n = none → n ≤ fuel →
      ∃ t, loadKernel disk nameAt fuel s = some (some t) ∧ t.offsetOfKernelFileCount.toNat = 0x100000 + n * 512 ∧
        (∀ j c, chain (nextCluster disk) (rootCluster disk k) j = some c →
          ∀ i < 512, t.mem (0x100000 + j * 512 + i) = disk (c + 31) i) ∧
        ∀ a, s.sp ≤ a → a < 0x7E00 ∨ 0x8400 ≤ a → a < 0x100000 ∨ 0x100000 + n * 512 ≤ a → t.mem a = s.mem a := by
  obtain ⟨r, hSearch, hEnds⟩ := @lableSearchInRootDirBegin_spec s disk nameAt 14 0 sectorNumOfRootDirStart
    (Nat.zero_add 14)
    rfl hDs hLow hHigh hName hEnd
  have hRun : ∀ fuel, loadKernel disk nameAt fuel s =
      if r.1 then (labelFileNameFound disk fuel r.2).bind fun t => some (some t) else some none := by
    intro fuel
    unfold loadKernel
    have hSize : rootDirSectors.toNat = 14 := rfl
    rw [data_eq hDs, Option.bind_eq_bind, Option.bind_some, hSize, hSearch]
    rfl
  constructor
  · intro fuel
    rw [hRun]
    by_cases hFound : r.1 = true
    · rw [if_pos hFound]
      obtain ⟨-, k, -, hTo, hIs, -, -⟩ := hEnds.found hFound
      refine iff_of_false (fun hNone => ?_) fun hAll => hAll k hTo hIs
      obtain ⟨t, -, ht⟩ := Option.bind_eq_some_iff.mp hNone
      cases ht
    · rw [if_neg hFound]
      exact iff_of_true rfl fun k hk => hEnds.missing (Bool.eq_false_of_not_eq_true hFound) k (Nat.zero_le k) hk
  · intro k hk hIs hFirst n fuel hChain hLast hFuel
    have hFound : r.1 = true := by
      by_contra hNot
      exact hEnds.missing (Bool.eq_false_of_not_eq_true hNot) k (Nat.zero_le k) hk hIs
    obtain ⟨hEs, k', -, -, hIs', hBefore, hCluster⟩ := hEnds.found hFound
    obtain rfl : k' = k := by
      obtain hLt | hEq | hGt := Nat.lt_trichotomy k' k
      · exact absurd hIs' (hFirst k' hLt)
      · exact hEq
      · exact absurd hIs (hBefore k (Nat.zero_le k) hGt)
    rw [← hCluster] at hChain hLast ⊢
    obtain ⟨t, hLoad, hOff, hIn, hOut⟩ := labelFileNameFound_spec disk hEnds.ds hEs (hEnds.offset.trans hOffset)
      (hEnds.sp.symm ▸ hLow) (hEnds.sp.symm ▸ hHigh) hChain hLast hFuel
    refine ⟨t, ?_, hOff, hIn, fun a ha hBuffers hApart => ?_⟩
    · rw [hRun, if_pos hFound, hLoad]
      rfl
    · rw [hOut a (hEnds.sp.symm ▸ ha) hBuffers hApart, hEnds.mem a ha (by omega)]

end

/-- The kernel is the second entry of the second sector of the root directory. -/
def kernelDisk : Disk := fun sector i =>
  if sector = 20 ∧ 32 ≤ i ∧ i < 43 then kernelFileName.getD (i - 32) 0
  else if sector = 20 ∧ i = 58 then 0x55
  else if sector = 20 ∧ i = 59 then 1
  else straddlingDisk sector i

def kernelMachine : Machine :=
  straddlingMachine.setMem fun a => if 0x10900 ≤ a ∧ a < 0x1090B then kernelFileName.getD (a - 0x10900) 0 else 0

theorem kernel_loaded_second : ∃ t, loadKernel kernelDisk 0x900 2 kernelMachine = some (some t) ∧
    (∀ i < 512, t.mem (0x100000 + i) = 116) ∧ ∀ i < 512, t.mem (0x100200 + i) = 33 := by
  have hName : IsName kernelMachine.mem (physical loaderSegment (0x900 : Word).toNat) := by decide
  obtain ⟨-, hFile⟩ := kernel_loaded kernelDisk (s := kernelMachine) rfl (by decide) (by decide) rfl hName
    (by decide)
  have hStart : chain (nextCluster kernelDisk) (rootCluster kernelDisk 17) 0 = some 341 := by decide
  have hSecond : chain (nextCluster kernelDisk) (rootCluster kernelDisk 17) 1 = some 2 := by decide
  have hLast : chain (nextCluster kernelDisk) (rootCluster kernelDisk 17) 2 = none := by decide
  have hChain : ∀ j < 2, ∃ c, chain (nextCluster kernelDisk) (rootCluster kernelDisk 17) j = some c ∧
    c < 3072 := by
    intro j hj
    obtain rfl | rfl : j = 0 ∨ j = 1 := by omega
    · exact ⟨341, hStart, by decide⟩
    · exact ⟨2, hSecond, by decide⟩
  have hFirst : ∀ i < 17, ¬RootName kernelDisk i := by decide
  obtain ⟨t, hRun, -, hIn, -⟩ := hFile 17 (by decide) (by decide) hFirst 2 2 hChain hLast (Nat.le_refl 2)
  have hOther : ∀ c i, c ≠ 20 → kernelDisk c i = straddlingDisk c i := by
    intro c i hc
    simp [kernelDisk, hc]
  refine ⟨t, hRun, fun i hi => ?_, fun i hi => ?_⟩
  · exact (hIn 0 341 hStart i hi).trans (hOther 372 i (by decide))
  · exact (hIn 1 2 hSecond i hi).trans (hOther 33 i (by decide))

end KalinoteOS.Loader
