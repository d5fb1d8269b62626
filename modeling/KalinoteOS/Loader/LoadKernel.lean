import KalinoteOS.Loader.Fat12

/-! # Loading the kernel

From `Label_FileName_Found` on the clusters of the file are read one after another to 7E00h and copied
from there to the address that `OffsetOfKernelFileCount` has got to. The number of the cluster is on
the stack while its sector is read.
-/
namespace KalinoteOS.Loader
open Lib (Bytes)
set_option autoImplicit false

def baseOfKernelFile : Word := 0
def offsetOfKernelFile : BitVec 32 := 0x100000
def baseTmpOfKernelAddr : Word := 0
def offsetTmpOfKernelFile : Word := 0x7E00

namespace Machine

/-- One round of `Label_Mov_Kernel`, up to `inc edi`. -/
def movByte (s : Machine) : Machine :=
  let s := s.setAx (word (high s.ax) (s.mem (physical s.ds s.esi.toNat)))
  let s := s.setMem (Function.update s.mem (physical s.fs s.edi.toNat) (low s.ax))
  let s := s.setEsi (s.esi + 1)
  s.setEdi (s.edi + 1)

/-- `loop Label_Mov_Kernel` goes on until `cx` has been counted down to 0. -/
def labelMovKernel (s : Machine) : Machine :=
  let t := s.movByte
  let t := t.setCx (t.cx - 1)
  if t.cx = 0 then t else labelMovKernel t
termination_by (s.cx - 1).toNat
decreasing_by
  have hNonzero : s.cx - 1 ≠ 0 := by assumption
  show (s.cx - 1 - 1).toNat < (s.cx - 1).toNat
  bv_omega

/-- From `Label_FileName_Found` to `mov ax, cx`. -/
def fileNameFound (s : Machine) : Machine :=
  let s := s.setAx rootDirSectors
  let di := (s.edi.setWidth 16 &&& 0xFFE0) + 0x1A
  let s := s.setEdi (s.edi &&& 0xFFFF0000 ||| di.setWidth 32)
  let s := s.setCx (s.load s.es di.toNat)
  let s := s.push s.cx
  let s := s.setCx (s.cx + s.ax)
  let s := s.setCx (s.cx + sectorBalance)
  let s := s.setEax (baseTmpOfKernelAddr.setWidth 32)
  let s := s.setEs s.ax
  let s := s.setBx offsetTmpOfKernelFile
  s.setAx s.cx

/-- From `mov ah, 0Eh` to `int 10h`, which shows a dot on the screen. -/
def printDot (s : Machine) : Machine :=
  let s := s.setAx (word 0x0E (low s.ax))
  let s := s.setAx (word (high s.ax) 46)
  s.setBx (word (high s.bx) 0x0F)

/-- Up to `pop ax`. -/
def dot (s : Machine) : Machine :=
  let s := s.push s.ax
  let s := s.push s.bx
  let s := s.printDot
  let s := (s.setBx s.top).drop 2
  (s.setAx s.top).drop 2

def save (s : Machine) : Machine :=
  let s := s.push s.cx
  let s := s.push32 s.eax
  let s := s.push32 s.edi
  let s := s.push s.ds
  s.push32 s.esi

/-- From `mov cx, 200h` to `mov dword [OffsetOfKernelFileCount], edi`. -/
def copyKernel (s : Machine) : Option Machine := do
  let s := s.setCx 0x200
  let s := s.setAx baseOfKernelFile
  let s := s.setFs s.ax
  s.data
  let s := s.setEdi s.offsetOfKernelFileCount
  let s := s.setAx baseTmpOfKernelAddr
  let s := s.setDs s.ax
  let s := s.setEsi (offsetTmpOfKernelFile.setWidth 32)
  let s := s.labelMovKernel
  let s := s.setEax 0x1000
  let s := s.setDs s.ax
  s.data
  return s.setOffset s.edi

def restore (s : Machine) : Machine :=
  let s := (s.setEsi s.top32).drop 4
  let s := (s.setDs s.top).drop 2
  let s := (s.setEdi s.top32).drop 4
  let s := (s.setEax s.top32).drop 4
  (s.setCx s.top).drop 2

/-- From `Label_Go_On_Loading_File` to `call Func_GetFATEntry`. -/
def loadCluster (disk : Disk) (s : Machine) : Option Machine := do
  let s := s.dot
  let s := s.setCx (word (high s.cx) 1)
  let s ← funcReadOneSector disk s
  let s := (s.setAx s.top).drop 2
  let s ← s.save.copyKernel
  return s.restore

end Machine

/-- `Label_Go_On_Loading_File` up to `Label_File_Loaded`, over `fuel` clusters at most. -/
def labelGoOnLoadingFile (disk : Disk) : Nat → Machine → Option Machine
  | 0, _ => none
  | fuel + 1, s => do
    let s ← s.loadCluster disk
    let s ← funcGetFATEntry disk s
    if s.ax = 0xFFF then return s
    else
      let s := s.push s.ax
      let s := s.setDx rootDirSectors
      let s := s.setAx (s.ax + s.dx)
      let s := s.setAx (s.ax + sectorBalance)
      labelGoOnLoadingFile disk fuel s

def labelFileNameFound (disk : Disk) (fuel : Nat) (s : Machine) : Option Machine :=
  labelGoOnLoadingFile disk fuel s.fileNameFound

/-! ## The copy of a cluster -/

/-- What the caller of a piece of the loop counts on. -/
structure Spared (s t : Machine) : Prop where
  bx : t.bx = s.bx
  sp : t.sp = s.sp
  ds : t.ds = s.ds
  es : t.es = s.es
  offset : t.offsetOfKernelFileCount = s.offsetOfKernelFileCount

theorem Spared.trans {s t u : Machine} (h : Spared s t) (h' : Spared t u) : Spared s u :=
  ⟨h'.bx.trans h.bx, h'.sp.trans h.sp, h'.ds.trans h.ds, h'.es.trans h.es, h'.offset.trans h.offset⟩

theorem Spared.setCx (s : Machine) (v : Word) : Spared s (s.setCx v) := ⟨rfl, rfl, rfl, rfl, rfl⟩

section
variable {s : Machine} (disk : Disk)

theorem movByte_spec {n : Nat} (hCx : s.cx.toNat = n + 1) (hDs : s.ds = 0) (hFs : s.fs = 0)
    (hApart : s.esi.toNat < s.edi.toNat) (hRoom : s.edi.toNat + 1 < 2 ^ 32) :
    ∃ t, s.labelMovKernel = (if n = 0 then t else t.labelMovKernel) ∧ Spared s t ∧ t.cx.toNat = n ∧
      t.fs = 0 ∧ t.esi.toNat = s.esi.toNat + 1 ∧ t.edi.toNat = s.edi.toNat + 1 ∧
      t.mem = Function.update s.mem s.edi.toNat (s.mem s.esi.toNat) := by
  obtain ⟨t, ht⟩ : ∃ t, t = s.movByte.setCx (s.cx - 1) := ⟨_, rfl⟩
  have hCount : t.cx.toNat = n := by
    rw [ht]
    show (s.cx - 1).toNat = n
    bv_omega
  have hDone : t.cx = 0 ↔ n = 0 := by
    rw [← hCount]
    exact ⟨fun h => congrArg BitVec.toNat h, fun h => BitVec.eq_of_toNat_eq h⟩
  refine ⟨t, ?_, ?_, hCount, ?_, ?_, ?_, ?_⟩
  · rw [Machine.labelMovKernel, ← if_congr hDone rfl rfl, ht]
    rfl
  · subst ht
    exact ⟨rfl, rfl, rfl, rfl, rfl⟩
  · rw [ht]
    exact hFs
  · rw [ht]
    show (s.esi + 1).toNat = _
    bv_omega
  · rw [ht]
    show (s.edi + 1).toNat = _
    bv_omega
  · rw [ht]
    show Function.update s.mem (physical s.fs s.edi.toNat)
      (low (word (high s.ax) (s.mem (physical s.ds s.esi.toNat)))) = _
    rw [hDs, hFs, physical_zero, physical_zero, low_word]

/-- The bytes below `edi` are copied upwards from there on, `cx` of them. -/
theorem labelMovKernel_spec {n : Nat} (hCx : s.cx.toNat = n + 1) (hDs : s.ds = 0) (hFs : s.fs = 0)
    (hApart : s.esi.toNat + n < s.edi.toNat) (hRoom : s.edi.toNat + (n + 1) < 2 ^ 32) :
    Spared s s.labelMovKernel ∧ s.labelMovKernel.edi.toNat = s.edi.toNat + (n + 1) ∧
      ∀ a, s.labelMovKernel.mem a = if s.edi.toNat ≤ a ∧ a < s.edi.toNat + (n + 1) then
        s.mem (s.esi.toNat + (a - s.edi.toNat)) else s.mem a := by
  induction n generalizing s with
  | zero =>
    obtain ⟨t, hStep, hSpared, -, -, -, hEdi, hMem⟩ := movByte_spec hCx hDs hFs hApart hRoom
    rw [hStep, if_pos rfl]
    refine ⟨hSpared, hEdi, fun a => ?_⟩
    rw [hMem]
    by_cases ha : a = s.edi.toNat
    · subst ha
      rw [Function.update_self, if_pos ⟨Nat.le_refl _, Nat.lt_succ_self _⟩, Nat.sub_self, Nat.add_zero]
    · have hOut : ¬(s.edi.toNat ≤ a ∧ a < s.edi.toNat + (0 + 1)) := by omega
      rw [Function.update_of_ne ha, if_neg hOut]
  | succ n ih =>
    obtain ⟨t, hStep, hSpared, hCount, hFs', hEsi, hEdi, hMem⟩ := movByte_spec hCx hDs hFs (by omega) (by omega)
    obtain ⟨hSpared', hEdi', hMem'⟩ := ih hCount (hSpared.ds.trans hDs) hFs' (by omega) (by omega)
    rw [hStep, if_neg (Nat.succ_ne_zero n)]
    refine ⟨hSpared.trans hSpared', by omega, fun a => ?_⟩
    rw [hMem', hMem, hEdi, hEsi]
    by_cases ha : a = s.edi.toNat
    · -- the byte of this round, which no later one writes
      subst ha
      rw [if_neg (by omega), if_pos (by omega), Function.update_self, Nat.sub_self, Nat.add_zero]
    · by_cases hIn : s.edi.toNat ≤ a ∧ a < s.edi.toNat + (n + 1 + 1)
      · have hNext : s.esi.toNat + 1 + (a - (s.edi.toNat + 1)) = s.esi.toNat + (a - s.edi.toNat) := by omega
        rw [if_pos (by omega), if_pos hIn, hNext, Function.update_of_ne (by omega)]
      · rw [if_neg (by omega), if_neg hIn, Function.update_of_ne ha]

/-- The 512 bytes of the sector buffer go to where the kernel has got to. -/
theorem copyKernel_spec {off : Nat} (hDs : s.ds = loaderSegment)
    (hOff : s.offsetOfKernelFileCount.toNat = off) (hLow : 0x8000 ≤ off) (hHigh : off + 512 < 2 ^ 32) :
    ∃ t, s.copyKernel = some t ∧ t.bx = s.bx ∧ t.sp = s.sp ∧ t.es = s.es ∧
      t.offsetOfKernelFileCount.toNat = off + 512 ∧
      ∀ a, t.mem a = if off ≤ a ∧ a < off + 512 then s.mem (0x7E00 + (a - off)) else s.mem a := by
  obtain ⟨u, hu⟩ : ∃ u, u = ((((((s.setCx 0x200).setAx 0).setFs 0).setEdi s.offsetOfKernelFileCount).setAx
    0).setDs 0).setEsi (offsetTmpOfKernelFile.setWidth 32) := ⟨_, rfl⟩
  have hCx : u.cx.toNat = 511 + 1 := by
    rw [hu]
    rfl
  have hEsi : u.esi.toNat = 0x7E00 := by
    rw [hu]
    rfl
  have hEdi : u.edi.toNat = off := by
    rw [hu]
    exact hOff
  have hMemU : u.mem = s.mem := by
    rw [hu]
    rfl
  obtain ⟨hSpared, hEnd, hMem⟩ := labelMovKernel_spec hCx (by rw [hu]; rfl) (by rw [hu]; rfl) (by omega)
    (by omega)
  rw [hEdi, hEsi, hMemU] at hMem
  rw [hEdi] at hEnd
  obtain ⟨v, hv⟩ : ∃ v, v = (u.labelMovKernel.setEax 0x1000).setDs 0x1000 := ⟨_, rfl⟩
  have hReady : v.data = some () := by
    rw [hv]
    exact data_eq rfl
  refine ⟨v.setOffset v.edi, ?_, ?_, ?_, ?_, ?_, ?_⟩
  · rw [hv, hu] at hReady ⊢
    exact (run_bind (data_eq hDs)).trans (run_bind hReady)
  · rw [hv]
    show u.labelMovKernel.bx = s.bx
    rw [hSpared.bx, hu]
    rfl
  · rw [hv]
    show u.labelMovKernel.sp = s.sp
    rw [hSpared.sp, hu]
    rfl
  · rw [hv]
    show u.labelMovKernel.es = s.es
    rw [hSpared.es, hu]
    rfl
  · rw [hv]
    exact hEnd
  · intro a
    rw [hv]
    exact hMem a

/-! ## One cluster -/

theorem low_eax : BitVec.ofNat 16 s.eax.toNat = s.ax := by
  have hHigh := s.eaxHigh.isLt
  have hLow := s.ax.isLt
  apply BitVec.eq_of_toNat_eq
  rw [Machine.eax, BitVec.toNat_ofNat, BitVec.toNat_ofNat]
  omega

/-- `ds` and what has been pushed before it. -/
theorem save_ds {a : Nat} (hRoom : 16 ≤ s.sp) (ha : s.sp - 12 ≤ a) :
    s.save.mem a = ((((s.push s.cx).push32 s.eax).push32 s.edi).push s.ds).mem a := by
  refine pushN_mem _ ?_ ?_
  · show 4 ≤ s.sp - 2 - 4 - 4 - 2
    omega
  · show s.sp - 2 - 4 - 4 - 2 ≤ a
    omega

/-- `eax` and what has been pushed before it. -/
theorem save_eax {a : Nat} (hRoom : 16 ≤ s.sp) (ha : s.sp - 6 ≤ a) :
    s.save.mem a = ((s.push s.cx).push32 s.eax).mem a := by
  have hDs : ((((s.push s.cx).push32 s.eax).push32 s.edi).push s.ds).mem a =
      (((s.push s.cx).push32 s.eax).push32 s.edi).mem a := by
    refine push_mem s.ds ?_ ?_
    · show 2 ≤ s.sp - 2 - 4 - 4
      omega
    · show s.sp - 2 - 4 - 4 ≤ a
      omega
  rw [save_ds hRoom (by omega), hDs]
  refine pushN_mem _ ?_ ?_
  · show 4 ≤ s.sp - 2 - 4
    omega
  · show s.sp - 2 - 4 ≤ a
    omega

theorem save_mem {a : Nat} (hRoom : 16 ≤ s.sp) (ha : s.sp ≤ a) : s.save.mem a = s.mem a := by
  have hEax : ((s.push s.cx).push32 s.eax).mem a = (s.push s.cx).mem a := by
    refine pushN_mem _ ?_ ?_
    · show 4 ≤ s.sp - 2
      omega
    · show s.sp - 2 ≤ a
      omega
  rw [save_eax hRoom (by omega), hEax, push_mem s.cx (by omega) ha]

@[simp] theorem restore_es : s.restore.es = s.es := by simp [Machine.restore]

@[simp] theorem restore_bx : s.restore.bx = s.bx := by simp [Machine.restore]

@[simp] theorem restore_offset :
    s.restore.offsetOfKernelFileCount = s.offsetOfKernelFileCount := by simp [Machine.restore]

@[simp] theorem restore_mem : s.restore.mem = s.mem := by
  funext a
  simp [Machine.restore]

/-- The cluster and the data segment come back from the stack. -/
theorem restore_spec {t : Machine} (hRoom : 16 ≤ s.sp) (hSp : t.sp = s.save.sp)
    (hMem : ∀ a, s.sp - 16 ≤ a → a < s.sp → t.mem a = s.save.mem a) :
    t.restore.ds = s.ds ∧ t.restore.ax = s.ax ∧ t.restore.sp = s.sp := by
  have hSp' : t.sp = s.sp - 2 - 4 - 4 - 2 - 4 := hSp
  obtain ⟨u, hu⟩ : ∃ u, u = (t.setEsi t.top32).drop 4 := ⟨_, rfl⟩
  obtain ⟨v, hv⟩ : ∃ v, v = (((u.setDs u.top).drop 2).setEdi ((u.setDs u.top).drop 2).top32).drop 4 :=
    ⟨_, rfl⟩
  have hMemU : u.mem = t.mem := by
    rw [hu]
    rfl
  have hMemV : v.mem = t.mem := by
    rw [hv, ← hMemU]
    rfl
  have hDs : u.top = s.ds := by
    refine top_of_push (s := ((s.push s.cx).push32 s.eax).push32 s.edi) ?_ fun a hLo hHi => ?_
    · rw [hu]
      show t.sp + 4 = s.sp - 2 - 4 - 4 - 2
      omega
    · have hLo' : s.sp - 2 - 4 - 4 - 2 ≤ a := hLo
      have hHi' : a < s.sp - 2 - 4 - 4 - 2 + 2 := hHi
      rw [hMemU, hMem a (by omega) (by omega), save_ds hRoom (by omega)]
  have hEax : v.top32 = s.eax := by
    refine top32_of_push (s := s.push s.cx) ?_ fun a hLo hHi => ?_
    · rw [hv, hu]
      show t.sp + 4 + 2 + 4 = s.sp - 2 - 4
      omega
    · have hLo' : s.sp - 2 - 4 ≤ a := hLo
      have hHi' : a < s.sp - 2 - 4 + 4 := hHi
      rw [hMemV, hMem a (by omega) (by omega), save_eax hRoom (by omega)]
  obtain ⟨w, hw⟩ : ∃ w, w = (v.setEax v.top32).drop 4 := ⟨_, rfl⟩
  have hRestore : t.restore = (w.setCx w.top).drop 2 := by
    rw [hw, hv, hu]
    rfl
  rw [hRestore, hw]
  refine ⟨?_, ?_, ?_⟩
  · rw [hv]
    exact hDs
  · show BitVec.ofNat 16 v.top32.toNat = s.ax
    rw [hEax, low_eax]
  · rw [hv, hu]
    show t.sp + 4 + 2 + 4 + 4 + 2 = s.sp
    omega

/-- Printing the dot leaves no trace above the stack. -/
theorem dot_spec (hRoom : 4 ≤ s.sp) :
    Spared s s.dot ∧ s.dot.ax = s.ax ∧ ∀ a, s.sp ≤ a → s.dot.mem a = s.mem a := by
  obtain ⟨p, hp⟩ : ∃ p, p = ((s.push s.ax).push s.bx).printDot := ⟨_, rfl⟩
  have hSp : p.sp = s.sp - 2 - 2 := by simp [hp, Machine.printDot]
  have hFrame : p.ds = s.ds ∧ p.es = s.es ∧ p.offsetOfKernelFileCount = s.offsetOfKernelFileCount := by
    simp [hp, Machine.printDot]
  have hBx : p.top = s.bx := by
    rw [hp]
    exact top_of_push (s := s.push s.ax) rfl fun _ _ _ => rfl
  have hAbove : ∀ a, s.sp - 2 ≤ a → p.mem a = (s.push s.ax).mem a := by
    intro a ha
    rw [hp]
    exact push_mem s.bx (by rw [Machine.push_sp]; omega) ha
  have hAx : ((p.setBx p.top).drop 2).top = s.ax := by
    refine top_of_push (s := s) ?_ fun a hLo hHi => hAbove a hLo
    show p.sp + 2 = s.sp - 2
    omega
  have hDot : s.dot = (((p.setBx p.top).drop 2).setAx ((p.setBx p.top).drop 2).top).drop 2 := by
    rw [hp]
    rfl
  rw [hDot]
  refine ⟨⟨hBx, ?_, hFrame.1, hFrame.2.1, hFrame.2.2⟩, hAx, fun a ha => ?_⟩
  · show p.sp + 2 + 2 = s.sp
    omega
  · exact (hAbove a (by omega)).trans (push_mem s.ax (by omega) ha)

/-- The registers of the loop: the stack is at `base` and the kernel has got to `off`. -/
structure Loading (base off : Nat) (s : Machine) : Prop where
  ds : s.ds = loaderSegment
  es : s.es = 0
  bx : s.bx = offsetTmpOfKernelFile
  sp : s.sp = base
  offset : s.offsetOfKernelFileCount.toNat = off

/-- Cluster `c` is next: its number is on the stack, and its sector in `ax`. -/
structure AtCluster (base off c : Nat) (s : Machine) : Prop extends Loading (base - 2) off s where
  top : s.top.toNat = c
  sector : s.ax.toNat = c + 31

/-- The sector of the cluster is in the buffer, and its number in `ax` again. -/
theorem readCluster_spec {base off c : Nat} (h : AtCluster base off c s) (hLow : 64 ≤ base)
    (hHigh : base ≤ 0x7C00) (hCluster : c < 3072) :
    ∃ t, funcReadOneSector disk (s.dot.setCx (word (high s.dot.cx) 1)) = some t ∧
      Loading base off ((t.setAx t.top).drop 2) ∧ t.top.toNat = c ∧
      (∀ i < 512, t.mem (0x7E00 + i) = disk (c + 31) i) ∧
      ∀ a, base ≤ a → a < 0x7E00 ∨ 0x8000 ≤ a → t.mem a = s.mem a := by
  have hSp := h.sp
  obtain ⟨hDot, hDotAx, hDotMem⟩ := dot_spec (s := s) (by omega)
  obtain ⟨u, hu⟩ : ∃ u, u = s.dot.setCx (word (high s.dot.cx) 1) := ⟨_, rfl⟩
  have hFrame : Spared s u := by
    rw [hu]
    exact hDot.trans (Spared.setCx _ _)
  have hUSp := hFrame.sp
  have hCount : (low u.cx).toNat = 1 := by
    rw [hu, Machine.setCx_cx, low_word]
    rfl
  have hSector : u.ax.toNat = c + 31 := by
    rw [hu, Machine.setCx_ax, hDotAx, h.sector]
  have hDest : physical u.es u.bx.toNat = 0x7E00 := by
    have hStart : offsetTmpOfKernelFile.toNat = 0x7E00 := rfl
    rw [hFrame.es, hFrame.bx, h.es, h.bx, physical_zero, hStart]
  obtain ⟨t, hRead, hKept, hMem⟩ := funcReadOneSector_spec (s := u) disk (hFrame.ds.trans h.ds) (by omega)
    (by omega) (by omega) (by omega) (by omega)
  rw [hDest, hCount, hSector] at hMem
  have hOut : ∀ a, s.sp ≤ a → a < 0x7E00 ∨ 0x8000 ≤ a → t.mem a = s.mem a := by
    intro a ha hOther
    rw [hMem a (by omega), transfer_other hOther, hu, Machine.setCx_mem, hDotMem a ha]
  have hSpT : t.sp = s.sp := hKept.sp.trans hUSp
  have hTop : t.top = s.top := by
    rw [Machine.top, Machine.top, hSpT]
    congr 1
    exact Bytes.load_congr fun a hLo hHi => hOut a hLo (by omega)
  refine ⟨t, hu ▸ hRead, ⟨?_, ?_, ?_, ?_, ?_⟩, ?_, ?_, fun a ha => hOut a (by omega)⟩
  · rw [Machine.drop_ds, Machine.setAx_ds, hKept.ds, hFrame.ds, h.ds]
  · rw [Machine.drop_es, Machine.setAx_es, hKept.es, hFrame.es, h.es]
  · rw [Machine.drop_bx, Machine.setAx_bx, hKept.bx, hFrame.bx, h.bx]
  · rw [Machine.drop_sp, Machine.setAx_sp, hSpT]
    omega
  · rw [Machine.drop_offsetOfKernelFileCount, Machine.setAx_offsetOfKernelFileCount, hKept.offset,
      hFrame.offset, h.offset]
  · rw [hTop, h.top]
  · intro i hi
    have hFirst : c + 31 + i / 512 = c + 31 := by omega
    rw [hMem _ (by omega), transfer_at (by omega), hFirst, Nat.mod_eq_of_lt hi]

/-- The buffer is copied to the kernel, and the registers come back. -/
theorem moveCluster_spec {base off : Nat} (h : Loading base off s) (hLow : 16 ≤ base)
    (hHigh : base ≤ 0x7E00) (hOff : 0x8000 ≤ off) (hRoom : off + 512 < 2 ^ 32) :
    ∃ t, s.save.copyKernel = some t ∧ Loading base (off + 512) t.restore ∧ t.restore.ax = s.ax ∧
      (∀ i < 512, t.restore.mem (off + i) = s.mem (0x7E00 + i)) ∧
      ∀ a, base ≤ a → a < off ∨ off + 512 ≤ a → t.restore.mem a = s.mem a := by
  have hSp := h.sp
  have hSaved : s.save.ds = s.ds ∧ s.save.es = s.es ∧ s.save.bx = s.bx ∧
      s.save.offsetOfKernelFileCount = s.offsetOfKernelFileCount := by
    simp [Machine.save]
  obtain ⟨hDs, hEs, hBx, hOffset⟩ := hSaved
  obtain ⟨t, hCopy, hBxT, hSpT, hEsT, hOffsetT, hMem⟩ := copyKernel_spec (s := s.save) (hDs.trans h.ds)
    (by rw [hOffset, h.offset]) hOff hRoom
  have hOut : ∀ a, a < off ∨ off + 512 ≤ a → t.mem a = s.save.mem a := by
    intro a ha
    have hNot : ¬(off ≤ a ∧ a < off + 512) := by omega
    rw [hMem, if_neg hNot]
  obtain ⟨hDs', hAx', hSp'⟩ := restore_spec (s := s) (t := t) (by omega) hSpT
    fun a _ hHi => hOut a (by omega)
  refine ⟨t, hCopy, ⟨?_, ?_, ?_, ?_, ?_⟩, hAx', ?_, ?_⟩
  · rw [hDs', h.ds]
  · rw [restore_es, hEsT, hEs, h.es]
  · rw [restore_bx, hBxT, hBx, h.bx]
  · rw [hSp', hSp]
  · rw [restore_offset, hOffsetT]
  · intro i hi
    have hInside : off ≤ off + i ∧ off + i < off + 512 := by omega
    rw [restore_mem, hMem, if_pos hInside, Nat.add_sub_cancel_left, save_mem (by omega) (by omega)]
  · intro a ha hApart
    rw [restore_mem, hOut a hApart, save_mem (by omega) (by omega)]

theorem loadCluster_spec {base off c : Nat} (h : AtCluster base off c s) (hLow : 64 ≤ base)
    (hHigh : base ≤ 0x7C00) (hCluster : c < 3072) (hOff : 0x8000 ≤ off) (hRoom : off + 512 < 2 ^ 32) :
    ∃ t, s.loadCluster disk = some t ∧ Loading base (off + 512) t ∧ t.ax.toNat = c ∧
      (∀ i < 512, t.mem (off + i) = disk (c + 31) i) ∧
      ∀ a, base ≤ a → a < 0x7E00 ∨ 0x8000 ≤ a → a < off ∨ off + 512 ≤ a → t.mem a = s.mem a := by
  obtain ⟨u, hRead, hLoading, hTop, hIn, hOut⟩ := readCluster_spec disk h hLow hHigh hCluster
  obtain ⟨t, hMove, hMoved, hAx, hInto, hElse⟩ := moveCluster_spec hLoading (by omega) (by omega) hOff hRoom
  refine ⟨t.restore, (run_bind hRead).trans (run_bind hMove), hMoved, ?_, ?_, ?_⟩
  · rw [hAx, Machine.drop_ax, Machine.setAx_ax, hTop]
  · intro i hi
    rw [hInto i hi, Machine.drop_mem, Machine.setAx_mem, hIn i hi]
  · intro a ha hBuffer hApart
    rw [hElse a ha hApart, Machine.drop_mem, Machine.setAx_mem, hOut a ha hBuffer]

end

end KalinoteOS.Loader
