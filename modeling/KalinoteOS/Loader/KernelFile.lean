import KalinoteOS.Loader.LoadKernel
import KalinoteOS.Lib.Chain

/-! # The file of the kernel

Its clusters are a chain of the packed table, which the loop follows from the directory entry to the
end mark.
-/
namespace KalinoteOS.Loader
open Lib (Bytes chain chain_succ chain_none chain_add length_le_card upper_or_lower)
set_option autoImplicit false

section
variable {s : Machine} (disk : Disk)

/-- A cluster is loaded and the next one looked up. -/
theorem round_spec {base off c : Nat} (h : AtCluster base off c s) (hLow : 64 ≤ base)
    (hHigh : base ≤ 0x7C00) (hCluster : c < 3072) (hOff : 0x8400 ≤ off) (hRoom : off + 512 < 2 ^ 32) :
    ∃ t u, s.loadCluster disk = some t ∧ funcGetFATEntry disk t = some u ∧ Loading base (off + 512) u ∧
      u.ax.toNat = packedEntry (fatTable disk) c ∧ (∀ i < 512, u.mem (off + i) = disk (c + 31) i) ∧
      ∀ a, base ≤ a → a < 0x7E00 ∨ 0x8400 ≤ a → a < off ∨ off + 512 ≤ a → u.mem a = s.mem a := by
  obtain ⟨t, hLoad, hLoading, hAx, hIn, hOut⟩ := loadCluster_spec disk h hLow hHigh hCluster
    (by omega) hRoom
  have hSp := hLoading.sp
  obtain ⟨u, hLookUp, hEntry, hBx, hEs, hSpU, hDs, hOffset, hMem⟩ := funcGetFATEntry_spec disk
    hLoading.ds (by omega) (by omega) (by omega)
  refine ⟨t, u, hLoad, hLookUp, ⟨?_, ?_, ?_, ?_, ?_⟩, ?_, ?_, ?_⟩
  · rw [hDs, hLoading.ds]
  · rw [hEs, hLoading.es]
  · rw [hBx, hLoading.bx]
  · rw [hSpU, hSp]
  · rw [hOffset, hLoading.offset]
  · rw [hEntry, hAx]
  · intro i hi
    rw [hMem (off + i) (by omega) (by omega), hIn i hi]
  · intro a ha hBuffers hApart
    rw [hMem a (by omega) (by omega), hOut a ha (by omega) hApart]

/-- The next cluster has been put on the stack, and its sector in `ax`. -/
theorem atCluster_next {base off : Nat} (h : Loading base off s) (hEntry : s.ax.toNat < 4096) :
    AtCluster base off s.ax.toNat
      ((((s.push s.ax).setDx rootDirSectors).setAx (s.ax + rootDirSectors)).setAx
        (s.ax + rootDirSectors + sectorBalance)) := by
  refine ⟨⟨h.ds, h.es, h.bx, congrArg (· - 2) h.sp, h.offset⟩, ?_, ?_⟩
  · exact congrArg BitVec.toNat (top_of_push (s := s) rfl fun _ _ _ => rfl)
  · have hFourteen : rootDirSectors.toNat = 14 := rfl
    have hSeventeen : sectorBalance.toNat = 17 := rfl
    rw [Machine.setAx_ax, BitVec.toNat_add, BitVec.toNat_add, hFourteen, hSeventeen]
    omega

/-- The cluster after `c` in a file, if there is one. -/
def nextCluster (disk : Disk) (c : Nat) : Option Nat :=
  if packedEntry (fatTable disk) c = 0xFFF then none else some (packedEntry (fatTable disk) c)

theorem labelGoOnLoadingFile_spec {base off c n fuel : Nat} (h : AtCluster base off c s) (hLow : 64 ≤ base)
    (hHigh : base ≤ 0x7C00) (hOff : 0x8400 ≤ off) (hRoom : off + n * 512 < 2 ^ 32) (hFuel : n ≤ fuel)
    (hChain : ∀ k < n, ∃ b, chain (nextCluster disk) c k = some b ∧ b < 3072)
    (hEnd : chain (nextCluster disk) c n = none) :
    ∃ t, labelGoOnLoadingFile disk fuel s = some t ∧ Loading base (off + n * 512) t ∧
      (∀ k b, chain (nextCluster disk) c k = some b → ∀ i < 512, t.mem (off + k * 512 + i) = disk (b + 31) i) ∧
      ∀ a, base ≤ a → a < 0x7E00 ∨ 0x8400 ≤ a → a < off ∨ off + n * 512 ≤ a → t.mem a = s.mem a := by
  induction n generalizing s off c fuel with
  | zero => cases hEnd
  | succ n ih =>
    obtain ⟨b, hb, hCluster⟩ := hChain 0 (Nat.succ_pos n)
    obtain rfl : c = b := Option.some.inj hb
    obtain ⟨t, u, hLoad, hLookUp, hLoading, hEntry, hIn, hOut⟩ := round_spec disk h hLow hHigh
      hCluster hOff (by omega)
    have hSecond : chain (nextCluster disk) c 1 = nextCluster disk c := chain_succ rfl
    have hMark : (0xFFF : Word).toNat = 0xFFF := rfl
    cases fuel with
    | zero => omega
    | succ fuel =>
      by_cases hLast : u.ax = 0xFFF
      · -- the end of the chain
        have hNone : nextCluster disk c = none := if_pos (by rw [← hEntry, hLast, hMark])
        have hZero : n = 0 := by
          by_contra hMore
          obtain ⟨d, hd, -⟩ := hChain 1 (by omega)
          rw [hSecond, hNone] at hd
          cases hd
        subst hZero
        refine ⟨u, ?_, hLoading, ?_, hOut⟩
        · exact (run_bind hLoad).trans ((run_bind hLookUp).trans (if_pos hLast))
        · intro k b hk i hi
          cases k with
          | zero =>
            cases hk
            exact hIn i hi
          | succ k =>
            rw [chain_none (hSecond.trans hNone) (Nat.le_add_left 1 k)] at hk
            cases hk
      · have hMore : packedEntry (fatTable disk) c ≠ 0xFFF := fun hEq =>
          hLast (BitVec.eq_of_toNat_eq (by rw [hEntry, hEq, hMark]))
        have hNext : nextCluster disk c = some u.ax.toNat := by
          rw [nextCluster, if_neg hMore, hEntry]
        have hShift : ∀ k, chain (nextCluster disk) c (k + 1) = chain (nextCluster disk) u.ax.toNat k := by
          intro k
          rw [Nat.add_comm]
          exact chain_add (hSecond.trans hNext) k
        have hTwelve : u.ax.toNat < 4096 := hEntry ▸ Nat.mod_lt _ (by decide)
        have hFar : off + 512 + n * 512 = off + (n + 1) * 512 := by omega
        obtain ⟨v, hRun, hLoading', hIn', hOut'⟩ := ih (atCluster_next hLoading hTwelve) (by omega) (by omega)
          (Nat.le_of_succ_le_succ hFuel) (fun k hk => hShift k ▸ hChain (k + 1) (by omega)) (hShift n ▸ hEnd)
        rw [hFar] at hLoading' hOut'
        have hPushed : ∀ a, base ≤ a → ((((u.push u.ax).setDx rootDirSectors).setAx
            (u.ax + rootDirSectors)).setAx (u.ax + rootDirSectors + sectorBalance)).mem a = u.mem a := by
          intro a ha
          have hSp := hLoading.sp
          exact push_mem u.ax (by omega) (by omega)
        refine ⟨v, ?_, hLoading', ?_, ?_⟩
        · exact (run_bind hLoad).trans ((run_bind hLookUp).trans ((if_neg hLast).trans hRun))
        · intro k b hk i hi
          cases k with
          | zero =>
            cases hk
            rw [hOut' _ (by omega) (by omega) (by omega), hPushed _ (by omega), Nat.zero_mul, Nat.add_zero,
              hIn i hi]
          | succ k =>
            have hPlace : off + (k + 1) * 512 + i = off + 512 + k * 512 + i := by omega
            rw [hPlace]
            exact hIn' k b (hShift k ▸ hk) i hi
        · intro a ha hBuffers hApart
          rw [hOut' a ha hBuffers (by omega), hPushed a ha, hOut a ha hBuffers (by omega)]

/-! ## From the directory entry -/

/-- The directory entry that `di` points into. -/
def directoryEntry (s : Machine) : Nat := s.edi.toNat % 65536 / 32 * 32

/-- The cluster in its field at 1Ah. -/
def firstCluster (s : Machine) : Nat := Bytes.load s.mem (directoryEntry s + 0x1A) 2

theorem clusterField : ((s.edi.setWidth 16 &&& 0xFFE0) + 0x1A : Word).toNat = directoryEntry s + 0x1A := by
  have hMask : (0xFFE0 : Word).toNat = (2 ^ 11 - 1) <<< 5 := rfl
  have hRound : s.edi.toNat % 65536 &&& (2 ^ 11 - 1) <<< 5 = s.edi.toNat % 65536 / 2 ^ 5 * 2 ^ 5 := by
    have hUpper : s.edi.toNat % 65536 &&& (2 ^ 11 - 1) <<< 5 ||| 0 = s.edi.toNat % 65536 / 2 ^ 5 * 2 ^ 5 + 0 :=
      upper_or_lower (by omega) (by decide)
    rwa [Nat.or_zero, Nat.add_zero] at hUpper
  have hEntry : (s.edi.setWidth 16 &&& 0xFFE0 : Word).toNat = directoryEntry s := by
    rw [BitVec.toNat_and, BitVec.toNat_setWidth, hMask]
    exact hRound
  have hField : (0x1A : Word).toNat = 0x1A := rfl
  rw [BitVec.toNat_add, hEntry, hField, directoryEntry]
  omega

theorem fileNameFound_mem :
    s.fileNameFound.mem = (s.push (s.load s.es ((s.edi.setWidth 16 &&& 0xFFE0) + 0x1A : Word).toNat)).mem :=
  rfl

theorem atCluster_first (hDs : s.ds = loaderSegment) (hEs : s.es = 0)
    (hOffset : s.offsetOfKernelFileCount = offsetOfKernelFile) (hFirst : firstCluster s < 3072) :
    AtCluster s.sp 0x100000 (firstCluster s) s.fileNameFound := by
  obtain ⟨c, hc⟩ : ∃ c, c = s.load s.es ((s.edi.setWidth 16 &&& 0xFFE0) + 0x1A : Word).toNat := ⟨_, rfl⟩
  have hNat : c.toNat = firstCluster s := by
    rw [hc, Machine.load, hEs, physical_zero, clusterField, BitVec.toNat_ofNat]
    exact Nat.mod_eq_of_lt (Bytes.load_lt _ _ _)
  have hTop : s.fileNameFound.top = c := by
    refine top_of_push (s := s) rfl fun a _ _ => ?_
    rw [fileNameFound_mem, hc]
  have hAx : s.fileNameFound.ax = c + rootDirSectors + sectorBalance := by
    rw [hc]
    rfl
  refine ⟨⟨hDs, rfl, rfl, rfl, ?_⟩, ?_, ?_⟩
  · exact congrArg BitVec.toNat hOffset
  · rw [hTop, hNat]
  · have hFourteen : rootDirSectors.toNat = 14 := rfl
    have hSeventeen : sectorBalance.toNat = 17 := rfl
    rw [hAx, BitVec.toNat_add, BitVec.toNat_add, hFourteen, hSeventeen, hNat]
    omega

/-- From the entry on, where the cluster in it is the first one of a file of `n` clusters. -/
theorem labelFileNameFound_spec {n fuel : Nat} (hDs : s.ds = loaderSegment) (hEs : s.es = 0)
    (hOffset : s.offsetOfKernelFileCount = offsetOfKernelFile) (hLow : 64 ≤ s.sp) (hHigh : s.sp ≤ 0x7C00)
    (hChain : ∀ j < n, ∃ c, chain (nextCluster disk) (firstCluster s) j = some c ∧ c < 3072)
    (hLast : chain (nextCluster disk) (firstCluster s) n = none) (hFuel : n ≤ fuel) :
    ∃ t, labelFileNameFound disk fuel s = some t ∧ t.offsetOfKernelFileCount.toNat = 0x100000 + n * 512 ∧
      (∀ j c, chain (nextCluster disk) (firstCluster s) j = some c →
        ∀ i < 512, t.mem (0x100000 + j * 512 + i) = disk (c + 31) i) ∧
      ∀ a, s.sp ≤ a → a < 0x7E00 ∨ 0x8400 ≤ a → a < 0x100000 ∨ 0x100000 + n * 512 ≤ a → t.mem a = s.mem a := by
  have hPos : 0 < n := by
    refine Nat.pos_of_ne_zero ?_
    rintro rfl
    cases hLast
  obtain ⟨c, hc, hFirst⟩ := hChain 0 hPos
  obtain rfl : firstCluster s = c := Option.some.inj hc
  have hLength : n ≤ 3072 := by
    have hCard := length_le_card (s := Finset.range 3072) hLast fun j hj => by
      obtain ⟨c, hc, hLt⟩ := hChain j hj
      exact ⟨c, Finset.mem_range.mpr hLt, hc⟩
    rwa [Finset.card_range] at hCard
  obtain ⟨t, hRun, hLoading, hIn, hOut⟩ :=
    labelGoOnLoadingFile_spec disk (atCluster_first hDs hEs hOffset hFirst) hLow
    hHigh (by omega) (by omega) hFuel hChain hLast
  refine ⟨t, hRun, hLoading.offset, hIn, fun a ha hBuffers hApart => ?_⟩
  rw [hOut a ha hBuffers hApart, fileNameFound_mem, push_mem _ (by omega) ha]

end

/-- Every entry of the table is read as it is packed, and a file is copied cluster by cluster to the
addresses from 100000h on. -/
theorem fat12_read (disk : Disk) (s : Machine) (hDs : s.ds = loaderSegment) (hLow : 64 ≤ s.sp)
    (hHigh : s.sp ≤ 0x7C00) :
    (s.ax.toNat < 3072 → ∃ t, funcGetFATEntry disk s = some t ∧
      t.ax.toNat = packedEntry (fatTable disk) s.ax.toNat ∧ t.bx = s.bx ∧ t.es = s.es ∧ t.sp = s.sp) ∧
    ∀ n fuel, s.es = 0 → s.offsetOfKernelFileCount = offsetOfKernelFile →
      (∀ k < n, ∃ c, chain (nextCluster disk) (firstCluster s) k = some c ∧ c < 3072) →
      chain (nextCluster disk) (firstCluster s) n = none → n ≤ fuel →
      ∃ t, labelFileNameFound disk fuel s = some t ∧
        t.offsetOfKernelFileCount.toNat = 0x100000 + n * 512 ∧
        (∀ k c, chain (nextCluster disk) (firstCluster s) k = some c →
          ∀ i < 512, t.mem (0x100000 + k * 512 + i) = disk (c + 31) i) ∧
        ∀ a, s.sp ≤ a → a < 0x7E00 ∨ 0x8400 ≤ a → a < 0x100000 ∨ 0x100000 + n * 512 ≤ a →
          t.mem a = s.mem a := by
  refine ⟨fun hAx => ?_, fun n fuel hEs hOffset hChain hEnd hFuel => ?_⟩
  · obtain ⟨t, hRun, hEntry, hBx, hEs, hSp, -⟩ := funcGetFATEntry_spec disk hDs (by omega) hHigh hAx
    exact ⟨t, hRun, hEntry, hBx, hEs, hSp⟩
  · exact labelFileNameFound_spec disk hDs hEs hOffset hLow hHigh hChain hEnd hFuel

/-- A disk with the file of the clusters 341 and 2. Entry 341 lies in two sectors. -/
def straddlingDisk : Disk := fun sector i =>
  if sector = 1 then (if i = 3 then 0xFF else if i = 4 then 0x0F else if i = 511 then 0x20 else 0)
  else if sector = 2 then 0
  else BitVec.ofNat 8 sector

/-- The file's directory entry is the third one of the buffer. -/
def straddlingMachine : Machine where
  ax := 341
  eaxHigh := 0
  bx := 0
  cx := 0
  dx := 0
  bp := 0
  sp := 0x7C00
  esi := 0
  edi := 0x804B
  ds := loaderSegment
  es := 0
  fs := 0
  odd := 0
  offsetOfKernelFileCount := offsetOfKernelFile
  mem := fun a => if a = 0x805A then 0x55 else if a = 0x805B then 1 else 0

theorem fat12_read_straddling :
    (∃ t, funcGetFATEntry straddlingDisk straddlingMachine = some t ∧ t.ax.toNat = 2) ∧
    ∃ t, labelFileNameFound straddlingDisk 2 straddlingMachine = some t ∧
      (∀ i < 512, t.mem (0x100000 + i) = 116) ∧ ∀ i < 512, t.mem (0x100200 + i) = 33 := by
  obtain ⟨hEntry, hFile⟩ := fat12_read straddlingDisk straddlingMachine rfl (by decide) (by decide)
  have hFirst : firstCluster straddlingMachine = 341 := by decide
  have hStart : chain (nextCluster straddlingDisk) (firstCluster straddlingMachine) 0 = some 341 :=
    congrArg some hFirst
  have hSecond : chain (nextCluster straddlingDisk) (firstCluster straddlingMachine) 1 = some 2 := by
    rw [hFirst]
    decide
  have hEnd : chain (nextCluster straddlingDisk) (firstCluster straddlingMachine) 2 = none := by
    rw [hFirst]
    decide
  have hChain : ∀ k < 2, ∃ c, chain (nextCluster straddlingDisk) (firstCluster straddlingMachine) k = some c ∧
      c < 3072 := by
    intro k hk
    obtain rfl | rfl : k = 0 ∨ k = 1 := by omega
    · exact ⟨341, hStart, by decide⟩
    · exact ⟨2, hSecond, by decide⟩
  obtain ⟨t, hRun, hAx, -⟩ := hEntry (by decide)
  obtain ⟨u, hLoaded, -, hIn, -⟩ := hFile 2 2 rfl rfl hChain hEnd (Nat.le_refl 2)
  have hPacked : packedEntry (fatTable straddlingDisk) straddlingMachine.ax.toNat = 2 := by decide
  exact ⟨⟨t, hRun, hAx.trans hPacked⟩, u, hLoaded, hIn 0 341 hStart, hIn 1 2 hSecond⟩

end KalinoteOS.Loader
