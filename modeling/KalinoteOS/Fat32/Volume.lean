import KalinoteOS.Fat32.Compare
import Mathlib.Data.Nat.Bitwise

/-! # A FAT32 volume

What is kept of the boot sector, and where the sectors of a cluster and of a FAT entry are.
-/
namespace KalinoteOS.Fat32
open Lib
set_option autoImplicit false

/-- The bytes of the disk; sector `s` has the 512 from `512 * s` on. -/
abbrev Disk := Bytes

/-- The bytes of `struct FAT32_BootSector`. -/
abbrev BootSector := Bytes

namespace BootSector

def bpbBytesPerSec (fbs : BootSector) : Nat := Bytes.load fbs 11 2
def bpbSecPerClus (fbs : BootSector) : Nat := (fbs 13).toNat
def bpbRsvdSecCnt (fbs : BootSector) : Nat := Bytes.load fbs 14 2
def bpbNumFATs (fbs : BootSector) : Nat := (fbs 16).toNat
def bpbTotSec32 (fbs : BootSector) : Nat := Bytes.load fbs 32 4
def bpbFATSz32 (fbs : BootSector) : Nat := Bytes.load fbs 36 4
def bpbRootClus (fbs : BootSector) : Nat := Bytes.load fbs 44 4
def bpbFSInfo (fbs : BootSector) : Nat := Bytes.load fbs 48 2
def bpbBkBootSec (fbs : BootSector) : Nat := Bytes.load fbs 50 2

/-- The sectors in front of the clusters. -/
def systemSectors (fbs : BootSector) : Nat := fbs.bpbRsvdSecCnt + fbs.bpbFATSz32 * fbs.bpbNumFATs

/-- The clusters of the volume; they are numbered from 2 on. -/
def clusterCount (fbs : BootSector) : Nat := (fbs.bpbTotSec32 - fbs.systemSectors) / fbs.bpbSecPerClus

end BootSector

/-- What is used of `struct Disk_Partition_Table_Entry`. -/
structure PartitionEntry where
  startLBA : BitVec 32
  sectorsLimit : BitVec 32

/-- `struct FAT32_sb_info`. -/
structure SbInfo where
  startSector : Nat
  sectorCount : Nat
  sectorPerCluster : Nat
  bytesPerCluster : Nat
  bytesPerSector : Nat
  dataFirstSector : Nat
  fat1FirstSector : Nat
  sectorPerFAT : Nat
  numFATs : Nat
  fsinfoSectorInFat : Nat
  bootsectorBkInFat : Nat

/-- What `fat32_read_superblock` stores of the boot sector; the sums are those of `unsigned int`. -/
def readSbInfo (dpte : PartitionEntry) (fbs : BootSector) : SbInfo where
  startSector := dpte.startLBA.toNat
  sectorCount := dpte.sectorsLimit.toNat
  sectorPerCluster := fbs.bpbSecPerClus
  bytesPerCluster := fbs.bpbSecPerClus * fbs.bpbBytesPerSec
  bytesPerSector := fbs.bpbBytesPerSec
  dataFirstSector := (dpte.startLBA.toNat + fbs.bpbRsvdSecCnt + fbs.bpbFATSz32 * fbs.bpbNumFATs) % 2 ^ 32
  fat1FirstSector := (dpte.startLBA.toNat + fbs.bpbRsvdSecCnt) % 2 ^ 32
  sectorPerFAT := fbs.bpbFATSz32
  numFATs := fbs.bpbNumFATs
  fsinfoSectorInFat := fbs.bpbFSInfo
  bootsectorBkInFat := fbs.bpbBkBootSec

/-- The first sector of a cluster, as the lookup computes it: `cluster - 2` is an `unsigned int`. -/
def SbInfo.clusterSector (fsbi : SbInfo) (cluster : Nat) : Nat :=
  fsbi.dataFirstSector + (cluster + 2 ^ 32 - 2) % 2 ^ 32 * fsbi.sectorPerCluster

/-- The sector of a FAT entry. -/
def SbInfo.fatSector (fsbi : SbInfo) (fatEntry : Nat) : Nat := fsbi.fat1FirstSector + (fatEntry >>> 7)

def readFATEntry (fsbi : SbInfo) (disk : Disk) (fatEntry : Nat) : Nat :=
  Bytes.load disk (512 * fsbi.fatSector fatEntry + 4 * (fatEntry &&& 0x7f)) 4 &&& 0x0fffffff

/-! ## Valid volumes -/

/-- A boot sector for the 512-byte sectors of the disk, with FATs that have an entry for every cluster,
in a partition that holds the volume. -/
structure Valid (dpte : PartitionEntry) (fbs : BootSector) : Prop where
  bytesPerSec : fbs.bpbBytesPerSec = 512
  secPerClus : 0 < fbs.bpbSecPerClus
  numFATs : 0 < fbs.bpbNumFATs
  clusters : fbs.systemSectors ≤ fbs.bpbTotSec32
  fatSize : 4 * (fbs.clusterCount + 2) ≤ 512 * fbs.bpbFATSz32
  countBound : fbs.clusterCount + 2 ≤ 0x0ffffff7
  sectors : fbs.bpbTotSec32 ≤ dpte.sectorsLimit.toNat
  lba : dpte.startLBA.toNat + fbs.bpbTotSec32 ≤ 2 ^ 32 - 1

/-- The number of a cluster of the volume. -/
def BootSector.IsCluster (fbs : BootSector) (c : Nat) : Prop := 2 ≤ c ∧ c < fbs.clusterCount + 2

/-- The sectors of the first FAT. -/
def SbInfo.InFAT1 (fsbi : SbInfo) (s : Nat) : Prop :=
  fsbi.fat1FirstSector ≤ s ∧ s < fsbi.fat1FirstSector + fsbi.sectorPerFAT

/-- The sectors of `count` clusters. -/
def SbInfo.InData (fsbi : SbInfo) (count s : Nat) : Prop :=
  fsbi.dataFirstSector ≤ s ∧ s < fsbi.dataFirstSector + fsbi.sectorPerCluster * count

section
variable {dpte : PartitionEntry} {fbs : BootSector}

theorem Valid.mul_clusterCount (h : Valid dpte fbs) :
    fbs.systemSectors + fbs.bpbSecPerClus * fbs.clusterCount ≤ fbs.bpbTotSec32 := by
  have hMul : fbs.bpbSecPerClus * fbs.clusterCount ≤ fbs.bpbTotSec32 - fbs.systemSectors := Nat.mul_div_le _ _
  have hClusters := h.clusters
  omega

theorem Valid.dataFirstSector (h : Valid dpte fbs) :
    (readSbInfo dpte fbs).dataFirstSector = dpte.startLBA.toNat + fbs.systemSectors := by
  have hTotal := h.mul_clusterCount
  have hLba := h.lba
  have hSum : dpte.startLBA.toNat + fbs.bpbRsvdSecCnt + fbs.bpbFATSz32 * fbs.bpbNumFATs =
      dpte.startLBA.toNat + fbs.systemSectors := Nat.add_assoc _ _ _
  unfold readSbInfo
  dsimp only
  rw [hSum]
  exact Nat.mod_eq_of_lt (by omega)

theorem Valid.fat1FirstSector (h : Valid dpte fbs) :
    (readSbInfo dpte fbs).fat1FirstSector = dpte.startLBA.toNat + fbs.bpbRsvdSecCnt := by
  have hTotal := h.mul_clusterCount
  have hLba := h.lba
  have hSystem : fbs.bpbRsvdSecCnt ≤ fbs.systemSectors := Nat.le_add_right _ _
  exact Nat.mod_eq_of_lt (by omega)

theorem Valid.bytesPerCluster (h : Valid dpte fbs) :
    (readSbInfo dpte fbs).bytesPerCluster = 512 * (readSbInfo dpte fbs).sectorPerCluster := by
  unfold readSbInfo
  dsimp only
  rw [h.bytesPerSec, Nat.mul_comm]

/-- The first FAT lies in front of the clusters. -/
theorem Valid.fat1_le (h : Valid dpte fbs) :
    (readSbInfo dpte fbs).fat1FirstSector + (readSbInfo dpte fbs).sectorPerFAT ≤
      (readSbInfo dpte fbs).dataFirstSector := by
  have hMul : fbs.bpbFATSz32 ≤ fbs.bpbFATSz32 * fbs.bpbNumFATs := Nat.le_mul_of_pos_right _ h.numFATs
  have hSize : (readSbInfo dpte fbs).sectorPerFAT = fbs.bpbFATSz32 := rfl
  rw [h.dataFirstSector, h.fat1FirstSector, hSize]
  unfold BootSector.systemSectors
  omega

theorem Valid.fatSector (h : Valid dpte fbs) {c : Nat} (hc : fbs.IsCluster c) :
    (readSbInfo dpte fbs).InFAT1 ((readSbInfo dpte fbs).fatSector c) := by
  have hSize := h.fatSize
  have hFat : (readSbInfo dpte fbs).sectorPerFAT = fbs.bpbFATSz32 := rfl
  have hLt := hc.2
  unfold SbInfo.InFAT1 SbInfo.fatSector
  rw [Nat.shiftRight_eq_div_pow, hFat]
  omega

theorem Valid.clusterSector (h : Valid dpte fbs) {c : Nat} (hc : fbs.IsCluster c) :
    (readSbInfo dpte fbs).clusterSector c =
      (readSbInfo dpte fbs).dataFirstSector + (c - 2) * (readSbInfo dpte fbs).sectorPerCluster := by
  have hBound := h.countBound
  obtain ⟨hLow, hHigh⟩ := hc
  have hSub : (c + 2 ^ 32 - 2) % 2 ^ 32 = c - 2 := by omega
  unfold SbInfo.clusterSector
  rw [hSub]

/-- The sectors that are read for a cluster number lie in a region of the volume if and only if it is the
number of a cluster. -/
theorem Valid.cluster_iff (h : Valid dpte fbs) {c : Nat} (hWord : c < 2 ^ 32) :
    (∀ s ∈ List.range' ((readSbInfo dpte fbs).clusterSector c) (readSbInfo dpte fbs).sectorPerCluster,
      (readSbInfo dpte fbs).InFAT1 s ∨ (readSbInfo dpte fbs).InData fbs.clusterCount s) ↔ fbs.IsCluster c := by
  have hFat := h.fat1_le
  have hPos : 0 < (readSbInfo dpte fbs).sectorPerCluster := h.secPerClus
  have hBound := h.countBound
  generalize readSbInfo dpte fbs = fsbi at *
  have hPlace : fsbi.clusterSector c = fsbi.dataFirstSector + (c + 2 ^ 32 - 2) % 2 ^ 32 *
    fsbi.sectorPerCluster := rfl
  generalize hIndex : (c + 2 ^ 32 - 2) % 2 ^ 32 = k at hPlace
  have hData : ∀ m, m < fbs.clusterCount ↔
      fsbi.dataFirstSector + m * fsbi.sectorPerCluster < fsbi.dataFirstSector + fsbi.sectorPerCluster *
        fbs.clusterCount := by
    intro m
    rw [Nat.mul_comm m, Nat.add_lt_add_iff_left, Nat.mul_lt_mul_left hPos]
  have hIs : fbs.IsCluster c ↔ k < fbs.clusterCount := by
    unfold BootSector.IsCluster
    omega
  rw [hPlace, hIs]
  constructor
  · intro hAll
    have hFirst := hAll _ (List.mem_range'_1.mpr ⟨Nat.le_refl _, Nat.lt_add_of_pos_right hPos⟩)
    obtain hInFat | hInData := hFirst
    · have hLt := hInFat.2
      omega
    · exact (hData k).mpr hInData.2
  · intro hk s hs
    obtain ⟨hLow, hHigh⟩ := List.mem_range'_1.mp hs
    have hEnd : (k + 1) * fsbi.sectorPerCluster ≤ fsbi.sectorPerCluster * fbs.clusterCount := by
      rw [Nat.mul_comm]
      exact Nat.mul_le_mul_left _ hk
    rw [Nat.succ_mul] at hEnd
    refine Or.inr ⟨by omega, by omega⟩

end

/-! ## A small volume -/

/-- 65534 clusters of one sector, two FATs of 512 sectors, the root directory in cluster 2. -/
def sampleBoot : BootSector := fun x =>
  ([(12, 2), (13, 1), (14, 32), (16, 2), (32, 0x1e), (33, 4), (34, 1), (37, 2), (44, 2)].lookup x).getD 0

def samplePartition : PartitionEntry := ⟨2048, 66590⟩

theorem sample_valid : Valid samplePartition sampleBoot where
  bytesPerSec := by decide
  secPerClus := by decide
  numFATs := by decide
  clusters := by decide
  fatSize := by decide
  countBound := by decide
  sectors := by decide
  lba := by decide

end KalinoteOS.Fat32
