import KalinoteOS.Fat32.Lookup

/-! # Writing an inode back

`fat32_write_inode` reads the cluster in which the lookup has found the entry, changes three fields of the
entry and writes the cluster. On the disk these are three stores.
-/
namespace KalinoteOS.Fat32
open Lib
set_option autoImplicit false

/-- The first sector of a cluster, as `fat32_write_inode` computes it: `dentry_location - 2` is an
`unsigned long`. -/
def SbInfo.locationSector (fsbi : SbInfo) (location : Nat) : Nat :=
  (fsbi.dataFirstSector + (location + 2 ^ 64 - 2) % 2 ^ 64 * fsbi.sectorPerCluster) % 2 ^ 64

def readSectors (disk : Disk) (sector count : Nat) (buf : Bytes) : Bytes := fun x =>
  if x < 512 * count then disk (512 * sector + x) else buf x

def writeSectors (disk : Disk) (sector count : Nat) (buf : Bytes) : Disk := fun a =>
  if 512 * sector ≤ a ∧ a < 512 * (sector + count) then buf (a - 512 * sector) else disk a

/-- The three fields in the entry at `fdentry`. -/
def storeFields (buf : Bytes) (fdentry : Nat) (inode : Inode) : Bytes :=
  let buf := Bytes.store buf (fdentry + 28) 4 inode.fileSize
  let buf := Bytes.store buf (fdentry + 26) 2 (inode.info.firstCluster &&& 0xffff)
  Bytes.store buf (fdentry + 20) 2 (Bytes.load buf (fdentry + 20) 2 &&& 0xf000 ||| inode.info.firstCluster >>> 16)

/-- `fat32_write_inode`. -/
def writeInode (fsbi : SbInfo) (disk : Disk) (inode : Inode) : Disk :=
  if inode.info.dentryLocation = 0 then disk
  else
    let sector := fsbi.locationSector inode.info.dentryLocation
    let buf := readSectors disk sector fsbi.sectorPerCluster fun _ => 0
    let buf := storeFields buf (32 * inode.info.dentryPosition) inode
    writeSectors disk sector fsbi.sectorPerCluster buf

/-- The inode with another size and another first cluster. -/
def Inode.resize (inode : Inode) (size cluster : Nat) : Inode :=
  { inode with fileSize := size, info := { inode.info with firstCluster := cluster } }

/-- The place of the entry of the inode on the disk. -/
def entryAddress (fsbi : SbInfo) (finode : InodeInfo) : Nat :=
  512 * fsbi.clusterSector finode.dentryLocation + 32 * finode.dentryPosition

/-- Of the disk only `DIR_FileSize`, `DIR_FstClusLO` and the low 12 bits of `DIR_FstClusHI` of the entry at
`e` have changed. -/
structure OnlyFields (disk disk' : Disk) (e : Nat) : Prop where
  others : ∀ a, a < e + 20 ∨ e + 22 ≤ a → a < e + 26 ∨ e + 32 ≤ a → disk' a = disk a
  reserved : disk' (e + 21) >>> 4 = disk (e + 21) >>> 4

/-! ## Stores in a window -/

section
variable {disk : Disk} {sector count : Nat} {buf : Bytes}

theorem writeSectors_read : writeSectors disk sector count (readSectors disk sector count buf) = disk := by
  funext a
  unfold writeSectors readSectors
  split
  · next hIn =>
    have hLt : a - 512 * sector < 512 * count := by omega
    have hPlace : 512 * sector + (a - 512 * sector) = a := by omega
    rw [if_pos hLt, hPlace]
  · rfl

theorem writeSectors_at {x : Nat} (hx : x < 512 * count) :
    writeSectors disk sector count buf (512 * sector + x) = buf x := by
  have hIn : 512 * sector ≤ 512 * sector + x ∧ 512 * sector + x < 512 * (sector + count) := by omega
  have hPlace : 512 * sector + x - 512 * sector = x := by omega
  unfold writeSectors
  rw [if_pos hIn, hPlace]

theorem writeSectors_store {p n : Nat} (v : Nat) (hIn : p + n ≤ 512 * count) :
    writeSectors disk sector count (Bytes.store buf p n v) =
      Bytes.store (writeSectors disk sector count buf) (512 * sector + p) n v := by
  induction n generalizing p v with
  | zero => rfl
  | succ n ih =>
    have hRest := ih (p := p + 1) (v / 256) (by omega)
    rw [Bytes.store, Bytes.store, Nat.add_assoc, ← hRest]
    funext a
    by_cases hHere : a = 512 * sector + p
    · subst hHere
      rw [writeSectors_at (by omega), Function.update_self, Function.update_self]
    · rw [Function.update_of_ne hHere]
      unfold writeSectors
      split
      · next hWindow => exact Function.update_of_ne (by omega) _ _
      · rfl

theorem load_writeSectors (disk : Disk) (sector : Nat) (buf : Bytes) {p n : Nat} (hIn : p + n ≤ 512 * count) :
    Bytes.load (writeSectors disk sector count buf) (512 * sector + p) n = Bytes.load buf p n := by
  apply Bytes.load_window
  intro x hx
  rw [Nat.add_assoc]
  exact writeSectors_at (by omega)

/-- In the buffer or on the disk, the fields are stored alike. -/
theorem writeSectors_storeFields {fdentry : Nat} (inode : Inode) (hIn : fdentry + 32 ≤ 512 * count) :
    writeSectors disk sector count (storeFields buf fdentry inode) =
      storeFields (writeSectors disk sector count buf) (512 * sector + fdentry) inode := by
  unfold storeFields
  dsimp only
  rw [writeSectors_store _ (by omega), writeSectors_store _ (by omega), writeSectors_store _ (by omega)]
  have hField : fdentry + 20 + 2 ≤ 512 * count := by omega
  have hLoad := load_writeSectors disk sector (Bytes.store (Bytes.store buf (fdentry + 28) 4 inode.fileSize)
    (fdentry + 26) 2 (inode.info.firstCluster &&& 0xffff)) hField
  rw [writeSectors_store _ (by omega), writeSectors_store _ (by omega)] at hLoad
  rw [← hLoad]
  rfl

end

/-! ## The halves of a cluster number -/

section
variable {hi lo q cluster : Nat}

/-- The reserved bits of the old half, with the low 12 bits of the new one. -/
theorem clusHI_eq (hHi : hi < 2 ^ 16) (hq : q < 2 ^ 12) : hi &&& 0xf000 ||| q = hi / 2 ^ 12 * 2 ^ 12 + q := by
  have hMask : 0xf000 = (2 ^ 4 - 1) <<< 12 := by decide
  rw [hMask]
  exact upper_or_lower hHi hq

theorem firstCluster_eq (hLo : lo < 2 ^ 16) : (hi <<< 16 ||| lo) &&& 0x0fffffff = (hi * 2 ^ 16 + lo) %
    2 ^ 28 := by
  have hMask : 0x0fffffff = 2 ^ 28 - 1 := by decide
  rw [hMask, Nat.and_two_pow_sub_one_eq_mod, ← Nat.shiftLeft_add_eq_or_of_lt hLo, Nat.shiftLeft_eq]

theorem low_eq (n : Nat) : n &&& 0xffff = n % 2 ^ 16 := by
  have hMask : 0xffff = 2 ^ 16 - 1 := by decide
  rw [hMask, Nat.and_two_pow_sub_one_eq_mod]

end

/-! ## The fields of the entry -/

section
variable (disk : Disk) (e : Nat) {inode : Inode}

theorem storeFields_fileSize (inode : Inode) :
    Bytes.load (storeFields disk e inode) (e + 28) 4 = inode.fileSize % 2 ^ 32 := by
  unfold storeFields
  rw [Bytes.load_store_other _ _ (by omega), Bytes.load_store_other _ _ (by omega), Bytes.load_store]
  rfl

theorem storeFields_low (inode : Inode) :
    Bytes.load (storeFields disk e inode) (e + 26) 2 = inode.info.firstCluster % 2 ^ 16 := by
  unfold storeFields
  rw [Bytes.load_store_other _ _ (by omega), Bytes.load_store, low_eq]
  exact Nat.mod_mod _ _

theorem storeFields_high (hCluster : inode.info.firstCluster < 2 ^ 28) :
    Bytes.load (storeFields disk e inode) (e + 20) 2 =
      Bytes.load disk (e + 20) 2 / 2 ^ 12 * 2 ^ 12 + inode.info.firstCluster / 2 ^ 16 := by
  have hOld : Bytes.load disk (e + 20) 2 < 2 ^ 16 := Bytes.load_lt disk (e + 20) 2
  unfold storeFields
  dsimp only
  rw [Bytes.load_store, Bytes.load_store_other _ _ (by omega), Bytes.load_store_other _ _ (by omega),
    Nat.shiftRight_eq_div_pow, clusHI_eq hOld (by omega)]
  exact Nat.mod_eq_of_lt (by omega)

theorem storeFields_onlyFields (hCluster : inode.info.firstCluster < 2 ^ 28) :
    OnlyFields disk (storeFields disk e inode) e := by
  constructor
  · intro a hHigh hOthers
    unfold storeFields
    rw [Bytes.store_other _ _ (by omega), Bytes.store_other _ _ (by omega), Bytes.store_other _ _ (by omega)]
  · have hNew := storeFields_high disk e hCluster
    have hPair : ∀ m : Bytes, Bytes.load m (e + 20) 2 = (m (e + 20)).toNat + 256 * (m (e + 21)).toNat :=
      fun m => rfl
    rw [hPair, hPair] at hNew
    have hLow := (disk (e + 20)).isLt
    have hLow' := (storeFields disk e inode (e + 20)).isLt
    apply BitVec.eq_of_toNat_eq
    rw [BitVec.toNat_ushiftRight, BitVec.toNat_ushiftRight, Nat.shiftRight_eq_div_pow, Nat.shiftRight_eq_div_pow]
    omega

theorem storeFields_self (hSize : inode.fileSize = Bytes.load disk (e + 28) 4)
    (hCluster : inode.info.firstCluster =
      (Bytes.load disk (e + 20) 2 * 2 ^ 16 + Bytes.load disk (e + 26) 2) % 2 ^ 28) :
    storeFields disk e inode = disk := by
  have hHi : Bytes.load disk (e + 20) 2 < 2 ^ 16 := Bytes.load_lt disk (e + 20) 2
  have hLo : Bytes.load disk (e + 26) 2 < 2 ^ 16 := Bytes.load_lt disk (e + 26) 2
  have hLow : inode.info.firstCluster &&& 0xffff = Bytes.load disk (e + 26) 2 := by
    rw [low_eq]
    omega
  have hHigh : Bytes.load disk (e + 20) 2 &&& 0xf000 ||| inode.info.firstCluster >>> 16 = Bytes.load disk
    (e + 20) 2 := by
    rw [Nat.shiftRight_eq_div_pow, clusHI_eq hHi (by omega)]
    omega
  unfold storeFields
  rw [hSize, Bytes.store_load]
  dsimp only
  rw [hLow, Bytes.store_load, hHigh, Bytes.store_load]

end

/-! ## Where the entries are -/

/-- The address of an entry. -/
def SbInfo.placeAddress (fsbi : SbInfo) (place : Nat × Nat) : Nat :=
  512 * fsbi.clusterSector place.1 + 32 * place.2

section
variable {dpte : PartitionEntry} {fbs : BootSector} (h : Valid dpte fbs)

include h

theorem Valid.entries_eq : (readSbInfo dpte fbs).entries = 16 * (readSbInfo dpte fbs).sectorPerCluster := by
  unfold SbInfo.entries
  rw [h.bytesPerCluster]
  omega

/-- The entries of all clusters are numbered in a row. -/
theorem Valid.placeAddress {place : Nat × Nat} (hc : fbs.IsCluster place.1) :
    (readSbInfo dpte fbs).placeAddress place = 512 * (readSbInfo dpte fbs).dataFirstSector +
      32 * ((place.1 - 2) * (readSbInfo dpte fbs).entries + place.2) := by
  have hMul : (place.1 - 2) * (16 * (readSbInfo dpte fbs).sectorPerCluster) =
      16 * ((place.1 - 2) * (readSbInfo dpte fbs).sectorPerCluster) := Nat.mul_left_comm _ _ _
  unfold SbInfo.placeAddress
  rw [h.clusterSector hc, h.entries_eq, hMul]
  omega

theorem Valid.place_apart {p q : Nat × Nat} (hp : fbs.IsCluster p.1) (hq : fbs.IsCluster q.1)
    (hpi : p.2 < (readSbInfo dpte fbs).entries) (hqi : q.2 < (readSbInfo dpte fbs).entries) (hNe : p ≠ q) :
    (readSbInfo dpte fbs).placeAddress p + 32 ≤ (readSbInfo dpte fbs).placeAddress q ∨
      (readSbInfo dpte fbs).placeAddress q + 32 ≤ (readSbInfo dpte fbs).placeAddress p := by
  rw [h.placeAddress hp, h.placeAddress hq]
  have hNumber : (p.1 - 2) * (readSbInfo dpte fbs).entries + p.2 ≠ (q.1 - 2) * (readSbInfo dpte fbs).entries +
    q.2 := by
    intro hEq
    have hPos : 0 < (readSbInfo dpte fbs).entries := by omega
    have hDiv := congrArg (· / (readSbInfo dpte fbs).entries) hEq
    have hMod := congrArg (· % (readSbInfo dpte fbs).entries) hEq
    simp only [Nat.add_comm _ p.2, Nat.add_comm _ q.2, Nat.add_mul_div_right _ _ hPos, Nat.add_mul_mod_self_right,
      Nat.div_eq_of_lt hpi, Nat.div_eq_of_lt hqi, Nat.mod_eq_of_lt hpi, Nat.mod_eq_of_lt hqi] at hDiv hMod
    have hpLow := hp.1
    have hqLow := hq.1
    exact hNe (Prod.ext (by omega) hMod)
  omega

end

/-! ## The write as stores on the disk -/

section
variable {dpte : PartitionEntry} {fbs : BootSector} {inode : Inode}

/-- The sector for the write is that of the lookup. -/
theorem Valid.locationSector (h : Valid dpte fbs) {c : Nat} (hc : fbs.IsCluster c) :
    (readSbInfo dpte fbs).locationSector c = (readSbInfo dpte fbs).clusterSector c := by
  have hData := h.dataFirstSector
  have hLba := h.lba
  have hTotal := h.mul_clusterCount
  have hBound := h.countBound
  obtain ⟨hLow, hHigh⟩ := hc
  have hSub : (c + 2 ^ 64 - 2) % 2 ^ 64 = c - 2 := by omega
  have hIn : (c - 2) * (readSbInfo dpte fbs).sectorPerCluster ≤ fbs.bpbSecPerClus * fbs.clusterCount := by
    rw [Nat.mul_comm]
    exact Nat.mul_le_mul_left _ (by omega)
  unfold SbInfo.locationSector
  rw [h.clusterSector ⟨hLow, hHigh⟩, hSub]
  exact Nat.mod_eq_of_lt (by omega)

/-- On the disk the write is three stores. -/
theorem writeInode_eq (disk : Disk) (h : Valid dpte fbs) (hCluster : fbs.IsCluster inode.info.dentryLocation)
    (hEntry : inode.info.dentryPosition < (readSbInfo dpte fbs).entries) :
    writeInode (readSbInfo dpte fbs) disk inode =
      storeFields disk (entryAddress (readSbInfo dpte fbs) inode.info) inode := by
  have hBytes := h.bytesPerCluster
  have hLocation : inode.info.dentryLocation ≠ 0 := Nat.ne_of_gt (Nat.lt_of_lt_of_le (by decide) hCluster.1)
  have hSector := h.locationSector hCluster
  unfold writeInode entryAddress
  generalize readSbInfo dpte fbs = fsbi at *
  have hEntries : fsbi.entries = (fsbi.bytesPerCluster + 31) / 32 := rfl
  rw [if_neg hLocation]
  dsimp only
  rw [hSector, writeSectors_storeFields inode (by omega), writeSectors_read]

end

/-- A file of 16 bytes in cluster 3 whose entry is the first of cluster 2. -/
def oneFileInode : Inode := ⟨16, 1, fsAttrFile, ⟨3, 2, 0, 0, 0, 0, 0⟩⟩

end KalinoteOS.Fat32
