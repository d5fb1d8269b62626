import KalinoteOS.Fat32.WriteInode

/-! # Writing a FAT entry

`DISK1_FAT32_write_FAT_Entry` reads one sector of the first FAT, changes one of its 128 slots and writes
the sector to every copy of the FAT.
-/
namespace KalinoteOS.Fat32
open Lib
set_option autoImplicit false

/-- The sector of a FAT entry in copy `i`; the sum is an `unsigned long`. -/
def SbInfo.copySector (fsbi : SbInfo) (fatEntry i : Nat) : Nat :=
  (fsbi.fat1FirstSector + fsbi.sectorPerFAT * i + (fatEntry >>> 7)) % 2 ^ 64

/-- The loop that writes the sector to `n` copies. -/
def writeCopies (fsbi : SbInfo) (fatEntry : Nat) (buf : Bytes) : Nat → Disk → Disk
  | 0, disk => disk
  | n + 1, disk => writeSectors (writeCopies fsbi fatEntry buf n disk) (fsbi.copySector fatEntry n) 1 buf

def writeFATEntry (fsbi : SbInfo) (disk : Disk) (fatEntry value : Nat) : Disk :=
  let buf := readSectors disk (fsbi.fatSector fatEntry) 1 fun _ => 0
  let slot := 4 * (fatEntry &&& 0x7f)
  let buf := Bytes.store buf slot 4 (Bytes.load buf slot 4 &&& 0xf0000000 ||| value &&& 0x0fffffff)
  writeCopies fsbi fatEntry buf fsbi.numFATs disk

/-- At least one FAT, and all of them on a disk of 48-bit sector numbers. -/
structure SbInfo.Geometry (fsbi : SbInfo) : Prop where
  numFATs : 1 ≤ fsbi.numFATs
  onDisk : fsbi.fat1FirstSector + fsbi.sectorPerFAT * fsbi.numFATs ≤ 2 ^ 48

/-- The number of an entry of the FAT. -/
def SbInfo.IsEntry (fsbi : SbInfo) (fatEntry : Nat) : Prop := fatEntry / 128 < fsbi.sectorPerFAT

/-- The 32 bits of an entry in the first FAT. -/
def SbInfo.fatWord (fsbi : SbInfo) (disk : Disk) (fatEntry : Nat) : Nat :=
  Bytes.load disk (512 * fsbi.fatSector fatEntry + 4 * (fatEntry &&& 0x7f)) 4

/-- `disk'` is `disk` with `value` in the entry `e`, in all copies of the FAT. -/
structure EntryWritten (fsbi : SbInfo) (disk disk' : Disk) (e value : Nat) : Prop where
  read : readFATEntry fsbi disk' e = value % 2 ^ 28
  others : ∀ e', fsbi.IsEntry e' → e' ≠ e → readFATEntry fsbi disk' e' = readFATEntry fsbi disk e'
  reserved : fsbi.fatWord disk' e / 2 ^ 28 = fsbi.fatWord disk e / 2 ^ 28
  copies : ∀ i < fsbi.numFATs, ∀ x < 512,
    disk' (512 * fsbi.copySector e i + x) = disk' (512 * fsbi.fatSector e + x)
  sectors : ∀ s, (∀ i < fsbi.numFATs, s ≠ fsbi.copySector e i) → ∀ x < 512,
    disk' (512 * s + x) = disk (512 * s + x)

/-! ## One sector to several copies -/

section
variable {fsbi : SbInfo} {disk : Disk} {buf : Bytes} {e n : Nat}

theorem writeSectors_sector (sector s : Nat) {x : Nat} (hx : x < 512) :
    writeSectors disk sector 1 buf (512 * s + x) = if s = sector then buf x else disk (512 * s + x) := by
  by_cases hSame : s = sector
  · rw [if_pos hSame, hSame]
    exact writeSectors_at (by omega)
  · rw [if_neg hSame]
    unfold writeSectors
    exact if_neg (by omega)

/-- Every copy holds the buffer, whatever copies were written after it. -/
theorem writeCopies_copy {i x : Nat} (hi : i < n) (hx : x < 512) :
    writeCopies fsbi e buf n disk (512 * fsbi.copySector e i + x) = buf x := by
  induction n with
  | zero => exact absurd hi (Nat.not_lt_zero i)
  | succ n ih =>
    rw [writeCopies, writeSectors_sector _ _ hx]
    split
    · rfl
    · next hOther =>
      have hNe : i ≠ n := by
        rintro rfl
        exact hOther rfl
      exact ih (by omega)

theorem writeCopies_other {s x : Nat} (hs : ∀ i < n, s ≠ fsbi.copySector e i) (hx : x < 512) :
    writeCopies fsbi e buf n disk (512 * s + x) = disk (512 * s + x) := by
  induction n with
  | zero => rfl
  | succ n ih =>
    rw [writeCopies, writeSectors_sector _ _ hx, if_neg (hs n (Nat.lt_succ_self n))]
    exact ih fun i hi => hs i (Nat.lt_succ_of_lt hi)

end

/-! ## The slot -/

/-- The four reserved bits of the old entry, with the low 28 bits of the value. -/
theorem entryWord_eq {hi : Nat} (hHi : hi < 2 ^ 32) (v : Nat) :
    hi &&& 0xf0000000 ||| v &&& 0x0fffffff = hi / 2 ^ 28 * 2 ^ 28 + v % 2 ^ 28 := by
  have hMask : 0xf0000000 = (2 ^ 4 - 1) <<< 28 := by decide
  have hLowMask : 0x0fffffff = 2 ^ 28 - 1 := by decide
  rw [hMask, hLowMask, Nat.and_two_pow_sub_one_eq_mod]
  exact upper_or_lower hHi (Nat.mod_lt _ (by decide))

section
variable {fsbi : SbInfo} {disk : Disk} {e : Nat}

theorem slot_le (e : Nat) : 4 * (e &&& 0x7f) + 4 ≤ 512 := by
  have hMask : e &&& 0x7f ≤ 0x7f := Nat.and_le_right
  omega

theorem slot_ne {e' : Nat} (hNe : e' ≠ e) (hSector : e' / 128 = e / 128) : e' &&& 0x7f ≠ e &&& 0x7f := by
  have hMask : 0x7f = 2 ^ 7 - 1 := by decide
  rw [hMask, Nat.and_two_pow_sub_one_eq_mod, Nat.and_two_pow_sub_one_eq_mod]
  omega

/-- On the disk of the FATs the sums do not wrap. -/
theorem SbInfo.Geometry.copySector (h : fsbi.Geometry) (hEntry : fsbi.IsEntry e) {i : Nat}
    (hi : i < fsbi.numFATs) :
    fsbi.copySector e i = fsbi.fat1FirstSector + fsbi.sectorPerFAT * i + e / 128 := by
  have hOnDisk := h.onDisk
  have hIn : fsbi.sectorPerFAT * (i + 1) ≤ fsbi.sectorPerFAT * fsbi.numFATs := Nat.mul_le_mul_left _ hi
  rw [Nat.mul_add, Nat.mul_one] at hIn
  unfold SbInfo.IsEntry at hEntry
  unfold SbInfo.copySector
  rw [Nat.shiftRight_eq_div_pow]
  exact Nat.mod_eq_of_lt (by omega)

theorem SbInfo.Geometry.copySector_zero (h : fsbi.Geometry) (hEntry : fsbi.IsEntry e) :
    fsbi.copySector e 0 = fsbi.fatSector e := by
  rw [h.copySector hEntry h.numFATs, Nat.mul_zero, Nat.add_zero]
  unfold SbInfo.fatSector
  rw [Nat.shiftRight_eq_div_pow]

/-- Another sector of the first FAT is in no copy the sector of `e`. -/
theorem SbInfo.Geometry.fatSector_ne (h : fsbi.Geometry) (hEntry : fsbi.IsEntry e) {e' : Nat}
    (hEntry' : fsbi.IsEntry e') (hSector : e' / 128 ≠ e / 128) {i : Nat} (hi : i < fsbi.numFATs) :
    fsbi.fatSector e' ≠ fsbi.copySector e i := by
  rw [h.copySector hEntry hi]
  unfold SbInfo.IsEntry at hEntry'
  unfold SbInfo.fatSector
  rw [Nat.shiftRight_eq_div_pow]
  obtain rfl | hPos := Nat.eq_zero_or_pos i
  · omega
  · have hLater : fsbi.sectorPerFAT ≤ fsbi.sectorPerFAT * i := Nat.le_mul_of_pos_right _ hPos
    omega

/-- The first FAT holds the buffer, and so does every other copy. -/
theorem fatWord_eq (h : fsbi.Geometry) (hEntry : fsbi.IsEntry e) (buf : Bytes) {a : Nat} (ha : a + 4 ≤ 512) :
    Bytes.load (writeCopies fsbi e buf fsbi.numFATs disk) (512 * fsbi.fatSector e + a) 4 =
      Bytes.load buf a 4 := by
  apply Bytes.load_window
  intro x hx
  rw [← h.copySector_zero hEntry, Nat.add_assoc]
  exact writeCopies_copy h.numFATs (by omega)

theorem load_sector (s : Nat) {a : Nat} (ha : a + 4 ≤ 512) :
    Bytes.load (readSectors disk s 1 fun _ => 0) a 4 = Bytes.load disk (512 * s + a) 4 := by
  apply Bytes.load_window
  intro x hx
  unfold readSectors
  rw [if_pos (by omega), Nat.add_assoc]

theorem readFATEntry_eq_mod (fsbi : SbInfo) (disk : Disk) (e : Nat) :
    readFATEntry fsbi disk e = fsbi.fatWord disk e % 2 ^ 28 := by
  have hMask : 0x0fffffff = 2 ^ 28 - 1 := by decide
  unfold readFATEntry
  rw [hMask, Nat.and_two_pow_sub_one_eq_mod]
  rfl

/-- The sector that is written: the old one, with the word in its slot. -/
theorem writeFATEntry_eq (fsbi : SbInfo) (disk : Disk) (e value : Nat) :
    writeFATEntry fsbi disk e value = writeCopies fsbi e
      (Bytes.store (readSectors disk (fsbi.fatSector e) 1 fun _ => 0) (4 * (e &&& 0x7f)) 4
        (fsbi.fatWord disk e / 2 ^ 28 * 2 ^ 28 + value % 2 ^ 28)) fsbi.numFATs disk := by
  have hOld : Bytes.load (readSectors disk (fsbi.fatSector e) 1 fun _ => 0) (4 * (e &&& 0x7f)) 4 =
      fsbi.fatWord disk e := load_sector _ (slot_le e)
  have hOldLt : fsbi.fatWord disk e < 2 ^ 32 := Bytes.load_lt disk _ 4
  unfold writeFATEntry
  dsimp only
  rw [hOld, entryWord_eq hOldLt]

/-- The entry keeps its upper four bits and takes the low 28 of the value. -/
theorem fatWord_written (h : fsbi.Geometry) (hEntry : fsbi.IsEntry e) (value : Nat) :
    fsbi.fatWord (writeFATEntry fsbi disk e value) e = fsbi.fatWord disk e / 2 ^ 28 * 2 ^ 28 + value %
      2 ^ 28 := by
  have hOldLt : fsbi.fatWord disk e < 2 ^ 32 := Bytes.load_lt disk _ 4
  rw [writeFATEntry_eq]
  refine (fatWord_eq h hEntry _ (slot_le e)).trans ((Bytes.load_store _ _ _ _).trans ?_)
  exact Nat.mod_eq_of_lt (by omega)

/-- Another entry is in another slot of the sector that is written, or in a sector that is not. -/
theorem fatWord_written_other (h : fsbi.Geometry) (hEntry : fsbi.IsEntry e) (value : Nat) {e' : Nat}
    (hEntry' : fsbi.IsEntry e') (hNe : e' ≠ e) :
    fsbi.fatWord (writeFATEntry fsbi disk e value) e' = fsbi.fatWord disk e' := by
  have hSlot' := slot_le e'
  unfold SbInfo.fatWord
  rw [writeFATEntry_eq]
  by_cases hSector : e' / 128 = e / 128
  · have hSame : fsbi.fatSector e' = fsbi.fatSector e := by
      unfold SbInfo.fatSector
      rw [Nat.shiftRight_eq_div_pow, Nat.shiftRight_eq_div_pow, hSector]
    have hApart := slot_ne hNe hSector
    rw [hSame, fatWord_eq h hEntry _ hSlot', ← load_sector _ hSlot']
    exact Bytes.load_store_other _ _ (by omega)
  · apply Bytes.load_window
    intro x hx
    rw [Nat.add_assoc]
    exact writeCopies_other (fun i hi => h.fatSector_ne hEntry hEntry' hSector hi) (by omega)

/-- Writing an entry changes the entry in all copies of the FAT, and nothing else that is read. -/
theorem writeFATEntry_written (fsbi : SbInfo) (disk : Disk) (e value : Nat) (hGeometry : fsbi.Geometry)
    (hEntry : fsbi.IsEntry e) : EntryWritten fsbi disk (writeFATEntry fsbi disk e value) e value := by
  have hNew : fsbi.fatWord (writeFATEntry fsbi disk e value) e =
      fsbi.fatWord disk e / 2 ^ 28 * 2 ^ 28 + value % 2 ^ 28 := fatWord_written hGeometry hEntry value
  constructor
  · rw [readFATEntry_eq_mod, hNew]
    omega
  · intro e' hEntry' hNe
    rw [readFATEntry_eq_mod, readFATEntry_eq_mod, fatWord_written_other hGeometry hEntry value hEntry' hNe]
  · rw [hNew]
    omega
  · intro i hi x hx
    rw [writeFATEntry_eq, writeCopies_copy hi hx, ← hGeometry.copySector_zero hEntry]
    exact (writeCopies_copy hGeometry.numFATs hx).symm
  · intro s hs x hx
    rw [writeFATEntry_eq]
    exact writeCopies_other hs hx

end

/-- Entry 130 of the sample volume, in the second sector of both FATs. -/
theorem writeFATEntry_written_sample :
    EntryWritten (readSbInfo samplePartition sampleBoot) (fun _ => 0xff)
      (writeFATEntry (readSbInfo samplePartition sampleBoot) (fun _ => 0xff) 130 0x87654321) 130 0x87654321 :=
  writeFATEntry_written (readSbInfo samplePartition sampleBoot) (fun _ => 0xff) 130 0x87654321
    ⟨by decide, by decide⟩ (by unfold SbInfo.IsEntry; decide)

end KalinoteOS.Fat32
