import KalinoteOS.Fat32.WriteEntry
import Mathlib.Data.List.Induction

/-! # The volume as a store

What the two writers of `fat32.c` do to a volume over any sequence of calls: a table of FAT entries, a table
of file sizes and one of first clusters.
-/
namespace KalinoteOS.Fat32
open Lib
set_option autoImplicit false

/-- A call of `DISK1_FAT32_write_FAT_Entry` or `fat32_write_inode`. -/
inductive Write where
  | fat (fatEntry value : Nat)
  | inode (inode : Inode)

def Write.run (fsbi : SbInfo) (disk : Disk) : Write → Disk
  | .fat fatEntry value => writeFATEntry fsbi disk fatEntry value
  | .inode node => writeInode fsbi disk node

/-- An entry of the FAT, or an entry of a cluster with a number of 28 bits. -/
def Write.Fits (fbs : BootSector) (fsbi : SbInfo) : Write → Prop
  | .fat fatEntry _ => fsbi.IsEntry fatEntry
  | .inode node => fbs.IsCluster node.info.dentryLocation ∧ node.info.dentryPosition < fsbi.entries ∧
      node.info.firstCluster < 2 ^ 28

/-- The bytes that a write is for, in every copy of the FAT. -/
def Write.Touches (fsbi : SbInfo) (a : Nat) : Write → Prop
  | .fat fatEntry _ => ∃ i < fsbi.numFATs, 512 * fsbi.copySector fatEntry i + 4 * (fatEntry &&& 0x7f) ≤ a ∧
      a < 512 * fsbi.copySector fatEntry i + 4 * (fatEntry &&& 0x7f) + 4
  | .inode node => entryAddress fsbi node.info + 20 ≤ a ∧ a < entryAddress fsbi node.info + 22 ∨
      entryAddress fsbi node.info + 26 ≤ a ∧ a < entryAddress fsbi node.info + 32

/-- The tables: of the FAT entries, and of the entries at a position of a cluster. -/
structure Tables where
  fat : Nat → Nat
  size : Nat × Nat → Nat
  first : Nat × Nat → Nat

def Write.apply (t : Tables) : Write → Tables
  | .fat fatEntry value => { t with fat := Function.update t.fat fatEntry (value % 2 ^ 28) }
  | .inode node =>
    let place := (node.info.dentryLocation, node.info.dentryPosition)
    { t with
      size := Function.update t.size place (node.fileSize % 2 ^ 32)
      first := Function.update t.first place node.info.firstCluster }

def tables (fsbi : SbInfo) (disk : Disk) : Tables where
  fat := readFATEntry fsbi disk
  size place := Bytes.load disk (fsbi.placeAddress place + 28) 4
  first place := (Bytes.load disk (fsbi.placeAddress place + 20) 2 * 2 ^ 16 +
    Bytes.load disk (fsbi.placeAddress place + 26) 2) % 2 ^ 28

/-- The same, as far as the volume goes. -/
structure Agree (fbs : BootSector) (fsbi : SbInfo) (t u : Tables) : Prop where
  fat : ∀ e, fsbi.IsEntry e → t.fat e = u.fat e
  size : ∀ place : Nat × Nat, fbs.IsCluster place.1 → place.2 < fsbi.entries → t.size place = u.size place
  first : ∀ place : Nat × Nat, fbs.IsCluster place.1 → place.2 < fsbi.entries → t.first place = u.first place

/-- All copies of the FAT are equal. -/
def Mirrored (fsbi : SbInfo) (disk : Disk) : Prop :=
  ∀ i < fsbi.numFATs, ∀ k < fsbi.sectorPerFAT, ∀ x < 512,
    disk (512 * (fsbi.fat1FirstSector + fsbi.sectorPerFAT * i + k) + x) =
      disk (512 * (fsbi.fat1FirstSector + k) + x)

theorem Agree.refl (fbs : BootSector) (fsbi : SbInfo) (t : Tables) : Agree fbs fsbi t t :=
  ⟨fun _ _ => rfl, fun _ _ _ => rfl, fun _ _ _ => rfl⟩

section
variable {fbs : BootSector} {fsbi : SbInfo} {t u v : Tables}

theorem Agree.trans (h : Agree fbs fsbi t u) (h' : Agree fbs fsbi u v) : Agree fbs fsbi t v where
  fat e he := (h.fat e he).trans (h'.fat e he)
  size place hc hi := (h.size place hc hi).trans (h'.size place hc hi)
  first place hc hi := (h.first place hc hi).trans (h'.first place hc hi)

theorem update_agree {β : Type} {f g : β → Nat} [DecidableEq β] {k b : β} (n : Nat) (h : f b = g b) :
    Function.update f k n b = Function.update g k n b := by
  by_cases hEq : b = k
  · subst hEq
    simp
  · rw [Function.update_of_ne hEq, Function.update_of_ne hEq, h]

theorem Agree.apply (h : Agree fbs fsbi t u) (w : Write) : Agree fbs fsbi (w.apply t) (w.apply u) := by
  cases w with
  | fat fatEntry value => exact ⟨fun e he => update_agree _ (h.fat e he), h.size, h.first⟩
  | inode node =>
    exact ⟨h.fat, fun place hc hi => update_agree _ (h.size place hc hi),
      fun place hc hi => update_agree _ (h.first place hc hi)⟩

end

/-! ## Where the tables lie -/

section
variable {dpte : PartitionEntry} {fbs : BootSector} (h : Valid dpte fbs)
include h

theorem Valid.geometry : (readSbInfo dpte fbs).Geometry := by
  refine ⟨h.numFATs, ?_⟩
  have hLba := h.lba
  have hClusters := h.clusters
  have hSize : (readSbInfo dpte fbs).sectorPerFAT * (readSbInfo dpte fbs).numFATs = fbs.bpbFATSz32 *
    fbs.bpbNumFATs := rfl
  rw [h.fat1FirstSector, hSize]
  unfold BootSector.systemSectors at hClusters
  omega

/-- The copies of the FAT end where the clusters begin. -/
theorem Valid.fats_end : (readSbInfo dpte fbs).fat1FirstSector +
    (readSbInfo dpte fbs).sectorPerFAT * (readSbInfo dpte fbs).numFATs =
    (readSbInfo dpte fbs).dataFirstSector := by
  have hSize : (readSbInfo dpte fbs).sectorPerFAT * (readSbInfo dpte fbs).numFATs = fbs.bpbFATSz32 *
    fbs.bpbNumFATs := rfl
  rw [h.fat1FirstSector, h.dataFirstSector, hSize]
  unfold BootSector.systemSectors
  omega

theorem Valid.copySector_lt {e i : Nat} (he : (readSbInfo dpte fbs).IsEntry e)
    (hi : i < (readSbInfo dpte fbs).numFATs) :
    (readSbInfo dpte fbs).copySector e i < (readSbInfo dpte fbs).dataFirstSector := by
  rw [h.geometry.copySector he hi, ← h.fats_end]
  have hIn : (readSbInfo dpte fbs).sectorPerFAT * (i + 1) ≤
      (readSbInfo dpte fbs).sectorPerFAT * (readSbInfo dpte fbs).numFATs := Nat.mul_le_mul_left _ hi
  rw [Nat.mul_add, Nat.mul_one] at hIn
  unfold SbInfo.IsEntry at he
  omega

end

/-! ## A FAT entry -/

section
variable {dpte : PartitionEntry} {fbs : BootSector} {fsbi : SbInfo} {disk : Disk} {e : Nat}

/-- What is behind the copies of the FAT stays. -/
theorem writeFATEntry_data (h : Valid dpte fbs) (he : (readSbInfo dpte fbs).IsEntry e) (value : Nat) {a : Nat}
    (ha : 512 * (readSbInfo dpte fbs).dataFirstSector ≤ a) :
    writeFATEntry (readSbInfo dpte fbs) disk e value a = disk a := by
  have hAt : a = 512 * (a / 512) + a % 512 := (Nat.div_add_mod a 512).symm
  rw [writeFATEntry_eq, hAt]
  apply writeCopies_other
  · intro i hi hEq
    have hLt := h.copySector_lt he hi
    omega
  · exact Nat.mod_lt _ (by decide)

/-- A sector of a copy is the sector of an entry in the same copy only. -/
theorem copySector_eq_iff (hGeometry : fsbi.Geometry) (he : fsbi.IsEntry e) {i i' k : Nat}
    (hi' : i' < fsbi.numFATs)
    (hk : k < fsbi.sectorPerFAT) :
    fsbi.fat1FirstSector + fsbi.sectorPerFAT * i + k = fsbi.copySector e i' ↔ i = i' ∧ k = e / 128 := by
  rw [hGeometry.copySector he hi']
  unfold SbInfo.IsEntry at he
  constructor
  · intro hEq
    have hSum : fsbi.sectorPerFAT * i + k = fsbi.sectorPerFAT * i' + e / 128 := by omega
    have hPos : 0 < fsbi.sectorPerFAT := by omega
    have hDiv := congrArg (· / fsbi.sectorPerFAT) hSum
    simp only [Nat.mul_add_div hPos, Nat.div_eq_of_lt hk, Nat.div_eq_of_lt he, Nat.add_zero] at hDiv
    subst hDiv
    exact ⟨rfl, by omega⟩
  · rintro ⟨rfl, rfl⟩
    rfl

theorem writeFATEntry_mirrored (hGeometry : fsbi.Geometry) (he : fsbi.IsEntry e) (value : Nat)
    (h : Mirrored fsbi disk) :
    Mirrored fsbi (writeFATEntry fsbi disk e value) := by
  intro i hi k hk x hx
  have hFirst : fsbi.fat1FirstSector + k = fsbi.fat1FirstSector + fsbi.sectorPerFAT * 0 + k := by
    rw [Nat.mul_zero, Nat.add_zero]
  rw [writeFATEntry_eq]
  by_cases hSame : k = e / 128
  · have hHere := (copySector_eq_iff hGeometry he hi hk).mpr ⟨rfl, hSame⟩
    have hZero := (copySector_eq_iff hGeometry he hGeometry.numFATs hk).mpr ⟨rfl, hSame⟩
    rw [hFirst, hHere, hZero, writeCopies_copy hi hx, writeCopies_copy hGeometry.numFATs hx]
  · have hOther : ∀ i', ∀ j < fsbi.numFATs,
        fsbi.fat1FirstSector + fsbi.sectorPerFAT * i' + k ≠ fsbi.copySector e j := by
      intro i' j hj hEq
      exact hSame ((copySector_eq_iff hGeometry he hj hk).mp hEq).2
    rw [writeCopies_other (hOther i) hx, hFirst, writeCopies_other (hOther 0) hx, ← hFirst]
    exact h i hi k hk x hx

/-- With equal copies only the slot changes, in each of them. -/
theorem writeFATEntry_untouched (hGeometry : fsbi.Geometry) (he : fsbi.IsEntry e) (value : Nat)
    (h : Mirrored fsbi disk)
    {a : Nat} (ha : ¬ (Write.fat e value).Touches fsbi a) : writeFATEntry fsbi disk e value a = disk a := by
  have hAt : a = 512 * (a / 512) + a % 512 := (Nat.div_add_mod a 512).symm
  have hx : a % 512 < 512 := Nat.mod_lt _ (by decide)
  rw [writeFATEntry_eq, hAt]
  by_cases hCopy : ∃ i < fsbi.numFATs, a / 512 = fsbi.copySector e i
  · obtain ⟨i, hi, hSector⟩ := hCopy
    have hSlot : a % 512 < 4 * (e &&& 0x7f) ∨ 4 * (e &&& 0x7f) + 4 ≤ a % 512 := by
      have hNot : ¬ (512 * fsbi.copySector e i + 4 * (e &&& 0x7f) ≤ a ∧
          a < 512 * fsbi.copySector e i + 4 * (e &&& 0x7f) + 4) := fun hIn => ha ⟨i, hi, hIn⟩
      rw [← hSector] at hNot
      omega
    have hSame := h i hi (e / 128) he (a % 512) hx
    have hPlace := hGeometry.copySector he hi
    have hFat : fsbi.fatSector e = fsbi.fat1FirstSector + e / 128 := by
      unfold SbInfo.fatSector
      rw [Nat.shiftRight_eq_div_pow]
    rw [hSector, writeCopies_copy hi hx, Bytes.store_other _ _ hSlot, hPlace, hSame, hFat]
    unfold readSectors
    exact if_pos (by omega)
  · exact writeCopies_other (fun i hi hEq => hCopy ⟨i, hi, hEq⟩) hx

theorem writeFATEntry_tables (h : Valid dpte fbs) (he : (readSbInfo dpte fbs).IsEntry e) (value : Nat) :
    Agree fbs (readSbInfo dpte fbs) (tables (readSbInfo dpte fbs)
      (writeFATEntry (readSbInfo dpte fbs) disk e value))
      ((Write.fat e value).apply (tables (readSbInfo dpte fbs) disk)) := by
  have hData : ∀ place : Nat × Nat, ∀ b n, fbs.IsCluster place.1 →
      Bytes.load (writeFATEntry (readSbInfo dpte fbs) disk e value)
        ((readSbInfo dpte fbs).placeAddress place + b) n =
        Bytes.load disk ((readSbInfo dpte fbs).placeAddress place + b) n := by
    intro place b n hc
    apply Bytes.load_congr
    intro x hLow _
    apply writeFATEntry_data h he
    rw [h.placeAddress hc] at hLow
    omega
  constructor
  · intro e' he'
    have hRead : (tables (readSbInfo dpte fbs) (writeFATEntry (readSbInfo dpte fbs) disk e value)).fat e' =
        (readSbInfo dpte fbs).fatWord (writeFATEntry (readSbInfo dpte fbs) disk e value) e' % 2 ^ 28 :=
      readFATEntry_eq_mod _ _ _
    rw [hRead]
    by_cases hEq : e' = e
    · subst hEq
      rw [fatWord_written h.geometry he]
      simp only [Write.apply, Function.update_self]
      omega
    · rw [fatWord_written_other h.geometry he value he' hEq, ← readFATEntry_eq_mod]
      exact (Function.update_of_ne hEq _ _).symm
  · intro place hc _
    exact hData place 28 4 hc
  · intro place hc _
    simp only [tables, Write.apply, hData place _ _ hc]

end

/-! ## An inode -/

section
variable {dpte : PartitionEntry} {fbs : BootSector} {disk : Disk} {inode : Inode} (h : Valid dpte fbs)
  (hFits : (Write.inode inode).Fits fbs (readSbInfo dpte fbs))
include h hFits

theorem writeInode_untouched {a : Nat} (ha : ¬ (Write.inode inode).Touches (readSbInfo dpte fbs) a) :
    writeInode (readSbInfo dpte fbs) disk inode a = disk a := by
  obtain ⟨hCluster, hEntry, hFirst⟩ := hFits
  rw [writeInode_eq disk h hCluster hEntry]
  have hNot : ¬ (entryAddress (readSbInfo dpte fbs) inode.info + 20 ≤ a ∧
      a < entryAddress (readSbInfo dpte fbs) inode.info + 22 ∨
      entryAddress (readSbInfo dpte fbs) inode.info + 26 ≤ a ∧
      a < entryAddress (readSbInfo dpte fbs) inode.info + 32) := ha
  exact (storeFields_onlyFields disk _ hFirst).others a (by omega) (by omega)

/-- What is in front of the clusters stays. -/
theorem writeInode_system {a : Nat} (ha : a < 512 * (readSbInfo dpte fbs).dataFirstSector) :
    writeInode (readSbInfo dpte fbs) disk inode a = disk a := by
  apply writeInode_untouched h hFits
  have hPlace : entryAddress (readSbInfo dpte fbs) inode.info = 512 * (readSbInfo dpte fbs).dataFirstSector +
      32 * ((inode.info.dentryLocation - 2) * (readSbInfo dpte fbs).entries + inode.info.dentryPosition) :=
    @Valid.placeAddress _ _ h (inode.info.dentryLocation, inode.info.dentryPosition) hFits.1
  intro hIn
  have hIn' : entryAddress (readSbInfo dpte fbs) inode.info + 20 ≤ a ∧
      a < entryAddress (readSbInfo dpte fbs) inode.info + 22 ∨
      entryAddress (readSbInfo dpte fbs) inode.info + 26 ≤ a ∧
      a < entryAddress (readSbInfo dpte fbs) inode.info + 32 := hIn
  omega

theorem writeInode_mirrored (hMirrored : Mirrored (readSbInfo dpte fbs) disk) :
    Mirrored (readSbInfo dpte fbs) (writeInode (readSbInfo dpte fbs) disk inode) := by
  intro i hi k hk x hx
  have hEnd := h.fats_end
  have hIn : (readSbInfo dpte fbs).sectorPerFAT * (i + 1) ≤
      (readSbInfo dpte fbs).sectorPerFAT * (readSbInfo dpte fbs).numFATs := Nat.mul_le_mul_left _ hi
  rw [Nat.mul_add, Nat.mul_one] at hIn
  rw [writeInode_system h hFits (by omega), writeInode_system h hFits (by omega)]
  exact hMirrored i hi k hk x hx

theorem writeInode_tables :
    Agree fbs (readSbInfo dpte fbs) (tables (readSbInfo dpte fbs) (writeInode (readSbInfo dpte fbs) disk inode))
      ((Write.inode inode).apply (tables (readSbInfo dpte fbs) disk)) := by
  obtain ⟨hCluster, hEntry, hFirst⟩ := hFits
  have hWrite := writeInode_eq disk h hCluster hEntry
  have hOnly := storeFields_onlyFields disk (entryAddress (readSbInfo dpte fbs) inode.info) hFirst
  have hPlace : entryAddress (readSbInfo dpte fbs) inode.info =
      (readSbInfo dpte fbs).placeAddress (inode.info.dentryLocation, inode.info.dentryPosition) := rfl
  have hOther : ∀ place : Nat × Nat, fbs.IsCluster place.1 → place.2 < (readSbInfo dpte fbs).entries →
      place ≠ (inode.info.dentryLocation, inode.info.dentryPosition) → ∀ b n, b + n ≤ 32 →
      Bytes.load (writeInode (readSbInfo dpte fbs) disk inode) ((readSbInfo dpte fbs).placeAddress place + b) n =
        Bytes.load disk ((readSbInfo dpte fbs).placeAddress place + b) n := by
    intro place hc hi hNe b n hFits
    have hApart := h.place_apart hc hCluster hi hEntry hNe
    rw [← hPlace] at hApart
    apply Bytes.load_congr
    intro x hLow hHigh
    rw [hWrite]
    exact hOnly.others x (by omega) (by omega)
  constructor
  · intro e he
    have hFat : (readSbInfo dpte fbs).fatSector e < (readSbInfo dpte fbs).dataFirstSector := by
      rw [← h.geometry.copySector_zero he]
      exact h.copySector_lt he h.numFATs
    have hSlot := slot_le e
    have hLoad : (readSbInfo dpte fbs).fatWord (writeInode (readSbInfo dpte fbs) disk inode) e =
        (readSbInfo dpte fbs).fatWord disk e := by
      apply Bytes.load_congr
      intro x _ hHigh
      exact writeInode_system h ⟨hCluster, hEntry, hFirst⟩ (by omega)
    change readFATEntry _ _ e = readFATEntry _ _ e
    rw [readFATEntry_eq_mod, readFATEntry_eq_mod, hLoad]
  · intro place hc hi
    by_cases hEq : place = (inode.info.dentryLocation, inode.info.dentryPosition)
    · have hSize := storeFields_fileSize disk (entryAddress (readSbInfo dpte fbs) inode.info) inode
      rw [← hWrite] at hSize
      subst hEq
      simp only [tables, Write.apply, Function.update_self, ← hPlace]
      exact hSize
    · simp only [tables, Write.apply, Function.update_of_ne hEq]
      exact hOther place hc hi hEq 28 4 (by decide)
  · intro place hc hi
    by_cases hEq : place = (inode.info.dentryLocation, inode.info.dentryPosition)
    · have hLow := storeFields_low disk (entryAddress (readSbInfo dpte fbs) inode.info) inode
      have hHigh := storeFields_high disk (entryAddress (readSbInfo dpte fbs) inode.info) hFirst
      rw [← hWrite] at hLow hHigh
      subst hEq
      simp only [tables, Write.apply, Function.update_self, ← hPlace]
      rw [hLow, hHigh]
      omega
    · simp only [tables, Write.apply, Function.update_of_ne hEq]
      rw [hOther place hc hi hEq 20 2 (by decide), hOther place hc hi hEq 26 2 (by decide)]

end

/-! ## Any sequence of writes -/

section
variable {dpte : PartitionEntry} {fbs : BootSector} {disk : Disk}

/-- What one write keeps and what it does. -/
theorem Write.step (h : Valid dpte fbs) (hMirrored : Mirrored (readSbInfo dpte fbs) disk) {w : Write}
    (hFits : w.Fits fbs (readSbInfo dpte fbs)) :
    Mirrored (readSbInfo dpte fbs) (w.run (readSbInfo dpte fbs) disk) ∧
      Agree fbs (readSbInfo dpte fbs) (tables (readSbInfo dpte fbs) (w.run (readSbInfo dpte fbs) disk))
        (w.apply (tables (readSbInfo dpte fbs) disk)) ∧
      ∀ a, ¬ w.Touches (readSbInfo dpte fbs) a → w.run (readSbInfo dpte fbs) disk a = disk a := by
  cases w with
  | fat e value =>
    exact ⟨writeFATEntry_mirrored h.geometry hFits value hMirrored, writeFATEntry_tables h hFits value,
      fun a ha => writeFATEntry_untouched h.geometry hFits value hMirrored ha⟩
  | inode node =>
    exact ⟨writeInode_mirrored h hFits hMirrored, writeInode_tables h hFits, fun a ha =>
      writeInode_untouched h hFits ha⟩

/-- Any sequence of writes of FAT entries and of inodes does to a volume with equal FATs what it does to the
tables; the FATs stay equal and no other byte of the disk changes. -/
theorem writes_refine (ws : List Write) (h : Valid dpte fbs) (hMirrored : Mirrored (readSbInfo dpte fbs) disk)
    (hFits : ∀ w ∈ ws, w.Fits fbs (readSbInfo dpte fbs)) :
    Mirrored (readSbInfo dpte fbs) (ws.foldl (Write.run (readSbInfo dpte fbs)) disk) ∧
      Agree fbs (readSbInfo dpte fbs) (tables (readSbInfo dpte fbs)
        (ws.foldl (Write.run (readSbInfo dpte fbs)) disk))
        (ws.foldl Write.apply (tables (readSbInfo dpte fbs) disk)) ∧
      ∀ a, (∀ w ∈ ws, ¬ w.Touches (readSbInfo dpte fbs) a) →
        ws.foldl (Write.run (readSbInfo dpte fbs)) disk a = disk a := by
  induction ws using List.reverseRecOn with
  | nil => exact ⟨hMirrored, Agree.refl _ _ _, fun _ _ => rfl⟩
  | append_singleton ws w ih =>
    obtain ⟨hBefore, hTables, hRest⟩ := ih fun w hw => hFits w (List.mem_append_left _ hw)
    obtain ⟨hAfter, hStep, hOther⟩ := Write.step h hBefore (hFits w (by simp))
    simp only [List.foldl_append, List.foldl_cons, List.foldl_nil]
    refine ⟨hAfter, hStep.trans (hTables.apply w), fun a ha => ?_⟩
    rw [hOther a (ha w (by simp)), hRest a fun w hw => ha w (List.mem_append_left _ hw)]

end

/-- The file of cluster 3 gets cluster 130 and more bytes. -/
def sampleWrites : List Write := [.fat 3 130, .inode (oneFileInode.resize 1024 3), .fat 130 0xffffffff]

theorem writes_refine_sample :
    Mirrored (readSbInfo samplePartition sampleBoot)
      (sampleWrites.foldl (Write.run (readSbInfo samplePartition sampleBoot)) fun _ => 0) ∧
    Agree sampleBoot (readSbInfo samplePartition sampleBoot)
      (tables (readSbInfo samplePartition sampleBoot)
        (sampleWrites.foldl (Write.run (readSbInfo samplePartition sampleBoot)) fun _ => 0))
      (sampleWrites.foldl Write.apply (tables (readSbInfo samplePartition sampleBoot) fun _ => 0)) := by
  have hFits : ∀ w ∈ sampleWrites, w.Fits sampleBoot (readSbInfo samplePartition sampleBoot) := by
    intro w hw
    simp only [sampleWrites, List.mem_cons, List.not_mem_nil, or_false] at hw
    obtain rfl | rfl | rfl := hw
    · change 3 / 128 < 512
      decide
    · exact ⟨⟨by decide, by decide⟩, by decide, by decide⟩
    · change 130 / 128 < 512
      decide
  have hStart : Mirrored (readSbInfo samplePartition sampleBoot) fun _ => 0 := fun _ _ _ _ _ _ => rfl
  obtain ⟨hMirrored, hTables, -⟩ := writes_refine sampleWrites sample_valid hStart hFits
  exact ⟨hMirrored, hTables⟩

end KalinoteOS.Fat32
