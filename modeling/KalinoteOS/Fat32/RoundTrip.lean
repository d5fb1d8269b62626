import KalinoteOS.Fat32.Behind
import KalinoteOS.Fat32.Searched
import KalinoteOS.Fat32.WriteInode

/-! # The round trip of an inode

After an inode was written a second lookup goes the way of the first, since only three fields of one entry
have changed. It finds the entry again unless the bytes behind the name, which the comparison with a short
name reads, have changed as well.
-/
namespace KalinoteOS.Fat32
open Lib
set_option autoImplicit false

/-- The 32 bytes just before the cluster buffer are not a long entry. -/
def QuietBefore (around : Int → Byte) : Prop := ¬ (around (-21) = attrLongName ∧ around (-32) ≠ 0xe5)

/-! ## The entry in the buffer and on the disk -/

section
variable {fsbi : SbInfo} {disk disk' : Disk} {around around' : Int → Byte} {name : Name} {e : Nat}

theorem clusterBuffer_at (hBytes : fsbi.bytesPerCluster = 512 * fsbi.sectorPerCluster) (disk : Disk)
    (around : Int → Byte) (c : Nat) {i x : Nat} (hi : i < fsbi.entries) (hx : x < 32) :
    clusterBuffer fsbi disk around c i x = disk (512 * fsbi.clusterSector c + 32 * i + x) := by
  have hEntries : fsbi.entries = (fsbi.bytesPerCluster + 31) / 32 := rfl
  have hIn : 0 ≤ 32 * (i : Int) + x ∧ 32 * (i : Int) + x < 512 * (fsbi.sectorPerCluster : Int) := by omega
  have hPlace : 512 * fsbi.clusterSector c + (32 * (i : Int) + x).toNat =
      512 * fsbi.clusterSector c + 32 * i + x := by omega
  unfold clusterBuffer buffer
  rw [if_pos hx, if_pos hIn, hPlace]

theorem load_clusterBuffer (hBytes : fsbi.bytesPerCluster = 512 * fsbi.sectorPerCluster) {c i a n : Nat}
    (hi : i < fsbi.entries) (hFits : a + n ≤ 32) :
    Bytes.load (clusterBuffer fsbi disk around c i) a n =
      Bytes.load disk (512 * fsbi.clusterSector c + 32 * i + a) n := by
  apply Bytes.load_window
  intro x hx
  rw [clusterBuffer_at hBytes disk around c hi (by omega), ← Nat.add_assoc]

/-- The size and the cluster of an inode, read from the disk. -/
theorem foundInode_fields (hBytes : fsbi.bytesPerCluster = 512 * fsbi.sectorPerCluster) (disk : Disk)
    (around : Int → Byte) {c i : Nat} (place : Located) (hi : i < fsbi.entries)
    (he : e = 512 * fsbi.clusterSector c + 32 * i) :
    (foundInode fsbi (clusterBuffer fsbi disk around c i) place).fileSize = Bytes.load disk (e + 28) 4 ∧
      (foundInode fsbi (clusterBuffer fsbi disk around c i) place).info.firstCluster =
        (Bytes.load disk (e + 20) 2 * 2 ^ 16 + Bytes.load disk (e + 26) 2) % 2 ^ 28 := by
  have hSize : (clusterBuffer fsbi disk around c i).dirFileSize = Bytes.load disk (e + 28) 4 := by
    rw [he]
    exact load_clusterBuffer hBytes hi (by decide)
  have hHigh : (clusterBuffer fsbi disk around c i).dirFstClusHI = Bytes.load disk (e + 20) 2 := by
    rw [he]
    exact load_clusterBuffer hBytes hi (by decide)
  have hLow : (clusterBuffer fsbi disk around c i).dirFstClusLO = Bytes.load disk (e + 26) 2 := by
    rw [he]
    exact load_clusterBuffer hBytes hi (by decide)
  have hHalf : Bytes.load disk (e + 26) 2 < 2 ^ 16 := Bytes.load_lt disk (e + 26) 2
  refine ⟨hSize, ?_⟩
  unfold foundInode
  dsimp only
  rw [hHigh, hLow, firstCluster_eq hHalf]

theorem buffer_before (fsbi : SbInfo) (disk : Disk) (hQuiet : QuietBefore around) (c : Nat) :
    (clusterBuffer fsbi disk around c (-1)).isLong = false := by
  have hByte : ∀ x < 32, clusterBuffer fsbi disk around c (-1) x = around (32 * (-1) + x) := by
    intro x hx
    have hOut : ¬ (0 ≤ 32 * (-1) + (x : Int) ∧ 32 * (-1) + (x : Int) < 512 *
      (fsbi.sectorPerCluster : Int)) := by omega
    unfold clusterBuffer buffer
    rw [if_pos hx, if_neg hOut]
  unfold Entry.isLong Entry.ldirAttr Entry.ldirOrd
  rw [hByte 11 (by decide), hByte 0 (by decide)]
  exact decide_eq_false hQuiet

/-- To a lookup an entry is the same after the change. -/
theorem entry_same (hBytes : fsbi.bytesPerCluster = 512 * fsbi.sectorPerCluster) {c i c₀ i₀ : Nat}
    (hOnly : OnlyFields disk disk' (512 * fsbi.clusterSector c₀ + 32 * i₀))
    (hNotLong : disk (512 * fsbi.clusterSector c₀ + 32 * i₀ + 11) ≠ attrLongName) (hi : i < fsbi.entries) :
    SameHead (clusterBuffer fsbi disk around c i) (clusterBuffer fsbi disk' around' c i) ∧
      Alike (clusterBuffer fsbi disk around c i) (clusterBuffer fsbi disk' around' c i) := by
  have hByte : ∀ x < 20, clusterBuffer fsbi disk' around' c i x = clusterBuffer fsbi disk around c i x := by
    intro x hx
    rw [clusterBuffer_at hBytes disk' around' c hi (by omega), clusterBuffer_at hBytes disk around c hi
      (by omega)]
    exact hOnly.others _ (by omega) (by omega)
  have hHead : SameHead (clusterBuffer fsbi disk around c i) (clusterBuffer fsbi disk' around' c i) :=
    ⟨fun x hx => (hByte x (by omega)).symm, (hByte 11 (by decide)).symm, (hByte 12 (by decide)).symm⟩
  refine ⟨hHead, ?_, fun hLong => ?_⟩
  · unfold Entry.isLong Entry.ldirAttr Entry.ldirOrd
    rw [hByte 11 (by decide), hByte 0 (by decide)]
  · have hAt := clusterBuffer_at hBytes disk around c hi (show 11 < 32 by decide)
    have hAttr : disk (512 * fsbi.clusterSector c + 32 * i + 11) = attrLongName :=
      hAt.symm.trans (of_decide_eq_true hLong).1
    have hOther : 512 * fsbi.clusterSector c + 32 * i ≠ 512 * fsbi.clusterSector c₀ + 32 * i₀ := by
      intro hEq
      rw [hEq] at hAttr
      exact hNotLong hAttr
    have hSame : clusterBuffer fsbi disk around c i = clusterBuffer fsbi disk' around' c i := by
      funext x
      by_cases hx : x < 32
      · rw [clusterBuffer_at hBytes disk around c hi hx, clusterBuffer_at hBytes disk' around' c hi hx]
        exact (hOnly.others _ (by omega) (by omega)).symm
      · unfold clusterBuffer buffer
        rw [if_neg hx, if_neg hx]
    rw [hSame]

theorem scanCluster_same (hBytes : fsbi.bytesPerCluster = 512 * fsbi.sectorPerCluster) {c c₀ i₀ : Nat}
    (hOnly : OnlyFields disk disk' (512 * fsbi.clusterSector c₀ + 32 * i₀))
    (hNotLong : disk (512 * fsbi.clusterSector c₀ + 32 * i₀ + 11) ≠ attrLongName) (hQuiet : QuietBefore around)
    (hQuiet' : QuietBefore around') :
    scanCluster fsbi disk' around' name c = scanCluster fsbi disk around name c := by
  have hBefore := buffer_before fsbi disk hQuiet c
  have hBefore' := buffer_before fsbi disk' hQuiet' c
  have hSpec := scanCluster_spec fsbi disk around name c
  apply scan_congr
  · intro i hi
    exact (entry_same hBytes hOnly hNotLong (List.mem_range.mp hi)).1
  · intro p hp
    have hAbove := hSpec.above hBefore p hp
    have hBelow := hSpec.below p hp
    by_cases hFirst : p = -1
    · rw [hFirst]
      exact ⟨hBefore.trans hBefore'.symm, fun hLong => absurd (hLong.symm.trans hBefore) (by decide)⟩
    · obtain ⟨i, rfl⟩ := Int.eq_ofNat_of_zero_le (show 0 ≤ p by omega)
      exact (entry_same hBytes hOnly hNotLong (by omega)).2

end

/-! ## The round trip -/

section
variable {dpte : PartitionEntry} {fbs : BootSector} {disk disk' : Disk} {around around' : Int → Byte}
  {name : Name}
  {fuel : Nat} {finode : InodeInfo} {inode : Inode}

/-- The FAT is not where the entries are. -/
theorem readFATEntry_same (h : Valid dpte fbs) {c c₀ i₀ : Nat} (hc : fbs.IsCluster c)
    (hOnly : OnlyFields disk disk' (512 * (readSbInfo dpte fbs).clusterSector c₀ + 32 * i₀)) :
    readFATEntry (readSbInfo dpte fbs) disk' c = readFATEntry (readSbInfo dpte fbs) disk c := by
  have hFat := (h.fatSector hc).2
  have hData := h.fat1_le
  have hMask : c &&& 0x7f ≤ 0x7f := Nat.and_le_right
  unfold readFATEntry
  have hLoad : Bytes.load disk' (512 * (readSbInfo dpte fbs).fatSector c + 4 * (c &&& 0x7f)) 4 =
      Bytes.load disk (512 * (readSbInfo dpte fbs).fatSector c + 4 * (c &&& 0x7f)) 4 := by
    apply Bytes.load_congr
    intro x hLow hHigh
    have hCluster : (readSbInfo dpte fbs).dataFirstSector ≤ (readSbInfo dpte fbs).clusterSector c₀ :=
      Nat.le_add_right _ _
    exact hOnly.others x (by omega) (by omega)
  rw [hLoad]

/-- A lookup after the change goes as the one before it. -/
theorem search_same (name : Name) (fuel : Nat) (h : Valid dpte fbs) {c₀ i₀ : Nat}
    (hChain : ∀ k c, chain (followFAT (readSbInfo dpte fbs) disk) (finode.firstCluster % 2 ^ 32) k = some c →
      fbs.IsCluster c)
    (hOnly : OnlyFields disk disk' (512 * (readSbInfo dpte fbs).clusterSector c₀ + 32 * i₀))
    (hNotLong : disk (512 * (readSbInfo dpte fbs).clusterSector c₀ + 32 * i₀ + 11) ≠ attrLongName)
    (hQuiet : QuietBefore around) (hQuiet' : QuietBefore around') :
    search (readSbInfo dpte fbs) disk' around' name fuel finode =
      search (readSbInfo dpte fbs) disk around name fuel finode := by
  refine lookupLoop_congr (fun k c hk => ⟨?_, ?_⟩) fuel
  · exact scanCluster_same h.bytesPerCluster hOnly hNotLong hQuiet hQuiet'
  · exact readFATEntry_same h (hChain k c (chain_followFAT hk)) hOnly

def InodeInfo.place (info : InodeInfo) : Located := ⟨info.dentryLocation, info.dentryPosition⟩

/-- What is found is the first match, and the inode says where it is. -/
theorem lookup_first {fsbi : SbInfo} (h : lookup fsbi disk around name fuel finode = some (some inode)) :
    (∃ k, FirstMatch fsbi disk around name (finode.firstCluster % 2 ^ 32) k inode.info.place) ∧
      foundInode fsbi (clusterBuffer fsbi disk around inode.info.place.cluster inode.info.place.position)
        inode.info.place = inode := by
  obtain ⟨place, hResult, hInode⟩ := (lookup_some_iff fsbi disk around name fuel finode inode).mp h
  have hPlace : inode.info.place = place := by
    rw [← hInode]
    rfl
  rw [hPlace]
  exact ⟨lookupLoop_first.mp ⟨fuel, hResult⟩, hInode⟩

/-- The entry of an inode that was looked up. -/
structure EntryOf (dpte : PartitionEntry) (fbs : BootSector) (disk : Disk) (inode : Inode) : Prop where
  isCluster : fbs.IsCluster inode.info.dentryLocation
  inCluster : inode.info.dentryPosition < (readSbInfo dpte fbs).entries
  notLong : disk (entryAddress (readSbInfo dpte fbs) inode.info + 11) ≠ attrLongName

theorem FirstMatch.entry {k : Nat} (hValid : Valid dpte fbs)
    (hChain : ∀ k c, chain (followFAT (readSbInfo dpte fbs) disk) (finode.firstCluster % 2 ^ 32) k = some c →
      fbs.IsCluster c)
    (h : FirstMatch (readSbInfo dpte fbs) disk around name (finode.firstCluster % 2 ^ 32) k inode.info.place) :
    EntryOf dpte fbs disk inode := by
  refine ⟨hChain k _ h.inChain, h.inCluster, fun hAttr => ?_⟩
  have hAt := clusterBuffer_at hValid.bytesPerCluster disk around inode.info.place.cluster h.inCluster
    (show 11 < 32 by decide)
  exact of_decide_eq_false h.live (Or.inl (hAt.trans hAttr))

/-- A new size and a new first cluster, in the entry at `e`. -/
structure Written (disk disk' : Disk) (e size cluster : Nat) : Prop where
  only : OnlyFields disk disk' e
  fileSize : Bytes.load disk' (e + 28) 4 = size
  firstCluster : (Bytes.load disk' (e + 20) 2 * 2 ^ 16 + Bytes.load disk' (e + 26) 2) % 2 ^ 28 = cluster

theorem EntryOf.written {size cluster : Nat} (hValid : Valid dpte fbs) (h : EntryOf dpte fbs disk inode)
    (hSize : size < 2 ^ 32) (hCluster : cluster < 2 ^ 28) :
    Written disk (writeInode (readSbInfo dpte fbs) disk (inode.resize size cluster))
      (entryAddress (readSbInfo dpte fbs) inode.info) size cluster := by
  have hResize : writeInode (readSbInfo dpte fbs) disk (inode.resize size cluster) =
      storeFields disk (entryAddress (readSbInfo dpte fbs) inode.info) (inode.resize size cluster) :=
    writeInode_eq disk hValid h.isCluster h.inCluster
  have hNew : (inode.resize size cluster).info.firstCluster = cluster := rfl
  have hNewCluster : (inode.resize size cluster).info.firstCluster < 2 ^ 28 := hCluster
  have hHigh := storeFields_high disk (entryAddress (readSbInfo dpte fbs) inode.info) hNewCluster
  have hLow := storeFields_low disk (entryAddress (readSbInfo dpte fbs) inode.info) (inode.resize size cluster)
  rw [hNew] at hHigh hLow
  rw [hResize]
  refine ⟨storeFields_onlyFields disk _ hNewCluster, ?_, ?_⟩
  · rw [storeFields_fileSize]
    exact Nat.mod_eq_of_lt hSize
  · rw [hHigh, hLow]
    omega

theorem EntryOf.unchanged (hValid : Valid dpte fbs) (h : EntryOf dpte fbs disk inode)
    (hInode : foundInode (readSbInfo dpte fbs)
      (clusterBuffer (readSbInfo dpte fbs) disk around inode.info.place.cluster inode.info.place.position)
      inode.info.place = inode) :
    writeInode (readSbInfo dpte fbs) disk inode = disk := by
  have hAddress : entryAddress (readSbInfo dpte fbs) inode.info =
      512 * (readSbInfo dpte fbs).clusterSector inode.info.place.cluster + 32 * inode.info.place.position := rfl
  have hEntry : inode.info.place.position < (readSbInfo dpte fbs).entries := h.inCluster
  have hFields := foundInode_fields hValid.bytesPerCluster disk around inode.info.place hEntry hAddress
  rw [hInode] at hFields
  exact (writeInode_eq disk hValid h.isCluster h.inCluster).trans (storeFields_self _ _ hFields.1 hFields.2)

/-- Writing the inode back changes nothing; with another size and another first cluster it changes these
fields of the entry only, and a second lookup returns them. -/
structure RoundTrip (fsbi : SbInfo) (disk : Disk) (around : Int → Byte) (name : Name) (finode : InodeInfo)
    (inode : Inode) : Prop where
  unchanged : writeInode fsbi disk inode = disk
  onlyFields : ∀ size cluster, size < 2 ^ 32 → cluster < 2 ^ 28 →
    OnlyFields disk (writeInode fsbi disk (inode.resize size cluster)) (entryAddress fsbi inode.info)
  returned : ∀ size cluster, size < 2 ^ 32 → cluster < 2 ^ 28 → ∃ fuel found,
    lookup fsbi (writeInode fsbi disk (inode.resize size cluster)) around name fuel finode = some (some found) ∧
      found.fileSize = size ∧ found.info.firstCluster = cluster

/-- A second lookup finds what a search of the old disk finds. -/
theorem lookup_again {found : Inode} (hValid : Valid dpte fbs)
    (hChain : ∀ k c, chain (followFAT (readSbInfo dpte fbs) disk) (finode.firstCluster % 2 ^ 32) k = some c →
      fbs.IsCluster c)
    (hEntry : EntryOf dpte fbs disk inode)
    (hOnly : OnlyFields disk disk' (entryAddress (readSbInfo dpte fbs) inode.info))
    (hQuiet : QuietBefore around) (hQuiet' : QuietBefore around') :
    lookup (readSbInfo dpte fbs) disk' around' name fuel finode = some (some found) ↔
      ∃ q, (search (readSbInfo dpte fbs) disk around name fuel finode).result = some (some q) ∧
        foundInode (readSbInfo dpte fbs)
          (clusterBuffer (readSbInfo dpte fbs) disk' around' q.cluster q.position) q = found := by
  rw [lookup_some_iff, search_same name fuel hValid hChain hOnly hEntry.notLong hQuiet hQuiet']

theorem OnlyFields.fileSize_other {e e' : Nat} (h : OnlyFields disk disk' e)
    (hApart : e' + 32 ≤ e ∨ e + 32 ≤ e') :
    Bytes.load disk' (e' + 28) 4 = Bytes.load disk (e' + 28) 4 := by
  apply Bytes.load_congr
  intro x hLow hHigh
  exact h.others x (by omega) (by omega)

theorem Valid.located_apart {q : Located} (h : Valid dpte fbs) (hq : fbs.IsCluster q.cluster)
    (hCluster : fbs.IsCluster inode.info.dentryLocation) (hqi : q.position < (readSbInfo dpte fbs).entries)
    (hEntry : inode.info.dentryPosition < (readSbInfo dpte fbs).entries) (hNe : q ≠ inode.info.place) :
    (readSbInfo dpte fbs).placeAddress (q.cluster, q.position) + 32 ≤ entryAddress (readSbInfo dpte fbs)
      inode.info ∨
      entryAddress (readSbInfo dpte fbs) inode.info + 32 ≤
        (readSbInfo dpte fbs).placeAddress (q.cluster, q.position) := by
  have hPair : (q.cluster, q.position) ≠ (inode.info.dentryLocation, inode.info.dentryPosition) := by
    intro hEq
    obtain ⟨hSame, hPlace⟩ := Prod.mk.inj hEq
    apply hNe
    unfold InodeInfo.place
    rw [← hSame, ← hPlace]
  have hAddress : entryAddress (readSbInfo dpte fbs) inode.info =
      (readSbInfo dpte fbs).placeAddress (inode.info.dentryLocation, inode.info.dentryPosition) := rfl
  rw [hAddress]
  exact h.place_apart hq hCluster hqi hEntry hPair

/-- If every size can be read back, the second lookup finds the entry that was written. -/
theorem RoundTrip.again (hValid : Valid dpte fbs)
    (hChain : ∀ k c, chain (followFAT (readSbInfo dpte fbs) disk) (finode.firstCluster % 2 ^ 32) k = some c →
      fbs.IsCluster c)
    (hEntry : EntryOf dpte fbs disk inode) (hQuiet : QuietBefore around) (hQuiet' : QuietBefore around')
    (h : RoundTrip (readSbInfo dpte fbs) disk around' name finode inode) :
    ∃ k, FirstMatch (readSbInfo dpte fbs) disk around name (finode.firstCluster % 2 ^ 32) k inode.info.place := by
  -- another entry than the written one has its old size
  have hRead : ∀ size < 2 ^ 32, ∃ fuel q,
      (search (readSbInfo dpte fbs) disk around name fuel finode).result = some (some q) ∧
      (q ≠ inode.info.place →
        Bytes.load disk ((readSbInfo dpte fbs).placeAddress (q.cluster, q.position) + 28) 4 = size) := by
    intro size hSize
    have hOnly := h.onlyFields size 0 hSize (by decide)
    obtain ⟨fuel, found, hLookup, hFound, -⟩ := h.returned size 0 hSize (by decide)
    obtain ⟨q, hSearch, hInode⟩ := (lookup_again hValid hChain hEntry hOnly hQuiet hQuiet').mp hLookup
    generalize writeInode (readSbInfo dpte fbs) disk (inode.resize size 0) = disk' at *
    refine ⟨fuel, q, hSearch, fun hNe => ?_⟩
    obtain ⟨k, hFirst⟩ := lookupLoop_first.mp ⟨fuel, hSearch⟩
    have hAddress : (readSbInfo dpte fbs).placeAddress (q.cluster, q.position) =
        512 * (readSbInfo dpte fbs).clusterSector q.cluster + 32 * q.position := rfl
    have hApart := hValid.located_apart (hChain k _ hFirst.inChain) hEntry.isCluster hFirst.inCluster
      hEntry.inCluster hNe
    have hFields := foundInode_fields hValid.bytesPerCluster disk' around' q hFirst.inCluster hAddress
    rw [← hOnly.fileSize_other hApart, ← hFields.1, hInode, hFound]
  obtain ⟨fuel, q, hSearch, hZero⟩ := hRead 0 (by decide)
  obtain ⟨fuel', q', hSearch', hOne⟩ := hRead 1 (by decide)
  have hSame : q = q' := by
    have hMore := lookupLoop_mono (Nat.le_max_left fuel fuel') hSearch
    have hMore' := lookupLoop_mono (Nat.le_max_right fuel fuel') hSearch'
    exact Option.some.inj (Option.some.inj (hMore.symm.trans hMore'))
  have hPlace : q = inode.info.place := by
    by_contra hNe
    have hOld := hOne (hSame ▸ hNe)
    rw [← hSame, hZero hNe] at hOld
    exact absurd hOld (by decide)
  rw [← hPlace]
  exact lookupLoop_first.mp ⟨fuel, hSearch⟩

/-- Up to the entry of the inode, those that are compared by their short names are accepted with the bytes
`behind'` behind the name if and only if they are with `behind`. -/
def SameVerdicts (fsbi : SbInfo) (disk : Disk) (around : Int → Byte) (N : List Byte) (behind behind' : Nat → Byte)
    (finode : InodeInfo) (inode : Inode) : Prop :=
  ∃ k, chain (followFAT fsbi disk) (finode.firstCluster % 2 ^ 32) k = some inode.info.dentryLocation ∧
    ∀ k' c i, chain (followFAT fsbi disk) (finode.firstCluster % 2 ^ 32) k' = some c → i < fsbi.entries →
      Before k (inode.info.dentryPosition + 1) k' i → Live (clusterBuffer fsbi disk around c) i →
      ShortDecides (searchName N behind) (clusterBuffer fsbi disk around c) i →
      (ShortAccepts (searchName N behind') (clusterBuffer fsbi disk around c i) ↔
        ShortAccepts (searchName N behind) (clusterBuffer fsbi disk around c i))

section
variable {fsbi : SbInfo} {N : List Byte} {behind behind' : Nat → Byte} {k : Nat}

theorem FirstMatch.sameVerdicts {k' : Nat}
    (h : FirstMatch fsbi disk around (searchName N behind) (finode.firstCluster % 2 ^ 32) k inode.info.place)
    (h' : FirstMatch fsbi disk around (searchName N behind') (finode.firstCluster % 2 ^ 32) k' inode.info.place) :
    SameVerdicts fsbi disk around N behind behind' finode inode := by
  have hIndex : k = k' := by
    obtain hLt | hEq | hGt := Nat.lt_trichotomy k k'
    · exact absurd h'.isMatch (h'.first k _ _ h.inChain h.inCluster (Or.inl hLt) h.live)
    · exact hEq
    · exact absurd h.isMatch (h.first k' _ _ h'.inChain h'.inCluster (Or.inl hGt) h'.live)
  subst hIndex
  refine ⟨k, h.inChain, fun k' c i hk hi hBefore hLive => matches_behind.mp ?_⟩
  obtain hEarlier | ⟨rfl, hUpTo⟩ := hBefore
  · exact iff_of_false (h'.first k' c i hk hi (Or.inl hEarlier) hLive)
      (h.first k' c i hk hi (Or.inl hEarlier) hLive)
  · obtain hLt | rfl := Nat.lt_or_eq_of_le (Nat.le_of_lt_succ hUpTo)
    · exact iff_of_false (h'.first k' c i hk hi (Or.inr ⟨rfl, hLt⟩) hLive)
        (h.first k' c i hk hi (Or.inr ⟨rfl, hLt⟩) hLive)
    · obtain rfl : inode.info.place.cluster = c := Option.some.inj (h.inChain.symm.trans hk)
      exact iff_of_true h'.isMatch h.isMatch

theorem SameVerdicts.firstMatch (hSame : SameVerdicts fsbi disk around N behind behind' finode inode)
    (h : FirstMatch fsbi disk around (searchName N behind) (finode.firstCluster % 2 ^ 32) k inode.info.place) :
    FirstMatch fsbi disk around (searchName N behind') (finode.firstCluster % 2 ^ 32) k inode.info.place := by
  obtain ⟨l, hl, hVerdicts⟩ := hSame
  have hLe : k ≤ l := by
    by_contra hGt
    exact absurd h.isMatch (h.first l _ _ hl h.inCluster (Or.inl (by omega)) h.live)
  have hMatches : ∀ k' c i, chain (followFAT fsbi disk) (finode.firstCluster % 2 ^ 32) k' = some c →
      i < fsbi.entries → Before k (inode.info.dentryPosition + 1) k' i →
        Live (clusterBuffer fsbi disk around c) i →
      (Matches (searchName N behind') (clusterBuffer fsbi disk around c) i ↔
        Matches (searchName N behind) (clusterBuffer fsbi disk around c) i) := by
    intro k' c i hk hi hBefore hLive
    refine matches_behind.mpr (hVerdicts k' c i hk hi ?_ hLive)
    unfold Before at hBefore ⊢
    omega
  refine ⟨h.inChain, h.inCluster, h.live, ?_, fun k' c i hk hi hBefore hLive => ?_⟩
  · exact (hMatches k _ _ h.inChain h.inCluster (Or.inr ⟨rfl, Nat.lt_succ_self _⟩) h.live).mpr h.isMatch
  · have hUpTo : Before k (inode.info.dentryPosition + 1) k' i :=
      hBefore.imp_right fun hHere => ⟨hHere.1, Nat.lt_succ_of_lt hHere.2⟩
    rw [hMatches k' c i hk hi hUpTo hLive]
    exact h.first k' c i hk hi hBefore hLive

/-- With the same bytes up to place 11 the verdicts are the same. -/
theorem FirstMatch.sameVerdicts_of_agree (hBehind : ∀ j, N.length < j → j ≤ 11 → behind' j = behind j)
    (h : FirstMatch fsbi disk around (searchName N behind) (finode.firstCluster % 2 ^ 32) k inode.info.place) :
    SameVerdicts fsbi disk around N behind behind' finode inode :=
  ⟨k, h.inChain, fun _ _ _ _ _ _ _ _ => shortAccepts_behind hBehind _⟩

end

/-- Writing an inode back right after it was looked up is a round trip if and only if the bytes behind the
name in the second lookup give the entries up to the found one the verdicts that those in the first gave. -/
theorem writeInode_roundTrip_iff (dpte : PartitionEntry) (fbs : BootSector) (disk : Disk)
    (around around' : Int → Byte)
    (N : List Byte) (behind behind' : Nat → Byte) (fuel : Nat) (finode : InodeInfo) (inode : Inode)
    (hValid : Valid dpte fbs)
    (hChain : ∀ k c, chain (followFAT (readSbInfo dpte fbs) disk) (finode.firstCluster % 2 ^ 32) k = some c →
      fbs.IsCluster c)
    (hQuiet : QuietBefore around) (hQuiet' : QuietBefore around')
    (hFound : lookup (readSbInfo dpte fbs) disk around (searchName N behind) fuel finode = some (some inode)) :
    RoundTrip (readSbInfo dpte fbs) disk around' (searchName N behind') finode inode ↔
      SameVerdicts (readSbInfo dpte fbs) disk around N behind behind' finode inode := by
  obtain ⟨⟨k, hFirst⟩, hInode⟩ := lookup_first hFound
  have hEntry := hFirst.entry hValid hChain
  constructor
  · intro hTrip
    obtain ⟨k', hAgain⟩ := hTrip.again hValid hChain hEntry hQuiet hQuiet'
    exact hFirst.sameVerdicts hAgain
  · intro hSame
    obtain ⟨fuel', hSearch⟩ := lookupLoop_first.mpr ⟨k, hSame.firstMatch hFirst⟩
    refine ⟨hEntry.unchanged hValid hInode, fun size cluster hSize hCluster => ?_,
      fun size cluster hSize hCluster => ?_⟩
    · exact (hEntry.written hValid hSize hCluster).only
    · have hWritten := hEntry.written hValid hSize hCluster
      generalize writeInode (readSbInfo dpte fbs) disk (inode.resize size cluster) = disk' at *
      have hAddress : entryAddress (readSbInfo dpte fbs) inode.info =
        512 * (readSbInfo dpte fbs).clusterSector inode.info.place.cluster + 32 * inode.info.place.position := rfl
      have hFields := foundInode_fields hValid.bytesPerCluster disk' around' inode.info.place hFirst.inCluster
        hAddress
      refine ⟨fuel', _, (lookup_again hValid hChain hEntry hWritten.only hQuiet hQuiet').mpr
        ⟨inode.info.place, hSearch, rfl⟩, ?_, ?_⟩
      · rw [hFields.1, hWritten.fileSize]
      · rw [hFields.2, hWritten.firstCluster]

end

/-! ## A file in the root directory -/

/-- `README12`. -/
def oneFileName : List Byte := [0x52, 0x45, 0x41, 0x44, 0x4d, 0x45, 0x31, 0x32]

/-- The root directory is cluster 2 and has the file `README12` of 16 bytes in cluster 3. -/
def oneFileDisk : Disk := fun a =>
  if 512 * 3104 ≤ a then
    ((oneFileName ++ [0x20, 0x20, 0x20, 0x20, 0, 0, 0, 0, 0, 0, 0, 0, 0, 0, 0, 0,
      0, 0, 3, 0, 16])[a - 512 * 3104]?).getD 0
  else if 512 * 2080 + 8 ≤ a ∧ a < 512 * 2080 + 12 then 0xff
  else 0

def rootInfo : InodeInfo := ⟨2, 0, 0, 0, 0, 0, 0⟩

theorem oneFile_ends :
    chain (followFAT (readSbInfo samplePartition sampleBoot) oneFileDisk) 2 1 = none := by decide +kernel

theorem oneFile_chain (k c : Nat) (h : chain (followFAT (readSbInfo samplePartition sampleBoot) oneFileDisk) 2
    k = some c) :
    sampleBoot.IsCluster c := by
  cases k with
  | zero =>
    cases h
    exact ⟨by decide, by decide⟩
  | succ k =>
    rw [chain_none oneFile_ends (by omega)] at h
    cases h

theorem oneFile_found : lookup (readSbInfo samplePartition sampleBoot) oneFileDisk (fun _ => 0)
    (searchName oneFileName fun _ => 0x20) 1 rootInfo = some (some oneFileInode) := by decide +kernel

theorem writeInode_roundTrip_iff_oneFile : RoundTrip (readSbInfo samplePartition sampleBoot) oneFileDisk
    (fun _ => 0)
    (searchName oneFileName fun j => if j ≤ 11 then 0x20 else 0) rootInfo oneFileInode := by
  obtain ⟨⟨k, hFirst⟩, -⟩ := lookup_first oneFile_found
  refine (writeInode_roundTrip_iff samplePartition sampleBoot oneFileDisk (fun _ => 0) (fun _ => 0) oneFileName
    (fun _ => 0x20) (fun j => if j ≤ 11 then 0x20 else 0) 1 rootInfo oneFileInode sample_valid oneFile_chain
    (by unfold QuietBefore; decide) (by unfold QuietBefore; decide) oneFile_found).mpr ?_
  exact hFirst.sameVerdicts_of_agree fun j _ hj => if_pos hj

/-- With zeros behind the name the file is not found any more. -/
theorem writeInode_lost : ¬ ∀ (dpte : PartitionEntry) (fbs : BootSector) (disk : Disk)
    (around around' : Int → Byte)
    (N : List Byte) (behind behind' : Nat → Byte) (fuel : Nat) (finode : InodeInfo) (inode : Inode),
    Valid dpte fbs →
    (∀ k c, chain (followFAT (readSbInfo dpte fbs) disk) (finode.firstCluster % 2 ^ 32) k = some c →
      fbs.IsCluster c) →
    (∃ e, chain (followFAT (readSbInfo dpte fbs) disk) (finode.firstCluster % 2 ^ 32) e = none) →
    QuietBefore around → QuietBefore around' →
    lookup (readSbInfo dpte fbs) disk around (searchName N behind) fuel finode = some (some inode) →
    RoundTrip (readSbInfo dpte fbs) disk around' (searchName N behind') finode inode := by
  intro h
  have hTrip := h samplePartition sampleBoot oneFileDisk (fun _ => 0) (fun _ => 0) oneFileName (fun _ => 0x20)
    (fun _ => 0) 1 rootInfo oneFileInode sample_valid oneFile_chain ⟨1, oneFile_ends⟩
    (by unfold QuietBefore; decide)
    (by unfold QuietBefore; decide) oneFile_found
  obtain ⟨fuel, found, hFound, -⟩ := hTrip.returned 4096 0x01234567 (by decide) (by decide)
  have hLost : lookup (readSbInfo samplePartition sampleBoot)
      (writeInode (readSbInfo samplePartition sampleBoot) oneFileDisk (oneFileInode.resize 4096 0x01234567))
      (fun _ => 0) (searchName oneFileName fun _ => 0) 1 rootInfo = some none := by decide +kernel
  have hMore := lookup_mono (Nat.le_max_left 1 fuel) hLost
  rw [lookup_mono (Nat.le_max_right 1 fuel) hFound] at hMore
  cases hMore

end KalinoteOS.Fat32
