import KalinoteOS.Fat32.Searched

/-! # When a lookup is safe

The loop over the clusters follows whatever numbers the FAT has, and the walk over the long entries
goes to the front without a look at the start of the buffer. A lookup does no harm exactly on those
directories that give neither of them an occasion.
-/
namespace KalinoteOS.Fat32
open Lib
set_option autoImplicit false

/-- The place of an entry that lies in the buffer. -/
def SbInfo.InBuffer (fsbi : SbInfo) (p : Int) : Prop := 0 ≤ p ∧ 32 * p + 32 ≤ fsbi.bytesPerCluster

/-- The lookup comes to an end, reads the sectors of the first FAT and of `count` clusters only, and looks
at its buffer only. -/
structure Safe (fsbi : SbInfo) (count : Nat) (disk : Disk) (around : Int → Byte) (name : Name)
    (finode : InodeInfo) : Prop where
  terminates : ∃ fuel, (search fsbi disk around name fuel finode).result ≠ none
  sectors : ∀ fuel, ∀ s ∈ (search fsbi disk around name fuel finode).sectors, fsbi.InFAT1 s ∨ fsbi.InData count s
  places : ∀ fuel, ∀ p ∈ (search fsbi disk around name fuel finode).places, fsbi.InBuffer p

/-- The entries of a cluster on the disk; in front of it and behind it are none. -/
def dirEntries (fsbi : SbInfo) (disk : Disk) (c : Nat) : Int → Entry := clusterBuffer fsbi disk (fun _ => 0) c

open Classical in
/-- The cluster that is searched after `c`: if no live entry of `c` matches, the one in its FAT entry, up
to the marks. -/
noncomputable def nextSearched (fsbi : SbInfo) (disk : Disk) (name : Name) (c : Nat) : Option Nat :=
  if (∀ i < fsbi.entries, Live (dirEntries fsbi disk c) i → ¬ Matches name (dirEntries fsbi disk c) i) ∧
      readFATEntry fsbi disk c < 0x0ffffff7 then
    some (readFATEntry fsbi disk c)
  else none

/-- The `k`-th cluster that is searched. -/
def Searched (fsbi : SbInfo) (disk : Disk) (name : Name) (finode : InodeInfo) (k c : Nat) : Prop :=
  chain (nextSearched fsbi disk name) (finode.firstCluster % 2 ^ 32) k = some c

/-- The clusters that are searched are clusters of the volume, none comes twice, and no entry that is
compared has only parts of the name between itself and the start of its cluster. -/
structure Harmless (fsbi : SbInfo) (fbs : BootSector) (disk : Disk) (name : Name) (finode : InodeInfo) :
    Prop where
  clusters : ∀ k c, Searched fsbi disk name finode k c → fbs.IsCluster c
  once : NoRepeat (nextSearched fsbi disk name) (finode.firstCluster % 2 ^ 32)
  inside : ∀ k c, Searched fsbi disk name finode k c → ∀ i < fsbi.entries,
    Examined name (dirEntries fsbi disk c) 0 i → ¬ Exposed name (dirEntries fsbi disk c) i

section
variable {fsbi : SbInfo} {disk : Disk} {around around' : Int → Byte} {name : Name} {finode : InodeInfo}

/-! ## What is around the buffer -/

/-- An entry in the cluster is that of the disk. -/
theorem buffer_inside (hBytes : fsbi.bytesPerCluster = 512 * fsbi.sectorPerCluster) (disk : Disk)
    (around around' : Int → Byte) (sector : Nat) {p : Int} (hp : fsbi.InBuffer p) :
    buffer fsbi disk around' sector p = buffer fsbi disk around sector p := by
  obtain ⟨hLow, hHigh⟩ := hp
  funext x
  unfold buffer
  split
  · next hx =>
    have hIn : 0 ≤ 32 * p + (x : Int) ∧ 32 * p + (x : Int) < 512 * (fsbi.sectorPerCluster : Int) := by omega
    rw [if_pos hIn, if_pos hIn]
  · rfl

theorem entry_inBuffer (hBytes : fsbi.bytesPerCluster = 512 * fsbi.sectorPerCluster) {i : Nat}
    (hi : i < fsbi.entries) : fsbi.InBuffer i := by
  unfold SbInfo.entries at hi
  constructor
  · omega
  · omega

theorem scanCluster_around (hBytes : fsbi.bytesPerCluster = 512 * fsbi.sectorPerCluster) {c : Nat}
    (hPlaces : ∀ p ∈ (scanCluster fsbi disk around name c).2, fsbi.InBuffer p) :
    scanCluster fsbi disk around' name c = scanCluster fsbi disk around name c := by
  apply scan_congr
  · intro i hi
    have hSame := buffer_inside hBytes disk around around' (fsbi.clusterSector c)
      (entry_inBuffer hBytes (List.mem_range.mp hi))
    unfold clusterBuffer
    rw [hSame]
    exact sameHead_refl _
  · intro p hp
    have hSame := buffer_inside hBytes disk around around' (fsbi.clusterSector c) (hPlaces p hp)
    unfold clusterBuffer
    rw [hSame]
    exact alike_refl _

/-- A lookup that is safe does not depend on the bytes around its buffer. -/
theorem Safe.elsewhere {count : Nat} (h : Safe fsbi count disk around name finode)
    (hBytes : fsbi.bytesPerCluster = 512 * fsbi.sectorPerCluster) :
    Safe fsbi count disk around' name finode := by
  have hSame : ∀ fuel, search fsbi disk around' name fuel finode = search fsbi disk around name fuel finode := by
    intro fuel
    refine lookupLoop_congr (fun k c hk => ⟨?_, rfl⟩) fuel
    refine scanCluster_around hBytes fun p hp => h.places (k + 1) p ?_
    exact (lookupLoop_from hk 1).2.2 p ((lookupLoop_reads 0 c).2 p hp)
  obtain ⟨hEnds, hSectors, hPlaces⟩ := h
  constructor
  · obtain ⟨fuel, hOver⟩ := hEnds
    refine ⟨fuel, ?_⟩
    rw [hSame]
    exact hOver
  · intro fuel s hs
    rw [hSame] at hs
    exact hSectors fuel s hs
  · intro fuel p hp
    rw [hSame] at hp
    exact hPlaces fuel p hp

/-! ## With no entries around the buffer -/

open Classical in
theorem nextSearched_eq (c : Nat) :
    nextSearched fsbi disk name c = nextCluster fsbi disk (fun _ => 0) name c := by
  have hSpec := (scanCluster_spec fsbi disk (fun _ => 0) name c).miss
  unfold nextSearched nextCluster
  refine if_congr (and_congr_left' ?_) rfl rfl
  rw [hSpec]
  constructor
  · intro hNone i _ hi
    exact hNone i (by omega)
  · intro hNone i hi
    exact hNone i (Nat.zero_le i) (by omega)

/-- The places of a scan lie in the buffer if no compared entry is exposed. -/
theorem places_iff (hBytes : fsbi.bytesPerCluster = 512 * fsbi.sectorPerCluster) (c : Nat) :
    (∀ p ∈ (scanCluster fsbi disk (fun _ => 0) name c).2, fsbi.InBuffer p) ↔
      ∀ i < fsbi.entries, Examined name (dirEntries fsbi disk c) 0 i →
        ¬ Exposed name (dirEntries fsbi disk c) i := by
  have hSpec := scanCluster_spec fsbi disk (fun _ => 0) name c
  constructor
  · intro hIn i hi hExamined hExposed
    obtain ⟨p, hp, hNeg⟩ := hSpec.exposed.mpr ⟨i, Nat.zero_le i, by omega, hExamined, hExposed⟩
    have hLow := (hIn p hp).1
    omega
  · intro hNone p hp
    have hBelow := hSpec.below p hp
    have hEntries : fsbi.entries = (fsbi.bytesPerCluster + 31) / 32 := rfl
    have hLow : 0 ≤ p := by
      by_contra hNeg
      obtain ⟨i, -, hi, hExamined, hExposed⟩ := hSpec.exposed.mp ⟨p, hp, by omega⟩
      exact hNone i (by omega) hExamined hExposed
    exact ⟨hLow, by omega⟩

end

section
variable {dpte : PartitionEntry} {fbs : BootSector} {disk : Disk} {name : Name} {finode : InodeInfo}

theorem searched_word {fsbi : SbInfo} {k c : Nat} (hk : Searched fsbi disk name finode k c) : c < 2 ^ 32 := by
  cases k with
  | zero =>
    cases hk
    exact Nat.mod_lt _ (by decide)
  | succ k =>
    obtain ⟨b, -, hNext⟩ := chain_pred hk
    rw [nextSearched_eq] at hNext
    have hLt := (nextCluster_some.mp hNext).2.1
    omega

theorem safe_iff_harmless (h : Valid dpte fbs) :
    Safe (readSbInfo dpte fbs) fbs.clusterCount disk (fun _ => 0) name finode ↔
      Harmless (readSbInfo dpte fbs) fbs disk name finode := by
  have hNext : nextSearched (readSbInfo dpte fbs) disk name = nextCluster (readSbInfo dpte fbs) disk
    (fun _ => 0) name :=
    funext nextSearched_eq
  have hBytes := h.bytesPerCluster
  constructor
  · intro hSafe
    constructor
    · intro k c hk
      refine (h.cluster_iff (searched_word hk)).mp fun s hs => hSafe.sectors (k + 1) s ?_
      unfold Searched at hk
      rw [hNext] at hk
      exact (lookupLoop_from hk 1).2.1 s ((lookupLoop_reads 0 c).1 s hs)
    · obtain ⟨fuel, hOver⟩ := hSafe.terminates
      rw [hNext]
      exact noRepeat_of_ends ((lookupLoop_over fuel).mp hOver)
    · intro k c hk
      refine (places_iff hBytes c).mp fun p hp => hSafe.places (k + 1) p ?_
      unfold Searched at hk
      rw [hNext] at hk
      exact (lookupLoop_from hk 1).2.2 p ((lookupLoop_reads 0 c).2 p hp)
  · intro hHarmless
    have hClusters := hHarmless.clusters
    have hOnce := hHarmless.once
    have hInside := hHarmless.inside
    unfold Searched at hClusters hInside
    rw [hNext] at hClusters hOnce hInside
    constructor
    · obtain ⟨fuel, hEnd⟩ := ends_of_noRepeat (Set.finite_lt_nat (fbs.clusterCount + 2))
        (fun k c hk => (hClusters k c hk).2) hOnce
      exact ⟨fuel, (lookupLoop_over fuel).mpr hEnd⟩
    · intro fuel s hs
      obtain ⟨k, c, hk, hRead⟩ := (lookupLoop_read_of fuel).1 s hs
      have hCluster := hClusters k c hk
      have hWord : c < 2 ^ 32 := by
        have hBound := h.countBound
        have hLt := hCluster.2
        omega
      obtain hInCluster | rfl := hRead
      · exact (h.cluster_iff hWord).mpr hCluster s hInCluster
      · exact Or.inl (h.fatSector hCluster)
    · intro fuel p hp
      obtain ⟨k, c, hk, hRead⟩ := (lookupLoop_read_of fuel).2 p hp
      exact (places_iff hBytes c).mpr (hInside k c hk) p hRead

/-- A lookup is safe if and only if its directory does no harm. -/
theorem lookup_safe_iff (dpte : PartitionEntry) (fbs : BootSector) (disk : Disk) (around : Int → Byte)
    (name : Name) (finode : InodeInfo) (hValid : Valid dpte fbs) :
    Safe (readSbInfo dpte fbs) fbs.clusterCount disk around name finode ↔
      Harmless (readSbInfo dpte fbs) fbs disk name finode := by
  rw [← safe_iff_harmless hValid]
  constructor
  · intro hSafe
    exact hSafe.elsewhere hValid.bytesPerCluster
  · intro hSafe
    exact hSafe.elsewhere hValid.bytesPerCluster

end

/-! ## A volume with a label, and one without -/

/-- The root directory begins with the volume label. -/
def labelDisk : Disk := fun a =>
  if 512 * 3104 ≤ a then
    ([0x42, 0x4f, 0x4f, 0x54, 0x20, 0x20, 0x20, 0x20, 0x20, 0x20, 0x20, 0x08][a - 512 * 3104]?).getD 0
  else 0

def sampleRoot : InodeInfo := ⟨2, 0, 0, 0, 0, 0, 0⟩

/-- `a`. -/
def sampleName : Name := ⟨1, fun i => if i = 0 then 0x61 else 0⟩

/-- In front of the label the lookup looks for a long entry. -/
theorem label_read : -1 ∈ (search (readSbInfo samplePartition sampleBoot) labelDisk (fun _ => 0) sampleName 1
    sampleRoot).places := by decide +kernel

/-- `a` with its long entry in front, in a root directory of one cluster. -/
def longEntryDisk : Disk := fun a =>
  if 512 * 3104 ≤ a then
    (([0x41, 0x61, 0, 0, 0] ++ List.replicate 6 0xff ++ [0x0f, 0, 0] ++ List.replicate 12 0xff ++ [0, 0] ++
      List.replicate 4 0xff ++ 0x41 :: List.replicate 11 0x20)[a - 512 * 3104]?).getD 0
  else if 512 * 2080 + 8 ≤ a ∧ a < 512 * 2080 + 12 then 0xff
  else 0

theorem longEntry_searched (k c : Nat)
    (h : Searched (readSbInfo samplePartition sampleBoot) longEntryDisk sampleName sampleRoot k c) : k = 0 ∧
      c = 2 := by
  have hEnd : readFATEntry (readSbInfo samplePartition sampleBoot) longEntryDisk 2 = 0x0fffffff := by
    decide +kernel
  have hOver : nextSearched (readSbInfo samplePartition sampleBoot) longEntryDisk sampleName 2 = none := by
    unfold nextSearched
    rw [hEnd]
    exact if_neg fun hBoth => absurd hBoth.2 (by decide)
  cases k with
  | zero =>
    cases h
    exact ⟨rfl, rfl⟩
  | succ k =>
    have hLast : chain (nextSearched (readSbInfo samplePartition sampleBoot) longEntryDisk sampleName) 2 1 =
      none :=
      (chain_succ (k := 0) rfl).trans hOver
    unfold Searched at h
    rw [show sampleRoot.firstCluster % 2 ^ 32 = 2 from rfl, chain_none hLast (by omega)] at h
    cases h

theorem longEntry_harmless :
    Harmless (readSbInfo samplePartition sampleBoot) sampleBoot longEntryDisk sampleName sampleRoot := by
  constructor
  · intro k c hk
    rw [(longEntry_searched k c hk).2]
    exact ⟨by decide, by decide⟩
  · intro k l b hk hl
    rw [(longEntry_searched k b hk).1, (longEntry_searched l b hl).1]
  · rintro k c hk i hi hExamined ⟨hPart, -⟩
    obtain rfl : c = 2 := (longEntry_searched k c hk).2
    have hZero : i = 0 := Nat.lt_one_iff.mp hPart
    subst hZero
    have hLive : Live (dirEntries (readSbInfo samplePartition sampleBoot) longEntryDisk 2) 0 := hExamined.live
    unfold Live at hLive
    revert hLive
    decide +kernel

theorem lookup_safe_iff_longEntry :
    Safe (readSbInfo samplePartition sampleBoot) sampleBoot.clusterCount longEntryDisk (fun _ => 0) sampleName
        sampleRoot ∧
      ¬ Harmless (readSbInfo samplePartition sampleBoot) sampleBoot labelDisk sampleName sampleRoot := by
  constructor
  · exact (lookup_safe_iff samplePartition sampleBoot longEntryDisk (fun _ => 0) sampleName sampleRoot
      sample_valid).mpr longEntry_harmless
  · intro hHarmless
    have hSafe := (lookup_safe_iff samplePartition sampleBoot labelDisk (fun _ => 0) sampleName sampleRoot
      sample_valid).mpr hHarmless
    have hLow := (hSafe.places 1 (-1) label_read).1
    omega

theorem lookup_unsafe : ¬ ∀ (dpte : PartitionEntry) (fbs : BootSector) (disk : Disk) (around : Int → Byte)
    (name : Name) (finode : InodeInfo), Valid dpte fbs →
    Safe (readSbInfo dpte fbs) fbs.clusterCount disk around name finode := by
  intro h
  have hSafe := h samplePartition sampleBoot labelDisk (fun _ => 0) sampleName sampleRoot sample_valid
  have hLow := (hSafe.places 1 (-1) label_read).1
  omega

end KalinoteOS.Fat32
