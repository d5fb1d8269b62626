import KalinoteOS.Fat32.Lookup
import KalinoteOS.Lib.Chain

/-! # The clusters that a lookup searches

The loop over the clusters follows a chain: what it reads and how it ends is said by the scans of the
clusters of the chain, and where these agree two lookups agree.
-/
namespace KalinoteOS.Fat32
open Lib
set_option autoImplicit false

section
variable {fsbi : SbInfo} {disk : Disk} {around : Int → Byte} {name : Name}

/-- The cluster after `c`, if the loop goes on. -/
def nextCluster (fsbi : SbInfo) (disk : Disk) (around : Int → Byte) (name : Name) (c : Nat) : Option Nat :=
  if (scanCluster fsbi disk around name c).1 = .miss ∧ readFATEntry fsbi disk c < 0x0ffffff7 then
    some (readFATEntry fsbi disk c)
  else none

theorem scanCluster_spec (fsbi : SbInfo) (disk : Disk) (around : Int → Byte) (name : Name) (c : Nat) :
    Scanned name (clusterBuffer fsbi disk around c) 0 fsbi.entries (scanCluster fsbi disk around name c) := by
  unfold scanCluster
  rw [List.range_eq_range']
  exact scan_spec _ _ _ _

theorem nextCluster_some {c c' : Nat} : nextCluster fsbi disk around name c = some c' ↔
    (scanCluster fsbi disk around name c).1 = .miss ∧ c' < 0x0ffffff7 ∧ readFATEntry fsbi disk c = c' := by
  unfold nextCluster
  split
  · next hNext =>
    constructor
    · intro h
      cases h
      exact ⟨hNext.1, hNext.2, rfl⟩
    · rintro ⟨-, -, rfl⟩
      rfl
  · next hEnd =>
    constructor
    · intro h
      cases h
    · rintro ⟨hMiss, hLt, rfl⟩
      exact absurd ⟨hMiss, hLt⟩ hEnd

/-! ## One round -/

/-- What the round for the cluster `c` adds to the rest of the search. -/
structure Round (fsbi : SbInfo) (disk : Disk) (around : Int → Byte) (name : Name) (c : Nat)
    (rest out : Search) : Prop where
  result : out.result = rest.result
  sectors : out.sectors = List.range' (fsbi.clusterSector c) fsbi.sectorPerCluster ++
    fsbi.fatSector c :: rest.sectors
  places : out.places = (scanCluster fsbi disk around name c).2 ++ rest.places

theorem lookupLoop_next {c c' : Nat} (h : nextCluster fsbi disk around name c = some c') (fuel : Nat) :
    Round fsbi disk around name c (lookupLoop fsbi disk around name fuel c')
      (lookupLoop fsbi disk around name (fuel + 1) c) := by
  obtain ⟨hMiss, hLt, rfl⟩ := nextCluster_some.mp h
  constructor <;> simp [lookupLoop, hMiss, hLt]

theorem lookupLoop_last {c : Nat} (h : nextCluster fsbi disk around name c = none) (fuel : Nat) :
    (lookupLoop fsbi disk around name (fuel + 1) c).result ≠ none ∧
    (∀ s ∈ (lookupLoop fsbi disk around name (fuel + 1) c).sectors,
      s ∈ List.range' (fsbi.clusterSector c) fsbi.sectorPerCluster ∨ s = fsbi.fatSector c) ∧
    (lookupLoop fsbi disk around name (fuel + 1) c).places = (scanCluster fsbi disk around name c).2 := by
  have hDecided := (scanCluster_spec fsbi disk around name c).decided
  cases hScan : (scanCluster fsbi disk around name c).1 with
  | found i =>
    simp only [lookupLoop, hScan]
    exact ⟨nofun, fun s hs => Or.inl hs, trivial⟩
  | stuck => exact absurd hScan hDecided
  | miss =>
    have hEnd : ¬ readFATEntry fsbi disk c < 0x0ffffff7 := by
      intro hLt
      rw [nextCluster, if_pos ⟨hScan, hLt⟩] at h
      cases h
    simp [lookupLoop, hScan, hEnd]

/-- In every round the cluster and its buffer are read. -/
theorem lookupLoop_reads (fuel c : Nat) :
    (∀ s ∈ List.range' (fsbi.clusterSector c) fsbi.sectorPerCluster,
      s ∈ (lookupLoop fsbi disk around name (fuel + 1) c).sectors) ∧
    ∀ p ∈ (scanCluster fsbi disk around name c).2,
      p ∈ (lookupLoop fsbi disk around name (fuel + 1) c).places := by
  cases hScan : (scanCluster fsbi disk around name c).1 with
  | found i => simp [lookupLoop, hScan]
  | stuck => simp [lookupLoop, hScan]
  | miss =>
    constructor
    · intro s hs
      simp only [lookupLoop, hScan]
      exact List.mem_append_left _ hs
    · intro p hp
      simp only [lookupLoop, hScan]
      exact List.mem_append_left _ hp

/-! ## The whole search -/

section
variable {a : Nat}

theorem lookupLoop_from {k c : Nat} (h : chain (nextCluster fsbi disk around name) a k = some c) (fuel : Nat) :
    (lookupLoop fsbi disk around name (k + fuel) a).result = (lookupLoop fsbi disk around name fuel c).result ∧
    (∀ s ∈ (lookupLoop fsbi disk around name fuel c).sectors,
      s ∈ (lookupLoop fsbi disk around name (k + fuel) a).sectors) ∧
    ∀ p ∈ (lookupLoop fsbi disk around name fuel c).places,
      p ∈ (lookupLoop fsbi disk around name (k + fuel) a).places := by
  induction k generalizing c fuel with
  | zero =>
    cases h
    rw [Nat.zero_add]
    exact ⟨rfl, fun _ hs => hs, fun _ hp => hp⟩
  | succ k ih =>
    obtain ⟨b, hb, hNext⟩ := chain_pred h
    obtain ⟨hResult, hSectors, hPlaces⟩ := ih hb (fuel + 1)
    have hRound := lookupLoop_next hNext fuel
    have hFuel : k + 1 + fuel = k + (fuel + 1) := by omega
    rw [hFuel]
    refine ⟨hResult.trans hRound.result, fun s hs => hSectors s ?_, fun p hp => hPlaces p ?_⟩
    · rw [hRound.sectors]
      exact List.mem_append_right _ (List.mem_cons_of_mem _ hs)
    · rw [hRound.places]
      exact List.mem_append_right _ hp

/-- What is read is read for a cluster of the chain. -/
theorem lookupLoop_read_of (fuel : Nat) :
    (∀ s ∈ (lookupLoop fsbi disk around name fuel a).sectors, ∃ k c,
      chain (nextCluster fsbi disk around name) a k = some c ∧
        (s ∈ List.range' (fsbi.clusterSector c) fsbi.sectorPerCluster ∨ s = fsbi.fatSector c)) ∧
    ∀ p ∈ (lookupLoop fsbi disk around name fuel a).places, ∃ k c,
      chain (nextCluster fsbi disk around name) a k = some c ∧ p ∈ (scanCluster fsbi disk around name c).2 := by
  induction fuel generalizing a with
  | zero => exact ⟨nofun, nofun⟩
  | succ fuel ih =>
    cases hNext : nextCluster fsbi disk around name a with
    | none =>
      obtain ⟨-, hSectors, hPlaces⟩ := lookupLoop_last hNext fuel
      refine ⟨fun s hs => ⟨0, a, rfl, hSectors s hs⟩, fun p hp => ⟨0, a, rfl, ?_⟩⟩
      rw [← hPlaces]
      exact hp
    | some b =>
      have hRound := lookupLoop_next hNext fuel
      obtain ⟨hSectors, hPlaces⟩ := ih (a := b)
      have hFirst : chain (nextCluster fsbi disk around name) a 1 = some b := hNext
      rw [hRound.sectors, hRound.places]
      constructor
      · intro s hs
        obtain hCluster | hMore := List.mem_append.mp hs
        · exact ⟨0, a, rfl, Or.inl hCluster⟩
        · obtain hFat | hRest := List.mem_cons.mp hMore
          · exact ⟨0, a, rfl, Or.inr hFat⟩
          · obtain ⟨k, c, hk, hIs⟩ := hSectors s hRest
            refine ⟨1 + k, c, ?_, hIs⟩
            rw [chain_add hFirst]
            exact hk
      · intro p hp
        obtain hHere | hRest := List.mem_append.mp hp
        · exact ⟨0, a, rfl, hHere⟩
        · obtain ⟨k, c, hk, hIs⟩ := hPlaces p hRest
          refine ⟨1 + k, c, ?_, hIs⟩
          rw [chain_add hFirst]
          exact hk

theorem lookupLoop_over (fuel : Nat) : (lookupLoop fsbi disk around name fuel a).result ≠ none ↔
    chain (nextCluster fsbi disk around name) a fuel = none := by
  constructor
  · intro hOver
    cases hChain : chain (nextCluster fsbi disk around name) a fuel with
    | none => rfl
    | some c =>
      have hResult := (lookupLoop_from hChain 0).1
      rw [Nat.add_zero] at hResult
      exact absurd hResult hOver
  · intro hEnd
    induction fuel generalizing a with
    | zero => cases hEnd
    | succ fuel ih =>
      cases hNext : nextCluster fsbi disk around name a with
      | none => exact (lookupLoop_last hNext fuel).1
      | some b =>
        have hFirst : chain (nextCluster fsbi disk around name) a 1 = some b := hNext
        rw [Nat.add_comm, chain_add hFirst] at hEnd
        rw [(lookupLoop_next hNext fuel).result]
        exact ih hEnd

/-- The entry that is found is the first that matches, in the last cluster of the chain. -/
theorem lookupLoop_found {fuel : Nat} {place : Located}
    (h : (lookupLoop fsbi disk around name fuel a).result = some (some place)) :
    ∃ k, chain (nextCluster fsbi disk around name) a k = some place.cluster ∧
      (scanCluster fsbi disk around name place.cluster).1 = .found place.position := by
  induction fuel generalizing a with
  | zero => cases h
  | succ fuel ih =>
    cases hNext : nextCluster fsbi disk around name a with
    | none =>
      refine ⟨0, ?_⟩
      rw [lookupLoop] at h
      cases hScan : (scanCluster fsbi disk around name a).1 with
      | found i =>
        rw [hScan] at h
        cases h
        exact ⟨rfl, hScan⟩
      | stuck =>
        rw [hScan] at h
        cases h
      | miss =>
        have hEnd : ¬ readFATEntry fsbi disk a < 0x0ffffff7 := by
          intro hLt
          rw [nextCluster, if_pos ⟨hScan, hLt⟩] at hNext
          cases hNext
        rw [hScan] at h
        dsimp only at h
        rw [if_neg hEnd] at h
        cases h
    | some b =>
      rw [(lookupLoop_next hNext fuel).result] at h
      have hFirst : chain (nextCluster fsbi disk around name) a 1 = some b := hNext
      obtain ⟨k, hk, hScan⟩ := ih h
      refine ⟨1 + k, ?_, hScan⟩
      rw [chain_add hFirst]
      exact hk

theorem lookupLoop_mono {fuel fuel' : Nat} {r : Option Located} (hLe : fuel ≤ fuel')
    (h : (lookupLoop fsbi disk around name fuel a).result = some r) :
    (lookupLoop fsbi disk around name fuel' a).result = some r := by
  induction fuel generalizing a fuel' with
  | zero => cases h
  | succ fuel ih =>
    obtain ⟨more, rfl⟩ : ∃ more, fuel' = more + 1 := ⟨fuel' - 1, by omega⟩
    rw [lookupLoop] at h ⊢
    cases hScan : (scanCluster fsbi disk around name a).1 with
    | found i =>
      rw [hScan] at h
      exact h
    | stuck =>
      rw [hScan] at h
      exact h
    | miss =>
      rw [hScan] at h
      dsimp only at h ⊢
      by_cases hLt : readFATEntry fsbi disk a < 0x0ffffff7
      · rw [if_pos hLt] at h ⊢
        exact ih (by omega) h
      · rw [if_neg hLt] at h ⊢
        exact h

theorem lookup_mono {finode : InodeInfo} {fuel fuel' : Nat} {r : Option Inode} (hLe : fuel ≤ fuel')
    (h : lookup fsbi disk around name fuel finode = some r) :
    lookup fsbi disk around name fuel' finode = some r := by
  obtain ⟨found, hResult, hFound⟩ := Option.map_eq_some_iff.mp h
  exact Option.map_eq_some_iff.mpr ⟨found, lookupLoop_mono hLe hResult, hFound⟩

/-! ## The chain in the FAT -/

/-- The cluster after `c` in the FAT. -/
def followFAT (fsbi : SbInfo) (disk : Disk) (c : Nat) : Option Nat :=
  if readFATEntry fsbi disk c < 0x0ffffff7 then some (readFATEntry fsbi disk c) else none

theorem followFAT_of_next {c c' : Nat} (h : nextCluster fsbi disk around name c = some c') :
    followFAT fsbi disk c = some c' := by
  obtain ⟨-, hLt, rfl⟩ := nextCluster_some.mp h
  exact if_pos hLt

/-- The clusters that are searched are clusters of the chain. -/
theorem chain_followFAT {k c : Nat} (h : chain (nextCluster fsbi disk around name) a k = some c) :
    chain (followFAT fsbi disk) a k = some c := by
  induction k generalizing c with
  | zero => exact h
  | succ k ih =>
    obtain ⟨b, hb, hNext⟩ := chain_pred h
    rw [chain_succ (ih hb)]
    exact followFAT_of_next hNext

/-- An entry is found if and only if some live entry in the chain matches. -/
theorem lookupLoop_finds : (∃ fuel place, (lookupLoop fsbi disk around name fuel a).result = some (some place)) ↔
    ∃ k c, chain (followFAT fsbi disk) a k = some c ∧ ∃ i < fsbi.entries,
      Live (clusterBuffer fsbi disk around c) i ∧ Matches name (clusterBuffer fsbi disk around c) i := by
  constructor
  · rintro ⟨fuel, place, hFound⟩
    obtain ⟨k, hk, hScan⟩ := lookupLoop_found hFound
    obtain ⟨-, hLt, hExamined, hIs⟩ := (scanCluster_spec fsbi disk around name place.cluster).found _ hScan
    exact ⟨k, place.cluster, chain_followFAT hk, place.position, by omega, hExamined.live, hIs⟩
  · rintro ⟨k, c, hk, i, hi, hLive, hMatches⟩
    induction k generalizing a with
    | zero =>
      obtain rfl : a = c := Option.some.inj hk
      have hSpec := scanCluster_spec fsbi disk around name a
      cases hScan : (scanCluster fsbi disk around name a).1 with
      | found j => exact ⟨1, ⟨a, j⟩, by rw [lookupLoop, hScan]⟩
      | stuck => exact absurd hScan hSpec.decided
      | miss => exact absurd hMatches (hSpec.miss.mp hScan i (Nat.zero_le i) (by omega) hLive)
    | succ k ih =>
      have hSpec := scanCluster_spec fsbi disk around name a
      cases hScan : (scanCluster fsbi disk around name a).1 with
      | found j => exact ⟨1, ⟨a, j⟩, by rw [lookupLoop, hScan]⟩
      | stuck => exact absurd hScan hSpec.decided
      | miss =>
        cases hFollow : followFAT fsbi disk a with
        | none =>
          have hEnd : chain (followFAT fsbi disk) a 1 = none := hFollow
          rw [chain_none hEnd (by omega)] at hk
          cases hk
        | some b =>
          have hFirst : chain (followFAT fsbi disk) a 1 = some b := hFollow
          rw [Nat.add_comm, chain_add hFirst] at hk
          obtain ⟨fuel, place, hFound⟩ := ih hk
          have hNext : nextCluster fsbi disk around name a = some b := by
            unfold followFAT at hFollow
            split at hFollow
            · next hLt =>
              cases hFollow
              exact nextCluster_some.mpr ⟨hScan, hLt, rfl⟩
            · cases hFollow
          exact ⟨fuel + 1, place, (lookupLoop_next hNext fuel).result.trans hFound⟩

/-! ## The first entry that matches -/

variable {place : Located}

/-- The entry `i` of the cluster `k'` of a chain comes before the entry `p` of its cluster `k`. -/
def Before (k p k' i : Nat) : Prop := k' < k ∨ k' = k ∧ i < p

/-- In the chain from `a` on the entry at `place`, in the cluster `k`, is the first live one that matches. -/
structure FirstMatch (fsbi : SbInfo) (disk : Disk) (around : Int → Byte) (name : Name) (a k : Nat)
    (place : Located) : Prop where
  inChain : chain (followFAT fsbi disk) a k = some place.cluster
  inCluster : place.position < fsbi.entries
  live : Live (clusterBuffer fsbi disk around place.cluster) place.position
  isMatch : Matches name (clusterBuffer fsbi disk around place.cluster) place.position
  first : ∀ k' c i, chain (followFAT fsbi disk) a k' = some c → i < fsbi.entries →
    Before k place.position k' i → Live (clusterBuffer fsbi disk around c) i →
    ¬ Matches name (clusterBuffer fsbi disk around c) i

theorem scanCluster_found {c i : Nat} (h : (scanCluster fsbi disk around name c).1 = .found i) :
    i < fsbi.entries ∧ Examined name (clusterBuffer fsbi disk around c) 0 i ∧
      Matches name (clusterBuffer fsbi disk around c) i := by
  obtain ⟨-, hLt, hIs⟩ := (scanCluster_spec fsbi disk around name c).found i h
  exact ⟨by omega, hIs⟩

theorem scanCluster_miss {c : Nat} (h : (scanCluster fsbi disk around name c).1 = .miss) {i : Nat}
    (hi : i < fsbi.entries) (hLive : Live (clusterBuffer fsbi disk around c) i) :
    ¬ Matches name (clusterBuffer fsbi disk around c) i :=
  (scanCluster_spec fsbi disk around name c).miss.mp h i (Nat.zero_le i) (by omega) hLive

theorem FirstMatch.here {c i : Nat} (h : (scanCluster fsbi disk around name c).1 = .found i) :
    FirstMatch fsbi disk around name c 0 ⟨c, i⟩ := by
  obtain ⟨hLt, ⟨hLive, hBefore⟩, hMatches⟩ := scanCluster_found h
  refine ⟨rfl, hLt, hLive, hMatches, ?_⟩
  rintro k' c' j hk hj (hEarlier | ⟨rfl, hji⟩) hLiveJ
  · omega
  · cases hk
    exact hBefore j (Nat.zero_le j) hji hLiveJ

theorem FirstMatch.cons {b k : Nat} (hMiss : (scanCluster fsbi disk around name a).1 = .miss)
    (hNext : followFAT fsbi disk a = some b) (h : FirstMatch fsbi disk around name b k place) :
    FirstMatch fsbi disk around name a (k + 1) place := by
  have hShift := chain_next hNext
  refine ⟨(hShift k).trans h.inChain, h.inCluster, h.live, h.isMatch, ?_⟩
  intro k' c i hk hi hBefore hLive
  cases k' with
  | zero =>
    cases hk
    exact scanCluster_miss hMiss hi hLive
  | succ k' =>
    rw [hShift] at hk
    have hEarlier : Before k place.position k' i := by
      unfold Before at hBefore ⊢
      omega
    exact h.first k' c i hk hi hEarlier hLive

theorem FirstMatch.uncons {k : Nat} (h : FirstMatch fsbi disk around name a (k + 1) place) :
    (scanCluster fsbi disk around name a).1 = .miss ∧
      ∃ b, followFAT fsbi disk a = some b ∧ FirstMatch fsbi disk around name b k place := by
  have hSpec := scanCluster_spec fsbi disk around name a
  have hMiss : (scanCluster fsbi disk around name a).1 = .miss := by
    rw [hSpec.miss]
    intro i hLow hHigh hLive
    exact h.first 0 a i rfl (by omega) (Or.inl (Nat.zero_lt_succ k)) hLive
  refine ⟨hMiss, ?_⟩
  cases hNext : followFAT fsbi disk a with
  | none =>
    have hIn := h.inChain
    rw [chain_none (show chain (followFAT fsbi disk) a 1 = none from hNext) (by omega)] at hIn
    cases hIn
  | some b =>
    have hShift := chain_next hNext
    refine ⟨b, rfl, (hShift k).symm.trans h.inChain, h.inCluster, h.live, h.isMatch, ?_⟩
    intro k' c i hk hi hBefore hLive
    have hEarlier : Before (k + 1) place.position (k' + 1) i := by
      unfold Before at hBefore ⊢
      omega
    exact h.first (k' + 1) c i ((hShift k').trans hk) hi hEarlier hLive

/-- A search ends at the first match of the chain, and at no other place. -/
theorem lookupLoop_first : (∃ fuel, (lookupLoop fsbi disk around name fuel a).result = some (some place)) ↔
    ∃ k, FirstMatch fsbi disk around name a k place := by
  constructor
  · rintro ⟨fuel, hFound⟩
    induction fuel generalizing a with
    | zero => cases hFound
    | succ fuel ih =>
      rw [lookupLoop] at hFound
      cases hScan : (scanCluster fsbi disk around name a).1 with
      | found i =>
        rw [hScan] at hFound
        cases hFound
        exact ⟨0, FirstMatch.here hScan⟩
      | stuck => exact absurd hScan (scanCluster_spec fsbi disk around name a).decided
      | miss =>
        rw [hScan] at hFound
        dsimp only at hFound
        by_cases hLt : readFATEntry fsbi disk a < 0x0ffffff7
        · rw [if_pos hLt] at hFound
          obtain ⟨k, hFirst⟩ := ih hFound
          exact ⟨k + 1, hFirst.cons hScan (if_pos hLt)⟩
        · rw [if_neg hLt] at hFound
          cases hFound
  · rintro ⟨k, hFirst⟩
    induction k generalizing a with
    | zero =>
      obtain ⟨hIn, hCluster, hLive, hMatches, hBefore⟩ := hFirst
      obtain rfl : a = place.cluster := Option.some.inj hIn
      cases hScan : (scanCluster fsbi disk around name place.cluster).1 with
      | found j =>
        obtain ⟨hLt, ⟨hLiveJ, hNone⟩, hMatchJ⟩ := scanCluster_found hScan
        obtain hEarlier | rfl | hLater := Nat.lt_trichotomy j place.position
        · exact absurd hMatchJ (hBefore 0 _ j rfl hLt (Or.inr ⟨rfl, hEarlier⟩) hLiveJ)
        · exact ⟨1, by rw [lookupLoop, hScan]⟩
        · exact absurd hMatches (hNone place.position (Nat.zero_le _) hLater hLive)
      | stuck => exact absurd hScan (scanCluster_spec fsbi disk around name place.cluster).decided
      | miss => exact absurd hMatches (scanCluster_miss hScan hCluster hLive)
    | succ k ih =>
      obtain ⟨hMiss, b, hNext, hRest⟩ := hFirst.uncons
      obtain ⟨fuel, hFound⟩ := ih hRest
      have hStep : nextCluster fsbi disk around name a = some b := by
        unfold followFAT at hNext
        split at hNext
        · next hLt =>
          cases hNext
          exact nextCluster_some.mpr ⟨hMiss, hLt, rfl⟩
        · cases hNext
      exact ⟨fuel + 1, (lookupLoop_next hStep fuel).result.trans hFound⟩

/-! ## Two lookups that see the same -/

variable {disk' : Disk} {around' : Int → Byte}

theorem lookupLoop_congr
    (hSame : ∀ k c, chain (nextCluster fsbi disk around name) a k = some c →
      scanCluster fsbi disk' around' name c = scanCluster fsbi disk around name c ∧
        readFATEntry fsbi disk' c = readFATEntry fsbi disk c) (fuel : Nat) :
    lookupLoop fsbi disk' around' name fuel a = lookupLoop fsbi disk around name fuel a := by
  induction fuel generalizing a with
  | zero => rfl
  | succ fuel ih =>
    obtain ⟨hScan, hFat⟩ := hSame 0 a rfl
    rw [lookupLoop, lookupLoop, hScan, hFat]
    cases hCase : (scanCluster fsbi disk around name a).1 with
    | found i => rfl
    | stuck => rfl
    | miss =>
      dsimp only
      by_cases hLt : readFATEntry fsbi disk a < 0x0ffffff7
      · have hNext := nextCluster_some.mpr ⟨hCase, hLt, rfl⟩
        have hFirst : chain (nextCluster fsbi disk around name) a 1 = some _ := hNext
        rw [if_pos hLt, if_pos hLt, ih fun k c hk => hSame (1 + k) c ?_]
        rw [chain_add hFirst]
        exact hk
      · rw [if_neg hLt, if_neg hLt]

end

/-- The same to the walk over the entries of a long name. -/
structure Alike (e e' : Entry) : Prop where
  long : e.isLong = e'.isLong
  units : e.isLong = true → e.longUnits = e'.longUnits

theorem alike_refl (e : Entry) : Alike e e := ⟨rfl, fun _ => rfl⟩

theorem longLoop_congr {length : Nat} {read : Nat → Option Byte} {buf buf' : Int → Entry} {fuel : Nat}
    {pos : Int} {j : Nat}
    (h : ∀ p ∈ (longLoop length read buf fuel pos j).2, Alike (buf p) (buf' p)) :
    longLoop length read buf' fuel pos j = longLoop length read buf fuel pos j := by
  induction fuel generalizing pos j with
  | zero => rfl
  | succ fuel ih =>
    have hHere : Alike (buf pos) (buf' pos) := by
      apply h
      rw [longLoop]
      split
      · split
        · exact List.mem_singleton_self _
        · exact List.mem_singleton_self _
        · split
          · exact List.mem_singleton_self _
          · exact List.mem_cons_self
      · exact List.mem_singleton_self _
    rw [longLoop, longLoop, ← hHere.long]
    by_cases hLong : (buf pos).isLong = true
    · rw [if_pos hLong, if_pos hLong, ← hHere.units hLong]
      rw [longLoop, if_pos hLong] at h
      cases hUnits : compareUnits length read (buf pos).longUnits j with
      | fail => rfl
      | stuck => rfl
      | done j' =>
        rw [hUnits] at h
        dsimp only at h ⊢
        by_cases hEnd : length ≤ j'
        · rw [if_pos hEnd, if_pos hEnd]
        · rw [if_neg hEnd] at h
          rw [if_neg hEnd, if_neg hEnd, ih fun p hp => h p (List.mem_cons_of_mem _ hp)]
    · rw [if_neg hLong, if_neg hLong]

/-- The same in the fields that the comparison with a short name reads. -/
structure SameHead (e e' : Entry) : Prop where
  dirName : ∀ x, x < 11 → e.dirName x = e'.dirName x
  dirAttr : e.dirAttr = e'.dirAttr
  dirNTRes : e.dirNTRes = e'.dirNTRes

theorem sameHead_refl (e : Entry) : SameHead e e := ⟨fun _ _ => rfl, rfl, rfl⟩

theorem charLoop_congr {round round' : Nat → Nat → Cmp} {xs : List Nat}
    (h : ∀ x ∈ xs, ∀ j, round' x j = round x j) (j : Nat) : charLoop round' xs j = charLoop round xs j := by
  induction xs generalizing j with
  | nil => rfl
  | cons x xs ih =>
    rw [charLoop, charLoop, h x List.mem_cons_self]
    cases round x j with
    | done j => exact ih (fun y hy => h y (List.mem_cons_of_mem _ hy)) j
    | fail => rfl
    | stuck => rfl

theorem SameHead.skipped {e e' : Entry} (h : SameHead e e') : e'.skipped = e.skipped := by
  unfold Entry.skipped
  rw [h.dirName 0 (by decide), h.dirAttr]

theorem SameHead.isDirectory {e e' : Entry} (h : SameHead e e') : e'.isDirectory = e.isDirectory := by
  unfold Entry.isDirectory
  rw [h.dirAttr]

theorem SameHead.shortCompare {e e' : Entry} (h : SameHead e e') (length : Nat) (read : Nat → Option Byte) :
    shortCompare length read e' = shortCompare length read e := by
  have hBase : ∀ x ∈ List.range 8, ∀ j, baseChar length read e' x j = baseChar length read e x j := by
    intro x hx j
    unfold baseChar
    rw [h.dirName x (by have hLt := List.mem_range.mp hx; omega), h.isDirectory, h.dirNTRes]
  have hExt : ∀ x ∈ [8, 9, 10], ∀ j, extChar read e' x j = extChar read e x j := by
    intro x hx j
    unfold extChar
    have hLt : x < 11 := by
      simp only [List.mem_cons, List.not_mem_nil, or_false] at hx
      omega
    rw [h.dirName x hLt, h.dirNTRes]
  unfold Fat32.shortCompare
  rw [charLoop_congr hBase]
  cases charLoop (baseChar length read e) (List.range 8) 0 with
  | done j =>
    dsimp only
    rw [h.isDirectory, charLoop_congr hExt]
  | fail => rfl
  | stuck => rfl

theorem compareEntry_congr {length : Nat} {read : Nat → Option Byte} {buf buf' : Int → Entry} {i : Int}
    (hHead : SameHead (buf i) (buf' i))
    (hAlike : ∀ p ∈ (compareEntry length read buf i).2, Alike (buf p) (buf' p)) :
    compareEntry length read buf' i = compareEntry length read buf i := by
  have hPlaces : (compareEntry length read buf i).2 = (longLoop length read buf (length + 1) (i - 1) 0).2 := by
    unfold compareEntry
    dsimp only
    split
    · split
      · rfl
      · rfl
      · rfl
    · rfl
  rw [hPlaces] at hAlike
  unfold compareEntry
  rw [longLoop_congr hAlike, hHead.shortCompare]

theorem scan_congr {buf buf' : Int → Entry} {is : List Nat}
    (hHead : ∀ i ∈ is, SameHead (buf i) (buf' i))
    (hAlike : ∀ p ∈ (scan name buf is).2, Alike (buf p) (buf' p)) : scan name buf' is = scan name buf is := by
  induction is with
  | nil => rfl
  | cons i is ih =>
    have hHere := hHead i List.mem_cons_self
    have hLater : ∀ j ∈ is, SameHead (buf j) (buf' j) := fun j hj => hHead j (List.mem_cons_of_mem _ hj)
    rw [scan] at hAlike
    rw [scan, scan, hHere.skipped]
    by_cases hSkip : (buf i).skipped = true
    · rw [if_pos hSkip] at hAlike
      rw [if_pos hSkip, if_pos hSkip, ih hLater fun p hp => hAlike p (List.mem_cons_of_mem _ hp)]
    · rw [if_neg hSkip] at hAlike
      rw [if_neg hSkip, if_neg hSkip]
      have hCompare : compareEntry name.length name.read buf' i = compareEntry name.length name.read buf i := by
        refine compareEntry_congr hHere fun p hp => hAlike p ?_
        dsimp only
        split
        · exact List.mem_cons_of_mem _ hp
        · exact List.mem_cons_of_mem _ (List.mem_append_left _ hp)
        · exact List.mem_cons_of_mem _ hp
        · exact List.mem_cons_of_mem _ hp
      rw [hCompare]
      dsimp only at hAlike ⊢
      cases hVerdict : (compareEntry name.length name.read buf i).1 with
      | accept => rfl
      | short => rfl
      | stuck => rfl
      | fail =>
        rw [hVerdict] at hAlike
        dsimp only
        rw [ih hLater fun p hp => hAlike p (List.mem_cons_of_mem _ (List.mem_append_right _ hp))]

end

end KalinoteOS.Fat32
