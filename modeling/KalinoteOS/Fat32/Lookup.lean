import KalinoteOS.Fat32.Parts
import KalinoteOS.Fat32.Volume

/-! # `FAT32_lookup`

The clusters of a directory are read one after the other into a buffer, and its entries are compared
with the name until one is accepted. The model keeps which sectors are read and which places of the
buffer are looked at.
-/
namespace KalinoteOS.Fat32
open Lib
set_option autoImplicit false

/-- `struct FAT32_inode_info`. -/
structure InodeInfo where
  firstCluster : Nat
  dentryLocation : Nat
  dentryPosition : Nat
  createDate : Nat
  createTime : Nat
  writeDate : Nat
  writeTime : Nat
  deriving DecidableEq, Repr

def fsAttrFile : Nat := 1
def fsAttrDir : Nat := 2

/-- `struct index_node`, with its private info. -/
structure Inode where
  fileSize : Nat
  blocks : Nat
  attr : Nat
  info : InodeInfo
  deriving DecidableEq, Repr

/-- The cluster buffer as entries, counted from its start. The bytes of the cluster fill it; `around`
are the others, by their distance from the start. -/
def buffer (fsbi : SbInfo) (disk : Disk) (around : Int → Byte) (sector : Nat) (i : Int) : Entry := fun x =>
  if x < 32 then
    if 0 ≤ 32 * i + x ∧ 32 * i + x < 512 * fsbi.sectorPerCluster then
      disk (512 * sector + (32 * i + x).toNat)
    else around (32 * i + x)
  else 0

inductive Scan where
  | found (i : Nat)
  | miss
  | stuck
  deriving DecidableEq, Repr

/-- The loop over the entries of the buffer, with the places looked at. -/
def scan (name : Name) (buf : Int → Entry) : List Nat → Scan × List Int
  | [] => (.miss, [])
  | i :: is =>
    if (buf i).skipped then
      let rest := scan name buf is
      (rest.1, (i : Int) :: rest.2)
    else
      let compared := compareEntry name.length name.read buf i
      match compared.1 with
      | .accept => (.found i, (i : Int) :: compared.2)
      | .fail =>
        let rest := scan name buf is
        (rest.1, (i : Int) :: compared.2 ++ rest.2)
      | .short | .stuck => (.stuck, (i : Int) :: compared.2)

/-- Where an entry was found. -/
structure Located where
  cluster : Nat
  position : Nat
  deriving DecidableEq, Repr

/-- A search, with no result if it is not over, and what it has read so far. -/
structure Search where
  result : Option (Option Located)
  sectors : List Nat
  places : List Int

def SbInfo.entries (fsbi : SbInfo) : Nat := (fsbi.bytesPerCluster + 31) / 32

/-- What is stored of an entry that is found. -/
def foundInode (fsbi : SbInfo) (tmpdentry : Entry) (place : Located) : Inode where
  fileSize := tmpdentry.dirFileSize
  blocks := (tmpdentry.dirFileSize + fsbi.bytesPerCluster + 2 ^ 64 - 1) % 2 ^ 64 / fsbi.bytesPerSector
  attr := if tmpdentry.isDirectory then fsAttrDir else fsAttrFile
  info := {
    firstCluster := (tmpdentry.dirFstClusHI <<< 16 ||| tmpdentry.dirFstClusLO) &&& 0x0fffffff
    dentryLocation := place.cluster
    dentryPosition := place.position
    createDate := tmpdentry.dirCrtTime
    createTime := tmpdentry.dirCrtDate
    writeDate := tmpdentry.dirWrtTime
    writeTime := tmpdentry.dirWrtDate }

section
variable (fsbi : SbInfo) (disk : Disk) (around : Int → Byte) (name : Name)

/-- The buffer with a cluster in it. -/
def clusterBuffer (cluster : Nat) : Int → Entry := buffer fsbi disk around (fsbi.clusterSector cluster)

def scanCluster (cluster : Nat) : Scan × List Int :=
  scan name (clusterBuffer fsbi disk around cluster) (List.range fsbi.entries)

/-- The loop over the clusters, from `next_cluster` on, for `fuel` rounds. -/
def lookupLoop : Nat → Nat → Search
  | 0, _ => ⟨none, [], []⟩
  | fuel + 1, cluster =>
    let read := List.range' (fsbi.clusterSector cluster) fsbi.sectorPerCluster
    let scanned := scanCluster fsbi disk around name cluster
    match scanned.1 with
    | .found i => ⟨some (some ⟨cluster, i⟩), read, scanned.2⟩
    | .stuck => ⟨none, read, scanned.2⟩
    | .miss =>
      let next := readFATEntry fsbi disk cluster
      let rest := if next < 0x0ffffff7 then lookupLoop fuel next else ⟨some none, [], []⟩
      ⟨rest.result, read ++ fsbi.fatSector cluster :: rest.sectors, scanned.2 ++ rest.places⟩

def search (fuel : Nat) (finode : InodeInfo) : Search :=
  lookupLoop fsbi disk around name fuel (finode.firstCluster % 2 ^ 32)

/-- `FAT32_lookup`: no value if it is not over after `fuel` clusters, else the new inode or `NULL`. -/
def lookup (fuel : Nat) (finode : InodeInfo) : Option (Option Inode) :=
  (search fsbi disk around name fuel finode).result.map fun found =>
    found.map fun place =>
      foundInode fsbi (clusterBuffer fsbi disk around place.cluster place.position) place

theorem lookup_some_iff (fuel : Nat) (finode : InodeInfo) (inode : Inode) :
    lookup fsbi disk around name fuel finode = some (some inode) ↔
      ∃ place, (search fsbi disk around name fuel finode).result = some (some place) ∧
        foundInode fsbi (clusterBuffer fsbi disk around place.cluster place.position) place = inode := by
  unfold lookup
  rw [Option.map_eq_some_iff]
  constructor
  · rintro ⟨found, hResult, hMap⟩
    obtain ⟨place, rfl, hInode⟩ := Option.map_eq_some_iff.mp hMap
    exact ⟨place, hResult, hInode⟩
  · rintro ⟨place, hResult, rfl⟩
    exact ⟨some place, hResult, rfl⟩

end

/-! ## When an entry is accepted -/

/-- The comparison with the short name ends with `find_lookup_success`. -/
def ShortAccepts (n : Name) (e : Entry) : Prop := ∃ j, shortCompare n.length n.read e = .done j

/-- All parts of the name are in front of the entry; or the long entries with its first parts end before,
and its short name is accepted. -/
def Matches (n : Name) (buf : Int → Entry) (i : Int) : Prop :=
  (∀ k < n.parts, PartAt buf i n k) ∨
    ∃ m < n.parts, (∀ k < m, PartAt buf i n k) ∧ (buf (i - 1 - m)).isLong = false ∧ ShortAccepts n (buf i)

/-- Between the entry and the start of the buffer is nothing but the first parts of a longer name. -/
def Exposed (n : Name) (buf : Int → Entry) (i : Nat) : Prop :=
  i < n.parts ∧ ∀ k < i, PartAt buf i n k

def Live (buf : Int → Entry) (i : Nat) : Prop := (buf i).skipped = false

section
variable {n : Name} {buf : Int → Entry}

theorem matchChar_ne_stuck (v : Int) (j : Nat) : matchChar n.read v j ≠ .stuck := by
  unfold matchChar Name.read
  dsimp only
  split
  · exact nofun
  · exact nofun

theorem baseChar_ne_stuck (e : Entry) (x j : Nat) : baseChar n.length n.read e x j ≠ .stuck := by
  unfold baseChar
  dsimp only [Name.read]
  repeat' split
  all_goals first | exact matchChar_ne_stuck _ _ | exact nofun

theorem extChar_ne_stuck (e : Entry) (x j : Nat) : extChar n.read e x j ≠ .stuck := by
  unfold extChar
  dsimp only
  repeat' split
  all_goals first | exact matchChar_ne_stuck _ _ | exact nofun

theorem charLoop_ne_stuck {round : Nat → Nat → Cmp} (hRound : ∀ x j, round x j ≠ .stuck) (xs : List Nat)
    (j : Nat) : charLoop round xs j ≠ .stuck := by
  induction xs generalizing j with
  | nil => exact nofun
  | cons x xs ih =>
    rw [charLoop]
    cases hHere : round x j with
    | done j => exact ih j
    | fail => exact nofun
    | stuck => exact absurd hHere (hRound x j)

theorem shortCompare_ne_stuck (e : Entry) : shortCompare n.length n.read e ≠ .stuck := by
  have hBase := charLoop_ne_stuck (baseChar_ne_stuck (n := n) e) (List.range 8) 0
  unfold shortCompare
  cases hLoop : charLoop (baseChar n.length n.read e) (List.range 8) 0 with
  | done j =>
    dsimp only
    split
    · exact nofun
    · exact charLoop_ne_stuck (extChar_ne_stuck e) _ _
  | fail => exact nofun
  | stuck => exact absurd hLoop hBase

/-- The comparison with one entry. -/
structure Compared (n : Name) (buf : Int → Entry) (i : Nat) (out : Verdict × List Int) : Prop where
  decided : out.1 = .accept ∨ out.1 = .fail
  accept : out.1 = .accept ↔ Matches n buf i
  below : ∀ p ∈ out.2, p < i
  above : (buf (-1)).isLong = false → ∀ p ∈ out.2, -1 ≤ p
  exposed : (∃ p ∈ out.2, p < 0) ↔ Exposed n buf i

theorem StopsFrom.exposed_iff {i m : Nat} {out : Verdict × List Int} (h : StopsFrom buf i n 0 m out) :
    (∃ p ∈ out.2, p < 0) ↔ Exposed n buf i := by
  have hInName := h.inName
  constructor
  · rintro ⟨p, hp, hNeg⟩
    obtain ⟨k, -, hk, rfl⟩ := (h.places p).mp hp
    exact ⟨by omega, fun k' hk' => h.before k' (Nat.zero_le k') (by omega)⟩
  · rintro ⟨hLonger, hParts⟩
    have hReach : i ≤ m := by
      by_contra hNot
      have hHere : PartAt buf i n m := hParts m (by omega)
      have hStops := h.stops
      generalize out.1 = v at hStops
      cases hStops with
      | accept hLast _ => omega
      | fail _ hOther => exact hOther hHere
      | short hShort =>
        rw [hHere.long] at hShort
        cases hShort
    exact ⟨(i : Int) - 1 - i, (h.places _).mpr ⟨i, Nat.zero_le i, hReach, rfl⟩, by omega⟩

/-- The walk does not go on from an entry that is not long. -/
theorem StopsFrom.above {i : Nat} {m : Nat} {out : Verdict × List Int} (h : StopsFrom buf i n 0 m out)
    (hShort : (buf (-1)).isLong = false) : ∀ p ∈ out.2, -1 ≤ p := by
  intro p hp
  obtain ⟨k, -, hk, rfl⟩ := (h.places p).mp hp
  by_contra hFar
  have hPart := h.before i (Nat.zero_le i) (by omega)
  have hPlace : (i : Int) - 1 - i = -1 := by omega
  have hLong := hPart.long
  rw [hPlace, hShort] at hLong
  cases hLong

/-- Where the loop stops for want of a long entry the short name decides. -/
theorem matches_short {i m : Nat} (hIn : m < n.parts) (hBefore : ∀ k < m, PartAt buf i n k)
    (hShort : (buf (i - 1 - m)).isLong = false) : Matches n buf i ↔ ShortAccepts n (buf i) := by
  constructor
  · rintro (hAll | ⟨_, -, -, -, hAccepts⟩)
    · rw [(hAll m hIn).long] at hShort
      cases hShort
    · exact hAccepts
  · intro hAccepts
    exact Or.inr ⟨m, hIn, hBefore, hShort, hAccepts⟩

theorem not_matches {i m : Nat} (hIn : m < n.parts) (hLong : (buf (i - 1 - m)).isLong = true)
    (hBefore : ∀ k < m, PartAt buf i n k) (hOther : ¬ PartAt buf i n m) : ¬ Matches n buf i := by
  rintro (hAll | ⟨m', -, hParts, hShort, -⟩)
  · exact hOther (hAll m hIn)
  · obtain hLt | rfl | hGt := Nat.lt_trichotomy m' m
    · rw [(hBefore m' hLt).long] at hShort
      cases hShort
    · rw [hLong] at hShort
      cases hShort
    · exact hOther (hParts m hGt)

theorem compareEntry_spec (n : Name) (buf : Int → Entry) (i : Nat) :
    Compared n buf i (compareEntry n.length n.read buf i) := by
  obtain ⟨m, hStops⟩ := longLoop_from n.readBy_read buf i
  have hExposed := hStops.exposed_iff
  have hBelow : ∀ p ∈ (longLoop n.length n.read buf (n.length + 1) (i - 1) 0).2, p < i := by
    intro p hp
    obtain ⟨k, -, -, rfl⟩ := (hStops.places p).mp hp
    omega
  have hAbove := hStops.above
  have hBefore : ∀ k < m, PartAt buf i n k := fun k hk => hStops.before k (Nat.zero_le k) hk
  have hIn := hStops.inName
  have hWhy := hStops.stops
  have hAll := hStops.accept_iff
  unfold compareEntry
  dsimp only
  generalize longLoop n.length n.read buf (n.length + 1) (i - 1) 0 = out at *
  obtain ⟨v, places⟩ := out
  dsimp only at *
  cases hWhy with
  | accept hLast hPart => exact ⟨Or.inl rfl, ⟨fun _ => Or.inl (hAll.mp rfl), fun _ => rfl⟩, hBelow, hAbove,
      hExposed⟩
  | fail hLong hOther =>
    refine ⟨Or.inr rfl, ⟨fun h => (by cases h), fun h => ?_⟩, hBelow, hAbove, hExposed⟩
    exact absurd h (not_matches hIn hLong hBefore hOther)
  | short hShort =>
    have hMatches := matches_short hIn hBefore hShort
    have hTotal := shortCompare_ne_stuck (n := n) (buf i)
    dsimp only
    unfold ShortAccepts at hMatches
    cases hCompare : shortCompare n.length n.read (buf i) with
    | done j =>
      rw [hCompare] at hMatches
      exact ⟨Or.inl rfl, ⟨fun _ => hMatches.mpr ⟨j, rfl⟩, fun _ => rfl⟩, hBelow, hAbove, hExposed⟩
    | fail =>
      rw [hCompare] at hMatches
      refine ⟨Or.inr rfl, ⟨fun h => (by cases h), fun h => ?_⟩, hBelow, hAbove, hExposed⟩
      obtain ⟨j, hj⟩ := hMatches.mp h
      cases hj
    | stuck => exact absurd hCompare hTotal

/-! ## The scan of a cluster -/

/-- The entry is compared: the loop has not ended before. -/
structure Examined (n : Name) (buf : Int → Entry) (a i : Nat) : Prop where
  live : Live buf i
  before : ∀ j, a ≤ j → j < i → Live buf j → ¬ Matches n buf j

/-- The scan of `m` entries from `a` on. -/
structure Scanned (n : Name) (buf : Int → Entry) (a m : Nat) (out : Scan × List Int) : Prop where
  decided : out.1 ≠ .stuck
  found : ∀ i, out.1 = .found i → a ≤ i ∧ i < a + m ∧ Examined n buf a i ∧ Matches n buf i
  miss : out.1 = .miss ↔ ∀ i, a ≤ i → i < a + m → Live buf i → ¬ Matches n buf i
  below : ∀ p ∈ out.2, p < (a + m : Nat)
  above : (buf (-1)).isLong = false → ∀ p ∈ out.2, -1 ≤ p
  exposed : (∃ p ∈ out.2, p < 0) ↔ ∃ i, a ≤ i ∧ i < a + m ∧ Examined n buf a i ∧ Exposed n buf i

theorem Examined.cons {a i : Nat} (hNot : Live buf a → ¬ Matches n buf a) (h : Examined n buf (a + 1) i) :
    Examined n buf a i := by
  refine ⟨h.live, fun j hj hji => ?_⟩
  obtain hLater | rfl := Nat.lt_or_eq_of_le hj
  · exact h.before j hLater hji
  · exact hNot

/-- An entry that is not accepted, in front of the others. -/
theorem Scanned.cons {a m : Nat} {out : Scan × List Int} (h : Scanned n buf (a + 1) m out) (places : List Int)
    (hNot : Live buf a → ¬ Matches n buf a)
    (hBelow : ∀ p ∈ places, p < (a + 1 : Nat)) (hAbove : (buf (-1)).isLong = false → ∀ p ∈ places, -1 ≤ p)
    (hExposed : (∃ p ∈ places, p < 0) ↔ Live buf a ∧ Exposed n buf a) :
    Scanned n buf a (m + 1) (out.1, places ++ out.2) where
  decided := h.decided
  found i hi := by
    obtain ⟨hLow, hHigh, hExamined, hIs⟩ := h.found i hi
    exact ⟨by omega, by omega, hExamined.cons hNot, hIs⟩
  miss := by
    rw [h.miss]
    constructor
    · intro hRest i hLow hHigh
      obtain hLater | rfl := Nat.lt_or_eq_of_le hLow
      · exact hRest i hLater (by omega)
      · exact hNot
    · intro hAll i hLow hHigh
      exact hAll i (by omega) (by omega)
  below p hp := by
    obtain hHere | hRest := List.mem_append.mp hp
    · have hLt := hBelow p hHere
      omega
    · have hLt := h.below p hRest
      omega
  above hShort p hp := by
    obtain hHere | hRest := List.mem_append.mp hp
    · exact hAbove hShort p hHere
    · exact h.above hShort p hRest
  exposed := by
    constructor
    · rintro ⟨p, hp, hNeg⟩
      obtain hHere | hRest := List.mem_append.mp hp
      · obtain ⟨hLive, hIs⟩ := hExposed.mp ⟨p, hHere, hNeg⟩
        exact ⟨a, Nat.le_refl a, by omega, ⟨hLive, fun j hLow hHigh => absurd hHigh (by omega)⟩, hIs⟩
      · obtain ⟨i, hLow, hHigh, hExamined, hIs⟩ := h.exposed.mp ⟨p, hRest, hNeg⟩
        exact ⟨i, by omega, by omega, hExamined.cons hNot, hIs⟩
    · rintro ⟨i, hLow, hHigh, ⟨hLive, hBefore⟩, hIs⟩
      obtain hLater | rfl := Nat.lt_or_eq_of_le hLow
      · have hExamined : Examined n buf (a + 1) i := ⟨hLive, fun j hj => hBefore j (by omega)⟩
        obtain ⟨p, hp, hNeg⟩ := h.exposed.mpr ⟨i, hLater, by omega, hExamined, hIs⟩
        exact ⟨p, List.mem_append_right _ hp, hNeg⟩
      · obtain ⟨p, hp, hNeg⟩ := hExposed.mpr ⟨hLive, hIs⟩
        exact ⟨p, List.mem_append_left _ hp, hNeg⟩

theorem Compared.places {i : Nat} {out : Verdict × List Int} (h : Compared n buf i out) :
    (∀ p ∈ (i : Int) :: out.2, p < (i + 1 : Nat)) ∧
      ((buf (-1)).isLong = false → ∀ p ∈ (i : Int) :: out.2, -1 ≤ p) ∧
      ((∃ p ∈ (i : Int) :: out.2, p < 0) ↔ Exposed n buf i) := by
  refine ⟨?_, ?_, ?_⟩
  · intro p hp
    obtain rfl | hIn := List.mem_cons.mp hp
    · omega
    · have hLt := h.below p hIn
      omega
  · intro hShort p hp
    obtain rfl | hIn := List.mem_cons.mp hp
    · omega
    · exact h.above hShort p hIn
  · rw [← h.exposed]
    constructor
    · rintro ⟨p, hp, hNeg⟩
      obtain rfl | hIn := List.mem_cons.mp hp
      · omega
      · exact ⟨p, hIn, hNeg⟩
    · rintro ⟨p, hp, hNeg⟩
      exact ⟨p, List.mem_cons_of_mem _ hp, hNeg⟩

theorem scan_spec (n : Name) (buf : Int → Entry) (a m : Nat) :
    Scanned n buf a m (scan n buf (List.range' a m)) := by
  induction m generalizing a with
  | zero =>
    refine ⟨nofun, fun i hi => (by cases hi), ⟨fun _ i hLow hHigh => (by omega), fun _ => rfl⟩, nofun,
      fun _ => nofun, ?_⟩
    constructor
    · rintro ⟨p, hp, -⟩
      cases hp
    · rintro ⟨i, hLow, hHigh, -⟩
      omega
  | succ m ih =>
    have hRest := ih (a + 1)
    rw [List.range'_succ, scan]
    cases hSkip : (buf a).skipped with
    | true =>
      have hDead : ¬ Live buf a := fun hLive => by
        rw [Live, hSkip] at hLive
        cases hLive
      refine hRest.cons [(a : Int)] (fun hLive => absurd hLive hDead) (fun p hp => ?_)
        (fun _ p hp => ?_) ?_
      · rw [List.mem_singleton.mp hp]
        omega
      · rw [List.mem_singleton.mp hp]
        omega
      · constructor
        · rintro ⟨p, hp, hNeg⟩
          rw [List.mem_singleton.mp hp] at hNeg
          omega
        · rintro ⟨hLive, -⟩
          exact absurd hLive hDead
    | false =>
      have hCompared := compareEntry_spec n buf a
      obtain ⟨hBelow, hAbove, hExposed⟩ := hCompared.places
      dsimp only
      rw [if_neg Bool.false_ne_true]
      obtain hAccept | hFail := hCompared.decided
      · rw [hAccept]
        have hMatches := hCompared.accept.mp hAccept
        refine ⟨nofun, ?_, ⟨fun h => (by cases h), fun hNone => ?_⟩, ?_, ?_, ?_⟩
        · rintro i ⟨rfl⟩
          exact ⟨Nat.le_refl _, by omega, ⟨hSkip, fun j hj hja => absurd hja (by omega)⟩, hMatches⟩
        · exact absurd hMatches (hNone a (Nat.le_refl a) (by omega) hSkip)
        · intro p hp
          have hLt := hBelow p hp
          omega
        · exact hAbove
        · rw [hExposed]
          constructor
          · intro hIs
            exact ⟨a, Nat.le_refl a, by omega, ⟨hSkip, fun j hj hja => absurd hja (by omega)⟩, hIs⟩
          · rintro ⟨i, hLow, -, ⟨-, hBefore⟩, hIs⟩
            obtain hLater | rfl := Nat.lt_or_eq_of_le hLow
            · exact absurd hMatches (hBefore a (Nat.le_refl a) hLater hSkip)
            · exact hIs
      · rw [hFail]
        have hNot : ¬ Matches n buf a := by
          rw [← hCompared.accept, hFail]
          exact nofun
        refine hRest.cons _ (fun _ => hNot) hBelow hAbove (hExposed.trans ?_)
        exact ⟨fun hIs => ⟨hSkip, hIs⟩, fun hBoth => hBoth.2⟩

end

end KalinoteOS.Fat32
