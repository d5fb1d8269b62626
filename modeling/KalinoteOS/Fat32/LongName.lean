import KalinoteOS.Fat32.Parts

/-! # Which names the long name comparison accepts

A search name is accepted if the entries in front of the live one hold it, 13 characters each: with
its terminator and padding, as far as its own length asks for entries. How long the stored name
is the comparison never looks at.
-/
namespace KalinoteOS.Fat32
open Lib
set_option autoImplicit false

/-- The characters of a string in memory, with its terminator and whatever is behind it. -/
def searchName (N : List Byte) (behind : Nat → Byte) : Name where
  length := N.length
  char i := match N[i]? with
    | some c => c
    | none => if i = N.length then 0 else behind i

def Ascii (l : List Byte) : Prop := ∀ c ∈ l, 0 < c.toNat ∧ c.toNat < 128

/-- A name as it is stored: its characters, the terminator, the padding. -/
def unitAt (l : List Byte) (p : Nat) : Nat :=
  match l[p]? with
  | some c => c.toNat
  | none => if p = l.length then 0 else 0xffff

/-- The units from `p` on, `m` of them. -/
def unitsFrom (l : List Byte) : Nat → Nat → List Nat
  | _, 0 => []
  | p, m + 1 => unitAt l p :: unitsFrom l (p + 1) m

/-- The long entry `k` in front of the live entry at `i` has the part `k` of the name. -/
structure HoldsPart (buf : Int → Entry) (i : Int) (l : List Byte) (k : Nat) : Prop where
  long : (buf (i - 1 - k)).isLong = true
  units : (buf (i - 1 - k)).longUnits = unitsFrom l (13 * k) 13

/-- The entries that a name of this length takes. -/
def partsOf (l : List Byte) : Nat := (l.length + 12) / 13

/-- Every part from `k` on is there. -/
def StoredFrom (buf : Int → Entry) (i : Int) (l : List Byte) (k : Nat) : Prop :=
  ∀ k', k ≤ k' → k' < partsOf l → HoldsPart buf i l k'

/-- The name is stored in front of the entry at `i`. -/
def Stored (buf : Int → Entry) (i : Int) (l : List Byte) : Prop := StoredFrom buf i l 0

/-- The search name ends where a part of the stored one ends. -/
structure Cut (N L : List Byte) : Prop where
  parts : 13 ∣ N.length
  shorter : N.length < L.length
  start : N <+: L

/-- The search name goes on where the stored one ends with a part, and so do the entries. -/
structure Continued (buf : Int → Entry) (i : Int) (N L : List Byte) : Prop where
  parts : 13 ∣ L.length
  longer : L.length < N.length
  start : L <+: N
  rest : StoredFrom buf i N (L.length / 13)

theorem readBy_readString (N : List Byte) (behind : Nat → Byte) :
    (searchName N behind).ReadBy (searchName N behind).readString := fun _ hj => if_pos hj

section
variable {N L : List Byte} {read : Nat → Option Byte} {buf : Int → Entry} {i : Int}

theorem unit_signExtend {c : Byte} (h : c.toNat < 128) : (c.signExtend 16).toNat = c.toNat := by
  have hMsb : c.msb = false := by
    rw [BitVec.msb_eq_decide]
    simp only [decide_eq_false_iff_not]
    omega
  rw [BitVec.signExtend_eq_setWidth_of_msb_false hMsb]
  exact BitVec.toNat_setWidth_of_le (by decide)

theorem unitAt_of_lt {p : Nat} (hLt : p < N.length) : unitAt N p = N[p].toNat := by
  unfold unitAt
  rw [List.getElem?_eq_getElem hLt]

theorem unitAt_length (N : List Byte) : unitAt N N.length = 0 := by
  unfold unitAt
  rw [List.getElem?_eq_none (Nat.le_refl _)]
  exact if_pos rfl

theorem unitAt_of_gt {p : Nat} (hGt : N.length < p) : unitAt N p = 0xffff := by
  unfold unitAt
  rw [List.getElem?_eq_none (Nat.le_of_lt hGt)]
  exact if_neg (by omega)

theorem unit_searchName {behind : Nat → Byte} (hN : Ascii N) (p : Nat) :
    (searchName N behind).unit p = unitAt N p := by
  obtain hLt | rfl | hGt := Nat.lt_trichotomy p N.length
  · have hUnit : (searchName N behind).unit p = (((searchName N behind).char p).signExtend 16).toNat :=
      if_pos (Nat.le_of_lt hLt)
    have hChar : (searchName N behind).char p = N[p] := by simp [searchName, hLt]
    rw [hUnit, hChar, unitAt_of_lt hLt]
    exact unit_signExtend (hN _ (List.getElem_mem hLt)).2
  · have hUnit : (searchName N behind).unit N.length =
      (((searchName N behind).char N.length).signExtend 16).toNat :=
      if_pos (Nat.le_refl _)
    have hChar : (searchName N behind).char N.length = 0 := by simp [searchName]
    rw [hUnit, hChar, unitAt_length]
    rfl
  · rw [unitAt_of_gt hGt]
    exact if_neg (Nat.not_le_of_gt hGt)

theorem units_searchName (behind : Nat → Byte) (hN : Ascii N) (p m : Nat) :
    (searchName N behind).units p m = unitsFrom N p m := by
  induction m generalizing p with
  | zero => rfl
  | succ m ih => rw [Name.units, unitsFrom, unit_searchName hN, ih]

theorem partAt_iff {behind : Nat → Byte} (hN : Ascii N) (k : Nat) :
    PartAt buf i (searchName N behind) k ↔ HoldsPart buf i N k := by
  have hUnits := units_searchName behind hN (13 * k) 13
  constructor
  · rintro ⟨hLong, hEq⟩
    exact ⟨hLong, hEq.trans hUnits⟩
  · rintro ⟨hLong, hEq⟩
    exact ⟨hLong, hEq.trans hUnits.symm⟩

theorem parts_searchName {behind : Nat → Byte} (hNe : N ≠ []) : (searchName N behind).parts = partsOf N := by
  have hPos := List.length_pos_iff.mpr hNe
  have hParts : (searchName N behind).parts = max 1 ((N.length + 12) / 13) := rfl
  unfold partsOf
  omega

/-! ## Two names in the same entries -/

theorem getElem?_unitsFrom {l : List Byte} {p m x : Nat} (hx : x < m) :
    (unitsFrom l p m)[x]? = some (unitAt l (p + x)) := by
  induction m generalizing p x with
  | zero => omega
  | succ m ih =>
    cases x with
    | zero => rfl
    | succ x =>
      have hShift : p + (x + 1) = p + 1 + x := by omega
      rw [unitsFrom, List.getElem?_cons_succ, ih (by omega), hShift]

theorem HoldsPart.unit {l : List Byte} {k x : Nat} (h : HoldsPart buf i l k) (hx : x < 13) :
    (buf (i - 1 - k)).longUnits[x]? = some (unitAt l (13 * k + x)) := by
  rw [h.units]
  exact getElem?_unitsFrom hx

theorem Stored.agree (hL : Stored buf i L) (hN : Stored buf i N) {p : Nat} (hpL : p < 13 * partsOf L)
    (hpN : p < 13 * partsOf N) : unitAt N p = unitAt L p := by
  have hPlace : 13 * (p / 13) + p % 13 = p := Nat.div_add_mod p 13
  have hUnitN := (hN (p / 13) (Nat.zero_le _) (by omega)).unit (Nat.mod_lt p (by decide))
  have hUnitL := (hL (p / 13) (Nat.zero_le _) (by omega)).unit (Nat.mod_lt p (by decide))
  rw [hPlace] at hUnitN hUnitL
  exact Option.some.inj (hUnitN.symm.trans hUnitL)

theorem prefix_of_units (hLe : N.length ≤ L.length) (h : ∀ p < N.length, unitAt N p = unitAt L p) :
    N <+: L := by
  refine List.prefix_iff_getElem.mpr ⟨hLe, fun p hp => ?_⟩
  have hUnit := h p hp
  rw [unitAt_of_lt hp, unitAt_of_lt (by omega)] at hUnit
  exact BitVec.eq_of_toNat_eq hUnit

theorem unitAt_of_start (h : N <+: L) {p : Nat} (hp : p < N.length) : unitAt L p = unitAt N p := by
  obtain ⟨hLe, hSame⟩ := List.prefix_iff_getElem.mp h
  rw [unitAt_of_lt hp, unitAt_of_lt (by omega), hSame p hp]

theorem unitsFrom_congr {p m : Nat} (h : ∀ x < m, unitAt N (p + x) = unitAt L (p + x)) :
    unitsFrom N p m = unitsFrom L p m := by
  induction m generalizing p with
  | zero => rfl
  | succ m ih =>
    have hHere : unitAt N p = unitAt L p := h 0 (Nat.succ_pos m)
    rw [unitsFrom, unitsFrom, hHere, ih fun x hx => ?_]
    have hShift : p + 1 + x = p + (x + 1) := by omega
    rw [hShift]
    exact h (x + 1) (by omega)

/-- The shorter one of two names in the same entries has a length divisible by 13, and the longer
one begins with it. -/
theorem Stored.shorter (hL : Stored buf i L) (hN : Stored buf i N) (hAscii : Ascii L)
    (hLt : N.length < L.length) : 13 ∣ N.length ∧ N <+: L := by
  have hParts : L.length ≤ 13 * partsOf L := by
    unfold partsOf
    omega
  have hDvd : 13 ∣ N.length := by
    by_contra hNot
    have hPad : N.length < 13 * partsOf N := by
      unfold partsOf
      omega
    have hEnd := hL.agree hN (p := N.length) (by omega) hPad
    rw [unitAt_length, unitAt_of_lt hLt] at hEnd
    have hPos := (hAscii _ (List.getElem_mem hLt)).1
    omega
  refine ⟨hDvd, prefix_of_units (Nat.le_of_lt hLt) fun p hp => hL.agree hN (by omega) ?_⟩
  unfold partsOf
  omega

/-- The names that the entries of `L` hold as well. -/
theorem stored_iff (hL : Stored buf i L) (hAsciiL : Ascii L) (hAsciiN : Ascii N) :
    Stored buf i N ↔ N = L ∨ Cut N L ∨ Continued buf i N L := by
  constructor
  · intro hN
    obtain hLt | hEq | hGt := Nat.lt_trichotomy N.length L.length
    · obtain ⟨hDvd, hPrefix⟩ := hL.shorter hN hAsciiL hLt
      exact Or.inr (Or.inl ⟨hDvd, hLt, hPrefix⟩)
    · left
      have hPrefix : N <+: L := by
        refine prefix_of_units (Nat.le_of_eq hEq) fun p hp => hL.agree hN ?_ ?_
        · unfold partsOf
          omega
        · unfold partsOf
          omega
      exact hPrefix.eq_of_length hEq
    · obtain ⟨hDvd, hPrefix⟩ := hN.shorter hL hAsciiN hGt
      exact Or.inr (Or.inr ⟨hDvd, hGt, hPrefix, fun k' _ hLt => hN k' (Nat.zero_le _) hLt⟩)
  · rintro (rfl | hCut | hCont)
    · exact hL
    · intro k _ hLt
      obtain ⟨q, hq⟩ := hCut.parts
      have hShorter := hCut.shorter
      unfold partsOf at hLt
      obtain ⟨hLong, hUnits⟩ := hL k (Nat.zero_le _) (by unfold partsOf; omega)
      refine ⟨hLong, hUnits.trans (unitsFrom_congr fun x hx => ?_)⟩
      exact unitAt_of_start hCut.start (by omega)
    · intro k _ hLt
      by_cases hOwn : k < L.length / 13
      · obtain ⟨hLong, hUnits⟩ := hL k (Nat.zero_le _) (by unfold partsOf; omega)
        refine ⟨hLong, hUnits.trans (unitsFrom_congr fun x hx => ?_)⟩
        exact (unitAt_of_start hCont.start (by omega)).symm
      · exact hCont.rest k (by omega) hLt

/-- How the loop over the entries of the long name ends, from the live entry at `i`. -/
def longVerdict (length : Nat) (read : Nat → Option Byte) (buf : Int → Entry) (i : Int) : Verdict :=
  (longLoop length read buf (length + 1) (i - 1) 0).1

theorem longVerdict_spec {behind : Nat → Byte} (hN : Ascii N) (hRead : (searchName N behind).ReadBy read)
    (hNe : N ≠ []) (buf : Int → Entry) (i : Int) :
    longVerdict N.length read buf i ≠ .stuck ∧
      (longVerdict N.length read buf i = .accept ↔ Stored buf i N) := by
  obtain ⟨m, hStops⟩ := longLoop_from hRead buf i
  refine ⟨hStops.ne_stuck, hStops.accept_iff.trans ?_⟩
  rw [parts_searchName hNe]
  constructor
  · intro hAll k _ hk
    exact (partAt_iff hN k).mp (hAll k hk)
  · intro hStored k hk
    exact (partAt_iff hN k).mpr (hStored k (Nat.zero_le k) hk)

end

/-- The comparison with the long name is equality, and for another name it stays within the string
and its terminator. -/
structure ExactLong (buf : Int → Entry) (i : Int) (L N : List Byte) (behind : Nat → Byte) : Prop where
  accepts : longVerdict N.length (searchName N behind).read buf i = .accept ↔ N = L
  within : N ≠ L → longVerdict N.length (searchName N behind).readString buf i ≠ .stuck

/-- The comparison takes a name for equal that ends where a part of the stored one ends, and one that
goes on as the entries further in front do. -/
theorem longName_exact_iff (buf : Int → Entry) (i : Int) (L N : List Byte) (behind : Nat → Byte)
    (hAsciiL : Ascii L) (hStored : Stored buf i L) (hAsciiN : Ascii N) (hNeN : N ≠ []) :
    ExactLong buf i L N behind ↔ ¬ Cut N L ∧ ¬ Continued buf i N L := by
  have hAccepts := (longVerdict_spec hAsciiN (searchName N behind).readBy_read hNeN buf i).2
  have hWithin := (longVerdict_spec hAsciiN (readBy_readString N behind) hNeN buf i).1
  rw [stored_iff hStored hAsciiL hAsciiN] at hAccepts
  constructor
  · rintro ⟨hExact, -⟩
    have hEqual := hAccepts.symm.trans hExact
    constructor
    · intro hCut
      have hShorter := hCut.shorter
      rw [hEqual.mp (Or.inr (Or.inl hCut))] at hShorter
      exact Nat.lt_irrefl _ hShorter
    · intro hCont
      have hLonger := hCont.longer
      rw [hEqual.mp (Or.inr (Or.inr hCont))] at hLonger
      exact Nat.lt_irrefl _ hLonger
  · rintro ⟨hCut, hCont⟩
    refine ⟨hAccepts.trans ⟨?_, Or.inl⟩, fun _ => hWithin⟩
    rintro (hEq | hIs | hIs)
    · exact hEq
    · exact absurd hIs hCut
    · exact absurd hIs hCont

/-! ## A name of 14 characters -/

/-- An entry of a long name. -/
def longEntry (ord : Byte) (units : List Nat) : Entry :=
  let bytes (us : List Nat) : List Byte := us.flatMap fun u => [BitVec.ofNat 8 u, BitVec.ofNat 8 (u / 256)]
  let entry := ord :: bytes (units.take 5) ++ [attrLongName, 0, 0] ++ bytes ((units.drop 5).take 6) ++
    [0, 0] ++ bytes (units.drop 11)
  fun x => entry.getD x 0

/-- `abcdefghijklmn`, in the two entries before entry 2. -/
def name14 : List Byte := (List.range 14).map fun x => BitVec.ofNat 8 (0x61 + x)

def buffer14 (pos : Int) : Entry :=
  if pos = 1 then longEntry 0x01 (unitsFrom name14 0 13)
  else if pos = 0 then longEntry 0x42 (unitsFrom name14 13 13)
  else fun _ => 0

theorem stored14 : Stored buffer14 2 name14 := by
  intro k _ hLt
  have hParts : partsOf name14 = 2 := by decide
  rw [hParts] at hLt
  obtain rfl | rfl : k = 0 ∨ k = 1 := by omega
  · exact ⟨by decide +kernel, by decide +kernel⟩
  · exact ⟨by decide +kernel, by decide +kernel⟩

theorem ascii14 : Ascii name14 := by
  unfold Ascii
  decide

/-- The whole name is accepted as it should be, and its first part is not told from it. -/
theorem longName_exact_iff_name14 : ExactLong buffer14 2 name14 name14 (fun _ => 0) ∧
    ¬ ExactLong buffer14 2 name14 (name14.take 13) (fun _ => 0) := by
  constructor
  · apply (longName_exact_iff buffer14 2 name14 name14 (fun _ => 0) ascii14 stored14 ascii14 (by decide)).mpr
    exact ⟨fun hCut => Nat.lt_irrefl _ hCut.shorter, fun hCont => Nat.lt_irrefl _ hCont.longer⟩
  · intro hExact
    have hBoth := (longName_exact_iff buffer14 2 name14 (name14.take 13) (fun _ => 0) ascii14 stored14
      (by unfold Ascii; decide) (by decide)).mp hExact
    exact hBoth.1 ⟨by decide, by decide, List.take_prefix _ _⟩

/-- `abcdefghijklm` is taken for `abcdefghijklmn`. -/
theorem longName_cut : ¬ ∀ (buf : Int → Entry) (i : Int) (L N : List Byte) (behind : Nat → Byte),
    Ascii L → L ≠ [] → L.length ≤ 255 → Stored buf i L → Ascii N → N ≠ [] →
    ExactLong buf i L N behind := by
  intro h
  have hExact := h buffer14 2 name14 (name14.take 13) (fun _ => 0) ascii14 (by decide) (by decide) stored14
    (by unfold Ascii; decide) (by decide)
  have hAccept : longVerdict 13 (searchName (name14.take 13) fun _ => 0).read buffer14 2 = .accept := by
    decide +kernel
  exact absurd (hExact.accepts.mp hAccept) (by decide)

end KalinoteOS.Fat32
