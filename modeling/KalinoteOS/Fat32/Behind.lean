import KalinoteOS.Fat32.LongName
import KalinoteOS.Fat32.Lookup

/-! # The bytes behind a name

The comparison with a short name does not stop at the terminator. Two lookups of one string can differ in
what lies behind it, and with that in the entries that they accept.
-/
namespace KalinoteOS.Fat32
open Lib
set_option autoImplicit false

/-- The long entries in front of the entry end before the name does, and its short name decides. -/
def ShortDecides (n : Name) (buf : Int → Entry) (i : Int) : Prop :=
  ∃ m < n.parts, (∀ k < m, PartAt buf i n k) ∧ (buf (i - 1 - m)).isLong = false

/-! ## Long names -/

section
variable {N : List Byte} {behind behind' : Nat → Byte} {buf : Int → Entry}

theorem char_searchName {j : Nat} (hj : j ≤ N.length) :
    (searchName N behind').char j = (searchName N behind).char j := by
  obtain hLt | rfl := Nat.lt_or_eq_of_le hj
  · simp [searchName, hLt]
  · simp [searchName]

theorem unit_behind (p : Nat) : (searchName N behind').unit p = (searchName N behind).unit p := by
  have hLength : (searchName N behind').length = (searchName N behind).length := rfl
  unfold Name.unit
  rw [hLength]
  split
  · next hIn => rw [char_searchName hIn]
  · rfl

theorem units_behind (p m : Nat) : (searchName N behind').units p m = (searchName N behind).units p m := by
  induction m generalizing p with
  | zero => rfl
  | succ m ih => rw [Name.units, Name.units, unit_behind, ih]

theorem partAt_behind {i : Int} {k : Nat} :
    PartAt buf i (searchName N behind') k ↔ PartAt buf i (searchName N behind) k := by
  have hUnits : (searchName N behind').units (13 * k) 13 = (searchName N behind).units (13 * k) 13 :=
    units_behind _ _
  constructor
  · rintro ⟨hLong, hHolds⟩
    exact ⟨hLong, hHolds.trans hUnits⟩
  · rintro ⟨hLong, hHolds⟩
    exact ⟨hLong, hHolds.trans hUnits.symm⟩

/-- Only at an entry whose short name decides can the verdicts differ, and they do if the comparison with
the short name tells the two apart. -/
theorem matches_behind {i : Nat} :
    (Matches (searchName N behind') buf i ↔ Matches (searchName N behind) buf i) ↔
      (ShortDecides (searchName N behind) buf i →
        (ShortAccepts (searchName N behind') (buf i) ↔ ShortAccepts (searchName N behind) (buf i))) := by
  by_cases hShort : ShortDecides (searchName N behind) buf i
  · obtain ⟨m, hIn, hParts, hEnd⟩ := id hShort
    have hMatches := matches_short hIn hParts hEnd
    have hMatches' := matches_short (n := searchName N behind') hIn
      (fun k hk => partAt_behind.mpr (hParts k hk)) hEnd
    rw [hMatches, hMatches']
    exact ⟨fun h _ => h, fun h => h hShort⟩
  · refine ⟨fun _ h => absurd h hShort, fun _ => ?_⟩
    have hShort' : ¬ ShortDecides (searchName N behind') buf i := by
      rintro ⟨m, hIn, hParts, hEnd⟩
      exact hShort ⟨m, hIn, fun k hk => partAt_behind.mp (hParts k hk), hEnd⟩
    constructor
    · rintro (hAll | ⟨m, hIn, hParts, hEnd, -⟩)
      · exact Or.inl fun k hk => partAt_behind.mp (hAll k hk)
      · exact absurd ⟨m, hIn, hParts, hEnd⟩ hShort'
    · rintro (hAll | ⟨m, hIn, hParts, hEnd, -⟩)
      · exact Or.inl fun k hk => partAt_behind.mpr (hAll k hk)
      · exact absurd ⟨m, hIn, hParts, hEnd⟩ hShort

end

/-! ## How far the comparison with a short name reads -/

section
variable {length : Nat} {read read' : Nat → Option Byte} {e : Entry}

theorem matchChar_step {v : Int} {j j' : Nat} (h : matchChar read v j = .done j') : j' = j + 1 := by
  unfold matchChar at h
  split at h
  · cases h
  · split at h
    · exact (Cmp.done.inj h).symm
    · cases h

theorem baseChar_step {x j j' : Nat} (h : baseChar length read e x j = .done j') : j' ≤ j + 1 := by
  have hMatch : ∀ v, matchChar read v j = .done j' → j' ≤ j + 1 := fun v hv => by
    rw [matchChar_step hv]
  unfold baseChar at h
  dsimp only at h
  repeat' split at h
  all_goals first
    | exact hMatch _ h
    | cases h; omega
    | cases h

theorem baseChar_agree {x j : Nat} (h : read' j = read j) :
    baseChar length read' e x j = baseChar length read e x j := by
  unfold baseChar matchChar
  rw [h]

theorem extChar_step {x j j' : Nat} (h : extChar read e x j = .done j') : j' ≤ j + 1 := by
  have hMatch : ∀ v, matchChar read v j = .done j' → j' ≤ j + 1 := fun v hv => by
    rw [matchChar_step hv]
  unfold extChar at h
  dsimp only at h
  repeat' split at h
  all_goals first
    | exact hMatch _ h
    | cases h

theorem extChar_agree {x j : Nat} (h : read' j = read j) : extChar read' e x j = extChar read e x j := by
  unfold extChar matchChar
  rw [h]

/-- A loop whose index goes up by at most one reads no more places than it has rounds. -/
theorem charLoop_agree {round round' : Nat → Nat → Cmp} {b : Nat}
    (hStep : ∀ x j j', round x j = .done j' → j' ≤ j + 1) (hAgree : ∀ x, ∀ j < b, round' x j = round x j)
    {xs : List Nat} {j : Nat} (hFits : j + xs.length ≤ b) :
    charLoop round' xs j = charLoop round xs j ∧
      ∀ j', charLoop round xs j = .done j' → j' ≤ j + xs.length := by
  induction xs generalizing j with
  | nil =>
    refine ⟨rfl, fun j' h => ?_⟩
    cases h
    exact Nat.le_refl j
  | cons x xs ih =>
    rw [List.length_cons] at hFits ⊢
    rw [charLoop, charLoop, hAgree x j (by omega)]
    cases hRound : round x j with
    | done k =>
      have hLe := hStep x j k hRound
      obtain ⟨hSame, hEnd⟩ := ih (j := k) (by omega)
      refine ⟨hSame, fun j' h => ?_⟩
      have hRest := hEnd j' h
      omega
    | fail => exact ⟨rfl, fun j' h => by cases h⟩
    | stuck => exact ⟨rfl, fun j' h => by cases h⟩

/-- The places up to 11 decide. -/
theorem shortCompare_agree (h : ∀ j < 12, read' j = read j) :
    shortCompare length read' e = shortCompare length read e := by
  have hRounds : 0 + (List.range 8).length ≤ 12 := by decide
  obtain ⟨hBase, hEnd⟩ := charLoop_agree (fun _ _ _ => baseChar_step)
    (fun x j hj => (baseChar_agree (h j hj) : baseChar length read' e x j = baseChar length read e x j)) hRounds
  unfold shortCompare
  rw [hBase]
  cases hLoop : charLoop (baseChar length read e) (List.range 8) 0 with
  | done j =>
    have hLe : j ≤ 0 + 8 := hEnd j hLoop
    have hLast : j + 1 + [8, 9, 10].length ≤ 12 := by
      rw [List.length_cons, List.length_cons, List.length_singleton]
      omega
    have hExt := charLoop_agree (fun _ _ _ => extChar_step)
      (fun x j hj => (extChar_agree (h j hj) : extChar read' e x j = extChar read e x j)) hLast
    dsimp only
    rw [hExt.1]
  | fail => rfl
  | stuck => rfl

end

/-- Behind the place 11 nothing matters. -/
theorem shortAccepts_behind {N : List Byte} {behind behind' : Nat → Byte}
    (h : ∀ j, N.length < j → j ≤ 11 → behind' j = behind j) (e : Entry) :
    ShortAccepts (searchName N behind') e ↔ ShortAccepts (searchName N behind) e := by
  have hRead : ∀ j < 12, (searchName N behind').read j = (searchName N behind).read j := by
    intro j hj
    unfold Name.read
    by_cases hIn : j ≤ N.length
    · rw [char_searchName hIn]
    · have hNone : N[j]? = none := List.getElem?_eq_none (by omega)
      have hNe : j ≠ N.length := by omega
      simp only [searchName, hNone, if_neg hNe]
      rw [h j (by omega) (by omega)]
  have hLength : (searchName N behind').length = (searchName N behind).length := rfl
  unfold ShortAccepts
  rw [hLength, shortCompare_agree hRead]

end KalinoteOS.Fat32
