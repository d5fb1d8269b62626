import KalinoteOS.Fat32.LongName

/-! # Which names the short name comparison accepts

The comparison walks over the eleven characters of `DIR_Name` and never asks whether the search name
ends where the entry's name does.
-/
namespace KalinoteOS.Fat32
open Lib
set_option autoImplicit false

def isLower (c : Byte) : Bool := 0x61 ≤ c ∧ c ≤ 0x7a

def NameChar (c : Byte) : Prop := isLetter c ∨ isDigit c ∨ c = 0x5f ∨ c = 0x2d

/-- The character `x` of a name that is padded with blanks. -/
def padded (l : List Byte) (x : Nat) : Byte := (l[x]?).getD 0x20

/-- `DIR_Name` holds an 8.3 name; a directory has no extension. -/
structure Holds83 (e : Entry) (base ext : List Byte) : Prop where
  baseAt : ∀ x < 8, e.dirName x = padded base x
  extAt : ∀ x < 3, e.dirName (8 + x) = padded ext x
  baseLength : 0 < base.length ∧ base.length ≤ 8
  extLength : ext.length ≤ 3
  directory : e.isDirectory → ext = []
  baseChars : ∀ c ∈ base, NameChar c
  extChars : ∀ c ∈ ext, NameChar c

/-- A character as the case flags give it. -/
def lowered (flags flag c : Byte) : Byte :=
  if flags &&& flag ≠ 0 ∧ 0x41 ≤ c ∧ c ≤ 0x5a then c + 32 else c

/-- The name of the entry. -/
def shortName (e : Entry) (base ext : List Byte) : List Byte :=
  base.map (lowered e.dirNTRes lowercaseBase) ++
    if ext = [] then [] else 0x2e :: ext.map (lowered e.dirNTRes lowercaseExt)

/-! ## The pattern -/

/-- The byte `b` of the search name, if it has one, stands for the character `c` of the base name. -/
def BaseFits (flags c : Byte) (b : Option Byte) : Prop :=
  if isLetter c then ∃ v ∈ b, v.toInt = foldCase flags lowercaseBase c
  else if isDigit c then ∃ v ∈ b, v.toInt = c.toNat
  else True

/-- The byte `b` stands for the character `c` of the extension. -/
def ExtFits (flags c b : Byte) : Prop :=
  if isLetter c then b.toInt = foldCase flags lowercaseExt c
  else if isDigit c ∨ c = 0x20 then b.toInt = c.toNat
  else False

/-- What the comparison checks: the letters and digits of the base name, the blanks behind it up to the
dot, and the three characters of the extension. -/
structure Fits (e : Entry) (base ext N : List Byte) (char : Nat → Byte) : Prop where
  baseFits : ∀ x < base.length, BaseFits e.dirNTRes (padded base x) N[x]?
  directory : e.isDirectory → (base.length = 8 ∨ base.length ≤ N.length) ∧
    ∀ p, base.length ≤ p → p < 8 → p < N.length → char p = 0x20
  file : ¬ e.isDirectory → ∃ q, base.length + q ≤ 8 ∧ (∀ p < q, char (base.length + p) = 0x20) ∧
    (base.length + q = 8 ∨ char (base.length + q) = 0x2e) ∧
    ∀ x < 3, ExtFits e.dirNTRes (padded ext x) (char (base.length + q + 1 + x))

/-! ## The two loops -/

section
variable {e : Entry} {base ext N : List Byte} {behind : Nat → Byte}

theorem charLoop_append (round : Nat → Nat → Cmp) (xs ys : List Nat) (j : Nat) :
    charLoop round (xs ++ ys) j =
      match charLoop round xs j with
      | .done j => charLoop round ys j
      | .fail => .fail
      | .stuck => .stuck := by
  induction xs generalizing j with
  | nil => rfl
  | cons x xs ih =>
    rw [List.cons_append, charLoop, charLoop]
    cases round x j with
    | done j => exact ih j
    | fail => rfl
    | stuck => rfl

theorem char_of_lt (behind : Nat → Byte) {x : Nat} (hx : x < N.length) :
    N[x]? = some ((searchName N behind).char x) := by
  simp [searchName, hx]

theorem nameChar_ne_blank {c : Byte} (h : NameChar c) : c ≠ 0x20 := by
  rintro rfl
  exact absurd h (by unfold NameChar; decide)

theorem padded_of_lt {l : List Byte} {x : Nat} (hx : x < l.length) : padded l x = l[x] := by
  unfold padded
  rw [List.getElem?_eq_getElem hx]
  rfl

theorem padded_of_le {l : List Byte} {x : Nat} (hx : l.length ≤ x) : padded l x = 0x20 := by
  unfold padded
  rw [List.getElem?_eq_none hx]
  rfl

open Classical in
theorem baseChar_spec {x : Nat} (hBlank : e.dirName x ≠ 0x20) :
    baseChar N.length (searchName N behind).read e x x =
      if BaseFits e.dirNTRes (e.dirName x) N[x]? then .done (x + 1) else .fail := by
  unfold baseChar BaseFits
  dsimp only
  rw [if_neg hBlank]
  by_cases hx : x < N.length
  · rw [if_pos hx, if_pos hx, char_of_lt behind hx]
    by_cases hLetter : isLetter (e.dirName x)
    · simp [hLetter, matchChar, Name.read]
    · by_cases hDigit : isDigit (e.dirName x)
      · simp [hLetter, hDigit, matchChar, Name.read]
      · simp [hLetter, hDigit]
  · rw [if_neg hx, if_neg hx, List.getElem?_eq_none (Nat.le_of_not_lt hx)]
    by_cases hLetter : isLetter (e.dirName x)
    · simp [hLetter]
    · by_cases hDigit : isDigit (e.dirName x)
      · simp [hLetter, hDigit]
      · simp [hLetter, hDigit]

open Classical in
/-- The part of the loop that walks over the characters of the base name. -/
theorem baseLoop_chars {m : Nat} (hBlank : ∀ x < m, e.dirName x ≠ 0x20) :
    charLoop (baseChar N.length (searchName N behind).read e) (List.range m) 0 =
      if ∀ x < m, BaseFits e.dirNTRes (e.dirName x) N[x]? then .done m else .fail := by
  induction m with
  | zero => simp [charLoop]
  | succ m ih =>
    rw [List.range_succ, charLoop_append, ih fun x hx => hBlank x (by omega)]
    by_cases hFront : ∀ x < m, BaseFits e.dirNTRes (e.dirName x) N[x]?
    · rw [if_pos hFront]
      dsimp only
      rw [charLoop, baseChar_spec (hBlank m (Nat.lt_succ_self m))]
      by_cases hLast : BaseFits e.dirNTRes (e.dirName m) N[m]?
      · have hAll : ∀ x < m + 1, BaseFits e.dirNTRes (e.dirName x) N[x]? := by
          intro x hx
          obtain hLt | rfl := Nat.lt_succ_iff_lt_or_eq.mp hx
          · exact hFront x hLt
          · exact hLast
        rw [if_pos hLast, if_pos hAll]
        rfl
      · rw [if_neg hLast, if_neg fun h => hLast (h m (Nat.lt_succ_self m))]
    · rw [if_neg hFront, if_neg fun h => hFront fun x hx => h x (by omega)]

theorem toInt_eq_blank {c : Byte} : c.toInt = 0x20 ↔ c = 0x20 :=
  BitVec.toInt_inj (x := c) (y := 0x20)

/-- The part of the loop that walks over the blanks behind the base name of a file. -/
theorem baseLoop_file (N : List Byte) (behind : Nat → Byte) (hFile : ¬ e.isDirectory) {xs : List Nat}
    (hBlank : ∀ x ∈ xs, e.dirName x = 0x20) (j j' : Nat) :
    charLoop (baseChar N.length (searchName N behind).read e) xs j = .done j' ↔
      ∃ q ≤ xs.length, (∀ p < q, (searchName N behind).char (j + p) = 0x20) ∧
        (q = xs.length ∨ (searchName N behind).char (j + q) = 0x2e) ∧ j' = j + q := by
  induction xs generalizing j with
  | nil =>
    constructor
    · intro h
      cases h
      exact ⟨0, Nat.le_refl 0, fun p hp => absurd hp (Nat.not_lt_zero p), Or.inl rfl, rfl⟩
    · rintro ⟨q, hq, -, -, rfl⟩
      cases Nat.le_zero.mp hq
      rfl
  | cons x xs ih =>
    have hRound : baseChar N.length (searchName N behind).read e x j =
        if (searchName N behind).char j = 0x2e then .done j
        else if (searchName N behind).char j = 0x20 then .done (j + 1) else .fail := by
      unfold baseChar Name.read
      simp only [hBlank x List.mem_cons_self, hFile, toInt_eq_blank]
      rfl
    have hRest := ih (fun y hy => hBlank y (List.mem_cons_of_mem x hy))
    rw [charLoop, hRound, List.length_cons]
    generalize hChar : (searchName N behind).char = char at *
    by_cases hDot : char j = 0x2e
    · rw [if_pos hDot]
      dsimp only
      rw [hRest]
      have hNotBlank : char j ≠ 0x20 := by
        rw [hDot]
        decide
      constructor
      · rintro ⟨q, -, hBlanks, -, rfl⟩
        obtain rfl : q = 0 := by
          by_contra hPos
          exact hNotBlank (hBlanks 0 (Nat.pos_of_ne_zero hPos))
        exact ⟨0, Nat.zero_le _, hBlanks, Or.inr hDot, rfl⟩
      · rintro ⟨q, -, hBlanks, -, rfl⟩
        obtain rfl : q = 0 := by
          by_contra hPos
          exact hNotBlank (hBlanks 0 (Nat.pos_of_ne_zero hPos))
        exact ⟨0, Nat.zero_le _, hBlanks, Or.inr hDot, rfl⟩
    · rw [if_neg hDot]
      by_cases hSpace : char j = 0x20
      · rw [if_pos hSpace]
        dsimp only
        rw [hRest]
        constructor
        · rintro ⟨q, hq, hBlanks, hEnd, rfl⟩
          have hShift : j + 1 + q = j + (q + 1) := by omega
          refine ⟨q + 1, by omega, fun p hp => ?_, ?_, hShift⟩
          · cases p with
            | zero => exact hSpace
            | succ p =>
              have hPlace : j + 1 + p = j + (p + 1) := by omega
              rw [← hPlace]
              exact hBlanks p (by omega)
          · rw [← hShift]
            exact hEnd.imp_left (congrArg (· + 1))
        · rintro ⟨q, hq, hBlanks, hEnd, rfl⟩
          cases q with
          | zero =>
            obtain hNone | hDot' := hEnd
            · cases hNone
            · exact absurd hDot' hDot
          | succ q =>
            have hShift : j + (q + 1) = j + 1 + q := by omega
            rw [hShift] at hEnd
            refine ⟨q, by omega, fun p hp => ?_, hEnd.imp_left Nat.succ.inj, hShift⟩
            have hPlace : j + 1 + p = j + (p + 1) := by omega
            rw [hPlace]
            exact hBlanks (p + 1) (by omega)
      · rw [if_neg hSpace]
        constructor
        · intro h
          cases h
        · rintro ⟨q, hq, hBlanks, hEnd, -⟩
          cases q with
          | zero =>
            obtain hNone | hDot' := hEnd
            · cases hNone
            · exact absurd hDot' hDot
          | succ q => exact absurd (hBlanks 0 (Nat.succ_pos q)) hSpace

/-- The same for a directory. -/
theorem baseLoop_directory (N : List Byte) (behind : Nat → Byte) (hDirectory : e.isDirectory) {xs : List Nat}
    (hBlank : ∀ x ∈ xs, e.dirName x = 0x20) (j : Nat) :
    (∃ j', charLoop (baseChar N.length (searchName N behind).read e) xs j = .done j') ↔
      (xs = [] ∨ j ≤ N.length) ∧
        ∀ p, j ≤ p → p < j + xs.length → p < N.length → (searchName N behind).char p = 0x20 := by
  induction xs generalizing j with
  | nil =>
    constructor
    · rintro -
      refine ⟨Or.inl rfl, fun p hLe hLt => ?_⟩
      rw [List.length_nil] at hLt
      omega
    · rintro -
      exact ⟨j, rfl⟩
  | cons x xs ih =>
    have hRound : baseChar N.length (searchName N behind).read e x j =
        if j < N.length then
          if (searchName N behind).char j = 0x20 then .done (j + 1) else .fail
        else if j = N.length then .done j else .fail := by
      unfold baseChar matchChar Name.read
      simp only [hBlank x List.mem_cons_self, hDirectory, toInt_eq_blank]
      rfl
    have hRest := ih (fun y hy => hBlank y (List.mem_cons_of_mem x hy))
    rw [charLoop, hRound, List.length_cons]
    generalize hChar : (searchName N behind).char = char at *
    by_cases hLt : j < N.length
    · rw [if_pos hLt]
      by_cases hSpace : char j = 0x20
      · rw [if_pos hSpace]
        dsimp only
        rw [hRest]
        constructor
        · rintro ⟨-, hBlanks⟩
          refine ⟨Or.inr (Nat.le_of_lt hLt), fun p hLe hEnd hIn => ?_⟩
          obtain hLater | rfl := Nat.lt_or_eq_of_le hLe
          · exact hBlanks p hLater (by omega) hIn
          · exact hSpace
        · rintro ⟨-, hBlanks⟩
          exact ⟨Or.inr hLt, fun p hLe hEnd hIn => hBlanks p (by omega) (by omega) hIn⟩
      · rw [if_neg hSpace]
        constructor
        · rintro ⟨j', h⟩
          cases h
        · rintro ⟨-, hBlanks⟩
          exact absurd (hBlanks j (Nat.le_refl j) (by omega) hLt) hSpace
    · rw [if_neg hLt]
      by_cases hEq : j = N.length
      · rw [if_pos hEq]
        dsimp only
        rw [hRest]
        constructor
        · rintro -
          exact ⟨Or.inr (Nat.le_of_eq hEq), fun p hLe _ hIn => absurd hIn (by omega)⟩
        · rintro -
          exact ⟨Or.inr (Nat.le_of_eq hEq), fun p hLe _ hIn => absurd hIn (by omega)⟩
      · rw [if_neg hEq]
        constructor
        · rintro ⟨j', h⟩
          cases h
        · rintro ⟨hNone | hLe, -⟩
          · cases hNone
          · omega

open Classical in
theorem extChar_spec (x j : Nat) :
    extChar (searchName N behind).read e x j =
      if ExtFits e.dirNTRes (e.dirName x) ((searchName N behind).char j) then .done (j + 1) else .fail := by
  unfold extChar ExtFits matchChar Name.read
  dsimp only
  generalize e.dirName x = c
  by_cases hLetter : isLetter c
  · rw [if_pos hLetter, if_pos hLetter]
    congr
  · rw [if_neg hLetter, if_neg hLetter]
    by_cases hDigit : isDigit c
    · rw [if_pos hDigit, if_pos (Or.inl hDigit)]
      congr
    · rw [if_neg hDigit]
      by_cases hSpace : c = 0x20
      · rw [if_pos hSpace, if_pos (Or.inr hSpace)]
        congr
      · rw [if_neg hSpace, if_neg (not_or.mpr ⟨hDigit, hSpace⟩)]
        exact (if_neg id).symm

theorem extLoop_iff (xs : List Nat) (j : Nat) :
    (∃ j', charLoop (extChar (searchName N behind).read e) xs j = .done j') ↔
      ∀ (p x : Nat), xs[p]? = some x →
        ExtFits e.dirNTRes (e.dirName x) ((searchName N behind).char (j + p)) := by
  induction xs generalizing j with
  | nil =>
    constructor
    · rintro - p x ⟨⟩
    · rintro -
      exact ⟨j, rfl⟩
  | cons x xs ih =>
    rw [charLoop, extChar_spec]
    by_cases hFits : ExtFits e.dirNTRes (e.dirName x) ((searchName N behind).char j)
    · rw [if_pos hFits]
      dsimp only
      rw [ih]
      constructor
      · intro h p y hy
        cases p with
        | zero =>
          cases hy
          exact hFits
        | succ p =>
          have hPlace : j + (p + 1) = j + 1 + p := by omega
          rw [hPlace]
          exact h p y hy
      · intro h p y hy
        have hPlace : j + 1 + p = j + (p + 1) := by omega
        rw [hPlace]
        exact h (p + 1) y hy
    · rw [if_neg hFits]
      constructor
      · rintro ⟨j', h⟩
        cases h
      · intro h
        exact absurd (h 0 x rfl) hFits

theorem extLoop_three (j : Nat) :
    (∃ j', charLoop (extChar (searchName N behind).read e) [8, 9, 10] j = .done j') ↔
      ∀ x < 3, ExtFits e.dirNTRes (e.dirName (8 + x)) ((searchName N behind).char (j + x)) := by
  rw [extLoop_iff]
  constructor
  · intro h x hx
    refine h x (8 + x) ?_
    obtain rfl | rfl | rfl : x = 0 ∨ x = 1 ∨ x = 2 := by omega
    · rfl
    · rfl
    · rfl
  · intro h p x hAt
    obtain ⟨hp, hx⟩ := List.getElem?_eq_some_iff.mp hAt
    have hLt : p < 3 := hp
    have hPlace : x = 8 + p := by
      rw [← hx]
      obtain rfl | rfl | rfl : p = 0 ∨ p = 1 ∨ p = 2 := by omega
      · rfl
      · rfl
      · rfl
    rw [hPlace]
    exact h p hLt

/-! ## The comparison accepts what fits -/

theorem shortCompare_iff (h : Holds83 e base ext) :
    (∃ j, shortCompare N.length (searchName N behind).read e = .done j) ↔
      Fits e base ext N (searchName N behind).char := by
  have hLength := h.baseLength.2
  have hNames : ∀ x < base.length, e.dirName x = padded base x :=
    fun x hx => h.baseAt x (by omega)
  have hChars : ∀ x < base.length, e.dirName x ≠ 0x20 := by
    intro x hx
    rw [hNames x hx, padded_of_lt hx]
    exact nameChar_ne_blank (h.baseChars _ (List.getElem_mem hx))
  have hBlanks : ∀ x ∈ (List.range (8 - base.length)).map (base.length + ·), e.dirName x = 0x20 := by
    intro x hx
    obtain ⟨y, hy, rfl⟩ := List.mem_map.mp hx
    rw [List.mem_range] at hy
    rw [h.baseAt _ (by omega), padded_of_le (by omega)]
  have hSplit : List.range 8 = List.range base.length ++ (List.range (8 - base.length)).map
    (base.length + ·) := by
    rw [← List.range_add, Nat.add_sub_cancel' hLength]
  unfold shortCompare
  rw [hSplit, charLoop_append, baseLoop_chars hChars]
  by_cases hBase : ∀ x < base.length, BaseFits e.dirNTRes (e.dirName x) N[x]?
  · rw [if_pos hBase]
    dsimp only
    have hNamesFit : ∀ x < base.length, BaseFits e.dirNTRes (padded base x) N[x]? := by
      intro x hx
      rw [← hNames x hx]
      exact hBase x hx
    have hCount : ((List.range (8 - base.length)).map (base.length + ·)).length = 8 - base.length := by
      rw [List.length_map, List.length_range]
    by_cases hDirectory : e.isDirectory
    · have hBlanksIff := baseLoop_directory N behind hDirectory hBlanks base.length
      rw [hCount] at hBlanksIff
      have hEmpty : (List.range (8 - base.length)).map (base.length + ·) = [] ↔ base.length = 8 := by
        rw [List.map_eq_nil_iff, List.range_eq_nil]
        omega
      rw [hEmpty] at hBlanksIff
      constructor
      · rintro ⟨j, hj⟩
        split at hj
        · next j' hDone =>
          obtain ⟨hEnough, hSpaces⟩ := hBlanksIff.mp ⟨j', hDone⟩
          refine ⟨hNamesFit, fun _ => ⟨hEnough, fun p hLe hLt hIn => ?_⟩, fun hFile => absurd hDirectory hFile⟩
          exact hSpaces p hLe (by omega) hIn
        · cases hj
        · cases hj
      · intro hFits
        obtain ⟨hEnough, hSpaces⟩ := hFits.directory hDirectory
        obtain ⟨j, hDone⟩ := hBlanksIff.mpr ⟨hEnough, fun p hLe hLt hIn => hSpaces p hLe (by omega) hIn⟩
        rw [hDone]
        exact ⟨j, if_pos hDirectory⟩
    · have hBlanksIff := baseLoop_file N behind hDirectory hBlanks base.length
      rw [hCount] at hBlanksIff
      constructor
      · rintro ⟨j, hj⟩
        split at hj
        · next j' hDone =>
          rw [if_neg hDirectory] at hj
          obtain ⟨q, hq, hSpaces, hEnd, rfl⟩ := (hBlanksIff j').mp hDone
          have hExt := (extLoop_three _).mp ⟨j, hj⟩
          refine ⟨hNamesFit, fun hDir => absurd hDir hDirectory, fun _ => ⟨q, by omega, hSpaces, ?_, ?_⟩⟩
          · exact hEnd.imp_left fun hEq => by omega
          · intro x hx
            rw [← h.extAt x hx]
            exact hExt x hx
        · cases hj
        · cases hj
      · intro hFits
        obtain ⟨q, hq, hSpaces, hEnd, hExt⟩ := hFits.file hDirectory
        have hDone := (hBlanksIff _).mpr ⟨q, by omega, hSpaces, hEnd.imp_left fun hEq => by omega, rfl⟩
        rw [hDone]
        dsimp only
        rw [if_neg hDirectory]
        refine (extLoop_three _).mpr fun x hx => ?_
        rw [h.extAt x hx]
        exact hExt x hx
  · rw [if_neg hBase]
    constructor
    · rintro ⟨j, hj⟩
      cases hj
    · intro hFits
      refine absurd (fun x hx => ?_) hBase
      rw [hNames x hx]
      exact hFits.baseFits x hx

end

/-! ## The entry's own name -/

/-- The comparison finds the entry by its own name. -/
structure Findable (e : Entry) (base ext : List Byte) (behind : Nat → Byte) : Prop where
  caseBase : ∀ c ∈ base, isLower c → e.dirNTRes &&& lowercaseBase = 0
  file : ¬ e.isDirectory →
    (ext.length = 3 ∧ ∀ c ∈ ext, (isLetter c ∨ isDigit c) ∧ (isLower c → e.dirNTRes &&& lowercaseExt = 0)) ∨
    (ext = [] ∧ base.length = 8 ∧ ∀ x < 3, behind (9 + x) = 0x20)

section
variable {flags flag c : Byte}

theorem isLetter_iff : isLetter c ↔ (0x41 ≤ c.toNat ∧ c.toNat ≤ 0x5a) ∨ (0x61 ≤ c.toNat ∧ c.toNat ≤ 0x7a) := by
  simp [isLetter, BitVec.le_def]

theorem isDigit_iff : isDigit c ↔ 0x30 ≤ c.toNat ∧ c.toNat ≤ 0x39 := by
  simp [isDigit, BitVec.le_def]

theorem isLower_iff : isLower c ↔ 0x61 ≤ c.toNat ∧ c.toNat ≤ 0x7a := by
  simp [isLower, BitVec.le_def]

theorem isUpper_iff : 0x41 ≤ c ∧ c ≤ 0x5a ↔ 0x41 ≤ c.toNat ∧ c.toNat ≤ 0x5a := by
  simp [BitVec.le_def]

theorem toInt_ascii (h : c.toNat < 128) : c.toInt = c.toNat :=
  BitVec.toInt_eq_toNat_of_lt (by omega)

theorem lowered_letter (h : isLetter c) :
    (lowered flags flag c).toInt = foldCase flags flag c ↔ (isLower c → flags &&& flag = 0) := by
  rw [isLetter_iff] at h
  rw [isLower_iff]
  unfold lowered foldCase
  by_cases hSet : flags &&& flag = 0
  · have hSame : ¬ (flags &&& flag ≠ 0 ∧ 0x41 ≤ c ∧ c ≤ 0x5a) := fun hBoth => hBoth.1 hSet
    rw [if_neg hSame, if_neg (not_not.mpr hSet), toInt_ascii (by omega)]
    simp [hSet]
  · rw [if_pos hSet]
    by_cases hUpper : 0x41 ≤ c ∧ c ≤ 0x5a
    · have hBounds := isUpper_iff.mp hUpper
      have hSum : (c + 32).toNat = c.toNat + 32 := by
        rw [BitVec.toNat_add]
        simp
        omega
      rw [if_pos ⟨hSet, hUpper⟩, toInt_ascii (by omega), hSum]
      constructor
      · intro _ hLower
        omega
      · intro _
        exact Int.natCast_add _ _
    · have hBounds : ¬ (0x41 ≤ c.toNat ∧ c.toNat ≤ 0x5a) := fun hIs => hUpper (isUpper_iff.mpr hIs)
      rw [if_neg fun hBoth => hUpper hBoth.2, toInt_ascii (by omega)]
      constructor
      · intro hEq
        omega
      · intro hCase
        exact absurd (hCase (by omega)) hSet

theorem lowered_other (h : ¬ isLetter c) : lowered flags flag c = c := by
  rw [isLetter_iff] at h
  refine if_neg fun hUpper => h ?_
  have hBounds := isUpper_iff.mp hUpper.2
  omega

theorem baseFits_lowered :
    BaseFits flags c (some (lowered flags lowercaseBase c)) ↔ (isLower c → flags &&& lowercaseBase = 0) := by
  unfold BaseFits
  by_cases hLetter : isLetter c
  · rw [if_pos hLetter, ← lowered_letter hLetter]
    simp
  · have hNotLower : ¬ isLower c := by
      rw [isLetter_iff] at hLetter
      rw [isLower_iff]
      omega
    rw [if_neg hLetter, lowered_other hLetter]
    by_cases hDigit : isDigit c
    · rw [if_pos hDigit]
      rw [isDigit_iff] at hDigit
      simp [hNotLower, toInt_ascii (c := c) (by omega)]
    · rw [if_neg hDigit]
      simp [hNotLower]

theorem extFits_lowered (hName : NameChar c) :
    ExtFits flags c (lowered flags lowercaseExt c) ↔
      (isLetter c ∨ isDigit c) ∧ (isLower c → flags &&& lowercaseExt = 0) := by
  unfold ExtFits
  by_cases hLetter : isLetter c
  · rw [if_pos hLetter, lowered_letter hLetter]
    simp [hLetter]
  · have hNotLower : ¬ isLower c := by
      rw [isLetter_iff] at hLetter
      rw [isLower_iff]
      omega
    rw [if_neg hLetter, lowered_other hLetter]
    by_cases hDigit : isDigit c
    · rw [if_pos (Or.inl hDigit)]
      have hBounds := isDigit_iff.mp hDigit
      simp [hDigit, hNotLower, toInt_ascii (c := c) (by omega)]
    · rw [if_neg (not_or.mpr ⟨hDigit, nameChar_ne_blank hName⟩)]
      simp [hLetter, hDigit]

theorem extFits_blank {b : Byte} : ExtFits flags 0x20 b ↔ b = 0x20 := by
  have hNotLetter : ¬ isLetter 0x20 := by decide
  unfold ExtFits
  rw [if_neg hNotLetter, if_pos (Or.inr rfl)]
  exact toInt_eq_blank

end

section
variable {e : Entry} {base ext : List Byte} {behind : Nat → Byte}

theorem length_shortName : (shortName e base ext).length =
    base.length + if ext = [] then 0 else 1 + ext.length := by
  unfold shortName
  rw [List.length_append, List.length_map]
  split
  · rfl
  · rw [List.length_cons, List.length_map, Nat.add_comm 1]

theorem shortName_base {x : Nat} (hx : x < base.length) :
    (shortName e base ext)[x]? = some (lowered e.dirNTRes lowercaseBase (padded base x)) := by
  have hMap : x < (base.map (lowered e.dirNTRes lowercaseBase)).length := by
    rw [List.length_map]
    exact hx
  unfold shortName
  rw [List.getElem?_append_left hMap, List.getElem?_map, List.getElem?_eq_getElem hx, padded_of_lt hx]
  rfl

theorem shortName_dot (hExt : ext ≠ []) : (shortName e base ext)[base.length]? = some 0x2e := by
  unfold shortName
  rw [if_neg hExt, List.getElem?_append_right (by simp), List.length_map, Nat.sub_self]
  rfl

theorem shortName_ext {x : Nat} (hx : x < ext.length) :
    (shortName e base ext)[base.length + 1 + x]? =
      some (lowered e.dirNTRes lowercaseExt (padded ext x)) := by
  have hExt : ext ≠ [] := List.ne_nil_of_length_pos (Nat.zero_lt_of_lt hx)
  have hIndex : base.length + 1 + x - base.length = x + 1 := by omega
  unfold shortName
  rw [if_neg hExt, List.getElem?_append_right (by rw [List.length_map]; omega), List.length_map, hIndex,
    List.getElem?_cons_succ, List.getElem?_map, List.getElem?_eq_getElem hx, padded_of_lt hx]
  rfl

theorem char_of_get {N : List Byte} {x : Nat} {c : Byte} (h : N[x]? = some c) :
    (searchName N behind).char x = c := by
  simp [searchName, h]

theorem char_length (N : List Byte) : (searchName N behind).char N.length = 0 := by
  simp [searchName]

theorem char_behind {N : List Byte} {x : Nat} (h : N.length < x) :
    (searchName N behind).char x = behind x := by
  have hNone : N[x]? = none := List.getElem?_eq_none (Nat.le_of_lt h)
  have hNe : x ≠ N.length := by omega
  simp [searchName, hNone, hNe]

theorem baseFits_self :
    (∀ x < base.length, BaseFits e.dirNTRes (padded base x) (shortName e base ext)[x]?) ↔
      ∀ c ∈ base, isLower c → e.dirNTRes &&& lowercaseBase = 0 := by
  constructor
  · intro hFits c hc
    obtain ⟨x, hx, rfl⟩ := List.getElem_of_mem hc
    have hHere := hFits x hx
    rw [shortName_base hx, baseFits_lowered, padded_of_lt hx] at hHere
    exact hHere
  · intro hCase x hx
    rw [shortName_base hx, baseFits_lowered, padded_of_lt hx]
    exact hCase _ (List.getElem_mem hx)

/-- A file without an extension: behind a base name of eight characters the comparison looks at the
bytes behind the terminator. -/
theorem fits_file_noExt :
    (∃ q, base.length + q ≤ 8 ∧
      (∀ p < q, (searchName (shortName e base []) behind).char (base.length + p) = 0x20) ∧
      (base.length + q = 8 ∨ (searchName (shortName e base []) behind).char (base.length + q) = 0x2e) ∧
      ∀ x < 3, ExtFits e.dirNTRes (padded [] x)
        ((searchName (shortName e base []) behind).char (base.length + q + 1 + x))) ↔
      base.length = 8 ∧ ∀ x < 3, behind (9 + x) = 0x20 := by
  have hLength : (shortName e base []).length = base.length := length_shortName
  have hEnd : (searchName (shortName e base []) behind).char base.length = 0 := by
    rw [← hLength]
    exact char_length _
  have hBlank : ∀ x, padded ([] : List Byte) x = 0x20 := fun x => padded_of_le (Nat.zero_le x)
  constructor
  · rintro ⟨q, hq, hSpaces, hStop, hExt⟩
    obtain rfl : q = 0 := by
      by_contra hPos
      have hFirst := hSpaces 0 (Nat.pos_of_ne_zero hPos)
      rw [Nat.add_zero, hEnd] at hFirst
      exact absurd hFirst (by decide)
    obtain hFull | hDot := hStop
    · rw [Nat.add_zero] at hFull
      refine ⟨hFull, fun x hx => ?_⟩
      have hHere := hExt x hx
      rw [hBlank, extFits_blank, Nat.add_zero, char_behind (by omega), hFull] at hHere
      exact hHere
    · rw [Nat.add_zero, hEnd] at hDot
      exact absurd hDot (by decide)
  · rintro ⟨hFull, hBehind⟩
    refine ⟨0, by omega, fun p hp => absurd hp (Nat.not_lt_zero p), Or.inl hFull, fun x hx => ?_⟩
    rw [hBlank, extFits_blank, Nat.add_zero, char_behind (by omega), hFull]
    exact hBehind x hx

/-- A file with an extension: the comparison wants all three characters. -/
theorem fits_file_ext (h : Holds83 e base ext) (hExt : ext ≠ []) :
    (∃ q, base.length + q ≤ 8 ∧
      (∀ p < q, (searchName (shortName e base ext) behind).char (base.length + p) = 0x20) ∧
      (base.length + q = 8 ∨ (searchName (shortName e base ext) behind).char (base.length + q) = 0x2e) ∧
      ∀ x < 3, ExtFits e.dirNTRes (padded ext x)
        ((searchName (shortName e base ext) behind).char (base.length + q + 1 + x))) ↔
      ext.length = 3 ∧
        ∀ c ∈ ext, (isLetter c ∨ isDigit c) ∧ (isLower c → e.dirNTRes &&& lowercaseExt = 0) := by
  have hLength : (shortName e base ext).length = base.length + 1 + ext.length := by
    rw [length_shortName, if_neg hExt]
    omega
  have hDot : (searchName (shortName e base ext) behind).char base.length = 0x2e :=
    char_of_get (shortName_dot hExt)
  have hChar : ∀ x (hx : x < ext.length),
      ExtFits e.dirNTRes (padded ext x)
        ((searchName (shortName e base ext) behind).char (base.length + 0 + 1 + x)) ↔
        (isLetter ext[x] ∨ isDigit ext[x]) ∧ (isLower ext[x] → e.dirNTRes &&& lowercaseExt = 0) := by
    intro x hx
    rw [Nat.add_zero, char_of_get (shortName_ext hx), padded_of_lt hx]
    exact extFits_lowered (h.extChars _ (List.getElem_mem hx))
  constructor
  · rintro ⟨q, hq, hSpaces, -, hFits⟩
    obtain rfl : q = 0 := by
      by_contra hPos
      have hFirst := hSpaces 0 (Nat.pos_of_ne_zero hPos)
      rw [Nat.add_zero, hDot] at hFirst
      exact absurd hFirst (by decide)
    have hThree : ext.length = 3 := by
      by_contra hNot
      have hShort : ext.length < 3 := by
        have hMost := h.extLength
        omega
      have hEnd := hFits ext.length hShort
      have hPlace : base.length + 0 + 1 + ext.length = (shortName e base ext).length := by omega
      rw [padded_of_le (Nat.le_refl _), extFits_blank, hPlace, char_length] at hEnd
      exact absurd hEnd (by decide)
    refine ⟨hThree, fun c hc => ?_⟩
    obtain ⟨x, hx, rfl⟩ := List.getElem_of_mem hc
    exact (hChar x hx).mp (hFits x (by omega))
  · rintro ⟨hThree, hChars⟩
    have hFull := h.baseLength.2
    refine ⟨0, by omega, fun p hp => absurd hp (Nat.not_lt_zero p), Or.inr hDot, fun x hx => ?_⟩
    exact (hChar x (by omega)).mpr (hChars _ (List.getElem_mem _))

/-- What of the pattern the entry's own name meets. -/
theorem fits_self (h : Holds83 e base ext) :
    Fits e base ext (shortName e base ext) (searchName (shortName e base ext) behind).char ↔
      Findable e base ext behind := by
  constructor
  · intro hFits
    refine ⟨baseFits_self.mp hFits.baseFits, fun hFile => ?_⟩
    by_cases hExt : ext = []
    · subst hExt
      obtain ⟨hFull, hBehind⟩ := fits_file_noExt.mp (hFits.file hFile)
      exact Or.inr ⟨rfl, hFull, hBehind⟩
    · exact Or.inl ((fits_file_ext h hExt).mp (hFits.file hFile))
  · intro hFind
    have hBase := hFind.caseBase
    refine ⟨baseFits_self.mpr hBase, fun hDirectory => ?_, fun hFile => ?_⟩
    · have hExt := h.directory hDirectory
      have hLength : (shortName e base ext).length = base.length := by
        rw [length_shortName, if_pos hExt, Nat.add_zero]
      refine ⟨Or.inr (Nat.le_of_eq hLength.symm), fun p hLe _ hLt => ?_⟩
      omega
    · obtain ⟨hThree, hChars⟩ | ⟨rfl, hFull, hBehind⟩ := hFind.file hFile
      · have hExt : ext ≠ [] := List.ne_nil_of_length_pos (by omega)
        exact (fits_file_ext h hExt).mpr ⟨hThree, hChars⟩
      · exact fits_file_noExt.mpr ⟨hFull, hBehind⟩

/-! ## Equality -/

theorem longLoop_short {length fuel : Nat} {read : Nat → Option Byte} {buf : Int → Entry} {pos : Int} {j : Nat}
    (hShort : ¬ (buf pos).isLong) : longLoop length read buf (fuel + 1) pos j = (.short, [pos]) := by
  rw [longLoop, if_neg hShort]

/-- Without long entries before it, an entry is accepted as its short name is. -/
theorem compareEntry_short {N : List Byte} {buf : Int → Entry} {i : Int} (hShort : ¬ (buf (i - 1)).isLong) :
    (compareEntry N.length (searchName N behind).read buf i).1 = .accept ↔
      ∃ j, shortCompare N.length (searchName N behind).read (buf i) = .done j := by
  unfold compareEntry
  rw [longLoop_short hShort]
  dsimp only
  cases shortCompare N.length (searchName N behind).read (buf i) with
  | done j => simp
  | fail => simp
  | stuck => simp

end

/-- The comparison accepts the search name if and only if it is the entry's own. -/
def ExactShort (buf : Int → Entry) (i : Int) (base ext N : List Byte) (behind : Nat → Byte) : Prop :=
  (compareEntry N.length (searchName N behind).read buf i).1 = .accept ↔ N = shortName (buf i) base ext

/-- The comparison is equality for the names for which the entry is found by its own name, and for the
other names that do not fit the pattern. -/
theorem shortName_exact_iff (buf : Int → Entry) (i : Int) (base ext N : List Byte) (behind : Nat → Byte)
    (hHolds : Holds83 (buf i) base ext) (hShort : ¬ (buf (i - 1)).isLong) :
    ExactShort buf i base ext N behind ↔
      (N = shortName (buf i) base ext → Findable (buf i) base ext behind) ∧
      (N ≠ shortName (buf i) base ext → ¬ Fits (buf i) base ext N (searchName N behind).char) := by
  unfold ExactShort
  rw [compareEntry_short hShort, shortCompare_iff hHolds]
  by_cases hOwn : N = shortName (buf i) base ext
  · subst hOwn
    rw [fits_self hHolds]
    simp
  · simp [hOwn]

/-! ## A file without an extension -/

/-- `README`, an archive file. -/
def readme : List Byte := [0x52, 0x45, 0x41, 0x44, 0x4d, 0x45]

def readmeBuffer (pos : Int) : Entry :=
  if pos = 0 then fun x => (readme ++ List.replicate 6 0x20).getD x 0 else fun _ => 0

theorem holds_readme : Holds83 (readmeBuffer 0) readme [] where
  baseAt := by decide
  extAt := by decide
  baseLength := by decide
  extLength := by decide
  directory := fun _ => rfl
  baseChars := by
    unfold NameChar
    decide
  extChars := by
    intro c hc
    cases hc

/-- The same name with an extension. -/
def txt : List Byte := [0x54, 0x58, 0x54]

def readmeTxtBuffer (pos : Int) : Entry :=
  if pos = 0 then fun x => (readme ++ [0x20, 0x20] ++ txt ++ [0x20]).getD x 0 else fun _ => 0

theorem holds_readmeTxt : Holds83 (readmeTxtBuffer 0) readme txt where
  baseAt := by decide
  extAt := by decide
  baseLength := by decide
  extLength := by decide
  directory := by decide
  baseChars := by
    unfold NameChar
    decide
  extChars := by
    unfold NameChar
    decide

theorem findable_readmeTxt (behind : Nat → Byte) : Findable (readmeTxtBuffer 0) readme txt behind where
  caseBase := by decide
  file := fun _ => Or.inl (by decide)

/-- `README.TXT` is found by its name, and `README` is not. -/
theorem shortName_exact_iff_readme :
    ExactShort readmeTxtBuffer 0 readme txt (shortName (readmeTxtBuffer 0) readme txt) (fun _ => 0) ∧
      ¬ ExactShort readmeBuffer 0 readme [] readme (fun _ => 0) := by
  constructor
  · apply (shortName_exact_iff readmeTxtBuffer 0 readme txt _ (fun _ => 0) holds_readmeTxt (by decide)).mpr
    exact ⟨fun _ => findable_readmeTxt _, fun hNe => absurd rfl hNe⟩
  · intro hExact
    have hBoth := (shortName_exact_iff readmeBuffer 0 readme [] readme (fun _ => 0) holds_readme (by decide)).mp
      hExact
    obtain ⟨hLength, -⟩ | ⟨-, hLength, -⟩ := (hBoth.1 (by decide)).file (by decide)
    · cases hLength
    · cases hLength

/-- `README` is not found by its name. -/
theorem shortName_missed : ¬ ∀ (buf : Int → Entry) (i : Int) (base ext N : List Byte) (behind : Nat → Byte),
    ¬ (buf i).skipped → Holds83 (buf i) base ext → ¬ (buf (i - 1)).isLong →
    ExactShort buf i base ext N behind := by
  intro h
  have hExact := h readmeBuffer 0 readme [] readme (fun _ => 0) (by decide) holds_readme (by decide)
  have hReject : (compareEntry 6 (searchName readme fun _ => 0).read readmeBuffer 0).1 = .fail := by
    decide
  have hAccept := hExact.mpr (by decide)
  exact absurd (hReject.symm.trans hAccept) (by decide)

end KalinoteOS.Fat32
