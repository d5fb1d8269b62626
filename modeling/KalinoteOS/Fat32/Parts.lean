import KalinoteOS.Fat32.Compare
import Mathlib.Data.List.Basic

/-! # The walk over the entries of a long name

The loop goes to the front, entry by entry, as long as these hold the parts of the search name. One
inversion lemma says where it stops and why.
-/
namespace KalinoteOS.Fat32
open Lib
set_option autoImplicit false

/-- What a long entry has to hold at the position `p` of the name. -/
def Name.unit (n : Name) (p : Nat) : Nat :=
  if p ≤ n.length then ((n.char p).signExtend 16).toNat else 0xffff

/-- The units from `p` on, `m` of them. -/
def Name.units (n : Name) : Nat → Nat → List Nat
  | _, 0 => []
  | p, m + 1 => n.unit p :: n.units (p + 1) m

/-- The entries that the name takes; one at least is compared. -/
def Name.parts (n : Name) : Nat := max 1 ((n.length + 12) / 13)

/-- The entry `k` in front of the live entry at `i` is a long one with the part `k` of the name. -/
structure PartAt (buf : Int → Entry) (i : Int) (n : Name) (k : Nat) : Prop where
  long : (buf (i - 1 - k)).isLong = true
  units : (buf (i - 1 - k)).longUnits = n.units (13 * k) 13

/-- The reader gives the characters of the name and its terminator. -/
def Name.ReadBy (n : Name) (read : Nat → Option Byte) : Prop := ∀ j ≤ n.length, read j = some (n.char j)

theorem Name.readBy_read (n : Name) : n.ReadBy n.read := fun _ _ => rfl

section
variable {n : Name} {read : Nat → Option Byte} {buf : Int → Entry} {i : Int}

theorem length_longUnits (e : Entry) : e.longUnits.length = 13 := by
  simp [Entry.longUnits]

/-- The loop over the units from position `p` on; the index stays behind the terminator. -/
theorem compareUnits_eq (hRead : n.ReadBy read) (us : List Nat) (p : Nat) :
    compareUnits n.length read us (min p (n.length + 1)) =
      if us = n.units p us.length then .done (min (p + us.length) (n.length + 1)) else .fail := by
  induction us generalizing p with
  | nil => rfl
  | cons u us ih =>
    have hNext := ih (p + 1)
    have hShift : p + 1 + us.length = p + (us.length + 1) := by omega
    rw [hShift] at hNext
    have hCons : (u :: us = n.units p (us.length + 1)) ↔
        u = n.unit p ∧ us = n.units (p + 1) us.length := List.cons_eq_cons
    rw [compareUnits, List.length_cons, if_congr hCons rfl rfl]
    by_cases hLe : p ≤ n.length
    · have hIndex : min p (n.length + 1) = p := by omega
      have hAfter : min (p + 1) (n.length + 1) = p + 1 := by omega
      have hUnit : n.unit p = ((n.char p).signExtend 16).toNat := if_pos hLe
      rw [hAfter] at hNext
      rw [hIndex, if_neg (by omega), if_neg (by omega), hRead p hLe]
      dsimp only
      rw [← hUnit, hNext]
      by_cases hu : u = n.unit p
      · simp [hu]
      · simp [hu]
    · have hIndex : min p (n.length + 1) = n.length + 1 := by omega
      have hAfter : min (p + 1) (n.length + 1) = n.length + 1 := by omega
      have hUnit : n.unit p = 0xffff := if_neg hLe
      rw [hAfter] at hNext
      rw [hIndex, hNext, hUnit]
      by_cases hu : u = 0xffff
      · simp [hu]
      · simp [hu]

/-- Why the loop stops at the entry `m` in front. -/
inductive StopsAt (buf : Int → Entry) (i : Int) (n : Name) (m : Nat) : Verdict → Prop where
  | accept (hLast : m + 1 = n.parts) (hPart : PartAt buf i n m) : StopsAt buf i n m .accept
  | fail (hLong : (buf (i - 1 - m)).isLong = true) (hOther : ¬ PartAt buf i n m) : StopsAt buf i n m .fail
  | short (hShort : (buf (i - 1 - m)).isLong = false) : StopsAt buf i n m .short

/-- The loop, from the part `k` on: it stops at `m`, behind parts that all are there. -/
structure StopsFrom (buf : Int → Entry) (i : Int) (n : Name) (k m : Nat) (out : Verdict × List Int) :
    Prop where
  fromPart : k ≤ m
  inName : m < n.parts
  before : ∀ k', k ≤ k' → k' < m → PartAt buf i n k'
  stops : StopsAt buf i n m out.1
  places : ∀ p, p ∈ out.2 ↔ ∃ k', k ≤ k' ∧ k' ≤ m ∧ p = i - 1 - (k' : Int)

theorem place_self {k : Nat} (p : Int) : p ∈ [i - 1 - (k : Int)] ↔ ∃ k', k ≤ k' ∧ k' ≤ k ∧
    p = i - 1 - (k' : Int) := by
  rw [List.mem_singleton]
  constructor
  · intro hp
    exact ⟨k, Nat.le_refl k, Nat.le_refl k, hp⟩
  · rintro ⟨k', hLow, hHigh, hp⟩
    rw [hp, Nat.le_antisymm hHigh hLow]

theorem StopsFrom.here {k : Nat} {v : Verdict} (hIn : k < n.parts) (hStops : StopsAt buf i n k v) :
    StopsFrom buf i n k k (v, [i - 1 - (k : Int)]) where
  fromPart := Nat.le_refl k
  inName := hIn
  before := fun k' hLow hHigh => absurd hHigh (by omega)
  stops := hStops
  places := place_self

theorem StopsFrom.cons {k m : Nat} {out : Verdict × List Int} (hPart : PartAt buf i n k)
    (h : StopsFrom buf i n (k + 1) m out) :
    StopsFrom buf i n k m (out.1, (i - 1 - (k : Int)) :: out.2) where
  fromPart := Nat.le_of_succ_le h.fromPart
  inName := h.inName
  before := by
    intro k' hLow hHigh
    obtain hLater | rfl := Nat.lt_or_eq_of_le hLow
    · exact h.before k' hLater hHigh
    · exact hPart
  stops := h.stops
  places := by
    intro p
    have hFrom := h.fromPart
    rw [List.mem_cons, h.places]
    constructor
    · rintro (hp | ⟨k', hLow, hHigh, hp⟩)
      · exact ⟨k, Nat.le_refl k, by omega, hp⟩
      · exact ⟨k', by omega, hHigh, hp⟩
    · rintro ⟨k', hLow, hHigh, hp⟩
      obtain hLater | rfl := Nat.lt_or_eq_of_le hLow
      · exact Or.inr ⟨k', hLater, hHigh, hp⟩
      · exact Or.inl hp

theorem longLoop_stops (hRead : n.ReadBy read) (buf : Int → Entry) (i : Int) {fuel k : Nat} (hIn : k < n.parts)
    (hFuel : n.parts ≤ k + fuel) :
    ∃ m, StopsFrom buf i n k m (longLoop n.length read buf fuel (i - 1 - k) (min (13 * k) (n.length + 1))) := by
  induction fuel generalizing k with
  | zero => omega
  | succ fuel ih =>
    have hUnits := compareUnits_eq hRead (buf (i - 1 - k)).longUnits (13 * k)
    rw [length_longUnits] at hUnits
    rw [longLoop, hUnits]
    split
    · next hLong =>
      by_cases hEq : (buf (i - 1 - k)).longUnits = n.units (13 * k) 13
      · have hPart : PartAt buf i n k := ⟨hLong, hEq⟩
        rw [if_pos hEq]
        dsimp only
        have hParts : n.parts = max 1 ((n.length + 12) / 13) := rfl
        split
        · next hEnd => exact ⟨k, StopsFrom.here hIn (StopsAt.accept (by omega) hPart)⟩
        · next hLater =>
          have hPlace : i - 1 - (k : Int) - 1 = i - 1 - ((k + 1 : Nat) : Int) := by omega
          obtain ⟨m, hm⟩ := ih (k := k + 1) (by omega) (by omega)
          have hIndex : 13 * k + 13 = 13 * (k + 1) := by omega
          rw [hPlace, hIndex]
          exact ⟨m, hm.cons hPart⟩
      · rw [if_neg hEq]
        exact ⟨k, StopsFrom.here hIn (StopsAt.fail hLong fun hPart => hEq hPart.units)⟩
    · next hShort => exact ⟨k, StopsFrom.here hIn (StopsAt.short ((Bool.not_eq_true _).mp hShort))⟩

theorem longLoop_from (hRead : n.ReadBy read) (buf : Int → Entry) (i : Int) :
    ∃ m, StopsFrom buf i n 0 m (longLoop n.length read buf (n.length + 1) (i - 1) 0) := by
  have hParts : n.parts = max 1 ((n.length + 12) / 13) := rfl
  have hIndex : min (13 * 0) (n.length + 1) = 0 := by omega
  have hPlace : i - 1 - ((0 : Nat) : Int) = i - 1 := by omega
  have hIn : 0 < n.parts := by omega
  have hFuel : n.parts ≤ 0 + (n.length + 1) := by omega
  have hStops := longLoop_stops hRead buf i hIn hFuel
  rw [hIndex, hPlace] at hStops
  exact hStops

theorem StopsFrom.ne_stuck {k m : Nat} {out : Verdict × List Int} (h : StopsFrom buf i n k m out) :
    out.1 ≠ .stuck := by
  have hStops := h.stops
  cases hVerdict : out.1 with
  | accept => exact nofun
  | fail => exact nofun
  | short => exact nofun
  | stuck =>
    rw [hVerdict] at hStops
    cases hStops

theorem StopsFrom.accept_iff {m : Nat} {out : Verdict × List Int} (h : StopsFrom buf i n 0 m out) :
    out.1 = .accept ↔ ∀ k < n.parts, PartAt buf i n k := by
  have hStops := h.stops
  generalize out.1 = v at hStops
  cases hStops with
  | accept hLast hPart =>
    refine ⟨fun _ k hk => ?_, fun _ => rfl⟩
    obtain hLt | hGe := Nat.lt_or_ge k m
    · exact h.before k (Nat.zero_le k) hLt
    · obtain rfl : k = m := by omega
      exact hPart
  | fail hLong hOther => exact ⟨fun hEq => (by cases hEq), fun hAll => absurd (hAll m h.inName) hOther⟩
  | short hShort =>
    refine ⟨fun hEq => (by cases hEq), fun hAll => ?_⟩
    rw [(hAll m h.inName).long] at hShort
    cases hShort

end

end KalinoteOS.Fat32
