import KalinoteOS.Printk.Number

/-! # The layout of a number

As long as `size` does not overflow, the four loops that count it down put the padding in one place:
in front of everything, between the prefix and the digits, or behind them.
-/
namespace KalinoteOS.Vsprintf
open Lib
set_option autoImplicit false

/-- The parts of a printed number in their order. -/
structure Layout where
  before : Nat
  sign : List Byte
  special : List Byte
  zeros : Nat
  digits : List Byte
  after : Nat

namespace Layout

/-- The places of the number, with its leading zeros. -/
def places (l : Layout) : List Byte := List.replicate l.zeros (ch '0') ++ l.digits

def text (l : Layout) : List Byte :=
  List.replicate l.before (ch ' ') ++ l.sign ++ l.special ++ l.places ++ List.replicate l.after (ch ' ')

end Layout

/-- The value that is printed: the magnitude where `SIGN` is set, `num` as unsigned otherwise. -/
def printedValue (num : Word) (type : Flags) : Nat :=
  if type.sign then num.toInt.natAbs else num.toNat

structure Layout.Meets (l : Layout) (num : Word) (base : Nat) (size precision : Int) (type : Flags) :
    Prop where
  sign : l.sign =
    if type.sign = true ∧ num.toInt < 0 then [ch '-']
    else if type.plus then [ch '+'] else if type.space then [ch ' '] else []
  special : l.special =
    if type.special then
      if base = 8 then [ch '0'] else if base = 16 then [ch '0', if type.small then ch 'x' else ch 'X'] else []
    else []
  digits : ∀ c ∈ l.digits, ∃ d < base, c = Vsprintf.digits type.small d
  count : l.digits.length = max 1 (Nat.digits base (printedValue num type)).length
  value : readDigits base l.places = printedValue num type
  places : max 1 precision ≤ l.places.length
  leading : 0 < l.before → type.left = false ∧ type.zeropad = false
  trailing : 0 < l.after → type.left = true
  unpadded : (type.left = true ∨ type.zeropad = false) → (l.places.length : Int) = max precision l.digits.length
  length : (l.text.length : Int) =
    max size (l.sign.length + l.special.length + max precision l.digits.length)

namespace number

/-- What the field holds without padding. -/
def needed (num : Word) (base : Nat) (precision : Int) (type : Flags) : Int :=
  (sign num type).length + (special base type).length + max precision (tmp num base type).length

/-- The loops that count `size` down: the last one is always run, the others by the flags. -/
def sizeLoops (type : Flags) : Int := if type.left then 1 else if type.zeropad then 2 else 3

end number

/-- No `int` of `number` overflows: neither argument, nor `size` when it has been counted down. -/
structure NoOverflow (num : Word) (base : Nat) (size precision : Int) (type : Flags) : Prop where
  sizeHigh : size < 2 ^ 31
  precisionHigh : precision < 2 ^ 31
  counted : -2 ^ 31 ≤ size - number.needed num base precision type - number.sizeLoops type

/-! ## Counting `size` down -/

theorem countDown_zero {n : Int} (hLow : -2 ^ 31 < n) (hHigh : n < 2 ^ 31) :
    countDown 0 n = (n.toNat, min n 0 - 1) := by
  unfold countDown
  rw [Int.sub_zero]
  congr 1
  split
  · omega
  · rw [int_eq (by omega) (by omega)]
    omega

/-- A loop that is left at once. -/
theorem countDown_past {n : Int} (hLow : -2 ^ 31 < n) (hPast : n ≤ 0) : countDown 0 n = (0, n - 1) := by
  rw [countDown_zero hLow (by omega), Int.toNat_of_nonpos hPast, min_eq_left hPast]

namespace number

section
variable (num : Word) (base : Nat) (type : Flags)

theorem length_sign_le : (sign num type).length ≤ 1 := by
  unfold sign
  repeat' split
  all_goals simp

theorem length_special : (special base type).length =
    if type.special then if base = 16 then 2 else if base = 8 then 1 else 0 else 0 := by
  unfold special
  split
  · by_cases hOct : base = 8
    · simp [hOct]
    · by_cases hHex : base = 16
      · simp [hHex]
      · simp [hOct, hHex]
  · rfl

theorem tmp_length_pos (hBase : 1 < base) : 0 < (tmp num base type).length := by
  rw [tmp_eq num base type hBase]
  split
  · exact Nat.zero_lt_one
  · next hNe =>
    rw [List.length_map]
    exact List.length_pos_of_ne_nil (Nat.digits_ne_nil_iff_ne_zero.mpr hNe)

end

section
variable {num : Word} {base : Nat} {size precision : Int} {type : Flags}

theorem size_sign (hLow : -2 ^ 31 ≤ size - (sign num type).length) (hHigh : size < 2 ^ 31) :
    (if sign num type = [] then size else int (size - 1)) = size - (sign num type).length := by
  have hLe := length_sign_le num type
  split
  · next hNil =>
    rw [hNil]
    exact (Int.sub_zero size).symm
  · next hNe =>
    have hPos := List.length_pos_of_ne_nil hNe
    have hOne : (sign num type).length = 1 := by omega
    rw [hOne] at hLow ⊢
    exact int_eq hLow (by omega)

theorem size_special (hLow : -2 ^ 31 ≤ size - (special base type).length) (hHigh : size < 2 ^ 31) :
    (if type.special then if base = 16 then int (size - 2) else if base = 8 then int (size - 1) else size
      else size) = size - (special base type).length := by
  rw [length_special] at hLow ⊢
  split
  · next hSpecial =>
    rw [if_pos hSpecial] at hLow
    split
    · next hHex =>
      rw [if_pos hHex] at hLow
      exact int_eq hLow (by omega)
    · next hHex =>
      rw [if_neg hHex] at hLow
      split
      · next hOct =>
        rw [if_pos hOct] at hLow
        exact int_eq hLow (by omega)
      · exact (Int.sub_zero size).symm
  · exact (Int.sub_zero size).symm

end

end number

section
variable {num : Word} {base : Nat} {size precision : Int} {type : Flags}

/-- Where the room that `size` leaves goes to. -/
def layout (num : Word) (base : Nat) (size precision : Int) (type : Flags) : Layout :=
  let room := (size - number.needed num base precision type).toNat
  let tmp := number.tmp num base type
  { before := if type.left || type.zeropad then 0 else room
    sign := number.sign num type
    special := number.special base type
    zeros := (if type.zeropad && !type.left then room else 0) + (precision - tmp.length).toNat
    digits := tmp.reverse
    after := if type.left then room else 0 }

/-- `number` prints the layout. -/
theorem number_eq_layout (hBase : 1 < base) (hSmall : base ≤ 36)
    (h : NoOverflow num base size precision type) :
    number num base size precision type = some (layout num base size precision type).text := by
  obtain ⟨hSize, hPrecision, hCounted⟩ := h
  have hLoops : 1 ≤ number.sizeLoops type := by
    unfold number.sizeLoops
    split
    · exact Int.le_refl 1
    · split <;> decide
  have hDigits := number.tmp_length_pos num base type hBase
  have hMax : (if precision < (number.tmp num base type).length then ((number.tmp num base type).length : Int)
      else precision) = max precision (number.tmp num base type).length := by
    split <;> omega
  have hNeeded : number.needed num base precision type = (number.sign num type).length +
      (number.special base type).length + max precision (number.tmp num base type).length := rfl
  have hRoom : int (size - (number.sign num type).length - (number.special base type).length -
      max precision (number.tmp num base type).length) = size - number.needed num base precision type := by
    rw [int_eq (by omega) (by omega)]
    omega
  have hZeros : (countDown (number.tmp num base type).length
      (max precision (number.tmp num base type).length)).1 =
        (precision - (number.tmp num base type).length).toNat := by
    show (_ - _ : Int).toNat = _
    omega
  unfold number
  dsimp only
  rw [if_neg (by omega), number.size_sign (by omega) hSize, number.size_special (by omega) (by omega),
    hMax, hRoom, hZeros]
  have hHigh : size - number.needed num base precision type < 2 ^ 31 := by omega
  unfold layout
  dsimp only
  generalize size - number.needed num base precision type = n at hCounted hHigh
  unfold number.sizeLoops at hCounted
  cases hLeft : type.left with
  | true =>
    rw [hLeft, if_pos rfl] at hCounted
    simp [countDown_zero (show -2 ^ 31 < n by omega) hHigh, Layout.text, Layout.places]
  | false =>
    cases hZero : type.zeropad with
    | true =>
      rw [hLeft, hZero, if_neg Bool.false_ne_true, if_pos rfl] at hCounted
      simp [countDown_zero (show -2 ^ 31 < n by omega) hHigh,
        countDown_past (show -2 ^ 31 < min n 0 - 1 by omega) (by omega), Layout.text, Layout.places]
    | false =>
      rw [hLeft, hZero, if_neg Bool.false_ne_true, if_neg Bool.false_ne_true] at hCounted
      simp [countDown_zero (show -2 ^ 31 < n by omega) hHigh,
        countDown_past (show -2 ^ 31 < min n 0 - 1 by omega) (by omega),
        countDown_past (show -2 ^ 31 < min n 0 - 1 - 1 by omega) (by omega), Layout.text, Layout.places]

/-! ## The layout is the one that is asked for -/

theorem magnitude_eq (num : Word) (type : Flags) : number.magnitude num type = printedValue num type := by
  have hSigned := congrArg Int.natAbs (signed_magnitude num type)
  unfold printedValue
  cases hSign : type.sign with
  | false =>
    have hNot : number.negative num type = false := by rw [number.negative, hSign, Bool.false_and]
    rw [number.magnitude, hNot]
    rfl
  | true =>
    rw [hSign, if_pos rfl] at hSigned
    rw [if_pos rfl, ← hSigned]
    split <;> simp

theorem negative_iff (num : Word) (type : Flags) :
    number.negative num type = true ↔ type.sign = true ∧ num.toInt < 0 := by
  rw [number.negative, Bool.and_eq_true, BitVec.slt_iff_toInt_lt]
  rfl

theorem special_eq (base : Nat) (type : Flags) : number.special base type =
    if type.special then
      if base = 8 then [ch '0'] else if base = 16 then [ch '0', if type.small then ch 'x' else ch 'X'] else []
    else [] := by
  unfold number.special
  cases type.small <;> rfl

theorem readDigits_zeros (base n : Nat) (ds : List Byte) :
    readDigits base (List.replicate n (ch '0') ++ ds) = readDigits base ds := by
  induction n with
  | zero => rfl
  | succ n ih =>
    have hZero : 0 * base + digitValue (ch '0') = 0 := by rw [Nat.zero_mul]; rfl
    rw [List.replicate_succ, List.cons_append, ← ih]
    unfold readDigits
    rw [List.foldl_cons, hZero]

theorem tmp_length (num : Word) (type : Flags) (hBase : 1 < base) :
    (number.tmp num base type).length = max 1 (Nat.digits base (printedValue num type)).length := by
  rw [number.tmp_eq num base type hBase, magnitude_eq]
  split
  · next hZero =>
    rw [hZero, Nat.digits_zero]
    rfl
  · next hNe =>
    have hPos := List.length_pos_of_ne_nil (Nat.digits_ne_nil_iff_ne_zero (b := base).mpr hNe)
    rw [List.length_map, max_eq_right hPos]

theorem layout_meets (hBase : 1 < base) (hSmall : base ≤ 36) :
    (layout num base size precision type).Meets num base size precision type := by
  have hDigits := number.tmp_length_pos num base type hBase
  have hNeeded : number.needed num base precision type = (number.sign num type).length +
      (number.special base type).length + max precision (number.tmp num base type).length := rfl
  constructor
  · exact if_congr (negative_iff num type) rfl rfl
  · exact special_eq base type
  · intro c hc
    have hMem : c ∈ number.tmp num base type := List.mem_reverse.mp hc
    rw [number.tmp_eq num base type hBase] at hMem
    split at hMem
    · rw [List.mem_singleton.mp hMem]
      exact ⟨0, by omega, rfl⟩
    · obtain ⟨d, hd, rfl⟩ := List.mem_map.mp hMem
      exact ⟨d, Nat.digits_lt_base hBase hd, rfl⟩
  · exact (List.length_reverse).trans (tmp_length num type hBase)
  · rw [Layout.places, readDigits_zeros, ← magnitude_eq]
    exact number.readDigits_tmp num base type hBase hSmall
  · simp only [Layout.places, layout, List.length_append, List.length_replicate, List.length_reverse]
    omega
  · intro hBefore
    unfold layout at hBefore
    dsimp only at hBefore
    by_contra hNot
    have hPadded : (type.left || type.zeropad) = true := by
      cases hLeft : type.left <;> cases hZero : type.zeropad <;> simp_all
    rw [if_pos hPadded] at hBefore
    exact Nat.lt_irrefl 0 hBefore
  · intro hAfter
    unfold layout at hAfter
    dsimp only at hAfter
    by_contra hNot
    rw [if_neg hNot] at hAfter
    exact Nat.lt_irrefl 0 hAfter
  · intro hNot
    have hNoPad : (type.zeropad && !type.left) = false := by
      obtain hLeft | hZero := hNot
      · rw [hLeft, Bool.not_true, Bool.and_false]
      · rw [hZero, Bool.false_and]
    simp only [Layout.places, layout, hNoPad, Bool.false_eq_true, if_false, List.length_append,
      List.length_replicate, List.length_reverse]
    omega
  · -- The room is given out once.
    have hShare : ∀ room : Nat, (if type.left || type.zeropad then 0 else room) +
        (if type.zeropad && !type.left then room else 0) + (if type.left then room else 0) = room := by
      intro room
      cases type.left <;> cases type.zeropad <;> simp
    have hRoom := hShare (size - number.needed num base precision type).toNat
    simp only [Layout.text, Layout.places, layout, List.length_append, List.length_replicate,
      List.length_reverse]
    omega

/-- From base 3 on no digit is stored behind the end of `tmp[50]`. -/
theorem tmp_fits (num : Word) (type : Flags) (hBase : 2 < base) : (number.tmp num base type).length ≤ 50 := by
  have hBelow : printedValue num type < 2 ^ 64 := by
    rw [← magnitude_eq]
    exact BitVec.isLt _
  have hPower : printedValue num type < base ^ 41 :=
    calc printedValue num type < 2 ^ 64 := hBelow
      _ ≤ 3 ^ 41 := by decide
      _ ≤ base ^ 41 := Nat.pow_le_pow_left hBase 41
  have hDigits := (Nat.digits_length_le_iff (by omega : 1 < base) (printedValue num type)).mpr hPower
  rw [tmp_length num type (by omega)]
  omega

/-- Every number is laid out as its flags, its field width and its precision say, and its digits have room in
`tmp`, in every base that `vsprintf` asks for. -/
theorem number_laidOut (num : Word) {base : Nat} (hBase : 1 < base) (hSmall : base ≤ 36)
    {size precision : Int} {type : Flags} (h : NoOverflow num base size precision type) :
    (∃ l : Layout, number num base size precision type = some l.text ∧
      l.Meets num base size precision type) ∧
    (2 < base → (number.tmp num base type).length ≤ 50) :=
  ⟨⟨layout num base size precision type, number_eq_layout hBase hSmall h, layout_meets hBase hSmall⟩,
    tmp_fits num type⟩

end

/-- `%#012.4lX` with `SIGN`. -/
def paddedHex : Flags := { Flags.zero with zeropad := true, sign := true, special := true }

theorem number_laidOut_paddedHex : (∃ l : Layout, number (-255) 16 12 4 paddedHex = some l.text ∧
    l.Meets (-255) 16 12 4 paddedHex) ∧ (number.tmp (-255) 16 paddedHex).length ≤ 50 := by
  have hFits : NoOverflow (-255) 16 12 4 paddedHex := ⟨by decide, by decide, by decide⟩
  have hBoth := number_laidOut (-255) (by decide) (by decide) hFits
  exact ⟨hBoth.1, hBoth.2 (by decide)⟩

example : number (-255) 16 12 4 paddedHex = some ("-0X0000000FF".toList.map ch) := by decide

end KalinoteOS.Vsprintf
