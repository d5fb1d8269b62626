import KalinoteOS.Lib.WordStack
import Mathlib.Data.Nat.Digits.Lemmas

/-! # `number`

An `int` is an integer between -2^31 and 2^31 - 1; the kernel is compiled without optimisation, so
that its arithmetic wraps around. The flags are the bits of `type`.
-/
namespace KalinoteOS.Vsprintf
open Lib
set_option autoImplicit false

abbrev Byte := BitVec 8

/-- A character constant of the source. -/
def ch (c : Char) : Byte := BitVec.ofNat 8 c.toNat

/-- The value of an `int` expression. -/
def int (n : Int) : Int := n.bmod (2 ^ 32)

theorem int_eq {n : Int} (hLow : -2 ^ 31 ≤ n) (hHigh : n < 2 ^ 31) : int n = n :=
  Int.bmod_eq_of_le_mul_two (by omega) (by omega)

structure Flags where
  zeropad : Bool
  sign : Bool
  plus : Bool
  space : Bool
  left : Bool
  special : Bool
  small : Bool
  deriving DecidableEq, Repr

/-- `flags = 0`. -/
def Flags.zero : Flags := ⟨false, false, false, false, false, false, false⟩

/-- The loop `while(low < n--)`: its rounds, and `n` after it. -/
def countDown (low n : Int) : Nat × Int := ((n - low).toNat, if low < n then low - 1 else int (n - 1))

/-- The loop `while(--n > 0)`: its rounds, and `n` after it. -/
def countDownFirst (n : Int) : Nat × Int := ((int (n - 1)).toNat, min (int (n - 1)) 0)

/-- `digits[d]` of the one string or the other. -/
def digits (small : Bool) (d : Nat) : Byte :=
  if d < 10 then BitVec.ofNat 8 (48 + d)
  else if small then BitVec.ofNat 8 (87 + d) else BitVec.ofNat 8 (55 + d)

/-- The loop that divides by `do_div`, which takes `num` as unsigned; 64 rounds are enough. -/
def digitLoop (small : Bool) (base : Nat) : Nat → Nat → List Byte
  | 0, _ => []
  | rounds + 1, num =>
    if num = 0 then [] else digits small (num % base) :: digitLoop small base rounds (num / base)

namespace number

/-- `type&SIGN && num < 0` -/
def negative (num : Word) (type : Flags) : Bool := type.sign && num.slt 0

/-- The sign that is printed, if any. -/
def sign (num : Word) (type : Flags) : List Byte :=
  if negative num type then [ch '-']
  else if type.plus then [ch '+'] else if type.space then [ch ' '] else []

/-- What `SPECIAL` puts in front of the digits. -/
def special (base : Nat) (type : Flags) : List Byte :=
  if type.special then
    if base = 8 then [ch '0'] else if base = 16 then [ch '0', digits type.small 33] else []
  else []

/-- `tmp[0..i)`, the last digit first. -/
def tmp (num : Word) (base : Nat) (type : Flags) : List Byte :=
  let num := if negative num type then -num else num
  if num = 0 then [ch '0'] else digitLoop type.small base 64 num.toNat

end number

def number (num : Word) (base : Nat) (size precision : Int) (type : Flags) : Option (List Byte) :=
  let zeropad := type.zeropad && !type.left
  if base < 2 ∨ 36 < base then none
  else
    let c := if zeropad then ch '0' else ch ' '
    let sign := number.sign num type
    let size := if sign = [] then size else int (size - 1)
    let size :=
      if type.special then if base = 16 then int (size - 2) else if base = 8 then int (size - 1) else size
      else size
    let tmp := number.tmp num base type
    let precision := if precision < tmp.length then (tmp.length : Int) else precision
    let size := int (size - precision)
    let (before, size) := if zeropad || type.left then (0, size) else countDown 0 size
    let (pad, size) := if type.left then (0, size) else countDown 0 size
    let zeros := (countDown tmp.length precision).1
    let after := (countDown 0 size).1
    some (List.replicate before (ch ' ') ++ sign ++ number.special base type ++ List.replicate pad c ++
      List.replicate zeros (ch '0') ++ tmp.reverse ++ List.replicate after (ch ' '))

/-! ## Digits -/

/-- The value of a digit, in bases up to 36. -/
def digitValue (c : Byte) : Nat :=
  if 48 ≤ c.toNat ∧ c.toNat ≤ 57 then c.toNat - 48
  else if 97 ≤ c.toNat ∧ c.toNat ≤ 122 then c.toNat - 87
  else if 65 ≤ c.toNat ∧ c.toNat ≤ 90 then c.toNat - 55
  else 36

/-- The number that digits denote, the first one the most significant. -/
def readDigits (base : Nat) (ds : List Byte) : Nat := ds.foldl (fun v c => v * base + digitValue c) 0

/-- The digits of a text, read in the base, with the sign that stands in it. -/
def reading (base : Nat) (text : List Byte) : Int :=
  let v := readDigits base (text.filter (digitValue · < base))
  if ch '-' ∈ text then -v else v

theorem digitValue_digits (small : Bool) {d : Nat} (h : d < 36) : digitValue (digits small d) = d := by
  have hAll : ∀ small : Bool, ∀ d < 36, digitValue (digits small d) = d := by decide
  exact hAll small d h

theorem digitLoop_eq (small : Bool) {base : Nat} (hBase : 1 < base) {rounds num : Nat} (h : num < 2 ^ rounds) :
    digitLoop small base rounds num = (Nat.digits base num).map (digits small) := by
  induction rounds generalizing num with
  | zero =>
    have hZero : num = 0 := by omega
    rw [hZero, Nat.digits_zero]
    rfl
  | succ rounds ih =>
    unfold digitLoop
    split
    · next hZero =>
      rw [hZero, Nat.digits_zero]
      rfl
    · next hNe =>
      have hSmaller : num / base < 2 ^ rounds := by
        rw [Nat.div_lt_iff_lt_mul (by omega)]
        calc num < 2 ^ rounds * 2 := by rw [← Nat.pow_succ]; exact h
          _ ≤ 2 ^ rounds * base := Nat.mul_le_mul_left _ hBase
      rw [ih hSmaller, Nat.digits_def' hBase (Nat.pos_of_ne_zero hNe)]
      rfl

theorem readDigits_reverse (base : Nat) (ds : List Byte) :
    readDigits base ds.reverse = Nat.ofDigits base (ds.map digitValue) := by
  unfold readDigits
  rw [List.foldl_reverse, Nat.ofDigits_eq_foldr]
  induction ds with
  | nil => rfl
  | cons c ds ih =>
    rw [List.foldr_cons, List.map_cons, List.foldr_cons, ih]
    simp [Nat.add_comm, Nat.mul_comm]

namespace number

/-- The magnitude of the number that is printed. -/
def magnitude (num : Word) (type : Flags) : Nat := (if negative num type then -num else num).toNat

section
variable (num : Word) (base : Nat) (type : Flags)

theorem tmp_eq (hBase : 1 < base) : tmp num base type =
    if magnitude num type = 0 then [ch '0'] else (Nat.digits base (magnitude num type)).map
      (digits type.small) := by
  unfold tmp magnitude
  dsimp only
  rw [digitLoop_eq type.small hBase (BitVec.isLt _)]
  simp only [← BitVec.toNat_inj]
  rfl

theorem digitValue_tmp (hBase : 1 < base) (hSmall : base ≤ 36) {c : Byte} (h : c ∈ tmp num base type) :
    digitValue c < base := by
  rw [tmp_eq num base type hBase] at h
  split at h
  · rw [List.mem_singleton.mp h]
    exact Nat.lt_of_lt_of_le Nat.zero_lt_one (Nat.le_of_lt hBase)
  · obtain ⟨d, hd, rfl⟩ := List.mem_map.mp h
    have hLt : d < base := Nat.digits_lt_base hBase hd
    rw [digitValue_digits _ (by omega)]
    exact hLt

theorem readDigits_tmp (hBase : 1 < base) (hSmall : base ≤ 36) :
    readDigits base (tmp num base type).reverse = magnitude num type := by
  rw [readDigits_reverse, tmp_eq num base type hBase]
  split
  · next hZero =>
    rw [hZero]
    rfl
  · have hMap : ((Nat.digits base (magnitude num type)).map (digits type.small)).map digitValue =
        Nat.digits base (magnitude num type) := by
      rw [List.map_map]
      refine (List.map_congr_left fun d hd => ?_).trans (List.map_id _)
      have hLt : d < base := Nat.digits_lt_base hBase hd
      exact digitValue_digits _ (by omega)
    rw [hMap, Nat.ofDigits_digits]

end

end number

/-! ## The order of what is printed -/

/-- What stands in front of the digits; `c` is what the field is padded with behind the sign. -/
def number.front (num : Word) (base : Nat) (type : Flags) (before pad zeros : Nat) (c : Byte) : List Byte :=
  List.replicate before (ch ' ') ++ number.sign num type ++ number.special base type ++ List.replicate pad c ++
    List.replicate zeros (ch '0')

/-- The characters in front of the digits, other than a minus. -/
def frontChars : List Byte := [ch ' ', ch '0', ch '+', ch 'x', ch 'X']

section
variable (num : Word) {base : Nat} (size precision : Int) (type : Flags)

theorem mem_sign {d : Byte} (h : d ∈ number.sign num type) :
    d ∈ frontChars ∨ d = ch '-' ∧ number.negative num type = true := by
  unfold number.sign at h
  split at h
  · next hNeg => exact Or.inr ⟨List.mem_singleton.mp h, hNeg⟩
  · left
    split at h
    · rw [List.mem_singleton.mp h]
      decide
    · split at h
      · rw [List.mem_singleton.mp h]
        decide
      · exact absurd h List.not_mem_nil

theorem mem_special {d : Byte} (h : d ∈ number.special base type) : d ∈ frontChars := by
  have hAll : ∀ small : Bool, ∀ c ∈ [ch '0', digits small 33], c ∈ frontChars := by decide
  unfold number.special at h
  split at h
  · split at h
    · exact hAll true d (List.mem_cons.mpr (Or.inl (List.mem_singleton.mp h)))
    · split at h
      · exact hAll _ d h
      · exact absurd h List.not_mem_nil
  · exact absurd h List.not_mem_nil

theorem mem_front {before pad zeros : Nat} {c d : Byte} (hc : c = ch ' ' ∨ c = ch '0')
    (h : d ∈ number.front num base type before pad zeros c) :
    d ∈ frontChars ∨ d = ch '-' ∧ number.negative num type = true := by
  unfold number.front at h
  rw [List.mem_append, List.mem_append, List.mem_append, List.mem_append] at h
  obtain (((hBefore | hSign) | hSpecial) | hPad) | hZeros := h
  · rw [List.eq_of_mem_replicate hBefore]
    exact Or.inl (by decide)
  · exact mem_sign num type hSign
  · exact Or.inl (mem_special type hSpecial)
  · rw [List.eq_of_mem_replicate hPad]
    obtain rfl | rfl := hc <;> exact Or.inl (by decide)
  · rw [List.eq_of_mem_replicate hZeros]
    exact Or.inl (by decide)

theorem minus_mem_front {before pad zeros : Nat} {c : Byte} (hc : c = ch ' ' ∨ c = ch '0') :
    ch '-' ∈ number.front num base type before pad zeros c ↔ number.negative num type = true := by
  constructor
  · intro hMem
    exact ((mem_front num type hc hMem).resolve_left (by decide)).2
  · intro hNeg
    have hSign : number.sign num type = [ch '-'] := if_pos hNeg
    unfold number.front
    rw [hSign]
    simp

theorem number_layout (hBase : 1 < base) (hSmall : base ≤ 36) :
    ∃ before pad zeros after : Nat, ∃ c : Byte, (c = ch ' ' ∨ c = ch '0') ∧
      number num base size precision type = some (number.front num base type before pad zeros c ++
        (number.tmp num base type).reverse ++ List.replicate after (ch ' ')) := by
  unfold number
  dsimp only
  rw [if_neg (by omega)]
  refine ⟨_, _, _, _, _, ?_, rfl⟩
  split
  · exact Or.inr rfl
  · exact Or.inl rfl

/-- Nothing in front of the digits changes the number that is read. -/
theorem readDigits_behind (hBase : base ≤ 16) {front rest : List Byte}
    (hFront : ∀ c ∈ front, 16 ≤ digitValue c ∨ digitValue c = 0) :
    readDigits base ((front ++ rest).filter (digitValue · < base)) =
      readDigits base (rest.filter (digitValue · < base)) := by
  induction front with
  | nil => rfl
  | cons c front ih =>
    have hTail := ih fun d hd => hFront d (List.mem_cons_of_mem _ hd)
    rw [List.cons_append, List.filter_cons]
    split
    · next hDigit =>
      have hValue : digitValue c = 0 :=
        (hFront c List.mem_cons_self).resolve_left (by have hLt := of_decide_eq_true hDigit; omega)
      rw [← hTail]
      unfold readDigits
      rw [List.foldl_cons, hValue, Nat.zero_mul, Nat.add_zero]
    · exact hTail

theorem signed_magnitude :
    (if number.negative num type then -(number.magnitude num type : Int) else number.magnitude num type) =
      if type.sign then num.toInt else (num.toNat : Int) := by
  unfold number.magnitude number.negative
  cases type.sign with
  | false => rfl
  | true =>
    have hSlt : num.slt 0 = num.msb := BitVec.slt_zero_eq_msb
    rw [Bool.true_and, hSlt]
    split
    · next hMsb =>
      rw [if_pos rfl, BitVec.toInt_eq_msb_cond, if_pos hMsb, BitVec.toNat_neg]
      have hLt := num.isLt
      have hPos : 0 < num.toNat := by
        have hGe := BitVec.le_toNat_of_msb_true hMsb
        omega
      rw [Nat.mod_eq_of_lt (by omega)]
      omega
    · next hMsb =>
      rw [if_pos rfl, BitVec.toInt_eq_msb_cond, if_neg hMsb]

/-- What is printed for `num` is `num`: signed where `SIGN` is set, unsigned otherwise. -/
theorem number_reading (hBase : 1 < base) (hSmall : base ≤ 16) :
    ∃ text, number num base size precision type = some text ∧
      reading base text = if type.sign then num.toInt else (num.toNat : Int) := by
  have hLarge : base ≤ 36 := by omega
  obtain ⟨before, pad, zeros, after, c, hc, hText⟩ := number_layout num size precision type hBase hLarge
  refine ⟨_, hText, ?_⟩
  have hDigit : ∀ d ∈ (number.tmp num base type).reverse, digitValue d < base := fun d hd =>
    number.digitValue_tmp num base type hBase hLarge (List.mem_reverse.mp hd)
  have hFront : ∀ d ∈ number.front num base type before pad zeros c, 16 ≤ digitValue d ∨ digitValue d = 0 := by
    have hAll : ∀ d ∈ ch '-' :: frontChars, 16 ≤ digitValue d ∨ digitValue d = 0 := by decide
    intro d hd
    obtain hMem | ⟨rfl, -⟩ := mem_front num type hc hd
    · exact hAll d (List.mem_cons_of_mem _ hMem)
    · exact hAll _ List.mem_cons_self
  have hAfter : (List.replicate after (ch ' ')).filter (digitValue · < base) = [] := by
    apply List.filter_eq_nil_iff.mpr
    intro d hd
    rw [List.eq_of_mem_replicate hd]
    exact fun hLt => absurd (of_decide_eq_true hLt) (Nat.not_lt.mpr hLarge)
  have hMinus : ch '-' ∈ number.front num base type before pad zeros c ++ (number.tmp num base type).reverse ++
      List.replicate after (ch ' ') ↔ number.negative num type = true := by
    rw [List.mem_append, List.mem_append, minus_mem_front num type hc]
    refine ⟨fun h => ?_, fun h => Or.inl (Or.inl h)⟩
    obtain (h | h) | h := h
    · exact h
    · exact absurd (hDigit _ h) (Nat.not_lt.mpr hLarge)
    · exact absurd (List.eq_of_mem_replicate h) (by decide)
  unfold reading
  dsimp only
  rw [List.append_assoc, readDigits_behind hSmall hFront, List.filter_append, hAfter, List.append_nil,
    List.filter_eq_self.mpr fun d hd => decide_eq_true (hDigit d hd),
    number.readDigits_tmp num base type hBase hLarge, ← signed_magnitude num type]
  rw [List.append_assoc] at hMinus
  exact if_congr hMinus rfl rfl

end

end KalinoteOS.Vsprintf
