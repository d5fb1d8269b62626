import KalinoteOS.Printk.Format

/-! # The integer conversions

`number` takes every argument as a `long`. The text it prints is read back here and compared with the
argument, of 32 or of 64 bits.
-/
namespace KalinoteOS.Vsprintf
open Lib
set_option autoImplicit false

inductive Conversion where
  | d | i | u | o | x | X
  deriving DecidableEq, Repr

namespace Conversion

def char : Conversion → Byte
  | .d => ch 'd'
  | .i => ch 'i'
  | .u => ch 'u'
  | .o => ch 'o'
  | .x => ch 'x'
  | .X => ch 'X'

def base : Conversion → Nat
  | .d | .i | .u => 10
  | .o => 8
  | .x | .X => 16

/-- The number that an argument is, of 64 bits with `l` and of 32 bits without. -/
def value (k : Conversion) (long : Bool) (arg : Word) : Int :=
  match k with
  | .d | .i => if long then arg.toInt else (arg.setWidth 32).toInt
  | _ => if long then arg.toNat else (arg.setWidth 32).toNat

end Conversion

/-- `d` is a directive for the conversion, with the qualifier `l`, or with another one or none. -/
structure Directive.Asks (d : Directive) (k : Conversion) (long : Bool) : Prop where
  wellFormed : d.WellFormed
  qualifier : d.qualifier = some (ch 'l') ↔ long = true
  conv : d.conv = some k.char

/-- The arguments that the stars take. -/
def Directive.stars (d : Directive) : Nat :=
  (if d.width = .star then 1 else 0) + if d.precision = some .star then 1 else 0

theorem Field.value_arg (env : Env) (arg : Nat) (f : Field) :
    (f.value env arg).2 = arg + if f = .star then 1 else 0 := by
  cases f <;> rfl

theorem Directive.spec_arg (env : Env) (arg : Nat) (d : Directive) : (d.spec env arg).2 = arg + d.stars := by
  have hWidth : (d.widthValue env arg).2.2 = arg + if d.width = .star then 1 else 0 := by
    rw [← Field.value_arg env arg d.width]
    unfold widthValue
    dsimp only
    split <;> rfl
  have hPrecision : ∀ n, (d.precisionValue env n).2 = n + if d.precision = some .star then 1 else 0 := by
    intro n
    unfold precisionValue
    cases hp : d.precision with
    | none => rfl
    | some f =>
      exact (Field.value_arg env n f).trans (by simp only [Option.some_inj])
  change (d.precisionValue env (d.widthValue env arg).2.2).2 = _
  rw [hPrecision, hWidth, Nat.add_assoc]
  rfl

theorem setFlag_sign (flags : Flags) (c : Byte) : (setFlag flags c).sign = flags.sign := by
  unfold setFlag
  cases hFlag : isFlag c with
  | false => rw [flagOf_of_not flags hFlag]; rfl
  | true =>
    unfold isFlag at hFlag
    simp only [Bool.or_eq_true, decide_eq_true_eq] at hFlag
    obtain (((rfl | rfl) | rfl) | rfl) | rfl := hFlag <;> rfl

theorem Directive.spec_sign (env : Env) (arg : Nat) (d : Directive) : (d.spec env arg).1.flags.sign = false := by
  have hFlags : ∀ (fs : List Byte) (flags : Flags), (fs.foldl setFlag flags).sign = flags.sign := by
    intro fs
    induction fs with
    | nil => exact fun _ => rfl
    | cons c fs ih => exact fun flags => (ih _).trans (setFlag_sign flags c)
  change (d.widthValue env arg).2.1.sign = false
  unfold widthValue
  dsimp only
  split
  · exact hFlags d.flags .zero
  · exact hFlags d.flags .zero

section
variable (env : Env) (s : State) (spec : Spec)

theorem putNumber_reading {base : Nat} (hBase : 1 < base) (hSmall : base ≤ 16) (num : Word) :
    ∃ text, putNumber s num base spec = some (s.emit text) ∧
      reading base text = if spec.flags.sign then num.toInt else (num.toNat : Int) := by
  obtain ⟨text, hText, hReading⟩ := number_reading num spec.fieldWidth spec.precision spec.flags hBase hSmall
  refine ⟨text, ?_, hReading⟩
  unfold putNumber
  rw [hText]
  rfl

theorem putUnsigned_reading (base : Nat) (hBase : 1 < base) (hSmall : base ≤ 16) (long : Bool)
    (hSign : spec.flags.sign = false) (hLong : spec.qualifier = some (ch 'l') ↔ long = true) :
    ∃ text, putUnsigned env base spec s = some { s.emit text with arg := s.arg + 1 } ∧
      reading base text = if long then ((env.args s.arg).toNat : Int) else
        ((env.args s.arg).setWidth 32).toNat := by
  unfold putUnsigned
  cases long with
  | true =>
    rw [if_pos (hLong.mpr rfl)]
    obtain ⟨text, hPut, hReading⟩ := putNumber_reading (env.vaLong s).2 spec hBase hSmall (env.vaLong s).1
    refine ⟨text, hPut, hReading.trans ?_⟩
    rw [hSign]
    rfl
  | false =>
    rw [if_neg fun hIs => Bool.noConfusion (hLong.mp hIs)]
    obtain ⟨text, hPut, hReading⟩ :=
      putNumber_reading (env.vaInt s).2 spec hBase hSmall ((env.vaInt s).1.setWidth 64)
    refine ⟨text, hPut, hReading.trans ?_⟩
    rw [hSign, BitVec.toNat_setWidth]
    have hLt := (env.vaInt s).1.isLt
    rw [Nat.mod_eq_of_lt (by omega)]
    rfl

/-- What `d`, `i` and `u` hand to `number`: an `int` is extended by its sign. -/
def intOf (long : Bool) (arg : Word) : Word := if long then arg else (arg.setWidth 32).signExtend 64

theorem putInt_reading (long : Bool) (hLong : spec.qualifier = some (ch 'l') ↔ long = true) :
    ∃ text, putInt env spec s = some { s.emit text with arg := s.arg + 1 } ∧
      reading 10 text =
        if spec.flags.sign then (intOf long (env.args s.arg)).toInt else
          ((intOf long (env.args s.arg)).toNat : Int) := by
  unfold putInt
  cases long with
  | true =>
    rw [if_pos (hLong.mpr rfl)]
    exact putNumber_reading (env.vaLong s).2 spec (by decide) (by decide) (env.vaLong s).1
  | false =>
    rw [if_neg fun hIs => Bool.noConfusion (hLong.mp hIs)]
    exact putNumber_reading (env.vaInt s).2 spec (by decide) (by decide) ((env.vaInt s).1.signExtend 64)

theorem intOf_toInt (long : Bool) (arg : Word) :
    (intOf long arg).toInt = if long then arg.toInt else (arg.setWidth 32).toInt := by
  cases long with
  | true => rfl
  | false => exact BitVec.toInt_signExtend_of_le (by decide)

/-- Extended by its sign an `unsigned int` stays what it is below 2^31 only. -/
theorem intOf_toNat_iff (long : Bool) (arg : Word) :
    (intOf long arg).toNat = (if long then arg.toNat else (arg.setWidth 32).toNat) ↔
      ¬(long = false ∧ 2 ^ 31 ≤ (arg.setWidth 32).toNat) := by
  cases long with
  | true => exact iff_of_true rfl (fun h => Bool.noConfusion h.1)
  | false =>
    have hLt := (arg.setWidth 32).isLt
    have hMsb : (arg.setWidth 32).msb = decide (2 ^ 31 ≤ (arg.setWidth 32).toNat) := BitVec.msb_eq_decide _
    change ((arg.setWidth 32).signExtend 64).toNat = (arg.setWidth 32).toNat ↔ _
    rw [BitVec.toNat_signExtend, hMsb, BitVec.toNat_setWidth]
    generalize (arg.setWidth 32).toNat = n at hLt
    by_cases hLarge : 2 ^ 31 ≤ n
    · simp only [hLarge, decide_true, if_true, and_self, not_true_eq_false, iff_false]
      omega
    · simp only [hLarge, decide_false, Bool.false_eq_true, if_false, and_false, not_false_eq_true, iff_true]
      omega

/-- Every conversion prints its argument, but for an `unsigned int` that is taken as negative. -/
theorem convert_reading (k : Conversion) (long : Bool) (hSign : spec.flags.sign = false)
    (hLong : spec.qualifier = some (ch 'l') ↔ long = true) :
    ∃ text, convert env k.char spec s = some { s.emit text with arg := s.arg + 1 } ∧
      (reading k.base text = k.value long (env.args s.arg) ↔
        ¬(k = .u ∧ long = false ∧ 2 ^ 31 ≤ ((env.args s.arg).setWidth 32).toNat)) := by
  cases k with
  | d =>
    obtain ⟨text, hPut, hReading⟩ :=
      putInt_reading env s { spec with flags := { spec.flags with sign := true } } long hLong
    refine ⟨text, hPut, iff_of_true (hReading.trans (intOf_toInt long _)) ?_⟩
    rintro ⟨⟨⟩, -⟩
  | i =>
    obtain ⟨text, hPut, hReading⟩ :=
      putInt_reading env s { spec with flags := { spec.flags with sign := true } } long hLong
    refine ⟨text, hPut, iff_of_true (hReading.trans (intOf_toInt long _)) ?_⟩
    rintro ⟨⟨⟩, -⟩
  | u =>
    obtain ⟨text, hPut, hReading⟩ := putInt_reading env s spec long hLong
    refine ⟨text, hPut, ?_⟩
    rw [hSign] at hReading
    have hValue : Conversion.value .u long (env.args s.arg) =
        ((if long then (env.args s.arg).toNat else ((env.args s.arg).setWidth 32).toNat : Nat) : Int) := by
      cases long <;> rfl
    have hU : (Conversion.u = .u) = True := eq_true rfl
    rw [hValue, hU, true_and]
    refine Iff.trans ?_ (intOf_toNat_iff long (env.args s.arg))
    change reading 10 text = _ ↔ _
    rw [hReading]
    exact Int.ofNat_inj
  | o =>
    obtain ⟨text, hPut, hReading⟩ := putUnsigned_reading env s spec 8 (by decide) (by decide) long hSign hLong
    refine ⟨text, hPut, iff_of_true hReading ?_⟩
    rintro ⟨⟨⟩, -⟩
  | x =>
    obtain ⟨text, hPut, hReading⟩ := putUnsigned_reading env s { spec with flags :=
      { spec.flags with small := true } }
      16 (by decide) (by decide) long hSign hLong
    refine ⟨text, hPut, iff_of_true hReading ?_⟩
    rintro ⟨⟨⟩, -⟩
  | X =>
    obtain ⟨text, hPut, hReading⟩ := putUnsigned_reading env s spec 16 (by decide) (by decide) long hSign hLong
    refine ⟨text, hPut, iff_of_true hReading ?_⟩
    rintro ⟨⟨⟩, -⟩

end

/-- The directive prints its argument exactly if it is not a `%u` of an `unsigned int` from 2^31 on. -/
theorem directive_reading_iff (env : Env) (s : State) (d : Directive) (rest : List Byte)
    (h : At env.fmt s.pos (d.text ++ rest)) (k : Conversion) (long : Bool) (hAsks : d.Asks k long) :
    ∃ t text, directive env s = some t ∧ t.out = s.out ++ text ∧ t.arg = s.arg + d.stars + 1 ∧
      (reading k.base text = k.value long (env.args (s.arg + d.stars)) ↔
        ¬(k = .u ∧ long = false ∧ 2 ^ 31 ≤ ((env.args (s.arg + d.stars)).setWidth 32).toNat)) := by
  have hEnd : d.conv = none → rest = [] := fun hNone => by
    rw [hAsks.conv] at hNone
    cases hNone
  obtain ⟨text, hConvert, hReading⟩ := convert_reading env
    { s with pos := s.pos + d.front.length, arg := (d.spec env s.arg).2 } (d.spec env s.arg).1 k long
    (d.spec_sign env s.arg) hAsks.qualifier
  rw [d.spec_arg] at hReading hConvert
  refine ⟨⟨s.pos + d.front.length, s.arg + d.stars + 1, s.out ++ text, s.stores⟩, text, ?_, rfl, rfl, hReading⟩
  rw [directive_eq h hAsks.wellFormed hEnd, hAsks.conv, d.spec_arg]
  exact hConvert

/-- A call whose arguments are all `arg`, with empty strings. -/
def Env.ofArg (fmt : CString) (arg : Word) : Env := ⟨fmt, fun _ => arg, fun _ => ⟨[], List.not_mem_nil⟩⟩

/-- `%+hd` of 4294967295 prints -1, and `%hu` of it another number. -/
theorem directive_reading_iff_minusOne :
    (∃ t text, directive (.ofArg ⟨[ch '%', ch '+', ch 'h', ch 'd'], by decide⟩ 0xffffffff) .start = some t ∧
      t.out = text ∧ reading 10 text = -1) ∧
    ∃ t text, directive (.ofArg ⟨[ch '%', ch 'h', ch 'u'], by decide⟩ 0xffffffff) .start = some t ∧ t.out = text ∧
      reading 10 text ≠ 4294967295 := by
  have hSigned : Directive.Asks ⟨[ch '+'], .absent, none, some (ch 'h'), some (ch 'd')⟩ .d false := by
    refine ⟨⟨by decide, by decide, ⟨by decide, by decide⟩, ?_, ?_, by decide⟩, by decide, rfl⟩
    · unfold PrecisionEnds
      decide
    · unfold QualifierEnds
      decide
  have hUnsigned : Directive.Asks ⟨[], .absent, none, some (ch 'h'), some (ch 'u')⟩ .u false := by
    refine ⟨⟨by decide, by decide, ⟨by decide, by decide⟩, ?_, ?_, by decide⟩, by decide, rfl⟩
    · unfold PrecisionEnds
      decide
    · unfold QualifierEnds
      decide
  constructor
  · obtain ⟨t, text, hCall, hOut, -, hReading⟩ := directive_reading_iff
      (.ofArg ⟨[ch '%', ch '+', ch 'h', ch 'd'], by decide⟩ 0xffffffff) .start _ [] (At.start _) .d false hSigned
    exact ⟨t, text, hCall, hOut, hReading.mpr (by decide)⟩
  · obtain ⟨t, text, hCall, hOut, -, hReading⟩ := directive_reading_iff
      (.ofArg ⟨[ch '%', ch 'h', ch 'u'], by decide⟩ 0xffffffff) .start _ [] (At.start _) .u false hUnsigned
    refine ⟨t, text, hCall, hOut, fun hValue => ?_⟩
    exact hReading.mp hValue (by decide)

/-- `%u` of 4294967295 prints 18446744073709551615. -/
theorem unsigned_misread :
    (vsprintf (.ofArg ⟨[ch '%', ch 'u'], by decide⟩ 0xffffffff)).map (fun t => reading 10 t.out) =
      some 18446744073709551615 ∧ Conversion.value .u false 0xffffffff = 4294967295 := by
  decide +kernel

end KalinoteOS.Vsprintf
