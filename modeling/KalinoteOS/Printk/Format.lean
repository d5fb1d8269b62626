import KalinoteOS.Printk.Directive

/-! # The format pointer

`vsprintf` reads each piece of its format once and comes to the NUL, wherever a directive breaks off.
-/
namespace KalinoteOS.Vsprintf
open Lib
set_option autoImplicit false

/-- From `pos` on the string has `text` in front of its NUL. -/
def At (s : CString) (pos : Nat) (text : List Byte) : Prop :=
  ∃ before, s.bytes = before ++ text ∧ before.length = pos

section
variable {s : CString} {pos : Nat}

theorem At.charAt {text : List Byte} (h : At s pos text) : s.charAt pos = some (text.headD 0) := by
  obtain ⟨before, hBytes, rfl⟩ := h
  unfold CString.charAt
  rw [hBytes, List.append_assoc, List.getElem?_append_right (Nat.le_refl _), Nat.sub_self]
  cases text <;> rfl

theorem At.skip {front text : List Byte} (h : At s pos (front ++ text)) : At s (pos + front.length) text := by
  obtain ⟨before, hBytes, rfl⟩ := h
  exact ⟨before ++ front, by rw [hBytes, List.append_assoc], List.length_append⟩

theorem At.tail {c : Byte} {text : List Byte} (h : At s pos (c :: text)) : At s (pos + 1) text :=
  At.skip (show At s pos ([c] ++ text) from h)

theorem At.ne_nul {c : Byte} {text : List Byte} (h : At s pos text) (hc : c ∈ text) : c ≠ 0 := by
  obtain ⟨before, hBytes, -⟩ := h
  rintro rfl
  exact s.noNul (hBytes ▸ List.mem_append_right _ hc)

theorem At.length_le {text : List Byte} (h : At s pos text) : text.length ≤ s.bytes.length := by
  obtain ⟨before, hBytes, -⟩ := h
  rw [hBytes, List.length_append]
  omega

end

/-! ## The parts of a directive -/

/-- `i = i*10 + *((*s)++) - '0'` -/
def addDigit (i : Int) (c : Byte) : Int := int (i * 10 + c.toNat - 48)

def setFlag (flags : Flags) (c : Byte) : Flags := (flagOf flags c).getD flags

/-- The `int` in an argument slot. -/
def Env.intArg (env : Env) (arg : Nat) : Int := ((env.args arg).setWidth 32).toInt

/-- The value of a field, and the arguments that are used up after it. -/
def Field.value (env : Env) (arg : Nat) : Field → Int × Nat
  | .absent => (-1, arg)
  | .digits ds => (ds.foldl addDigit 0, arg)
  | .star => (env.intArg arg, arg + 1)

/-- A negative width from an argument is a width with the flag `-`. -/
def Directive.widthValue (env : Env) (arg : Nat) (d : Directive) : Int × Flags × Nat :=
  let flags := d.flags.foldl setFlag .zero
  let (width, next) := d.width.value env arg
  if d.width = .star ∧ width < 0 then (int (-width), { flags with left := true }, next) else (width, flags, next)

def Directive.precisionValue (env : Env) (arg : Nat) (d : Directive) : Int × Nat :=
  match d.precision with
  | none => (-1, arg)
  | some f =>
    let (precision, next) := f.value env arg
    (if precision < 0 then 0 else precision, next)

/-- What a directive asks for, with its arguments from `arg` on, and the first argument behind them. -/
def Directive.spec (env : Env) (arg : Nat) (d : Directive) : Spec × Nat :=
  let (width, flags, arg) := d.widthValue env arg
  let (precision, arg) := d.precisionValue env arg
  (⟨flags, width, precision, d.qualifier⟩, arg)

theorem flagOf_of_flag (flags : Flags) {c : Byte} (h : isFlag c = true) :
    flagOf flags c = some (setFlag flags c) := by
  unfold isFlag at h
  simp only [Bool.or_eq_true, decide_eq_true_eq] at h
  obtain (((rfl | rfl) | rfl) | rfl) | rfl := h <;> rfl

theorem flagOf_of_not (flags : Flags) {c : Byte} (h : isFlag c = false) : flagOf flags c = none := by
  unfold isFlag at h
  simp only [Bool.or_eq_false_iff, decide_eq_false_iff_not] at h
  unfold flagOf
  rw [if_neg h.1.1.1.1, if_neg h.1.1.1.2, if_neg h.1.1.2, if_neg h.1.2, if_neg h.2]

section
variable {fmt : CString} {rounds pos : Nat}

theorem skipAtoiLoop_digit {c : Byte} {i : Int} (hc : fmt.charAt pos = some c) (hDigit : isDigit c = true) :
    skipAtoiLoop fmt (rounds + 1) pos i = skipAtoiLoop fmt rounds (pos + 1) (addDigit i c) := by
  simp [skipAtoiLoop, hc, hDigit, addDigit]

theorem skipAtoiLoop_end {c : Byte} {i : Int} (hc : fmt.charAt pos = some c) (hDigit : isDigit c = false) :
    skipAtoiLoop fmt (rounds + 1) pos i = some (i, pos) := by
  simp [skipAtoiLoop, hc, hDigit]

theorem skipAtoiLoop_eq {ds rest : List Byte} {i : Int} (h : At fmt pos (ds ++ rest))
    (hDigits : ∀ c ∈ ds, isDigit c = true) (hEnd : isDigit (rest.headD 0) = false)
    (hRounds : ds.length < rounds) :
    skipAtoiLoop fmt rounds pos i = some (ds.foldl addDigit i, pos + ds.length) := by
  induction ds generalizing rounds pos i with
  | nil =>
    obtain ⟨rounds, rfl⟩ := Nat.exists_eq_succ_of_ne_zero (by omega : rounds ≠ 0)
    exact skipAtoiLoop_end h.charAt hEnd
  | cons c ds ih =>
    obtain ⟨rounds, rfl⟩ := Nat.exists_eq_succ_of_ne_zero (by omega : rounds ≠ 0)
    rw [List.length_cons] at hRounds
    have hRest : ∀ d ∈ ds, isDigit d = true := fun d hd => hDigits d (List.mem_cons_of_mem _ hd)
    rw [skipAtoiLoop_digit h.charAt (hDigits c List.mem_cons_self),
      ih h.tail hRest (Nat.lt_of_succ_lt_succ hRounds), List.foldl_cons, List.length_cons, Nat.add_assoc,
      Nat.add_comm 1]
    rfl

theorem repeatFlags_flag {c : Byte} {flags : Flags} (hc : fmt.charAt (pos + 1) = some c)
    (hFlag : isFlag c = true) :
    repeatFlags fmt (rounds + 1) pos flags = repeatFlags fmt rounds (pos + 1) (setFlag flags c) := by
  simp [repeatFlags, hc, flagOf_of_flag flags hFlag]

theorem repeatFlags_end {c : Byte} {flags : Flags} (hc : fmt.charAt (pos + 1) = some c)
    (hFlag : isFlag c = false) :
    repeatFlags fmt (rounds + 1) pos flags = some (flags, pos + 1) := by
  simp [repeatFlags, hc, flagOf_of_not flags hFlag]

theorem repeatFlags_eq {fs rest : List Byte} {flags : Flags} (h : At fmt (pos + 1) (fs ++ rest))
    (hFlags : ∀ c ∈ fs, isFlag c = true) (hEnd : isFlag (rest.headD 0) = false) (hRounds : fs.length < rounds) :
    repeatFlags fmt rounds pos flags = some (fs.foldl setFlag flags, pos + 1 + fs.length) := by
  induction fs generalizing rounds pos flags with
  | nil =>
    obtain ⟨rounds, rfl⟩ := Nat.exists_eq_succ_of_ne_zero (by omega : rounds ≠ 0)
    exact repeatFlags_end h.charAt hEnd
  | cons c fs ih =>
    obtain ⟨rounds, rfl⟩ := Nat.exists_eq_succ_of_ne_zero (by omega : rounds ≠ 0)
    rw [List.length_cons] at hRounds
    have hRest : ∀ d ∈ fs, isFlag d = true := fun d hd => hFlags d (List.mem_cons_of_mem _ hd)
    rw [repeatFlags_flag h.charAt (hFlags c List.mem_cons_self),
      ih h.tail hRest (Nat.lt_of_succ_lt_succ hRounds), List.foldl_cons, List.length_cons, Nat.add_assoc _ 1,
      Nat.add_comm 1 fs.length]
    rfl

end

section
variable {env : Env} {s : State} {rest : List Byte}

theorem skipAtoi_eq {ds : List Byte} (h : At env.fmt s.pos (ds ++ rest)) (hDigits : ∀ c ∈ ds, isDigit c = true)
    (hEnd : isDigit (rest.headD 0) = false) :
    skipAtoi env.fmt s.pos = some (ds.foldl addDigit 0, s.pos + ds.length) := by
  have hLength := h.length_le
  rw [List.length_append] at hLength
  exact skipAtoiLoop_eq h hDigits hEnd (by omega)

theorem first_digit {ds : List Byte} (hNe : ds ≠ []) (hDigits : ∀ c ∈ ds, isDigit c = true) :
    isDigit ((ds ++ rest).headD 0) = true := by
  cases ds with
  | nil => exact absurd rfl hNe
  | cons c ds => exact hDigits c List.mem_cons_self

theorem getFieldWidth_absent {c : Byte} {flags : Flags} (hc : env.fmt.charAt s.pos = some c)
    (hDigit : isDigit c = false) (hStar : c ≠ ch '*') : getFieldWidth env flags s = some (-1, flags, s) := by
  simp [getFieldWidth, hc, hDigit, hStar]

theorem getFieldWidth_digits {c : Byte} {flags : Flags} {width : Int} {pos : Nat}
    (hc : env.fmt.charAt s.pos = some c) (hDigit : isDigit c = true)
    (hAtoi : skipAtoi env.fmt s.pos = some (width, pos)) :
    getFieldWidth env flags s = some (width, flags, { s with pos := pos }) := by
  simp [getFieldWidth, hc, hDigit, hAtoi]

theorem getFieldWidth_star {flags : Flags} (hc : env.fmt.charAt s.pos = some (ch '*')) :
    getFieldWidth env flags s =
      if env.intArg s.arg < 0 then
        some (int (-env.intArg s.arg), { flags with left := true }, { s with pos := s.pos + 1, arg := s.arg + 1 })
      else some (env.intArg s.arg, flags, { s with pos := s.pos + 1, arg := s.arg + 1 }) := by
  have hDigit : isDigit (ch '*') = false := by decide
  unfold getFieldWidth
  simp only [hc, hDigit, Option.bind_eq_bind, Option.bind_some, Bool.false_eq_true, if_false, if_true]
  rfl

theorem getFieldWidth_eq {d : Directive} (h : At env.fmt s.pos (d.width.text ++ rest))
    (hEnd : d.width.Ends (rest.headD 0)) :
    getFieldWidth env (d.flags.foldl setFlag .zero) s =
      some ((d.widthValue env s.arg).1, (d.widthValue env s.arg).2.1,
        { s with pos := s.pos + d.width.text.length, arg := (d.widthValue env s.arg).2.2 }) := by
  have hc := h.charAt
  unfold Directive.widthValue
  cases hWidth : d.width with
  | absent =>
    rw [hWidth] at hEnd hc
    exact getFieldWidth_absent hc hEnd.1 hEnd.2
  | digits ds =>
    rw [hWidth] at hEnd h hc
    obtain ⟨hNe, hDigits, hEnd⟩ := hEnd
    exact getFieldWidth_digits hc (first_digit hNe hDigits) (skipAtoi_eq h hDigits hEnd)
  | star =>
    rw [hWidth] at hc
    rw [getFieldWidth_star hc]
    by_cases hNeg : env.intArg s.arg < 0
    · simp [Field.value, Field.text, hNeg]
    · simp [Field.value, Field.text, hNeg]

theorem getDigits_absent {c : Byte} (hc : env.fmt.charAt s.pos = some c)
    (hDigit : isDigit c = false) (hStar : c ≠ ch '*') : getDigits env s = some (-1, s) := by
  simp [getDigits, hc, hDigit, hStar]

theorem getDigits_digits {c : Byte} {precision : Int} {pos : Nat} (hc : env.fmt.charAt s.pos = some c)
    (hDigit : isDigit c = true) (hAtoi : skipAtoi env.fmt s.pos = some (precision, pos)) :
    getDigits env s = some (precision, { s with pos := pos }) := by
  simp [getDigits, hc, hDigit, hAtoi]

theorem getDigits_star (hc : env.fmt.charAt s.pos = some (ch '*')) :
    getDigits env s = some (env.intArg s.arg, { s with pos := s.pos + 1, arg := s.arg + 1 }) := by
  have hDigit : isDigit (ch '*') = false := by decide
  unfold getDigits
  simp only [hc, hDigit, Option.bind_eq_bind, Option.bind_some, Bool.false_eq_true, if_false, if_true]
  rfl

theorem getDigits_eq {f : Field} (h : At env.fmt s.pos (f.text ++ rest)) (hEnd : f.Ends (rest.headD 0)) :
    getDigits env s =
      some ((f.value env s.arg).1, { s with pos := s.pos + f.text.length, arg := (f.value env s.arg).2 }) := by
  have hc := h.charAt
  cases f with
  | absent => exact getDigits_absent hc hEnd.1 hEnd.2
  | digits ds =>
    obtain ⟨hNe, hDigits, hEnd⟩ := hEnd
    exact getDigits_digits hc (first_digit hNe hDigits) (skipAtoi_eq h hDigits hEnd)
  | star => exact getDigits_star hc

theorem getPrecision_absent {c : Byte} (hc : env.fmt.charAt s.pos = some c) (hDot : c ≠ ch '.') :
    getPrecision env s = some (-1, s) := by
  simp [getPrecision, hc, hDot]

theorem getPrecision_dot {precision : Int} {t : State} (hc : env.fmt.charAt s.pos = some (ch '.'))
    (hDigits : getDigits env s.advance = some (precision, t)) :
    getPrecision env s = some (if precision < 0 then 0 else precision, t) := by
  simp [getPrecision, hc, hDigits]

theorem getPrecision_eq {d : Directive} (h : At env.fmt s.pos (d.precisionText ++ rest))
    (hEnd : PrecisionEnds (rest.headD 0) d.precision) :
    getPrecision env s = some ((d.precisionValue env s.arg).1,
      { s with pos := s.pos + d.precisionText.length, arg := (d.precisionValue env s.arg).2 }) := by
  have hc := h.charAt
  unfold Directive.precisionValue Directive.precisionText at *
  cases hPrecision : d.precision with
  | none =>
    rw [hPrecision] at hEnd hc
    exact getPrecision_absent hc hEnd
  | some f =>
    rw [hPrecision] at hEnd h hc
    have hLength : s.pos + 1 + f.text.length = s.pos + (ch '.' :: f.text).length := by
      rw [List.length_cons]
      omega
    have hDigits := getDigits_eq (s := s.advance) h.tail hEnd
    change getDigits env s.advance = some (_, ⟨s.pos + 1 + f.text.length, _, _, _⟩) at hDigits
    rw [hLength] at hDigits
    exact getPrecision_dot hc hDigits

theorem getQualifier_eq {q : Option Byte} (h : At env.fmt s.pos (q.toList ++ rest))
    (hEnd : QualifierEnds (rest.headD 0) q) :
    getQualifier env s = some (q, { s with pos := s.pos + q.toList.length }) := by
  have hc := h.charAt
  unfold getQualifier
  rw [hc]
  cases q with
  | none => exact if_neg (Bool.eq_false_iff.mp hEnd)
  | some q => exact if_pos hEnd

end

/-! ## A directive -/

/-- All of a directive but its conversion. -/
def Directive.front (d : Directive) : List Byte :=
  ch '%' :: (d.flags ++ (d.width.text ++ (d.precisionText ++ d.qualifier.toList)))

theorem Directive.text_eq (d : Directive) : d.text = d.front ++ d.conv.toList := by
  simp [Directive.text, Directive.front, Directive.afterFlags, Directive.afterWidth, Directive.afterPrecision]

section
variable {env : Env} {s : State} {rest : List Byte} {d : Directive}

/-- The code takes the parts of the directive and stands on its conversion, or on the NUL. -/
theorem directive_eq (h : At env.fmt s.pos (d.text ++ rest)) (hd : d.WellFormed)
    (hEnd : d.conv = none → rest = []) :
    directive env s = convert env (d.conv.getD 0) (d.spec env s.arg).1
      { s with pos := s.pos + d.front.length, arg := (d.spec env s.arg).2 } := by
  rw [Directive.text, Directive.afterFlags, Directive.afterWidth, Directive.afterPrecision, List.cons_append,
    List.append_assoc, List.append_assoc, List.append_assoc, List.append_assoc] at h
  have hFlagsEnd := hd.flagsEnd
  have hWidthEnd := hd.width
  have hPrecisionEnd := hd.precision
  unfold Directive.afterFlags Directive.afterWidth Directive.afterPrecision at hFlagsEnd
  unfold Directive.afterWidth Directive.afterPrecision at hWidthEnd
  unfold Directive.afterPrecision at hPrecisionEnd
  rw [← headD_conv hEnd] at hPrecisionEnd
  rw [← List.append_assoc, ← headD_conv hEnd, List.append_assoc] at hWidthEnd
  rw [← List.append_assoc, ← List.append_assoc, ← headD_conv hEnd, List.append_assoc,
    List.append_assoc] at hFlagsEnd
  have hConv : (d.conv.toList ++ rest).headD 0 = d.conv.getD 0 := by
    cases hc : d.conv with
    | none => rw [hEnd hc]; rfl
    | some c => rfl
  have hQualifierEnd := hd.qualifier
  rw [← hConv] at hQualifierEnd
  -- the pointer behind each of the parts
  have hLength := h.length_le
  rw [List.length_cons, List.length_append] at hLength
  have hFlags : repeatFlags env.fmt (env.fmt.bytes.length + 1) s.pos .zero = _ :=
    repeatFlags_eq h.tail hd.flags hFlagsEnd (by omega)
  have hAfterFlags := h.tail.skip
  have hWidth := getFieldWidth_eq (s := { s with pos := s.pos + 1 + d.flags.length }) hAfterFlags hWidthEnd
  have hAfterWidth := hAfterFlags.skip
  have hPrecision := getPrecision_eq
    (s := { s with pos := s.pos + 1 + d.flags.length + d.width.text.length, arg := (d.widthValue env s.arg).2.2 })
    hAfterWidth hPrecisionEnd
  have hAfterPrecision := hAfterWidth.skip
  have hQualifier := getQualifier_eq
    (s := { s with
      pos := s.pos + 1 + d.flags.length + d.width.text.length + d.precisionText.length
      arg := (d.precisionValue env (d.widthValue env s.arg).2.2).2 }) hAfterPrecision hQualifierEnd
  have hc := hAfterPrecision.skip.charAt
  have hFront : s.pos + 1 + d.flags.length + d.width.text.length + d.precisionText.length +
      d.qualifier.toList.length = s.pos + d.front.length := by
    simp only [Directive.front, List.length_cons, List.length_append]
    omega
  rw [hConv, hFront] at hc
  rw [hFront] at hQualifier
  unfold directive
  simp only [Option.bind_eq_bind, hFlags, Option.bind_some, hWidth, hPrecision, hQualifier, hc]
  rfl

end

/-! ## The conversions -/

/-- `t` is `s` after more output; the format pointer has not moved. -/
structure Emits (s t : State) (text : List Byte) : Prop where
  pos : t.pos = s.pos
  out : t.out = s.out ++ text

section
variable (env : Env) (spec : Spec) (s : State)

theorem putNumber_emits {base : Nat} (hBase : 1 < base) (hSmall : base ≤ 36) (num : Word) :
    ∃ t text, putNumber s num base spec = some t ∧ Emits s t text := by
  obtain ⟨_, _, _, _, _, _, hText⟩ := number_layout num spec.fieldWidth spec.precision spec.flags hBase hSmall
  unfold putNumber
  rw [hText]
  exact ⟨_, _, rfl, rfl, rfl⟩

theorem putUnsigned_emits {base : Nat} (hBase : 1 < base) (hSmall : base ≤ 36) :
    ∃ t text, putUnsigned env base spec s = some t ∧ Emits s t text := by
  unfold putUnsigned
  split
  · obtain ⟨t, text, hPut, hPos, hOut⟩ := putNumber_emits spec (env.vaLong s).2 hBase hSmall (env.vaLong s).1
    exact ⟨t, text, hPut, hPos, hOut⟩
  · obtain ⟨t, text, hPut, hPos, hOut⟩ :=
      putNumber_emits spec (env.vaInt s).2 hBase hSmall ((env.vaInt s).1.setWidth 64)
    exact ⟨t, text, hPut, hPos, hOut⟩

theorem putInt_emits : ∃ t text, putInt env spec s = some t ∧ Emits s t text := by
  unfold putInt
  split
  · obtain ⟨t, text, hPut, hPos, hOut⟩ :=
      @putNumber_emits spec (env.vaLong s).2 10 (by decide) (by decide) (env.vaLong s).1
    exact ⟨t, text, hPut, hPos, hOut⟩
  · obtain ⟨t, text, hPut, hPos, hOut⟩ :=
      @putNumber_emits spec (env.vaInt s).2 10 (by decide) (by decide) ((env.vaInt s).1.signExtend 64)
    exact ⟨t, text, hPut, hPos, hOut⟩

theorem putPointer_emits : ∃ t text, putPointer env spec s = some t ∧ Emits s t text := by
  unfold putPointer
  obtain ⟨t, text, hPut, hPos, hOut⟩ := @putNumber_emits
    (if spec.fieldWidth = -1 then { spec with fieldWidth := 16, flags :=
      { spec.flags with zeropad := true } } else spec)
    (env.vaLong s).2 16 (by decide) (by decide) (env.vaLong s).1
  exact ⟨t, text, hPut, hPos, hOut⟩

/-- The conversion characters. -/
def conversions : List Byte :=
  [ch 'c', ch 's', ch 'o', ch 'p', ch 'x', ch 'X', ch 'd', ch 'i', ch 'u', ch 'n', ch '%']

theorem convert_cases {c : Byte} (hc : c ≠ 0) {P : Option State → Prop}
    (hChar : c = ch 'c' → P (some (putChar env spec s)))
    (hString : c = ch 's' → P (some (putString env spec s)))
    (hUnsigned : ∀ base flags, base = 8 ∨ base = 16 → P (putUnsigned env base { spec with flags := flags } s))
    (hPointer : c = ch 'p' → P (putPointer env spec s))
    (hInt : ∀ flags, P (putInt env { spec with flags := flags } s))
    (hCount : c = ch 'n' → P (some (storeCount env spec s)))
    (hPercent : c = ch '%' → P (some (s.emit [ch '%'])))
    (hOther : c ∉ conversions → P (some (s.emit [ch '%', c]))) : P (convert env c spec s) := by
  unfold convert
  by_cases h₁ : c = ch 'c'
  · rw [if_pos h₁]
    exact hChar h₁
  rw [if_neg h₁]
  by_cases h₂ : c = ch 's'
  · rw [if_pos h₂]
    exact hString h₂
  rw [if_neg h₂]
  by_cases h₃ : c = ch 'o'
  · rw [if_pos h₃]
    exact hUnsigned 8 spec.flags (Or.inl rfl)
  rw [if_neg h₃]
  by_cases h₄ : c = ch 'p'
  · rw [if_pos h₄]
    exact hPointer h₄
  rw [if_neg h₄]
  by_cases h₅ : c = ch 'x'
  · rw [if_pos h₅]
    exact hUnsigned 16 _ (Or.inr rfl)
  rw [if_neg h₅]
  by_cases h₆ : c = ch 'X'
  · rw [if_pos h₆]
    exact hUnsigned 16 spec.flags (Or.inr rfl)
  rw [if_neg h₆]
  by_cases h₇ : c = ch 'd' ∨ c = ch 'i'
  · rw [if_pos h₇]
    exact hInt _
  rw [if_neg h₇]
  by_cases h₈ : c = ch 'u'
  · rw [if_pos h₈]
    exact hInt spec.flags
  rw [if_neg h₈]
  by_cases h₉ : c = ch 'n'
  · rw [if_pos h₉]
    exact hCount h₉
  rw [if_neg h₉]
  by_cases h₀ : c = ch '%'
  · rw [if_pos h₀]
    exact hPercent h₀
  rw [if_neg h₀, if_pos hc]
  apply hOther
  rw [not_or] at h₇
  simp only [conversions, List.mem_cons, List.not_mem_nil, h₁, h₂, h₃, h₄, h₅, h₆, h₇.1, h₇.2, h₈, h₉, h₀,
    or_self,
    not_false_eq_true]

theorem convert_emits {c : Byte} (hc : c ≠ 0) : ∃ t text, convert env c spec s = some t ∧ Emits s t text := by
  refine convert_cases (P := fun r => ∃ t text, r = some t ∧ Emits s t text) env spec s hc ?_ ?_ ?_ ?_ ?_ ?_ ?_ ?_
  · exact fun _ => ⟨_, _, rfl, rfl, rfl⟩
  · exact fun _ => ⟨_, _, rfl, rfl, rfl⟩
  · rintro base flags (rfl | rfl)
    · exact putUnsigned_emits env _ s (by decide) (by decide)
    · exact putUnsigned_emits env _ s (by decide) (by decide)
  · exact fun _ => putPointer_emits env spec s
  · exact fun flags => putInt_emits env _ s
  · exact fun _ => ⟨_, [], rfl, rfl, (List.append_nil _).symm⟩
  · exact fun _ => ⟨_, _, rfl, rfl, rfl⟩
  · exact fun _ => ⟨_, _, rfl, rfl, rfl⟩

/-- At the NUL the pointer is stepped back, for the `fmt++` of the outer loop. -/
theorem convert_nul : convert env 0 spec s = some { s.emit [ch '%'] with pos := s.pos - 1 } := rfl

end

/-! ## The rounds of the outer loop -/

/-- A piece, and what it puts into the buffer. -/
abbrev Item := Piece × List Byte

/-- The round from `s` to `t` is on `item`: it takes the characters of the piece, and a literal one is
copied and does nothing else. -/
structure Takes (env : Env) (s t : State) (item : Item) : Prop where
  text : item.1.text = (env.fmt.bytes.drop s.pos).take (t.pos - s.pos)
  pos : t.pos = s.pos + item.1.text.length
  out : t.out = s.out ++ item.2
  literal : ∀ c, item.1 = .literal c → t = { s with pos := s.pos + 1, out := s.out ++ [c] }

/-- The rounds from `s` on, up to the NUL. -/
inductive Rounds (env : Env) : State → List Item → State → Prop
  | done {s : State} (hEnd : env.fmt.charAt s.pos = some 0) : Rounds env s [] s
  | next {s t r : State} {item : Item} {items : List Item} {c : Byte} (hc : env.fmt.charAt s.pos = some c)
      (hNe : c ≠ 0) (hRound : round env c s = some t) (hTakes : Takes env s t item)
      (hRest : Rounds env t items r) : Rounds env s (item :: items) r

theorem At.take {s : CString} {pos : Nat} {text rest : List Byte} (h : At s pos (text ++ rest)) :
    (s.bytes.drop pos).take text.length = text := by
  obtain ⟨before, hBytes, rfl⟩ := h
  rw [hBytes, List.drop_left, List.take_left]

theorem round_literal {env : Env} {s : State} {c : Byte} {rest : List Byte} (h : At env.fmt s.pos (c :: rest))
    (hc : c ≠ ch '%') : ∃ t, round env c s = some t ∧ Takes env s t (.literal c, [c]) := by
  have hText : (env.fmt.bytes.drop s.pos).take 1 = [c] := At.take (show At env.fmt s.pos ([c] ++ rest) from h)
  refine ⟨(s.emit [c]).advance, ?_, ⟨?_, rfl, rfl, ?_⟩⟩
  · unfold round
    rw [if_neg hc]
    rfl
  · change [c] = (env.fmt.bytes.drop s.pos).take (s.pos + 1 - s.pos)
    rw [Nat.add_sub_cancel_left, hText]
  · rintro d ⟨⟩
    rfl

/-- The round on a directive ends behind it, also where the format ends in it. -/
theorem round_directive {env : Env} {s : State} {d : Directive} {rest : List Byte}
    (h : At env.fmt s.pos (d.text ++ rest)) (hd : d.WellFormed) (hEnd : d.conv = none → rest = []) :
    ∃ t text, round env (ch '%') s = some t ∧ Takes env s t (.directive d, text) := by
  have hTaken : ∃ u text, directive env s = some u ∧ u.pos + 1 = s.pos + d.text.length ∧
    u.out = s.out ++ text := by
    rw [directive_eq h hd hEnd, d.text_eq, List.length_append]
    have hFront : d.front.length ≠ 0 := by
      unfold Directive.front
      rw [List.length_cons]
      omega
    cases hConv : d.conv with
    | none =>
      refine ⟨_, [ch '%'], convert_nul env _ _, ?_, rfl⟩
      change s.pos + d.front.length - 1 + 1 = s.pos + (d.front.length + 0)
      omega
    | some c =>
      have hc : c ≠ 0 := fun hZero => hd.conv (hZero ▸ hConv)
      obtain ⟨t, text, hConvert, hPos, hOut⟩ := convert_emits env (d.spec env s.arg).1 _ hc
      exact ⟨t, text, hConvert, congrArg (· + 1) hPos, hOut⟩
  obtain ⟨u, text, hDirective, hPos, hOut⟩ := hTaken
  refine ⟨u.advance, text, ?_, ⟨?_, hPos, hOut, fun c hc => by cases hc⟩⟩
  · unfold round
    rw [if_pos rfl, hDirective]
    rfl
  · change d.text = (env.fmt.bytes.drop s.pos).take (u.pos + 1 - s.pos)
    rw [hPos, Nat.add_sub_cancel_left, h.take]

theorem vsprintfLoop_next {env : Env} {rounds : Nat} {s t : State} {c : Byte}
    (hc : env.fmt.charAt s.pos = some c) (hNe : c ≠ 0) (hRound : round env c s = some t) :
    vsprintfLoop env (rounds + 1) s = vsprintfLoop env rounds t := by
  rw [vsprintfLoop, hc]
  change (if c = 0 then some s else (round env c s).bind (vsprintfLoop env rounds)) = _
  rw [if_neg hNe, hRound]
  rfl

/-- The loop follows a reading of the rest of the format. -/
theorem vsprintfLoop_rounds {env : Env} {rest : List Byte} {pieces : List Piece} (hReads : Reads rest pieces)
    {rounds : Nat} {s : State} (h : At env.fmt s.pos rest) (hRounds : rest.length < rounds) :
    ∃ t items, vsprintfLoop env rounds s = some t ∧ Rounds env s items t ∧ items.map Prod.fst = pieces := by
  induction hReads generalizing rounds s with
  | nil =>
    obtain ⟨rounds, rfl⟩ := Nat.exists_eq_succ_of_ne_zero (by omega : rounds ≠ 0)
    have hc : env.fmt.charAt s.pos = some 0 := h.charAt
    refine ⟨s, [], ?_, .done hc, rfl⟩
    simp [vsprintfLoop, hc]
  | @literal c rest pieces hc hRest ih =>
    obtain ⟨rounds, rfl⟩ := Nat.exists_eq_succ_of_ne_zero (by omega : rounds ≠ 0)
    obtain ⟨t, hRound, hTakes⟩ := round_literal h hc
    have hNe : c ≠ 0 := h.ne_nul List.mem_cons_self
    have hNext : At env.fmt t.pos rest := hTakes.pos ▸ h.tail
    rw [List.length_cons] at hRounds
    obtain ⟨r, items, hLoop, hItems, hPieces⟩ := ih hNext (Nat.lt_of_succ_lt_succ hRounds)
    refine ⟨r, _ :: items, ?_, .next h.charAt hNe hRound hTakes hItems, congrArg _ hPieces⟩
    exact (vsprintfLoop_next h.charAt hNe hRound).trans hLoop
  | @directive d rest pieces hd hEnd hRest ih =>
    obtain ⟨rounds, rfl⟩ := Nat.exists_eq_succ_of_ne_zero (by omega : rounds ≠ 0)
    obtain ⟨t, text, hRound, hTakes⟩ := round_directive h hd hEnd
    have hNe : ch '%' ≠ 0 := by decide
    have hNext : At env.fmt t.pos rest := hTakes.pos ▸ h.skip
    have hShorter : rest.length < rounds := by
      rw [Directive.text, List.cons_append, List.length_cons, List.length_append] at hRounds
      omega
    obtain ⟨r, items, hLoop, hItems, hPieces⟩ := ih hNext hShorter
    refine ⟨r, _ :: items, ?_, .next h.charAt hNe hRound hTakes hItems, congrArg _ hPieces⟩
    exact (vsprintfLoop_next h.charAt hNe hRound).trans hLoop

theorem Rounds.out {env : Env} {s t : State} {items : List Item} (h : Rounds env s items t) :
    t.out = s.out ++ items.flatMap Prod.snd := by
  induction h with
  | done => exact (List.append_nil _).symm
  | next _ _ _ hTakes _ ih => rw [ih, hTakes.out, List.flatMap_cons, List.append_assoc]

/-- The start of a call. -/
def State.start : State := ⟨0, 0, [], []⟩

theorem At.start (s : CString) : At s 0 s.bytes := ⟨[], rfl, rfl⟩

/-- `vsprintf` returns, and so has read nothing behind the NUL. Its rounds take the pieces of the format
one after the other, all of it, and put literal characters into the buffer as they are. -/
theorem vsprintf_rounds (env : Env) : ∃ t items, vsprintf env = some t ∧ Rounds env .start items t ∧
    Reads env.fmt.bytes (items.map Prod.fst) ∧ (items.map Prod.fst).flatMap Piece.text = env.fmt.bytes ∧
    t.out = items.flatMap Prod.snd := by
  obtain ⟨pieces, hReads⟩ := exists_reads env.fmt.noNul
  obtain ⟨t, items, hLoop, hItems, rfl⟩ :=
    vsprintfLoop_rounds (s := .start) hReads (At.start env.fmt) (Nat.lt_succ_self _)
  exact ⟨t, items, hLoop, hItems, hReads, hReads.text, hItems.out⟩

end KalinoteOS.Vsprintf
