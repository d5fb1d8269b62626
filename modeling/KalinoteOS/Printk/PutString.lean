import KalinoteOS.Printk.Conversion

/-! # `sys_putstring`

The user's string is the format of `color_printk`, and the arguments are whatever the registers and the
stack hold at that call.
-/
namespace KalinoteOS.Vsprintf
open Lib
set_option autoImplicit false

/-- What a call of `color_printk` sends to the screen, how much of `printk_buf` it writes from its start
on, and what it stores elsewhere. -/
structure Printed where
  text : List Byte
  written : Nat
  stores : List Store

/-- `color_printk` up to its output loop; nothing is printed in graphic mode. -/
def colorPrintk (mode : Int) (env : Env) : Option Printed :=
  if mode ≠ 0 then some ⟨[], 0, []⟩
  else do
    let t ← vsprintf env
    some ⟨t.out, t.out.length + 1, t.stores⟩

def banner : CString where
  bytes := [ch 's', ch 'y', ch 's', ch '_', ch 'p', ch 'u', ch 't', ch 's', ch 't', ch 'r', ch 'i', ch 'n',
    ch 'g', 10]
  noNul := by decide

/-- Both calls; each finds its own arguments. -/
def sysPutstring (mode : Int) (string : CString) (args args' : Nat → Word) (str : Word → CString) :
    Option (Printed × Printed) := do
  let first ← colorPrintk mode ⟨banner, args, str⟩
  let second ← colorPrintk mode ⟨string, args', str⟩
  some (first, second)

/-- In text mode the string is printed behind the banner, and only the 4096 bytes of `printk_buf` are
written, whatever the arguments are. -/
def PutsString (string : CString) : Prop :=
  ∀ args args' str, ∃ first second, sysPutstring 0 string args args' str = some (first, second) ∧
    first.text = banner.bytes ∧ second.text = string.bytes ∧
    first.written ≤ 4096 ∧ second.written ≤ 4096 ∧ first.stores = [] ∧ second.stores = []

/-- The characters with a meaning behind a percent sign. -/
def startsDirective (c : Byte) : Bool :=
  isFlag c || isDigit c || c = ch '*' || c = ch '.' || isQualifier c || conversions.contains c

/-- No percent sign has such a character behind it. -/
def NoDirective (text : List Byte) : Prop := text.IsChain fun c next => c = ch '%' → startsDirective next = false

/-- A percent sign that stands for itself. -/
structure Directive.Plain (d : Directive) : Prop where
  front : d.front = [ch '%']
  conv : ∀ c, d.conv = some c → c ∉ conversions

def Piece.Plain : Piece → Prop
  | .literal _ => True
  | .directive d => d.Plain

/-! ## Plain formats -/

theorem Directive.front_eq (d : Directive) :
    d.front = ch '%' :: (d.flags ++ (d.width.text ++ (d.precisionText ++ d.qualifier.toList))) := rfl

theorem startsDirective_iff (c : Byte) : startsDirective c = true ↔
    isFlag c = true ∨ isDigit c = true ∨ c = ch '*' ∨ c = ch '.' ∨ isQualifier c = true ∨ c ∈ conversions := by
  unfold startsDirective
  simp only [Bool.or_eq_true, decide_eq_true_eq, List.contains_iff_mem, or_assoc]

theorem Directive.WellFormed.next_of_not_plain {d : Directive} (hd : d.WellFormed) (h : ¬d.Plain) :
    ∃ c rest, d.text = ch '%' :: c :: rest ∧ startsDirective c = true := by
  have hStarts : ∀ c, _ → startsDirective c = true := fun c => (startsDirective_iff c).mpr
  obtain ⟨flags, width, precision, qualifier, conv⟩ := d
  cases flags with
  | cons c flags => exact ⟨c, _, rfl, hStarts c (Or.inl (hd.flags c List.mem_cons_self))⟩
  | nil =>
    cases width with
    | star => exact ⟨ch '*', _, rfl, by decide⟩
    | digits ds =>
      obtain ⟨hNe, hDigits, -⟩ := hd.width
      cases ds with
      | nil => exact absurd rfl hNe
      | cons c ds => exact ⟨c, _, rfl, hStarts c (Or.inr (Or.inl (hDigits c List.mem_cons_self)))⟩
    | absent =>
      cases precision with
      | some f => exact ⟨ch '.', _, rfl, by decide⟩
      | none =>
        cases qualifier with
        | some q =>
          have hq : isQualifier q = true := hd.qualifier
          exact ⟨q, _, rfl, hStarts q (by simp only [hq, true_or, or_true])⟩
        | none =>
          cases conv with
          | none => exact absurd ⟨rfl, fun c hc => by cases hc⟩ h
          | some c =>
            refine ⟨c, [], rfl, hStarts c ?_⟩
            by_contra hNot
            refine h ⟨rfl, fun e he => ?_⟩
            cases he
            exact fun hMem => hNot (by simp only [hMem, or_true])

theorem Directive.WellFormed.plain_conv {d : Directive} (hd : d.WellFormed) (h : d.Plain) {c : Byte}
    (hc : d.conv = some c) : startsDirective c = false := by
  obtain ⟨flags, width, precision, qualifier, conv⟩ := d
  have hConv : conv = some c := hc
  subst hConv
  have hFront := h.front
  rw [Directive.front_eq, List.cons.injEq] at hFront
  have hNil := hFront.2
  simp only [List.append_eq_nil_iff] at hNil
  obtain ⟨hFlags, hWidth, hPrecision, hQualifier⟩ := hNil
  subst hFlags
  cases precision with
  | some f => cases hPrecision
  | none =>
    cases qualifier with
    | some q => cases hQualifier
    | none =>
      cases width with
      | star => cases hWidth
      | digits ds => exact absurd hWidth hd.width.1
      | absent =>
        have hFlag : isFlag c = false := hd.flagsEnd
        have hDigit : isDigit c = false := hd.width.1
        have hStar : c ≠ ch '*' := hd.width.2
        have hDot : c ≠ ch '.' := hd.precision
        have hLength : isQualifier c = false := hd.qualifier
        have hOther : c ∉ conversions := h.conv c rfl
        rw [← Bool.not_eq_true, startsDirective_iff]
        simp only [hFlag, hDigit, hStar, hDot, hLength, hOther, Bool.false_eq_true, or_self, not_false_eq_true]

theorem noDirective_cons {c : Byte} (hc : c ≠ ch '%') (rest : List Byte) : NoDirective (c :: rest) ↔
    NoDirective rest := by
  unfold NoDirective
  cases rest with
  | nil => exact iff_of_true (List.isChain_singleton c) List.isChain_nil
  | cons d rest =>
    rw [List.isChain_cons_cons]
    exact ⟨fun h => h.2, fun h => ⟨fun hEq => absurd hEq hc, h⟩⟩

theorem reads_plain_iff {text : List Byte} {pieces : List Piece} (h : Reads text pieces) :
    NoDirective text ↔ ∀ p ∈ pieces, p.Plain := by
  induction h with
  | nil => exact iff_of_true List.isChain_nil fun p hp => absurd hp List.not_mem_nil
  | @literal c rest pieces hc _ ih =>
    rw [noDirective_cons hc, ih, List.forall_mem_cons]
    exact ⟨fun h => ⟨trivial, h⟩, fun h => h.2⟩
  | @directive d rest pieces hd hEnd _ ih =>
    rw [List.forall_mem_cons]
    by_cases hPlain : d.Plain
    · have hText : d.text ++ rest = ch '%' :: (d.conv.toList ++ rest) := by
        rw [d.text_eq, hPlain.front]
        rfl
      rw [hText, ← ih]
      cases hConv : d.conv with
      | none =>
        rw [hEnd hConv]
        exact iff_of_true (List.isChain_singleton _) ⟨hPlain, List.isChain_nil⟩
      | some c =>
        have hc := hd.plain_conv hPlain hConv
        have hNe : c ≠ ch '%' := by
          rintro rfl
          exact absurd hc (by decide)
        change NoDirective (ch '%' :: c :: rest) ↔ _
        unfold NoDirective
        rw [List.isChain_cons_cons]
        exact ⟨fun h => ⟨hPlain, (noDirective_cons hNe rest).mp h.2⟩,
          fun h => ⟨fun _ => hc, (noDirective_cons hNe rest).mpr h.2⟩⟩
    · obtain ⟨c, tail, hText, hc⟩ := hd.next_of_not_plain hPlain
      refine iff_of_false (fun h => ?_) (fun h => hPlain h.1)
      rw [hText] at h
      exact absurd ((List.isChain_cons_cons.mp h).1 rfl) (by rw [hc]; decide)

/-! ## What plain pieces print -/

theorem convert_other (env : Env) (spec : Spec) (s : State) {c : Byte} (hc : c ≠ 0) (hOther : c ∉ conversions) :
    convert env c spec s = some (s.emit [ch '%', c]) := by
  have hNot : ∀ {e : Byte}, e ∈ conversions → c = e → False := fun he hEq => hOther (hEq ▸ he)
  unfold convert
  rw [if_neg (hNot (by decide)), if_neg (hNot (by decide)), if_neg (hNot (by decide)), if_neg (hNot (by decide)),
    if_neg (hNot (by decide)), if_neg (hNot (by decide)),
    if_neg (fun h => h.elim (hNot (by decide)) (hNot (by decide))), if_neg (hNot (by decide)),
    if_neg (hNot (by decide)), if_neg (hNot (by decide)), if_pos hc]

theorem round_percent (env : Env) (s : State) : round env (ch '%') s = (directive env s).map State.advance := by
  unfold round
  rw [if_pos rfl]
  cases directive env s <;> rfl

section
variable {env : Env} {s : State} {d : Directive} {rest : List Byte}

theorem directive_plain (h : At env.fmt s.pos (d.text ++ rest)) (hd : d.WellFormed)
    (hEnd : d.conv = none → rest = []) (hPlain : d.Plain) :
    ∃ t, directive env s = some t ∧ t.out = s.out ++ d.text ∧ t.stores = s.stores := by
  rw [directive_eq h hd hEnd, d.text_eq, hPlain.front]
  cases hConv : d.conv with
  | none => exact ⟨_, convert_nul env _ _, rfl, rfl⟩
  | some c => exact ⟨_, convert_other env _ _ (fun hZero => hd.conv (hZero ▸ hConv)) (hPlain.conv c hConv), rfl,
      rfl⟩

end

theorem rounds_plain {env : Env} {rest : List Byte} {pieces : List Piece} (hReads : Reads rest pieces)
    {s t : State} {items : List Item} (hRounds : Rounds env s items t) (hPieces : items.map Prod.fst = pieces)
    (h : At env.fmt s.pos rest) (hPlain : ∀ p ∈ pieces, p.Plain) : t.out = s.out ++ rest ∧
      t.stores = s.stores := by
  induction hReads generalizing s items with
  | nil =>
    cases hRounds with
    | done => exact ⟨(List.append_nil _).symm, rfl⟩
    | next => cases hPieces
  | @literal c rest pieces hc _ ih =>
    cases hRounds with
    | done => cases hPieces
    | @next _ u _ item items e hChar hNe hRound hTakes hRest =>
      obtain ⟨hItem, hItems⟩ := List.cons.inj hPieces
      have hStep := hTakes.literal c hItem
      subst hStep
      obtain ⟨hOut, hStores⟩ := ih hRest hItems h.tail fun p hp => hPlain p (List.mem_cons_of_mem _ hp)
      exact ⟨hOut.trans (List.append_assoc _ _ _), hStores⟩
  | @directive d rest pieces hd hEnd _ ih =>
    cases hRounds with
    | done => cases hPieces
    | @next _ u _ item items e hChar hNe hRound hTakes hRest =>
      obtain ⟨hItem, hItems⟩ := List.cons.inj hPieces
      obtain ⟨v, hDirective, hOut, hStores⟩ := directive_plain h hd hEnd (hPlain _ List.mem_cons_self)
      have hPercent : e = ch '%' := Option.some.inj (hChar.symm.trans h.charAt)
      subst hPercent
      rw [round_percent, hDirective] at hRound
      have hNext : u = v.advance := (Option.some.inj hRound).symm
      have hPos : u.pos = s.pos + d.text.length :=
        hTakes.pos.trans (congrArg (fun p => s.pos + p.text.length) hItem)
      subst hNext
      obtain ⟨hOut', hStores'⟩ := ih hRest hItems (hPos ▸ h.skip) fun p hp => hPlain p (List.mem_cons_of_mem _ hp)
      refine ⟨?_, hStores'.trans hStores⟩
      rw [hOut', ← List.append_assoc]
      exact congrArg (· ++ rest) hOut

/-- Without a directive the buffer gets the format, and nothing else is stored. -/
theorem vsprintf_plain (env : Env) (h : NoDirective env.fmt.bytes) :
    ∃ t, vsprintf env = some t ∧ t.out = env.fmt.bytes ∧ t.stores = [] := by
  obtain ⟨t, items, hCall, hRounds, hReads, -, -⟩ := vsprintf_rounds env
  obtain ⟨hOut, hStores⟩ := rounds_plain hReads hRounds rfl (At.start _) ((reads_plain_iff hReads).mp h)
  exact ⟨t, hCall, hOut, hStores⟩

/-! ## What the other directives print

With every argument zero such a directive prints less than its own text, or no percent sign. From the first
of them on the buffer lags behind the format.
-/

theorem number_no_percent (num : Word) {base : Nat} (size precision : Int) (type : Flags) (hBase : 1 < base)
    (hSmall : base ≤ 36) : ∃ text, number num base size precision type = some text ∧ ch '%' ∉ text := by
  obtain ⟨before, pad, zeros, after, c, hc, hText⟩ := number_layout num size precision type hBase hSmall
  refine ⟨_, hText, fun hMem => ?_⟩
  rw [List.mem_append, List.mem_append] at hMem
  obtain (hMem | hMem) | hMem := hMem
  · obtain hFront | ⟨hMinus, -⟩ := mem_front num type hc hMem
    · exact absurd hFront (by decide)
    · exact absurd hMinus (by decide)
  · have hDigit := number.digitValue_tmp num base type hBase hSmall (List.mem_reverse.mp hMem)
    exact absurd hDigit (Nat.not_lt.mpr hSmall)
  · exact absurd (List.eq_of_mem_replicate hMem) (by decide)

/-- The conversion prints text without a percent sign. -/
def Silent (s : State) (r : Option State) : Prop := ∃ t text, r = some t ∧ t.out = s.out ++ text ∧ ch '%' ∉ text

section
variable (fmt : CString) (spec : Spec) (s : State)

theorem putNumber_silent {base : Nat} (hBase : 1 < base) (hSmall : base ≤ 36) (num : Word) :
    Silent s (putNumber s num base spec) := by
  obtain ⟨text, hText, hPercent⟩ := number_no_percent num spec.fieldWidth spec.precision spec.flags hBase hSmall
  refine ⟨s.emit text, text, ?_, rfl, hPercent⟩
  unfold putNumber
  rw [hText]
  rfl

theorem putUnsigned_silent (env : Env) {base : Nat} (hBase : 1 < base) (hSmall : base ≤ 36) :
    Silent s (putUnsigned env base spec s) := by
  unfold putUnsigned
  split
  · exact putNumber_silent spec (env.vaLong s).2 hBase hSmall (env.vaLong s).1
  · exact putNumber_silent spec (env.vaInt s).2 hBase hSmall ((env.vaInt s).1.setWidth 64)

theorem putInt_silent (env : Env) : Silent s (putInt env spec s) := by
  unfold putInt
  split
  · exact @putNumber_silent spec (env.vaLong s).2 10 (by decide) (by decide) (env.vaLong s).1
  · exact @putNumber_silent spec (env.vaInt s).2 10 (by decide) (by decide) ((env.vaInt s).1.signExtend 64)

theorem putPointer_silent (env : Env) : Silent s (putPointer env spec s) :=
  @putNumber_silent
    (if spec.fieldWidth = -1 then { spec with fieldWidth := 16, flags :=
      { spec.flags with zeropad := true } } else spec)
    (env.vaLong s).2 16 (by decide) (by decide) (env.vaLong s).1

theorem padded_no_percent {before after : Nat} {text : List Byte} (h : ch '%' ∉ text) :
    ch '%' ∉ List.replicate before (ch ' ') ++ text ++ List.replicate after (ch ' ') := by
  intro hMem
  rw [List.mem_append, List.mem_append] at hMem
  obtain (hMem | hMem) | hMem := hMem
  · exact absurd (List.eq_of_mem_replicate hMem) (by decide)
  · exact h hMem
  · exact absurd (List.eq_of_mem_replicate hMem) (by decide)

theorem putChar_silent : Silent s (some (putChar (.ofArg fmt 0) spec s)) :=
  ⟨_, _, rfl, rfl, padded_no_percent (by decide : ch '%' ∉ [(0 : BitVec 32).setWidth 8])⟩

theorem putString_silent : Silent s (some (putString (.ofArg fmt 0) spec s)) :=
  ⟨_, _, rfl, rfl, padded_no_percent (fun h => absurd (List.mem_of_mem_take h) List.not_mem_nil)⟩

/-- A conversion prints no percent sign, one, or itself behind one. -/
theorem convert_zero {c : Byte} (hc : c ≠ 0) : Silent s (convert (.ofArg fmt 0) c spec s) ∨
    convert (.ofArg fmt 0) c spec s = some (s.emit [ch '%']) ∨
    c ∉ conversions ∧ convert (.ofArg fmt 0) c spec s = some (s.emit [ch '%', c]) := by
  refine convert_cases (P := fun r => Silent s r ∨ r = some (s.emit [ch '%']) ∨ c ∉ conversions ∧
    r = some (s.emit [ch '%', c])) (.ofArg fmt 0) spec s hc ?_ ?_ ?_ ?_ ?_ ?_ ?_ ?_
  · exact fun _ => Or.inl (putChar_silent fmt spec s)
  · exact fun _ => Or.inl (putString_silent fmt spec s)
  · rintro base flags (rfl | rfl)
    · exact Or.inl (putUnsigned_silent _ s _ (by decide) (by decide))
    · exact Or.inl (putUnsigned_silent _ s _ (by decide) (by decide))
  · exact fun _ => Or.inl (putPointer_silent spec s _)
  · exact fun flags => Or.inl (putInt_silent _ s _)
  · exact fun _ => Or.inl ⟨_, [], rfl, (List.append_nil _).symm, List.not_mem_nil⟩
  · exact fun _ => Or.inr (Or.inl rfl)
  · exact fun hOther => Or.inr (Or.inr ⟨hOther, rfl⟩)

end

section
variable {fmt : CString} {s : State} {d : Directive} {rest : List Byte}

/-- A directive with a meaning prints less than its text, or no percent sign. -/
theorem directive_zero (h : At fmt s.pos (d.text ++ rest)) (hd : d.WellFormed) (hEnd : d.conv = none → rest = [])
    (hPlain : ¬d.Plain) : ∃ t text, directive (.ofArg fmt 0) s = some t ∧ t.out = s.out ++ text ∧
      (text.length < d.text.length ∨ ch '%' ∉ text) := by
  have hLength : d.text.length = d.front.length + d.conv.toList.length := by rw [d.text_eq, List.length_append]
  have hFront : 0 < d.front.length := Nat.succ_pos _
  have hLong : (∀ c, d.conv = some c → c ∉ conversions) → 1 < d.front.length := by
    intro hConv
    refine Nat.lt_of_le_of_ne hFront fun hOne => hPlain ⟨?_, hConv⟩
    rw [d.front_eq, List.cons.injEq, ← List.length_eq_zero_iff]
    exact ⟨rfl, Nat.succ.inj hOne.symm⟩
  rw [directive_eq (show At (Env.ofArg fmt 0).fmt s.pos (d.text ++ rest) from h) hd hEnd]
  cases hConv : d.conv with
  | none =>
    refine ⟨_, _, convert_nul _ _ _, rfl, Or.inl ?_⟩
    have hMore := hLong fun c hc => by rw [hConv] at hc; cases hc
    rw [hLength, hConv]
    exact hMore
  | some c =>
    have hc : c ≠ 0 := fun hZero => hd.conv (hZero ▸ hConv)
    rw [hConv] at hLength
    change d.text.length = d.front.length + 1 at hLength
    obtain ⟨t, text, hConvert, hOut, hPercent⟩ | hPercent | ⟨hOther, hConvert⟩ :=
      convert_zero fmt (d.spec (.ofArg fmt 0) s.arg).1
        { s with pos := s.pos + d.front.length, arg := (d.spec (.ofArg fmt 0) s.arg).2 } hc
    · exact ⟨t, text, hConvert, hOut, Or.inr hPercent⟩
    · refine ⟨_, _, hPercent, rfl, Or.inl ?_⟩
      change 1 < d.text.length
      omega
    · refine ⟨_, _, hConvert, rfl, Or.inl ?_⟩
      have hMore := hLong fun e he => by rw [hConv] at he; cases he; exact hOther
      change 2 < d.text.length
      omega

/-- Text that agrees with the format and has no percent sign ends in front of the next one. -/
theorem lags_of_no_percent {text : List Byte} (h : At fmt s.pos (ch '%' :: rest)) (hPercent : ch '%' ∉ text)
    (hAgrees : s.out ++ text <+: fmt.bytes) (hBehind : s.out.length ≤ s.pos) :
    s.out.length + text.length ≤ s.pos := by
  obtain ⟨before, hBytes, hPos⟩ := h
  by_contra hMore
  obtain ⟨after, hAfter⟩ := hAgrees
  have hIndex : fmt.bytes[s.pos]? = some (ch '%') := by
    rw [hBytes, List.getElem?_append_right (Nat.le_of_eq hPos), hPos, Nat.sub_self]
    rfl
  rw [← hAfter, List.getElem?_append_left (by rw [List.length_append]; omega),
    List.getElem?_append_right hBehind] at hIndex
  exact hPercent (List.mem_of_getElem? hIndex)

/-- The buffer is no longer than what was read of the format, and shorter behind a directive with a meaning. -/
theorem directive_lag (h : At fmt s.pos (d.text ++ rest)) (hd : d.WellFormed) (hEnd : d.conv = none → rest = [])
    {t : State} (hDirective : directive (.ofArg fmt 0) s = some t) (hAgrees : t.out <+: fmt.bytes)
    (hBehind : s.out.length ≤ s.pos) : t.out.length ≤ s.pos + d.text.length ∧
      ((s.out.length < s.pos ∨ ¬d.Plain) → t.out.length < s.pos + d.text.length) := by
  by_cases hPlain : d.Plain
  · obtain ⟨u, hPrinted, hOut, -⟩ := directive_plain
      (show At (Env.ofArg fmt 0).fmt s.pos (d.text ++ rest) from h) hd hEnd hPlain
    obtain rfl := Option.some.inj (hDirective.symm.trans hPrinted)
    rw [hOut, List.length_append]
    exact ⟨Nat.add_le_add_right hBehind _, fun hLags =>
      Nat.add_lt_add_right (hLags.resolve_right (not_not_intro hPlain)) _⟩
  · obtain ⟨u, text, hPrinted, hOut, hText⟩ := directive_zero h hd hEnd hPlain
    obtain rfl := Option.some.inj (hDirective.symm.trans hPrinted)
    have hLess : s.out.length + text.length < s.pos + d.text.length := by
      obtain hShorter | hPercent := hText
      · exact Nat.add_lt_add_of_le_of_lt hBehind hShorter
      · refine Nat.lt_of_le_of_lt (lags_of_no_percent h hPercent (hOut ▸ hAgrees) hBehind) ?_
        exact Nat.lt_add_of_pos_right (Nat.succ_pos _)
    rw [hOut, List.length_append]
    exact ⟨Nat.le_of_lt hLess, fun _ => hLess⟩

end

theorem rounds_lag {fmt : CString} {rest : List Byte} {pieces : List Piece} (hReads : Reads rest pieces)
    {s t : State} {items : List Item} (hRounds : Rounds (.ofArg fmt 0) s items t)
    (hPieces : items.map Prod.fst = pieces) (h : At fmt s.pos rest) (hAgrees : t.out <+: fmt.bytes)
    (hBehind : s.out.length ≤ s.pos) : t.out.length ≤ s.pos + rest.length ∧
      ((s.out.length < s.pos ∨ ∃ p ∈ pieces, ¬p.Plain) → t.out.length < s.pos + rest.length) := by
  induction hReads generalizing s items with
  | nil =>
    cases hRounds with
    | done =>
      refine ⟨hBehind, fun hLags => hLags.resolve_right ?_⟩
      rintro ⟨p, hp, -⟩
      exact absurd hp List.not_mem_nil
    | next => cases hPieces
  | @literal c rest pieces hc _ ih =>
    cases hRounds with
    | done => cases hPieces
    | @next _ u _ item items e hChar hNe hRound hTakes hRest =>
      obtain ⟨hItem, hItems⟩ := List.cons.inj hPieces
      have hStep := hTakes.literal c hItem
      have hPos : u.pos = s.pos + 1 := congrArg State.pos hStep
      have hLength : u.out.length = s.out.length + 1 := by rw [hStep]; exact List.length_append
      obtain ⟨hLe, hLt⟩ := ih hRest hItems (hPos ▸ h.tail) (by omega)
      rw [List.length_cons]
      refine ⟨by omega, fun hLags => ?_⟩
      have hNext : t.out.length < u.pos + rest.length := by
        refine hLt (hLags.imp (fun hLags => by omega) ?_)
        rintro ⟨p, hp, hMeaning⟩
        obtain rfl | hp := List.mem_cons.mp hp
        · exact absurd trivial hMeaning
        · exact ⟨p, hp, hMeaning⟩
      omega
  | @directive d rest pieces hd hEnd _ ih =>
    cases hRounds with
    | done => cases hPieces
    | @next _ u _ item items e hChar hNe hRound hTakes hRest =>
      obtain ⟨hItem, hItems⟩ := List.cons.inj hPieces
      have hPercent : e = ch '%' := Option.some.inj (hChar.symm.trans h.charAt)
      subst hPercent
      rw [round_percent] at hRound
      obtain ⟨v, hDirective, rfl⟩ := Option.map_eq_some_iff.mp hRound
      have hPos : v.advance.pos = s.pos + d.text.length :=
        hTakes.pos.trans (congrArg (fun p => s.pos + p.text.length) hItem)
      have hPrefix : v.out <+: fmt.bytes := by
        rw [hRest.out] at hAgrees
        exact (List.prefix_append _ _).trans hAgrees
      obtain ⟨hLe, hLt⟩ := directive_lag h hd hEnd hDirective hPrefix hBehind
      obtain ⟨hLe', hLt'⟩ := ih hRest hItems (hPos ▸ h.skip) (hPos ▸ hLe)
      rw [hPos] at hLe' hLt'
      rw [List.length_append, ← Nat.add_assoc]
      refine ⟨hLe', fun hLags => hLt' ?_⟩
      obtain hLags | ⟨p, hp, hMeaning⟩ := hLags
      · exact Or.inl (hLt (Or.inl hLags))
      · obtain rfl | hp := List.mem_cons.mp hp
        · exact Or.inl (hLt (Or.inr hMeaning))
        · exact Or.inr ⟨p, hp, hMeaning⟩

/-- A format that is printed as it is, with every argument zero, has no directive. -/
theorem noDirective_of_copied {fmt : CString} {t : State} (hCall : vsprintf (.ofArg fmt 0) = some t)
    (hOut : t.out = fmt.bytes) : NoDirective fmt.bytes := by
  obtain ⟨u, items, hCall', hRounds, hReads, -, -⟩ := vsprintf_rounds (.ofArg fmt 0)
  obtain rfl := Option.some.inj (hCall.symm.trans hCall')
  refine (reads_plain_iff hReads).mpr fun p hp => ?_
  by_contra hMeaning
  have hLess := (rounds_lag hReads hRounds rfl (At.start fmt) (hOut ▸ List.prefix_rfl) (Nat.le_refl 0)).2
    (Or.inr ⟨p, hp, hMeaning⟩)
  rw [hOut] at hLess
  exact absurd hLess (by change ¬fmt.bytes.length < 0 + fmt.bytes.length; omega)

/-! ## The system call -/

theorem colorPrintk_plain (env : Env) (h : NoDirective env.fmt.bytes) :
    colorPrintk 0 env = some ⟨env.fmt.bytes, env.fmt.bytes.length + 1, []⟩ := by
  obtain ⟨t, hCall, hOut, hStores⟩ := vsprintf_plain env h
  unfold colorPrintk
  rw [if_neg (not_not_intro rfl), hCall, ← hOut, ← hStores]
  rfl

theorem noDirective_banner : NoDirective banner.bytes := by
  unfold NoDirective
  decide

/-- The string is printed as it is exactly if no percent sign in it has a character with a meaning behind it
and it fits into `printk_buf` with its NUL. -/
theorem sysPutstring_iff (string : CString) :
    PutsString string ↔ NoDirective string.bytes ∧ string.bytes.length ≤ 4095 := by
  constructor
  · intro h
    obtain ⟨first, second, hCall, -, hText, -, hWritten, -, -⟩ :=
      h (fun _ => 0) (fun _ => 0) fun _ => ⟨[], List.not_mem_nil⟩
    obtain ⟨t, hPrinted⟩ : ∃ t, vsprintf (.ofArg string 0) = some t := by
      obtain ⟨t, -, hPrinted, -⟩ := vsprintf_rounds (.ofArg string 0)
      exact ⟨t, hPrinted⟩
    have hSecond : colorPrintk 0 (.ofArg string 0) = some ⟨t.out, t.out.length + 1, t.stores⟩ := by
      unfold colorPrintk
      rw [if_neg (not_not_intro rfl), hPrinted]
      rfl
    unfold sysPutstring at hCall
    rw [colorPrintk_plain _ noDirective_banner] at hCall
    change (colorPrintk 0 (.ofArg string 0)).bind _ = _ at hCall
    rw [hSecond] at hCall
    cases hCall
    refine ⟨noDirective_of_copied hPrinted hText, ?_⟩
    rw [← hText]
    exact Nat.le_of_succ_le_succ hWritten
  · rintro ⟨hPlain, hLength⟩ args args' str
    refine ⟨⟨banner.bytes, banner.bytes.length + 1, []⟩, ⟨string.bytes, string.bytes.length + 1, []⟩, ?_, rfl,
      rfl,
      by decide, Nat.succ_le_succ hLength, rfl, rfl⟩
    unfold sysPutstring
    rw [colorPrintk_plain _ noDirective_banner, colorPrintk_plain ⟨string, args', str⟩ hPlain]
    rfl

/-- `100%%` is printed as `100%`. -/
theorem putsString_not : ¬PutsString ⟨[ch '1', ch '0', ch '0', ch '%', ch '%'], by decide⟩ := by
  intro h
  obtain ⟨first, second, hCall, -, hText, -⟩ := h (fun _ => 0) (fun _ => 0) fun _ => ⟨[], List.not_mem_nil⟩
  have hPrinted : (sysPutstring 0 ⟨[ch '1', ch '0', ch '0', ch '%', ch '%'], by decide⟩ (fun _ => 0) (fun _ => 0)
      fun _ => ⟨[], List.not_mem_nil⟩).map (fun p => p.2.text) = some [ch '1', ch '0', ch '0', ch '%'] := by
    decide +kernel
  rw [hCall] at hPrinted
  exact absurd (hText.symm.trans (Option.some.inj hPrinted)) (by decide)

end KalinoteOS.Vsprintf
