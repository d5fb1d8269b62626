import KalinoteOS.Printk.Vsprintf

/-! # The grammar of formats

A format is read as literal characters and directives, each part of a directive as long as it can be.
The rounds of `vsprintf` follow that reading: each takes one piece of the format.
-/
namespace KalinoteOS.Vsprintf
open Lib
set_option autoImplicit false

/-! ## Pieces of a format -/

/-- A field width, or what stands behind the dot of a precision. -/
inductive Field where
  | absent
  | digits (ds : List Byte)
  | star
  deriving DecidableEq, Repr

def Field.text : Field → List Byte
  | .absent => []
  | .digits ds => ds
  | .star => [ch '*']

/-- `conv` is absent where the format ends inside the directive. -/
structure Directive where
  flags : List Byte
  width : Field
  precision : Option Field
  qualifier : Option Byte
  conv : Option Byte
  deriving DecidableEq, Repr

inductive Piece where
  | literal (c : Byte)
  | directive (d : Directive)
  deriving DecidableEq, Repr

namespace Directive

def precisionText (d : Directive) : List Byte := d.precision.elim [] fun f => ch '.' :: f.text

def afterPrecision (d : Directive) : List Byte := d.qualifier.toList ++ d.conv.toList

def afterWidth (d : Directive) : List Byte := d.precisionText ++ d.afterPrecision

def afterFlags (d : Directive) : List Byte := d.width.text ++ d.afterWidth

def text (d : Directive) : List Byte := ch '%' :: (d.flags ++ d.afterFlags)

end Directive

def Piece.text : Piece → List Byte
  | .literal c => [c]
  | .directive d => d.text

def isFlag (c : Byte) : Bool := c = ch '-' || c = ch '+' || c = ch ' ' || c = ch '#' || c = ch '0'

/-- The field is as long as it can be in front of `next`. -/
def Field.Ends (next : Byte) : Field → Prop
  | .absent => isDigit next = false ∧ next ≠ ch '*'
  | .digits ds => ds ≠ [] ∧ (∀ c ∈ ds, isDigit c = true) ∧ isDigit next = false
  | .star => True

def PrecisionEnds (next : Byte) : Option Field → Prop
  | none => next ≠ ch '.'
  | some f => f.Ends next

def QualifierEnds (next : Byte) : Option Byte → Prop
  | none => isQualifier next = false
  | some q => isQualifier q = true

/-- Every part has its own characters, and none that follows it could belong to it. -/
structure Directive.WellFormed (d : Directive) : Prop where
  flags : ∀ c ∈ d.flags, isFlag c = true
  flagsEnd : isFlag (d.afterFlags.headD 0) = false
  width : d.width.Ends (d.afterWidth.headD 0)
  precision : PrecisionEnds (d.afterPrecision.headD 0) d.precision
  qualifier : QualifierEnds (d.conv.getD 0) d.qualifier
  conv : d.conv ≠ some 0

/-- The format `text`, read as pieces. -/
inductive Reads : List Byte → List Piece → Prop
  | nil : Reads [] []
  | literal {c : Byte} {rest : List Byte} {pieces : List Piece} (hc : c ≠ ch '%') (hRest : Reads rest pieces) :
      Reads (c :: rest) (.literal c :: pieces)
  | directive {d : Directive} {rest : List Byte} {pieces : List Piece} (hd : d.WellFormed)
      (hEnd : d.conv = none → rest = []) (hRest : Reads rest pieces) :
      Reads (d.text ++ rest) (.directive d :: pieces)

theorem Reads.text {text : List Byte} {pieces : List Piece} (h : Reads text pieces) :
    pieces.flatMap Piece.text = text := by
  induction h with
  | nil => rfl
  | literal _ _ ih =>
    rw [List.flatMap_cons, ih]
    rfl
  | directive _ _ _ ih =>
    rw [List.flatMap_cons, ih]
    rfl

/-! ## Every format can be read -/

theorem headD_append {a b : List Byte} (h : a = [] → b = []) : (a ++ b).headD 0 = a.headD 0 := by
  cases a with
  | nil => rw [h rfl, List.append_nil]
  | cons c a => rfl

/-- Behind a conversion no part of the directive can go on; without one the format ends. -/
theorem headD_conv {conv : Option Byte} {rest : List Byte} (hEnd : conv = none → rest = []) (front : List Byte) :
    (front ++ (conv.toList ++ rest)).headD 0 = (front ++ conv.toList).headD 0 := by
  rw [← List.append_assoc]
  apply headD_append
  intro hNil
  apply hEnd
  cases conv with
  | none => rfl
  | some c => simp at hNil

/-- The longest front of the characters that `p` accepts. -/
theorem exists_front {p : Byte → Bool} (hNul : p 0 = false) (text : List Byte) :
    ∃ front rest, text = front ++ rest ∧ (∀ c ∈ front, p c = true) ∧ p (rest.headD 0) = false := by
  induction text with
  | nil => exact ⟨[], [], rfl, fun c hc => absurd hc List.not_mem_nil, hNul⟩
  | cons c text ih =>
    by_cases hc : p c = true
    · obtain ⟨front, rest, rfl, hFront, hRest⟩ := ih
      refine ⟨c :: front, rest, rfl, fun d hd => ?_, hRest⟩
      obtain rfl | hd := List.mem_cons.mp hd
      · exact hc
      · exact hFront d hd
    · exact ⟨[], c :: text, rfl, fun d hd => absurd hd List.not_mem_nil, Bool.eq_false_iff.mpr hc⟩

theorem exists_field (text : List Byte) :
    ∃ (f : Field) (rest : List Byte), text = f.text ++ rest ∧ f.Ends (rest.headD 0) := by
  obtain ⟨front, rest, hText, hFront, hRest⟩ := exists_front (p := isDigit) (by decide) text
  by_cases hDigits : front = []
  · subst hDigits
    rw [List.nil_append] at hText
    subst hText
    by_cases hStar : text.headD 0 = ch '*'
    · cases text with
      | nil => exact absurd hStar (by decide)
      | cons c text =>
        cases hStar
        exact ⟨.star, text, rfl, trivial⟩
    · exact ⟨.absent, text, rfl, hRest, hStar⟩
  · exact ⟨.digits front, rest, hText, hDigits, hFront, hRest⟩

theorem exists_precision (text : List Byte) :
    ∃ (f : Option Field) (rest : List Byte), text = f.elim [] (fun f => ch '.' :: f.text) ++ rest ∧
      PrecisionEnds (rest.headD 0) f := by
  by_cases hDot : text.headD 0 = ch '.'
  · cases text with
    | nil => exact absurd hDot (by decide)
    | cons c text =>
      cases hDot
      obtain ⟨f, rest, rfl, hEnds⟩ := exists_field text
      exact ⟨some f, rest, rfl, hEnds⟩
  · exact ⟨none, text, rfl, hDot⟩

theorem exists_qualifier (text : List Byte) :
    ∃ (q : Option Byte) (rest : List Byte), text = q.toList ++ rest ∧ QualifierEnds (rest.headD 0) q := by
  by_cases hq : isQualifier (text.headD 0) = true
  · cases text with
    | nil => exact absurd hq (by decide)
    | cons c text => exact ⟨some c, text, rfl, hq⟩
  · exact ⟨none, text, rfl, Bool.eq_false_iff.mpr hq⟩

/-- What follows a percent sign begins with a directive. -/
theorem exists_directive {text : List Byte} (hNul : 0 ∉ text) :
    ∃ (d : Directive) (rest : List Byte), ch '%' :: text = d.text ++ rest ∧ d.WellFormed ∧
      (d.conv = none → rest = []) := by
  obtain ⟨flags, rest₁, rfl, hFlags, hFlagsEnd⟩ := exists_front (p := isFlag) (by decide) text
  obtain ⟨width, rest₂, rfl, hWidth⟩ := exists_field rest₁
  obtain ⟨precision, rest₃, rfl, hPrecision⟩ := exists_precision rest₂
  obtain ⟨qualifier, rest₄, rfl, hQualifier⟩ := exists_qualifier rest₃
  have hConv : ∃ (conv : Option Byte) (rest : List Byte), rest₄ = conv.toList ++ rest ∧ conv ≠ some 0 ∧
      (conv = none → rest = []) ∧ rest₄.headD 0 = conv.getD 0 := by
    cases rest₄ with
    | nil => exact ⟨none, [], rfl, Option.some_ne_none 0 |>.symm, fun _ => rfl, rfl⟩
    | cons c rest =>
      refine ⟨some c, rest, rfl, ?_, fun h => absurd h (Option.some_ne_none c), rfl⟩
      rintro ⟨⟩
      exact hNul (by simp)
  obtain ⟨conv, rest, rfl, hNe, hEnd, hHead⟩ := hConv
  rw [← List.append_assoc, ← List.append_assoc, headD_conv hEnd, List.append_assoc,
    List.append_assoc] at hFlagsEnd
  rw [← List.append_assoc, headD_conv hEnd, List.append_assoc] at hWidth
  rw [headD_conv hEnd] at hPrecision
  refine ⟨⟨flags, width, precision, qualifier, conv⟩, rest, ?_,
    ⟨hFlags, hFlagsEnd, hWidth, hPrecision, ?_, hNe⟩, hEnd⟩
  · simp [Directive.text, Directive.afterFlags, Directive.afterWidth, Directive.precisionText,
      Directive.afterPrecision]
  · rw [← hHead]
    exact hQualifier

theorem exists_reads {text : List Byte} (hNul : 0 ∉ text) : ∃ pieces, Reads text pieces := by
  induction hLength : text.length using Nat.strong_induction_on generalizing text with
  | _ n ih =>
    subst hLength
    cases text with
    | nil => exact ⟨[], .nil⟩
    | cons c text =>
      by_cases hc : c = ch '%'
      · subst hc
        obtain ⟨d, rest, hText, hd, hEnd⟩ := exists_directive fun h => hNul (List.mem_cons_of_mem _ h)
        have hShorter : rest.length < (ch '%' :: text).length := by
          rw [hText, List.length_append]
          unfold Directive.text
          rw [List.length_cons]
          omega
        have hRest : (0 : Byte) ∉ rest := fun h => hNul (hText ▸ List.mem_append_right _ h)
        obtain ⟨pieces, hReads⟩ := ih rest.length hShorter hRest rfl
        exact ⟨.directive d :: pieces, hText ▸ .directive hd hEnd hReads⟩
      · obtain ⟨pieces, hReads⟩ := ih text.length (Nat.lt_succ_self _)
          (fun h => hNul (List.mem_cons_of_mem _ h)) rfl
        exact ⟨.literal c :: pieces, .literal hc hReads⟩

end KalinoteOS.Vsprintf
