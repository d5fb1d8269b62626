import KalinoteOS.Printk.Number

/-! # `vsprintf`

`fmt` is an offset into the format string; a read behind the NUL ends the call without a result. The
variable arguments are 8-byte slots, of which an `int` takes the low half. Memory is seen as far as
`%s` reads it, and `%n` writes it.
-/
namespace KalinoteOS.Vsprintf
open Lib
set_option autoImplicit false

/-- A string up to its NUL. -/
structure CString where
  bytes : List Byte
  noNul : 0 ∉ bytes

/-- The character at an offset; there is none behind the NUL. -/
def CString.charAt (s : CString) (pos : Nat) : Option Byte := (s.bytes ++ [0])[pos]?

/-- A store of `%n`: the low `size` bytes of `value`. -/
structure Store where
  address : Word
  size : Nat
  value : Nat
  deriving DecidableEq, Repr

/-- `str p` is the string that the pointer `p` points to. -/
structure Env where
  fmt : CString
  args : Nat → Word
  str : Word → CString

/-- `out` is what stands between `buf` and `str`; `arg` counts the arguments taken. -/
structure State where
  pos : Nat
  arg : Nat
  out : List Byte
  stores : List Store

namespace State

def emit (s : State) (text : List Byte) : State := { s with out := s.out ++ text }

def advance (s : State) : State := { s with pos := s.pos + 1 }

end State

/-- `va_arg(args, unsigned long)`, and any other type of 64 bits. -/
def Env.vaLong (env : Env) (s : State) : Word × State := (env.args s.arg, { s with arg := s.arg + 1 })

/-- `va_arg(args, int)`. -/
def Env.vaInt (env : Env) (s : State) : BitVec 32 × State :=
  ((env.args s.arg).setWidth 32, { s with arg := s.arg + 1 })

def isDigit (c : Byte) : Bool := 48 ≤ c.toNat && c.toNat ≤ 57

/-- `skip_atoi`; the rounds of its loop are bounded by the length of the string. -/
def skipAtoiLoop (fmt : CString) : Nat → Nat → Int → Option (Int × Nat)
  | 0, _, _ => none
  | rounds + 1, pos, i => do
    let c ← fmt.charAt pos
    if isDigit c then skipAtoiLoop fmt rounds (pos + 1) (int (i * 10 + c.toNat - 48)) else some (i, pos)

def skipAtoi (fmt : CString) (pos : Nat) : Option (Int × Nat) := skipAtoiLoop fmt (fmt.bytes.length + 1) pos 0

/-- The first `switch`: the flag of a character. -/
def flagOf (flags : Flags) (c : Byte) : Option Flags :=
  if c = ch '-' then some { flags with left := true }
  else if c = ch '+' then some { flags with plus := true }
  else if c = ch ' ' then some { flags with space := true }
  else if c = ch '#' then some { flags with special := true }
  else if c = ch '0' then some { flags with zeropad := true }
  else none

/-- The loop behind `repeat:`. -/
def repeatFlags (fmt : CString) : Nat → Nat → Flags → Option (Flags × Nat)
  | 0, _, _ => none
  | rounds + 1, pos, flags => do
    let c ← fmt.charAt (pos + 1)
    match flagOf flags c with
    | some flags => repeatFlags fmt rounds (pos + 1) flags
    | none => some (flags, pos + 1)

def getFieldWidth (env : Env) (flags : Flags) (s : State) : Option (Int × Flags × State) := do
  let c ← env.fmt.charAt s.pos
  if isDigit c then
    let (fieldWidth, pos) ← skipAtoi env.fmt s.pos
    some (fieldWidth, flags, { s with pos := pos })
  else if c = ch '*' then
    let (fieldWidth, s) := env.vaInt s.advance
    if fieldWidth.toInt < 0 then some (int (-fieldWidth.toInt), { flags with left := true }, s)
    else some (fieldWidth.toInt, flags, s)
  else some (-1, flags, s)

/-- The precision behind a dot. -/
def getDigits (env : Env) (s : State) : Option (Int × State) := do
  let c ← env.fmt.charAt s.pos
  if isDigit c then
    let (precision, pos) ← skipAtoi env.fmt s.pos
    some (precision, { s with pos := pos })
  else if c = ch '*' then
    let (precision, s) := env.vaInt s.advance
    some (precision.toInt, s)
  else some (-1, s)

def getPrecision (env : Env) (s : State) : Option (Int × State) := do
  let c ← env.fmt.charAt s.pos
  if c = ch '.' then
    let (precision, s) ← getDigits env s.advance
    some (if precision < 0 then 0 else precision, s)
  else some (-1, s)

def isQualifier (c : Byte) : Bool := c = ch 'h' || c = ch 'l' || c = ch 'L' || c = ch 'Z'

def getQualifier (env : Env) (s : State) : Option (Option Byte × State) := do
  let c ← env.fmt.charAt s.pos
  if isQualifier c then some (some c, s.advance) else some (none, s)

/-- What stands between the percent sign and the conversion. -/
structure Spec where
  flags : Flags
  fieldWidth : Int
  precision : Int
  qualifier : Option Byte
  deriving DecidableEq, Repr

/-- `str = number(str, …)` -/
def putNumber (s : State) (num : Word) (base : Nat) (spec : Spec) : Option State := do
  let text ← number num base spec.fieldWidth spec.precision spec.flags
  some (s.emit text)

def putChar (env : Env) (spec : Spec) (s : State) : State :=
  let (before, fieldWidth) := if spec.flags.left then (0, spec.fieldWidth) else countDownFirst spec.fieldWidth
  let (c, s) := env.vaInt s
  let after := (countDownFirst fieldWidth).1
  s.emit (List.replicate before (ch ' ') ++ [c.setWidth 8] ++ List.replicate after (ch ' '))

/-- `strlen` returns an `int`. -/
def putString (env : Env) (spec : Spec) (s : State) : State :=
  let (p, s) := env.vaLong s
  let text := (env.str p).bytes
  let len := int text.length
  let len := if spec.precision < 0 then len else if spec.precision < len then spec.precision else len
  let (before, fieldWidth) := if spec.flags.left then (0, spec.fieldWidth) else countDown len spec.fieldWidth
  let after := (countDown len fieldWidth).1
  s.emit (List.replicate before (ch ' ') ++ text.take len.toNat ++ List.replicate after (ch ' '))

/-- The conversions `o`, `x` and `X`: without `l` an `unsigned int`. -/
def putUnsigned (env : Env) (base : Nat) (spec : Spec) (s : State) : Option State :=
  if spec.qualifier = some (ch 'l') then
    let (num, s) := env.vaLong s
    putNumber s num base spec
  else
    let (num, s) := env.vaInt s
    putNumber s (num.setWidth 64) base spec

/-- The conversions `d`, `i` and `u`: without `l` an `int`. -/
def putInt (env : Env) (spec : Spec) (s : State) : Option State :=
  if spec.qualifier = some (ch 'l') then
    let (num, s) := env.vaLong s
    putNumber s num 10 spec
  else
    let (num, s) := env.vaInt s
    putNumber s (num.signExtend 64) 10 spec

def putPointer (env : Env) (spec : Spec) (s : State) : Option State :=
  let spec :=
    if spec.fieldWidth = -1 then { spec with fieldWidth := 16, flags :=
      { spec.flags with zeropad := true } } else spec
  let (num, s) := env.vaLong s
  putNumber s num 16 spec

def storeCount (env : Env) (spec : Spec) (s : State) : State :=
  let (p, s) := env.vaLong s
  { s with stores := s.stores ++ [⟨p, if spec.qualifier = some (ch 'l') then 8 else 4, s.out.length⟩] }

/-- The second `switch`, on the character at `fmt`. -/
def convert (env : Env) (c : Byte) (spec : Spec) (s : State) : Option State :=
  if c = ch 'c' then some (putChar env spec s)
  else if c = ch 's' then some (putString env spec s)
  else if c = ch 'o' then putUnsigned env 8 spec s
  else if c = ch 'p' then putPointer env spec s
  else if c = ch 'x' then putUnsigned env 16 { spec with flags := { spec.flags with small := true } } s
  else if c = ch 'X' then putUnsigned env 16 spec s
  else if c = ch 'd' ∨ c = ch 'i' then putInt env { spec with flags := { spec.flags with sign := true } } s
  else if c = ch 'u' then putInt env spec s
  else if c = ch 'n' then some (storeCount env spec s)
  else if c = ch '%' then some (s.emit [ch '%'])
  else if c ≠ 0 then some (s.emit [ch '%', c])
  else some { s.emit [ch '%'] with pos := s.pos - 1 }

/-- From a percent sign to the end of the second `switch`. -/
def directive (env : Env) (s : State) : Option State := do
  let (flags, pos) ← repeatFlags env.fmt (env.fmt.bytes.length + 1) s.pos .zero
  let (fieldWidth, flags, s) ← getFieldWidth env flags { s with pos := pos }
  let (precision, s) ← getPrecision env s
  let (qualifier, s) ← getQualifier env s
  let c ← env.fmt.charAt s.pos
  convert env c ⟨flags, fieldWidth, precision, qualifier⟩ s

/-- A round of the outer loop on the character `c`, with its `fmt++`. -/
def round (env : Env) (c : Byte) (s : State) : Option State := do
  let s ← if c = ch '%' then directive env s else some (s.emit [c])
  some s.advance

def vsprintfLoop (env : Env) : Nat → State → Option State
  | 0, _ => none
  | rounds + 1, s => do
    let c ← env.fmt.charAt s.pos
    if c = 0 then some s
    else
      let s ← round env c s
      vsprintfLoop env rounds s

/-- The rounds are bounded by the length of the string. The call returns the length of `out` and puts a
NUL behind it. -/
def vsprintf (env : Env) : Option State := vsprintfLoop env (env.fmt.bytes.length + 1) ⟨0, 0, [], []⟩

end KalinoteOS.Vsprintf
