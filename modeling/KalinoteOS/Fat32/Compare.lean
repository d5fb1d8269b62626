import KalinoteOS.Lib.Bytes

/-! # Directory entries and file names

The two kinds of directory entries, and the comparison of a search name with a live entry: first
with the long name in the entries before it, then with its own short name.
-/
namespace KalinoteOS.Fat32
open Lib
set_option autoImplicit false

abbrev Byte := BitVec 8

/-- The bytes from the start of a directory entry on. -/
abbrev Entry := Bytes

def attrDirectory : Byte := 0x10
def attrLongName : Byte := 0x0f

def lowercaseBase : Byte := 8
def lowercaseExt : Byte := 16

/-! ## `struct FAT32_Directory` and `struct FAT32_LongDirectory` -/

namespace Entry

def dirName (e : Entry) (x : Nat) : Byte := e x
def dirAttr (e : Entry) : Byte := e 11
def dirNTRes (e : Entry) : Byte := e 12
def dirCrtTime (e : Entry) : Nat := Bytes.load e 14 2
def dirCrtDate (e : Entry) : Nat := Bytes.load e 16 2
def dirFstClusHI (e : Entry) : Nat := Bytes.load e 20 2
def dirWrtTime (e : Entry) : Nat := Bytes.load e 22 2
def dirWrtDate (e : Entry) : Nat := Bytes.load e 24 2
def dirFstClusLO (e : Entry) : Nat := Bytes.load e 26 2
def dirFileSize (e : Entry) : Nat := Bytes.load e 28 4

def ldirOrd (e : Entry) : Byte := e 0
def ldirName1 (e : Entry) (x : Nat) : Nat := Bytes.load e (1 + 2 * x) 2
def ldirAttr (e : Entry) : Byte := e 11
def ldirName2 (e : Entry) (x : Nat) : Nat := Bytes.load e (14 + 2 * x) 2
def ldirName3 (e : Entry) (x : Nat) : Nat := Bytes.load e (28 + 2 * x) 2

/-- The 13 characters of a long entry, in the order in which they are compared. -/
def longUnits (e : Entry) : List Nat :=
  (List.range 5).map e.ldirName1 ++ (List.range 6).map e.ldirName2 ++ (List.range 2).map e.ldirName3

def isDirectory (e : Entry) : Bool := e.dirAttr &&& attrDirectory ≠ 0

/-- The entry belongs to a long name that is not deleted. -/
def isLong (e : Entry) : Bool := e.ldirAttr = attrLongName ∧ e.ldirOrd ≠ 0xe5

/-- The loop over the entries passes over this one. -/
def skipped (e : Entry) : Bool :=
  e.dirAttr = attrLongName ∨ e.dirName 0 = 0xe5 ∨ e.dirName 0 = 0x00 ∨ e.dirName 0 = 0x05

end Entry

/-- `name` and `name_length` of the dentry that is looked up; `char` gives the bytes from `name` on,
also those behind the string. -/
structure Name where
  length : Nat
  char : Nat → Byte

/-- What is mapped from `name` on: every byte, or only the string with its terminator. -/
def Name.read (n : Name) (i : Nat) : Option Byte := some (n.char i)
def Name.readString (n : Name) (i : Nat) : Option Byte := if i ≤ n.length then some (n.char i) else none

/-- How a loop over characters ends: with its index `j`, in `continue_cmp_fail`, or because a byte
that is not mapped was read. -/
inductive Cmp where
  | done (j : Nat)
  | fail
  | stuck
  deriving DecidableEq, Repr

section
variable (length : Nat) (read : Nat → Option Byte)

/-! ## Long names -/

/-- The three loops over `LDIR_Name1`, `LDIR_Name2` and `LDIR_Name3`, which do the same. -/
def compareUnits : List Nat → Nat → Cmp
  | [], j => .done j
  | u :: us, j =>
    if j > length ∧ u = 0xffff then compareUnits us j
    else if j > length then .fail
    else
      match read j with
      | none => .stuck
      | some c => if u ≠ (c.signExtend 16).toNat then .fail else compareUnits us (j + 1)

/-- How the comparison of one entry goes on: `short` is the way to the short name. -/
inductive Verdict where
  | accept
  | fail
  | short
  | stuck
  deriving DecidableEq, Repr

/-- The loop over the entries of a long name, from `tmpldentry` at `pos` on, with the places read;
`stuck` also if it is not over after `fuel` rounds. -/
def longLoop (buf : Int → Entry) : Nat → Int → Nat → Verdict × List Int
  | 0, _, _ => (.stuck, [])
  | fuel + 1, pos, j =>
    if (buf pos).isLong then
      match compareUnits length read (buf pos).longUnits j with
      | .fail => (.fail, [pos])
      | .stuck => (.stuck, [pos])
      | .done j =>
        if length ≤ j then (.accept, [pos])
        else
          let rest := longLoop buf fuel (pos - 1) j
          (rest.1, pos :: rest.2)
    else (.short, [pos])

/-! ## Short names -/

def isLetter (c : Byte) : Bool := (0x41 ≤ c ∧ c ≤ 0x5a) ∨ (0x61 ≤ c ∧ c ≤ 0x7a)
def isDigit (c : Byte) : Bool := 0x30 ≤ c ∧ c ≤ 0x39

/-- The name has the character `v` at `j`; its characters are signed. -/
def matchChar (v : Int) (j : Nat) : Cmp :=
  match read j with
  | none => .stuck
  | some c => if c.toInt = v then .done (j + 1) else .fail

/-- A letter of the entry as it is compared: lower-cased if the flag is set. -/
def foldCase (flags flag c : Byte) : Int := c.toNat + if flags &&& flag ≠ 0 then 32 else 0

/-- One round of the loop over the base name. -/
def baseChar (e : Entry) (x j : Nat) : Cmp :=
  let c := e.dirName x
  if c = 0x20 then
    if e.isDirectory then
      if j < length then matchChar read 0x20 j
      else if j = length then .done j
      else .fail
    else
      match read j with
      | none => .stuck
      | some n => if n = 0x2e then .done j else if n.toInt = 0x20 then .done (j + 1) else .fail
  else if isLetter c then
    if j < length then matchChar read (foldCase e.dirNTRes lowercaseBase c) j else .fail
  else if isDigit c then
    if j < length then matchChar read c.toNat j else .fail
  else .done (j + 1)

/-- One round of the loop over the extension. -/
def extChar (e : Entry) (x j : Nat) : Cmp :=
  let c := e.dirName x
  if isLetter c then matchChar read (foldCase e.dirNTRes lowercaseExt c) j
  else if isDigit c then matchChar read c.toNat j
  else if c = 0x20 then matchChar read c.toNat j
  else .fail

/-- A loop over characters of the entry. -/
def charLoop (round : Nat → Nat → Cmp) : List Nat → Nat → Cmp
  | [], j => .done j
  | x :: xs, j =>
    match round x j with
    | .done j => charLoop round xs j
    | .fail => .fail
    | .stuck => .stuck

/-- The comparison with the short name; `done` is the way to `find_lookup_success`. -/
def shortCompare (e : Entry) : Cmp :=
  match charLoop (baseChar length read e) (List.range 8) 0 with
  | .done j =>
    -- the dot is passed over without a look
    if e.isDirectory then .done j else charLoop (extChar read e) [8, 9, 10] (j + 1)
  | .fail => .fail
  | .stuck => .stuck

/-- Both comparisons for the live entry at `i`, with the places read by the first. -/
def compareEntry (buf : Int → Entry) (i : Int) : Verdict × List Int :=
  let long := longLoop length read buf (length + 1) (i - 1) 0
  match long.1 with
  | .short =>
    match shortCompare length read (buf i) with
    | .done _ => (.accept, long.2)
    | .fail => (.fail, long.2)
    | .stuck => (.stuck, long.2)
  | v => (v, long.2)

end

end KalinoteOS.Fat32
