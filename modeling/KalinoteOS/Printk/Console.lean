import KalinoteOS.Printk.Number
import Mathlib.Data.BitVec

/-! # The output loop of `color_printk`

The cursor counts characters and `putchar` takes pixels. The cells of the screen, with the cursor moving
over them as on a terminal, are what the loop is compared with.
-/
namespace KalinoteOS.Console
open Vsprintf (Byte ch int int_eq)
set_option autoImplicit false

/-- The sizes in `printk_info`, all of them an `int`; there is a whole row and column. -/
structure Screen where
  screenX : Nat
  screenY : Nat
  csizeX : Nat
  csizeY : Nat
  csizeX_pos : 0 < csizeX
  csizeY_pos : 0 < csizeY
  column : csizeX ≤ screenX
  row : csizeY ≤ screenY
  screenX_lt : screenX < 2 ^ 31
  screenY_lt : screenY < 2 ^ 31

namespace Screen

def columns (g : Screen) : Nat := g.screenX / g.csizeX

def rows (g : Screen) : Nat := g.screenY / g.csizeY

end Screen

/-- A call of `putchar`: the cursor it is made for, and its arguments. -/
structure Put where
  posX : Int
  posY : Int
  x : Int
  y : Int
  font : Byte
  deriving DecidableEq, Repr

structure State where
  count : Int
  line : Int
  posX : Int
  posY : Int
  puts : List Put
  deriving DecidableEq, Repr

section
variable (g : Screen)

def putchar (font : Byte) (s : State) : State :=
  { s with puts := s.puts ++ [⟨s.posX, s.posY, int (s.posX * g.csizeX), int (s.posY * g.csizeY), font⟩] }

def newline (s : State) : State := { s with posY := int (s.posY + 1), posX := 0 }

def backspace (s : State) : State :=
  let s := { s with posX := int (s.posX - 1) }
  let s :=
    if s.posX < 0 then
      let s := { s with posX := int ((g.columns - 1) * g.csizeX), posY := int (s.posY - 1) }
      if s.posY < 0 then { s with posY := int ((g.rows - 1) * g.csizeY) } else s
    else s
  putchar g (ch ' ') s

/-- `((pos_x + 8) & ~(8 - 1)) - pos_x` -/
def tabLine (posX : Int) : Int := ((BitVec.ofInt 32 (posX + 8) &&& ~~~7#32) - BitVec.ofInt 32 posX).toInt

/-- From `Label_tab` on. -/
def labelTab (s : State) : State :=
  let s := putchar g (ch ' ') { s with line := int (s.line - 1) }
  { s with posX := int (s.posX + 1) }

def printChar (font : Byte) (s : State) : State :=
  let s := putchar g font s
  { s with posX := int (s.posX + 1) }

/-- The two checks at the end of a round. -/
def wrapColumn (s : State) : State :=
  if g.columns ≤ s.posX then { s with posY := int (s.posY + 1), posX := 0 } else s

def wrapRow (s : State) : State := if g.rows ≤ s.posY then { s with posY := 0 } else s

def wrap (s : State) : State := wrapRow g (wrapColumn g s)

variable (text : List Byte)

/-- The branches on the character at `count`. -/
def body (s : State) : State :=
  if 0 < s.line then labelTab g { s with count := s.count - 1 }
  else
    let c := text.getD s.count.toNat 0
    if c = ch '\n' then newline s
    else if c = ch '\x08' then backspace g s
    else if c = ch '\t' then labelTab g { s with line := tabLine s.posX }
    else printChar g c s

/-- A round, with its `count++`. -/
def round (s : State) : State :=
  let s := wrap g (body g text s)
  { s with count := s.count + 1 }

/-- `i` is the length of the text in `printk_buf`. -/
def outputLoop : Nat → State → Option State
  | 0, _ => none
  | rounds + 1, s =>
    if s.count < text.length ∨ s.line ≠ 0 then outputLoop rounds (round g text s) else some s

/-- The loop of a call, with at most eight rounds for a character. -/
def output (posX posY : Int) : Option State := outputLoop g text (8 * text.length + 1) ⟨0, 0, posX, posY, []⟩

end

/-! ## The cells -/

namespace Screen
variable (g : Screen)

theorem columns_pos : 0 < g.columns := Nat.div_pos g.column g.csizeX_pos

theorem rows_pos : 0 < g.rows := Nat.div_pos g.row g.csizeY_pos

theorem columns_mul_le : g.columns * g.csizeX ≤ g.screenX := Nat.div_mul_le_self _ _

theorem rows_mul_le : g.rows * g.csizeY ≤ g.screenY := Nat.div_mul_le_self _ _

theorem columns_lt : g.columns < 2 ^ 31 := Nat.lt_of_le_of_lt (Nat.div_le_self _ _) g.screenX_lt

theorem rows_lt : g.rows < 2 ^ 31 := Nat.lt_of_le_of_lt (Nat.div_le_self _ _) g.screenY_lt

end Screen

/-- A character cell of the screen. -/
structure Cell (g : Screen) where
  column : Nat
  row : Nat
  column_lt : column < g.columns
  row_lt : row < g.rows

namespace Cell
variable {g : Screen}

/-- The start of the next line; behind the last line comes the first. -/
def down (p : Cell g) : Cell g := ⟨0, (p.row + 1) % g.rows, g.columns_pos, Nat.mod_lt _ g.rows_pos⟩

def right (p : Cell g) : Cell g :=
  if h : p.column + 1 < g.columns then ⟨p.column + 1, p.row, h, p.row_lt⟩ else p.down

/-- In front of the first line is the last. -/
def left (p : Cell g) : Cell g :=
  if 0 < p.column then ⟨p.column - 1, p.row, Nat.lt_of_le_of_lt (Nat.sub_le _ _) p.column_lt, p.row_lt⟩
  else ⟨g.columns - 1, (p.row + (g.rows - 1)) % g.rows, Nat.sub_lt g.columns_pos Nat.one_pos,
    Nat.mod_lt _ g.rows_pos⟩

/-- Where a character moves the cursor; a tab goes to the next column that eight divides, if need be on
the lines below. -/
def next (p : Cell g) (c : Byte) : Cell g :=
  if c = ch '\n' then p.down
  else if c = ch '\x08' then p.left
  else if c = ch '\t' then right^[8 - p.column % 8] p
  else p.right

/-- The code can take a `\b` here: not in the first column, or where its pixel coordinates are still the
cell in front. -/
def BackspaceFits (p : Cell g) : Prop :=
  0 < p.column ∨ (g.columns = 1 ∨ g.csizeX = 1) ∧ (0 < p.row ∨ g.rows = 1 ∨ g.csizeY = 1)

end Cell

/-- The call is made at a cell, with the pixel of its corner. -/
def Put.Inside (g : Screen) (q : Put) : Prop :=
  ∃ p : Cell g, q.posX = p.column ∧ q.posY = p.row ∧ q.x = p.column * g.csizeX ∧ q.y = p.row * g.csizeY

/-- The cell of the call lies on the screen. -/
theorem Put.Inside.pixels {g : Screen} {q : Put} (h : q.Inside g) :
    0 ≤ q.x ∧ q.x + g.csizeX ≤ g.screenX ∧ 0 ≤ q.y ∧ q.y + g.csizeY ≤ g.screenY := by
  obtain ⟨p, -, -, hx, hy⟩ := h
  have hColumn : (p.column + 1) * g.csizeX ≤ g.screenX :=
    (Nat.mul_le_mul_right _ p.column_lt).trans g.columns_mul_le
  have hRow : (p.row + 1) * g.csizeY ≤ g.screenY := (Nat.mul_le_mul_right _ p.row_lt).trans g.rows_mul_le
  rw [Nat.add_mul, Nat.one_mul] at hColumn hRow
  rw [hx, hy]
  omega

/-- Every `\b` of the text comes at a cell where the code can take it. -/
def Fits {g : Screen} (p : Cell g) (text : List Byte) : Prop :=
  ∀ before after, text = before ++ ch '\x08' :: after → (before.foldl Cell.next p).BackspaceFits

theorem fits_nil {g : Screen} (p : Cell g) : Fits p [] := by
  intro before after h
  simp at h

theorem fits_cons {g : Screen} (p : Cell g) (c : Byte) (text : List Byte) :
    Fits p (c :: text) ↔ (c = ch '\x08' → p.BackspaceFits) ∧ Fits (p.next c) text := by
  constructor
  · intro h
    refine ⟨?_, fun before after hText => h (c :: before) after (congrArg (c :: ·) hText)⟩
    rintro rfl
    exact h [] text rfl
  · rintro ⟨hFirst, hRest⟩ before after hText
    cases before with
    | nil => exact hFirst (List.cons.inj hText).1
    | cons d before =>
      obtain ⟨rfl, hTail⟩ := List.cons.inj hText
      exact hRest before after hTail

/-! ## A round -/

theorem and_not_seven (x : BitVec 32) : (x &&& ~~~7#32).toNat = x.toNat / 8 * 8 := by
  have hMask : ∀ i < 32, (~~~7#32).getLsbD i = decide (3 ≤ i) := by decide
  have hShift : x &&& ~~~7#32 = (x >>> 3) <<< 3 := by
    apply BitVec.eq_of_getLsbD_eq
    intro i hi
    rw [BitVec.getLsbD_and, hMask i hi, BitVec.getLsbD_shiftLeft, BitVec.getLsbD_ushiftRight]
    by_cases hLow : i < 3
    · simp [hLow]
    · simp [hLow, hi, Nat.le_of_not_lt hLow]
  rw [hShift, BitVec.toNat_shiftLeft, BitVec.toNat_ushiftRight, Nat.shiftLeft_eq, Nat.shiftRight_eq_div_pow]
  have hLt := x.isLt
  omega

theorem tabLine_eq {column : Nat} (h : column < 2 ^ 31) : tabLine column = (8 - column % 8 : Nat) := by
  have hAdd : BitVec.ofInt 32 ((column : Int) + 8) = BitVec.ofNat 32 (column + 8) :=
    BitVec.ofInt_natCast 32 (column + 8)
  have hNat : ((BitVec.ofInt 32 ((column : Int) + 8) &&& ~~~7#32) - BitVec.ofInt 32 column).toNat = 8 - column %
    8 := by
    rw [BitVec.toNat_sub, and_not_seven, hAdd, BitVec.ofInt_natCast, BitVec.toNat_ofNat, BitVec.toNat_ofNat]
    omega
  unfold tabLine
  rw [BitVec.toInt_eq_toNat_of_lt (by omega), hNat]

section
variable {g : Screen}

/-- The state behind `n` characters, with `line` spaces of a tab to come. -/
def State.at (n line : Nat) (p : Cell g) (puts : List Put) : State := ⟨n, line, p.column, p.row, puts⟩

/-- The call of `putchar` at a cell. -/
def Cell.put (p : Cell g) (font : Byte) : Put := ⟨p.column, p.row, p.column * g.csizeX, p.row * g.csizeY, font⟩

theorem Cell.put_inside (p : Cell g) (font : Byte) : (p.put font).Inside g := ⟨p, rfl, rfl, rfl, rfl⟩

/-- The pixel of a cell is no overflow. -/
theorem putchar_cell (p : Cell g) (font : Byte) (count line : Int) (puts : List Put) :
    putchar g font ⟨count, line, p.column, p.row, puts⟩ =
      ⟨count, line, p.column, p.row, puts ++ [p.put font]⟩ := by
  have hColumn : p.column * g.csizeX ≤ g.screenX :=
    (Nat.mul_le_mul_right _ (Nat.le_of_lt p.column_lt)).trans g.columns_mul_le
  have hRow : p.row * g.csizeY ≤ g.screenY :=
    (Nat.mul_le_mul_right _ (Nat.le_of_lt p.row_lt)).trans g.rows_mul_le
  have hScreenX := g.screenX_lt
  have hScreenY := g.screenY_lt
  have hx : int ((p.column : Int) * g.csizeX) = p.column * g.csizeX := int_eq (by omega) (by omega)
  have hy : int ((p.row : Int) * g.csizeY) = p.row * g.csizeY := int_eq (by omega) (by omega)
  unfold putchar Cell.put
  dsimp only
  rw [hx, hy]

theorem wrapRow_cell (p : Cell g) (count line : Int) (puts : List Put) :
    wrapRow g ⟨count, line, p.column, p.row, puts⟩ = ⟨count, line, p.column, p.row, puts⟩ :=
  if_neg (by have hRow := p.row_lt; dsimp only; omega)

theorem wrapRow_down (p : Cell g) (count line : Int) (puts : List Put) :
    wrapRow g ⟨count, line, 0, p.row + 1, puts⟩ = ⟨count, line, p.down.column, p.down.row, puts⟩ := by
  have hRow := p.row_lt
  unfold wrapRow Cell.down
  dsimp only
  by_cases hLast : p.row + 1 = g.rows
  · rw [if_pos (by omega), hLast, Nat.mod_self]
    rfl
  · rw [if_neg (by omega), Nat.mod_eq_of_lt (by omega)]
    rfl

theorem wrapColumn_lt {count line posX posY : Int} {puts : List Put} (h : posX < g.columns) :
    wrapColumn g ⟨count, line, posX, posY, puts⟩ = ⟨count, line, posX, posY, puts⟩ :=
  if_neg (Int.not_le.mpr h)

theorem wrapColumn_ge {count line posX posY : Int} {puts : List Put} (h : g.columns ≤ posX) :
    wrapColumn g ⟨count, line, posX, posY, puts⟩ = ⟨count, line, 0, int (posY + 1), puts⟩ :=
  if_pos h

theorem wrap_cell (p : Cell g) (count line : Int) (puts : List Put) :
    wrap g ⟨count, line, p.column, p.row, puts⟩ = ⟨count, line, p.column, p.row, puts⟩ := by
  have hColumn := p.column_lt
  unfold wrap
  rw [wrapColumn_lt (by omega), wrapRow_cell]

theorem wrap_down (p : Cell g) (count line : Int) (puts : List Put) :
    wrap g ⟨count, line, 0, p.row + 1, puts⟩ = ⟨count, line, p.down.column, p.down.row, puts⟩ := by
  have hColumns := g.columns_pos
  unfold wrap
  rw [wrapColumn_lt (by omega), wrapRow_down]

theorem wrap_right (p : Cell g) (count line : Int) (puts : List Put) :
    wrap g ⟨count, line, p.column + 1, p.row, puts⟩ = ⟨count, line, p.right.column, p.right.row, puts⟩ := by
  by_cases hLast : p.column + 1 < g.columns
  · have hRight : p.right = ⟨p.column + 1, p.row, hLast, p.row_lt⟩ := dif_pos hLast
    rw [hRight]
    exact wrap_cell ⟨p.column + 1, p.row, hLast, p.row_lt⟩ count line puts
  · have hRight : p.right = p.down := dif_neg hLast
    have hRow := p.row_lt
    have hRows := g.rows_lt
    unfold wrap
    rw [hRight, wrapColumn_ge (by omega), int_eq (by omega) (by omega), wrapRow_down]

/-- Whatever the cursor was, it is at a cell afterwards. -/
theorem wrap_inside (count line : Int) {posX posY : Int} (puts : List Put) (hX : 0 ≤ posX) (hY : 0 ≤ posY)
    (hMax : posY < 2 ^ 31 - 1) :
    ∃ p : Cell g, wrap g ⟨count, line, posX, posY, puts⟩ = ⟨count, line, p.column, p.row, puts⟩ := by
  have hRows := g.rows_pos
  have hRow : ∀ x : Int, 0 ≤ x → x < g.columns → ∀ y : Int, 0 ≤ y →
      ∃ p : Cell g, wrapRow g ⟨count, line, x, y, puts⟩ = ⟨count, line, p.column, p.row, puts⟩ := by
    intro x hx hLt y hy
    obtain ⟨column, rfl⟩ := Int.eq_ofNat_of_zero_le hx
    obtain ⟨row, rfl⟩ := Int.eq_ofNat_of_zero_le hy
    by_cases hLast : row < g.rows
    · exact ⟨⟨column, row, by omega, hLast⟩, wrapRow_cell ⟨column, row, by omega, hLast⟩ count line puts⟩
    · exact ⟨⟨column, 0, by omega, hRows⟩, if_pos (by dsimp only; omega)⟩
  unfold wrap
  by_cases hLast : posX < g.columns
  · rw [wrapColumn_lt hLast]
    exact hRow posX hX hLast posY hY
  · rw [wrapColumn_ge (Int.not_lt.mp hLast), int_eq (by omega) (by omega)]
    exact hRow 0 (Int.le_refl 0) (by have hColumns := g.columns_pos; omega) _ (by omega)

end

section
variable {g : Screen} (p : Cell g) (count line : Int) (puts : List Put)

theorem int_column : int ((p.column : Int) + 1) = p.column + 1 := by
  have hColumn := p.column_lt
  have hColumns := g.columns_lt
  exact int_eq (by omega) (by omega)

theorem newline_cell : newline ⟨count, line, p.column, p.row, puts⟩ = ⟨count, line, 0, p.row + 1, puts⟩ := by
  have hRow := p.row_lt
  have hRows := g.rows_lt
  unfold newline
  dsimp only
  rw [int_eq (by omega) (by omega)]

theorem labelTab_cell : labelTab g ⟨count, line, p.column, p.row, puts⟩ =
    ⟨count, int (line - 1), p.column + 1, p.row, puts ++ [p.put (ch ' ')]⟩ := by
  unfold labelTab
  dsimp only
  rw [putchar_cell, int_column]

theorem printChar_cell (font : Byte) : printChar g font ⟨count, line, p.column, p.row, puts⟩ =
    ⟨count, line, p.column + 1, p.row, puts ++ [p.put font]⟩ := by
  unfold printChar
  dsimp only
  rw [putchar_cell, int_column]

/-- The cursor that `\b` sets in the first column, from the pixel coordinates of the last cells. -/
def edgeX (g : Screen) : Nat := (g.columns - 1) * g.csizeX

def Cell.edgeY (p : Cell g) : Nat := if p.row = 0 then (g.rows - 1) * g.csizeY else p.row - 1

theorem edgeX_lt (g : Screen) : edgeX g < 2 ^ 31 := by
  have hMul : (g.columns - 1) * g.csizeX ≤ g.screenX :=
    (Nat.mul_le_mul_right _ (Nat.sub_le _ _)).trans g.columns_mul_le
  exact Nat.lt_of_le_of_lt hMul g.screenX_lt

theorem Cell.edgeY_lt (p : Cell g) : p.edgeY < 2 ^ 31 - 1 := by
  have hMul := g.rows_mul_le
  have hScreen := g.screenY_lt
  have hSize := g.csizeY_pos
  have hRow := p.row_lt
  have hRows := g.rows_lt
  unfold Cell.edgeY
  split
  · rw [Nat.sub_mul, Nat.one_mul]
    omega
  · omega

theorem backspace_edge (h : p.column = 0) : backspace g ⟨count, line, p.column, p.row, puts⟩ =
    putchar g (ch ' ') ⟨count, line, edgeX g, p.edgeY, puts⟩ := by
  have hRow := p.row_lt
  have hRows := g.rows_lt
  have hColumns := g.columns_pos
  have hRowsPos := g.rows_pos
  have hEdgeX := edgeX_lt g
  have hEdgeY := p.edgeY_lt
  have hX : ((g.columns : Int) - 1) * g.csizeX = edgeX g := by
    unfold edgeX
    rw [Nat.cast_mul, Nat.cast_sub hColumns, Nat.cast_one]
  have hLeft : int ((p.column : Int) - 1) = -1 := by
    rw [h]
    exact int_eq (by omega) (by omega)
  have hUp : int ((p.row : Int) - 1) = p.row - 1 := int_eq (by omega) (by omega)
  have hEdge : int (edgeX g) = edgeX g := int_eq (by omega) (by omega)
  unfold backspace
  dsimp only
  rw [hLeft, if_pos (by omega), hX, hEdge, hUp]
  by_cases hFirst : p.row = 0
  · have hY : ((g.rows : Int) - 1) * g.csizeY = p.edgeY := by
      unfold Cell.edgeY
      rw [if_pos hFirst, Nat.cast_mul, Nat.cast_sub hRowsPos, Nat.cast_one]
    rw [if_pos (by omega), hY, int_eq (by omega) (by omega)]
  · have hY : (p.row : Int) - 1 = p.edgeY := by
      unfold Cell.edgeY
      rw [if_neg hFirst]
      omega
    rw [if_neg (by omega), hY]

theorem backspace_cell (h : 0 < p.column) : backspace g ⟨count, line, p.column, p.row, puts⟩ =
    ⟨count, line, p.left.column, p.left.row, puts ++ [p.left.put (ch ' ')]⟩ := by
  have hColumn := p.column_lt
  have hColumns := g.columns_lt
  have hInt : int ((p.column : Int) - 1) = p.column - 1 := int_eq (by omega) (by omega)
  have hX : (p.column : Int) - 1 = p.left.column := by
    unfold Cell.left
    rw [if_pos h]
    dsimp only
    omega
  have hY : p.row = p.left.row := by
    unfold Cell.left
    rw [if_pos h]
  unfold backspace
  dsimp only
  rw [hInt, if_neg (by omega), hX, hY, putchar_cell]

theorem pred_mul_lt_iff {n k : Nat} (hn : 0 < n) (hk : 0 < k) : (n - 1) * k < n ↔ n = 1 ∨ k = 1 := by
  obtain ⟨n, rfl⟩ := Nat.exists_eq_add_of_lt hn
  obtain ⟨k, rfl⟩ := Nat.exists_eq_add_of_lt hk
  rw [Nat.zero_add, Nat.zero_add, Nat.add_sub_cancel, Nat.mul_add, Nat.mul_one]
  constructor
  · intro h
    have hZero : n * k = 0 := by omega
    obtain rfl | rfl := Nat.mul_eq_zero.mp hZero
    · exact Or.inl rfl
    · exact Or.inr rfl
  · rintro (h | h)
    · obtain rfl : n = 0 := by omega
      omega
    · obtain rfl : k = 0 := by omega
      omega

theorem Cell.backspaceFits_edge (h : p.column = 0) : p.BackspaceFits ↔ edgeX g < g.columns ∧
    p.edgeY < g.rows := by
  have hRow := p.row_lt
  unfold Cell.BackspaceFits edgeX Cell.edgeY
  rw [pred_mul_lt_iff g.columns_pos g.csizeX_pos, h]
  by_cases hFirst : p.row = 0
  · rw [if_pos hFirst, pred_mul_lt_iff g.rows_pos g.csizeY_pos, hFirst]
    simp only [lt_self_iff_false, false_or]
  · rw [if_neg hFirst]
    have hUp : p.row - 1 < g.rows := by omega
    simp only [lt_self_iff_false, false_or, Nat.pos_of_ne_zero hFirst, true_or, and_true, hUp]

/-- Where the coordinates are inside, they are those of the cell in front. -/
theorem Cell.left_edge (h : p.column = 0) (hX : edgeX g < g.columns) (hY : p.edgeY < g.rows) :
    p.left.column = edgeX g ∧ p.left.row = p.edgeY := by
  have hRow := p.row_lt
  have hColumns := g.columns_pos
  have hLeft : p.left = ⟨g.columns - 1, (p.row + (g.rows - 1)) % g.rows, Nat.sub_lt g.columns_pos Nat.one_pos,
      Nat.mod_lt _ g.rows_pos⟩ := if_neg (by omega)
  rw [hLeft]
  constructor
  · have hLe : g.columns - 1 ≤ edgeX g := Nat.le_mul_of_pos_right _ g.csizeX_pos
    exact Nat.le_antisymm hLe (Nat.le_sub_one_of_lt hX)
  · dsimp only
    by_cases hFirst : p.row = 0
    · have hEdge : p.edgeY = (g.rows - 1) * g.csizeY := if_pos hFirst
      have hLe : g.rows - 1 ≤ p.edgeY := hEdge ▸ Nat.le_mul_of_pos_right _ g.csizeY_pos
      rw [hFirst, Nat.zero_add, Nat.mod_eq_of_lt (by omega)]
      omega
    · have hEdge : p.edgeY = p.row - 1 := if_neg hFirst
      have hSum : p.row + (g.rows - 1) = (p.row - 1) + g.rows := by omega
      rw [hSum, Nat.add_mod_right, Nat.mod_eq_of_lt (by omega), hEdge]

end

/-! ## The loop -/

section
variable {g : Screen} {text : List Byte}

theorem outputLoop_round {rounds : Nat} {s : State} (h : s.count < text.length ∨ s.line ≠ 0) :
    outputLoop g text (rounds + 1) s = outputLoop g text rounds (round g text s) := if_pos h

theorem round_eq {s u t : State} (hBody : body g text s = u) (hWrap : wrap g u = t) :
    round g text s = { t with count := t.count + 1 } := by
  unfold round
  rw [hBody, hWrap]

theorem round_tab (n line : Nat) (p : Cell g) (puts : List Put) (hLine : line < 8) :
    round g text (.at n (line + 1) p puts) = .at n line p.right (puts ++ [p.put (ch ' ')]) := by
  have hBody : body g text (.at n (line + 1) p puts) =
      ⟨(n : Int) - 1, line, p.column + 1, p.row, puts ++ [p.put (ch ' ')]⟩ := by
    unfold body State.at
    dsimp only
    have hInt : int (((line + 1 : Nat) : Int) - 1) = line := by
      rw [int_eq (by omega) (by omega)]
      omega
    rw [if_pos (by omega), labelTab_cell, hInt]
  rw [round_eq hBody (wrap_right p _ _ _), State.at]
  dsimp only
  rw [Int.sub_add_cancel]

variable (text) in
/-- The spaces of a tab that are left. -/
theorem outputLoop_tab (n line : Nat) (p : Cell g) (puts : List Put) (hLine : line ≤ 8) :
    ∃ new : List Put, (∀ q ∈ new, q.Inside g) ∧ ∀ rounds, outputLoop g text (rounds + line) (.at n line p puts) =
      outputLoop g text rounds (.at n 0 (Cell.right^[line] p) (puts ++ new)) := by
  induction line generalizing p puts with
  | zero =>
    refine ⟨[], fun q hq => absurd hq List.not_mem_nil, fun rounds => ?_⟩
    rw [List.append_nil]
    rfl
  | succ line ih =>
    obtain ⟨new, hNew, hLoop⟩ := ih p.right (puts ++ [p.put (ch ' ')]) (Nat.le_of_succ_le hLine)
    refine ⟨p.put (ch ' ') :: new, List.forall_mem_cons.mpr ⟨p.put_inside _, hNew⟩, fun rounds => ?_⟩
    have hMore : (line + 1 : Nat) ≠ (0 : Int) := by omega
    rw [← Nat.add_assoc, outputLoop_round (Or.inr hMore), round_tab n line p puts hLine, hLoop rounds,
      Function.iterate_succ_apply, List.append_assoc]
    rfl

section
variable (n : Nat) (p : Cell g) (puts : List Put)

variable (text) in
theorem body_char : body g text (.at n 0 p puts) =
    if text.getD n 0 = ch '\n' then newline (.at n 0 p puts)
    else if text.getD n 0 = ch '\x08' then backspace g (.at n 0 p puts)
    else if text.getD n 0 = ch '\t' then labelTab g ⟨n, tabLine p.column, p.column, p.row, puts⟩
    else printChar g (text.getD n 0) (.at n 0 p puts) := if_neg (Int.lt_irrefl 0)

theorem round_newline (hc : text.getD n 0 = ch '\n') : round g text (.at n 0 p puts) =
    .at (n + 1) 0 p.down puts := by
  have hBody := body_char text n p puts
  rw [if_pos hc] at hBody
  exact round_eq (hBody.trans (newline_cell p n 0 puts)) (wrap_down p _ _ _)

theorem round_char (hNewline : text.getD n 0 ≠ ch '\n') (hBack : text.getD n 0 ≠ ch '\x08')
    (hTab : text.getD n 0 ≠ ch '\t') :
    round g text (.at n 0 p puts) = .at (n + 1) 0 p.right (puts ++ [p.put (text.getD n 0)]) := by
  have hBody := body_char text n p puts
  rw [if_neg hNewline, if_neg hBack, if_neg hTab] at hBody
  exact round_eq (hBody.trans (printChar_cell p n 0 puts _)) (wrap_right p _ _ _)

theorem round_firstTab (hc : text.getD n 0 = ch '\t') :
    round g text (.at n 0 p puts) = .at (n + 1) (7 - p.column % 8) p.right (puts ++ [p.put (ch ' ')]) := by
  have hColumn : p.column < 2 ^ 31 := p.column_lt.trans g.columns_lt
  have hLine : int (tabLine p.column - 1) = (7 - p.column % 8 : Nat) := by
    rw [tabLine_eq hColumn, int_eq (by omega) (by omega)]
    omega
  have hBody := body_char text n p puts
  rw [if_neg (by rw [hc]; decide), if_neg (by rw [hc]; decide), if_pos hc, labelTab_cell, hLine] at hBody
  exact round_eq hBody (wrap_right p _ _ _)

theorem body_backspace (hc : text.getD n 0 = ch '\x08') :
    body g text (.at n 0 p puts) = backspace g ⟨n, (0 : Nat), p.column, p.row, puts⟩ :=
  (body_char text n p puts).trans ((if_neg (by rw [hc]; decide)).trans (if_pos hc))

theorem round_backspace (hc : text.getD n 0 = ch '\x08') (hFits : p.BackspaceFits) :
    round g text (.at n 0 p puts) = .at (n + 1) 0 p.left (puts ++ [p.left.put (ch ' ')]) := by
  have hLeft : backspace g ⟨n, (0 : Nat), p.column, p.row, puts⟩ =
      ⟨n, (0 : Nat), p.left.column, p.left.row, puts ++ [p.left.put (ch ' ')]⟩ := by
    by_cases hColumn : 0 < p.column
    · exact backspace_cell p _ _ _ hColumn
    · have hZero : p.column = 0 := Nat.eq_zero_of_not_pos hColumn
      obtain ⟨hX, hY⟩ := (p.backspaceFits_edge hZero).mp hFits
      obtain ⟨hColumn, hRow⟩ := p.left_edge hZero hX hY
      rw [backspace_edge p _ _ _ hZero, ← hColumn, ← hRow, putchar_cell]
  exact round_eq ((body_backspace n p puts hc).trans hLeft) (wrap_cell p.left _ _ _)

/-- Elsewhere the space is drawn outside, and the cursor comes back to some cell. -/
theorem round_backspace_outside (hc : text.getD n 0 = ch '\x08') (hFits : ¬p.BackspaceFits) :
    ∃ (p' : Cell g) (q : Put), ¬q.Inside g ∧ round g text (.at n 0 p puts) = .at (n + 1) 0 p' (puts ++ [q]) := by
  have hZero : p.column = 0 := Nat.eq_zero_of_not_pos fun hPos => hFits (Or.inl hPos)
  have hEdge : p.edgeY < (2 : Int) ^ 31 - 1 := by
    have hLt := p.edgeY_lt
    omega
  obtain ⟨p', hWrap⟩ := wrap_inside (g := g) n (0 : Nat)
    (puts ++ [⟨edgeX g, p.edgeY, int (edgeX g * g.csizeX), int (p.edgeY * g.csizeY), ch ' '⟩])
    (Int.natCast_nonneg (edgeX g)) (Int.natCast_nonneg p.edgeY) hEdge
  refine ⟨p', _, ?_, round_eq ((body_backspace n p puts hc).trans (backspace_edge p _ _ _ hZero)) hWrap⟩
  rintro ⟨r, hX, hY, -, -⟩
  have hColumn : edgeX g = r.column := Int.ofNat_inj.mp hX
  have hRow : p.edgeY = r.row := Int.ofNat_inj.mp hY
  exact hFits ((p.backspaceFits_edge hZero).mpr ⟨hColumn ▸ r.column_lt, hRow ▸ r.row_lt⟩)

variable (text) in
/-- What the loop does on the character behind `n` others: up to eight rounds, all on the screen exactly if
the character is no `\b` that the code cannot take. -/
theorem outputLoop_char (h : n < text.length) : ∃ (k : Nat) (p' : Cell g) (new : List Put), k ≤ 8 ∧
    (∀ rounds, outputLoop g text (rounds + k) (.at n 0 p puts) =
      outputLoop g text rounds (.at (n + 1) 0 p' (puts ++ new))) ∧
    ((∀ q ∈ new, q.Inside g) ↔ (text.getD n 0 = ch '\x08' → p.BackspaceFits)) ∧
    ((text.getD n 0 = ch '\x08' → p.BackspaceFits) → p' = p.next (text.getD n 0)) := by
  have hCount : (State.at n 0 p puts).count < text.length := Int.ofNat_lt.mpr h
  have hStart : ∀ {t}, round g text (.at n 0 p puts) = t → ∀ rounds,
      outputLoop g text (rounds + 1) (.at n 0 p puts) = outputLoop g text rounds t := fun hRound rounds =>
    (outputLoop_round (Or.inl hCount)).trans (congrArg (outputLoop g text rounds) hRound)
  by_cases hNewline : text.getD n 0 = ch '\n'
  · have hBack : text.getD n 0 ≠ ch '\x08' := by rw [hNewline]; decide
    have hRound := round_newline n p puts hNewline
    rw [← List.append_nil puts] at hRound
    refine ⟨1, p.down, [], by decide, hStart (by rw [← hRound, List.append_nil]), ?_, fun _ =>
      (if_pos hNewline).symm⟩
    exact iff_of_true (fun q hq => absurd hq List.not_mem_nil) fun hEq => absurd hEq hBack
  by_cases hBack : text.getD n 0 = ch '\x08'
  · by_cases hFits : p.BackspaceFits
    · refine ⟨1, p.left, [p.left.put (ch ' ')], by decide, hStart (round_backspace n p puts hBack hFits),
        ?_, fun _ => ?_⟩
      · exact iff_of_true (List.forall_mem_singleton.mpr (p.left.put_inside _)) fun _ => hFits
      · exact ((if_neg hNewline).trans (if_pos hBack)).symm
    · obtain ⟨p', q, hOutside, hRound⟩ := round_backspace_outside n p puts hBack hFits
      refine ⟨1, p', [q], by decide, hStart hRound, ?_, fun hAll => absurd (hAll hBack) hFits⟩
      exact iff_of_false (fun hInside => hOutside (List.forall_mem_singleton.mp hInside)) fun hAll =>
        hFits (hAll hBack)
  by_cases hTab : text.getD n 0 = ch '\t'
  · obtain ⟨new, hNew, hLoop⟩ := outputLoop_tab text (n + 1) (7 - p.column % 8) p.right
      (puts ++ [p.put (ch ' ')]) (by omega)
    refine ⟨7 - p.column % 8 + 1, Cell.right^[7 - p.column % 8] p.right, p.put (ch ' ') :: new, by omega,
      fun rounds => ?_, ?_, fun _ => ?_⟩
    · rw [← Nat.add_assoc, hStart (round_firstTab n p puts hTab), hLoop rounds, List.append_assoc]
      rfl
    · exact iff_of_true (List.forall_mem_cons.mpr ⟨p.put_inside _, hNew⟩) fun hEq => absurd hEq hBack
    · have hNext : p.next (text.getD n 0) = Cell.right^[8 - p.column % 8] p :=
        (if_neg hNewline).trans ((if_neg hBack).trans (if_pos hTab))
      have hSucc : 8 - p.column % 8 = (7 - p.column % 8) + 1 := by omega
      rw [hNext, hSucc, Function.iterate_succ_apply]
  · refine ⟨1, p.right, [p.put _], by decide, hStart (round_char n p puts hNewline hBack hTab), ?_, fun _ => ?_⟩
    · exact iff_of_true (List.forall_mem_singleton.mpr (p.put_inside _)) fun hEq => absurd hEq hBack
    · exact ((if_neg hNewline).trans ((if_neg hBack).trans (if_neg hTab))).symm

end

theorem outputLoop_rest (before rest : List Byte) (hText : text = before ++ rest) (p : Cell g) (puts : List Put)
    (rounds : Nat) (hRounds : 8 * rest.length < rounds) :
    ∃ (p' : Cell g) (new : List Put), outputLoop g text rounds (.at before.length 0 p puts) =
      some (.at text.length 0 p' (puts ++ new)) ∧ ((∀ q ∈ new, q.Inside g) ↔ Fits p rest) := by
  induction rest generalizing before p puts rounds with
  | nil =>
    obtain ⟨rounds, rfl⟩ := Nat.exists_eq_add_of_lt hRounds
    rw [List.append_nil] at hText
    refine ⟨p, [], ?_, iff_of_true (fun q hq => absurd hq List.not_mem_nil) (fits_nil p)⟩
    rw [hText, List.append_nil]
    refine if_neg ?_
    rintro (hLess | hLine)
    · exact absurd hLess (Int.lt_irrefl _)
    · exact hLine rfl
  | cons c rest ih =>
    have hLength : text.length = before.length + (rest.length + 1) := by
      rw [hText, List.length_append, List.length_cons]
    have hChar : text.getD before.length 0 = c := by
      rw [hText, List.getD_eq_getElem?_getD, List.getElem?_append_right (Nat.le_refl _), Nat.sub_self]
      rfl
    obtain ⟨k, p', new, hk, hLoop, hNew, hNext⟩ := outputLoop_char text before.length p puts (by omega)
    rw [hChar] at hNew hNext
    rw [List.length_cons] at hRounds
    obtain ⟨p'', more, hRest, hMore⟩ :=
      ih (before ++ [c]) (by rw [hText, List.append_assoc]; rfl) p' (puts ++ new)
      (rounds - k) (by omega)
    have hEnough : rounds = rounds - k + k := by omega
    rw [List.length_append] at hRest
    refine ⟨p'', new ++ more, ?_, ?_⟩
    · rw [hEnough, hLoop, ← List.append_assoc]
      exact hRest
    · rw [fits_cons, List.forall_mem_append, hNew]
      refine and_congr_right fun hFits => ?_
      rw [hMore, hNext hFits]

end

/-- From any cell the loop ends with the cursor at a cell again. All the calls of `putchar` are made at cells
exactly if the text has no `\b` where the code cannot take it. -/
theorem output_inside_iff (g : Screen) (text : List Byte) (p : Cell g) :
    ∃ (t : State) (p' : Cell g), output g text p.column p.row = some t ∧ t.posX = p'.column ∧ t.posY = p'.row ∧
      ((∀ q ∈ t.puts, q.Inside g) ↔ Fits p text) := by
  obtain ⟨p', new, hLoop, hNew⟩ := outputLoop_rest [] text rfl p [] (8 * text.length + 1) (Nat.lt_succ_self _)
  exact ⟨_, p', hLoop, rfl, rfl, hNew⟩

/-- 1024 by 768 pixels with characters of 8 by 16. -/
def vga : Screen := ⟨1024, 768, 8, 16, by decide, by decide, by decide, by decide,
    (by decide : 1024 < 0x80000000),
  (by decide : 768 < 0x80000000)⟩

/-- A `\b` at the start of the second line is drawn in column 1016 of 128. -/
theorem backspace_outside : ∃ t, output vga [ch '\x08'] 0 1 = some t ∧ ¬∀ q ∈ t.puts, q.Inside vga := by
  have hRun : (output vga [ch '\x08'] 0 1).map State.puts = some [⟨1016, 0, 8128, 0, ch ' '⟩] := by decide +kernel
  obtain ⟨t, hOutput, hPuts⟩ := Option.map_eq_some_iff.mp hRun
  refine ⟨t, hOutput, fun hInside => ?_⟩
  rw [hPuts] at hInside
  obtain ⟨p, hX, -⟩ := List.forall_mem_singleton.mp hInside
  have hColumn : p.column < 128 := p.column_lt
  dsimp only at hX
  omega

end KalinoteOS.Console
