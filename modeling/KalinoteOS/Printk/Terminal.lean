import KalinoteOS.Printk.Console
import KalinoteOS.Lib.Loop
import Mathlib.Data.Nat.Bitwise

/-! # The text on the screen

`putchar` paints the 8 by 16 pixels of a character. After any calls of `color_printk` the frame buffer shows
the cells of a terminal, each with its last character.
-/
namespace KalinoteOS.Terminal
open Lib Console
open Vsprintf (Byte ch int int_eq)
set_option autoImplicit false

/-- `color_code` and `vram_addr`. -/
abbrev Color := BitVec 32

/-- `font_ascii`: the rows of each character, the left pixel in the high bit. -/
abbrev Font := Byte → Nat → Byte

/-- The loop over a row: the buffer, `addr` and `testval`. -/
structure Row where
  vram : Int → Color
  addr : Int
  testval : Nat

def rowStep (fontp : Byte) (fColor bColor : Color) (s : Row) : Row :=
  let testval := s.testval >>> 1
  ⟨Function.update s.vram s.addr (if fontp.toNat &&& testval ≠ 0 then fColor else bColor), s.addr + 1, testval⟩

def putchar (font : Font) (vram : Int → Color) (xsize x y : Int) (fColor bColor : Color) (c : Byte) :
    Int → Color :=
  forUp 0 16 (fun i vram =>
    (forUp 0 8 (fun _ s => rowStep (font c i.toNat) fColor bColor s) ⟨vram, int (xsize * int (y + i)) + x,
      0x100⟩).vram)
    vram

/-- What is used of `printk_info` besides the sizes. -/
structure PrintkInfo where
  mode : Int
  posX : Int
  posY : Int
  vram : Int → Color

/-- A call: the colours, and what `vsprintf` has left in `printk_buf`. -/
structure Print where
  fColor : Color
  bColor : Color
  text : List Byte

/-- `color_printk`: the characters are painted one after the other. -/
def colorPrintk (font : Font) (g : Screen) (s : PrintkInfo) (print : Print) : Option PrintkInfo :=
  if s.mode ≠ 0 then some s
  else
    (output g print.text s.posX s.posY).map fun t =>
      { s with
        posX := t.posX
        posY := t.posY
        vram := t.puts.foldl
          (fun vram q => putchar font vram g.screenX q.x q.y print.fColor print.bColor q.font) s.vram }

def colorPrintks (font : Font) (g : Screen) : List Print → PrintkInfo → Option PrintkInfo
  | [], s => some s
  | print :: prints, s => (colorPrintk font g s print).bind (colorPrintks font g prints)

/-! ## The terminal -/

structure Glyph where
  fColor : Color
  bColor : Color
  font : Byte

/-- The pixel in column `i` and row `j` of a character. -/
def Glyph.pixel (font : Font) (glyph : Glyph) (i j : Nat) : Color :=
  if (font glyph.font j).getLsbD (7 - i) then glyph.fColor else glyph.bColor

/-- The cursor, and the last character at a place; `none` where nothing was printed. -/
structure Term (g : Screen) where
  cursor : Cell g
  shown : Nat × Nat → Option Glyph

/-- The spaces of a tab. -/
def spaces {g : Screen} (p : Cell g) : Nat → List (Cell g × Byte)
  | 0 => []
  | n + 1 => (p, ch ' ') :: spaces p.right n

/-- The characters that one character of the text leaves, and where. -/
def drawn {g : Screen} (p : Cell g) (c : Byte) : List (Cell g × Byte) :=
  if c = ch '\n' then []
  else if c = ch '\x08' then [(p.left, ch ' ')]
  else if c = ch '\t' then spaces p (8 - p.column % 8)
  else [(p, c)]

section
variable {g : Screen}

def draw (fColor bColor : Color) (shown : Nat × Nat → Option Glyph) (q : Cell g × Byte) : Nat × Nat →
    Option Glyph :=
  Function.update shown (q.1.column, q.1.row) (some ⟨fColor, bColor, q.2⟩)

def Term.type (fColor bColor : Color) (t : Term g) (c : Byte) : Term g :=
  ⟨t.cursor.next c, (drawn t.cursor c).foldl (draw fColor bColor) t.shown⟩

def Term.print (t : Term g) (print : Print) : Term g := print.text.foldl (Term.type print.fColor print.bColor) t

/-- The pixel that the terminal has at `x`, `y`, in front of an old picture. -/
def Term.pixel (font : Font) (old : Int → Color) (t : Term g) (x y : Nat) : Color :=
  match t.shown (x / 8, y / 16) with
  | some glyph => glyph.pixel font (x % 8) (y % 16)
  | none => old (y * g.screenX + x)

/-- The buffer has the terminal on the screen, and nothing else has changed. -/
structure Shows (font : Font) (g : Screen) (old vram : Int → Color) (t : Term g) : Prop where
  inside : ∀ x y, x < g.screenX → y < g.screenY → vram (y * g.screenX + x) = t.pixel font old x y
  outside : ∀ a, a < 0 ∨ (g.screenX : Int) * g.screenY ≤ a → vram a = old a

/-- No text has a `\b` that the code cannot take. -/
def AllFit : Cell g → List Print → Prop
  | _, [] => True
  | p, print :: prints => Fits p print.text ∧ AllFit (print.text.foldl Cell.next p) prints

end

/-! ## One character -/

section
variable {font : Font} {fColor bColor : Color} {c : Byte}

theorem and_bit (fontp : Byte) (k : Nat) : fontp.toNat &&& 2 ^ k ≠ 0 ↔ fontp.getLsbD k = true := by
  rw [Nat.and_two_pow, BitVec.getLsbD]
  cases fontp.toNat.testBit k with
  | false => simp
  | true => simp

/-- `addr` and `testval` follow the counter. -/
theorem row_from (fontp : Byte) (addr : Int) (n lo : Nat) (hEnd : lo + n = 8) (s : Row)
    (hAddr : s.addr = addr + lo)
    (hTest : s.testval = 2 ^ (8 - lo)) :
    (upFrom (fun _ s => rowStep fontp fColor bColor s) lo n s).vram =
      upFrom (fun j vram => store vram (addr + j) (some (if fontp.getLsbD (7 - j.toNat) then fColor else bColor)))
        lo n s.vram := by
  induction n generalizing lo s with
  | zero => rfl
  | succ n ih =>
    have hShift : s.testval >>> 1 = 2 ^ (7 - lo) := by
      have hPower : 8 - lo = 7 - lo + 1 := by omega
      rw [hTest, hPower, Nat.shiftRight_eq_div_pow, Nat.pow_succ]
      exact Nat.mul_div_cancel _ (by decide)
    have hVram : (rowStep fontp fColor bColor s).vram =
        store s.vram (addr + lo) (some (if fontp.getLsbD (7 - (lo : Int).toNat) then fColor else bColor)) := by
      simp only [rowStep, store, hShift, hAddr, Int.toNat_natCast, and_bit]
    have hNext := ih (lo + 1) (by omega) (rowStep fontp fColor bColor s)
      (by simp only [rowStep, hAddr]; omega) (by simp only [rowStep, hShift]; congr 1; omega)
    rw [Nat.cast_succ] at hNext
    rw [upFrom, upFrom, hNext, hVram]

theorem forUp_congr {σ : Type} {lo hi : Int} {body body' : Int → σ → σ} {s : σ}
    (h : ∀ i s, lo ≤ i → i < hi → body i s = body' i s) : forUp lo hi body s = forUp lo hi body' s :=
  forUp_map id h

section
variable {g : Screen} (hSize : g.screenX * g.screenY < 2 ^ 31)
include hSize

/-- On the screen the character is a picture of 8 by 16. -/
theorem putchar_eq_paint (vram : Int → Color) {x y : Int} (hY : 0 ≤ y) (hRows : y + 16 ≤ g.screenY) :
    putchar font vram g.screenX x y fColor bColor c =
      paint g.screenX x y 0 0 8 16
        (fun j i => some (if (font c i.toNat).getLsbD (7 - j.toNat) then fColor else bColor)) vram := by
  apply forUp_congr
  intro i vram hi₀ hi
  have hScreenY := g.screenY_lt
  have hRow : int (y + i) = y + i := int_eq (by omega) (by omega)
  have hLow : 0 ≤ (g.screenX : Int) * (y + i) := Int.mul_nonneg (by omega) (by omega)
  have hHigh : (g.screenX : Int) * (y + i) ≤ (g.screenX : Int) * g.screenY :=
    Int.mul_le_mul_of_nonneg_left (by omega) (by omega)
  have hArea : (g.screenX : Int) * g.screenY < 2 ^ 31 := by exact_mod_cast hSize
  have hAddr : int (g.screenX * (y + i)) = g.screenX * (y + i) := int_eq (by omega) (by omega)
  rw [hRow, hAddr]
  refine (row_from (font c i.toNat) (g.screenX * (y + i) + x) 8 0 rfl
    ⟨vram, g.screenX * (y + i) + x, 0x100⟩ (by simp) rfl).trans (@forUp_congr _ 0 8 _ _ _ fun j vram _ _ => ?_)
  have hCell : (g.screenX : Int) * (y + i) + x + j = (y + i) * g.screenX + (x + j) := by
    rw [Int.mul_comm, Int.add_assoc]
  rw [hCell]

variable (hColumn : g.csizeX = 8) (hRow : g.csizeY = 16)

omit hSize in
theorem cell_bounds (p : Cell g) (hColumn : g.csizeX = 8) (hRow : g.csizeY = 16) :
    p.column * 8 + 8 ≤ g.screenX ∧ p.row * 16 + 16 ≤ g.screenY := by
  have hX : (p.column + 1) * g.csizeX ≤ g.screenX := (Nat.mul_le_mul_right _ p.column_lt).trans g.columns_mul_le
  have hY : (p.row + 1) * g.csizeY ≤ g.screenY := (Nat.mul_le_mul_right _ p.row_lt).trans g.rows_mul_le
  rw [hColumn] at hX
  rw [hRow] at hY
  omega

include hColumn hRow

/-- A character at a cell is what the terminal has there next. -/
theorem Shows.put {old vram : Int → Color} {t : Term g} (h : Shows font g old vram t) (p q : Cell g) :
    Shows font g old (putchar font vram g.screenX (p.put c).x (p.put c).y fColor bColor c)
      ⟨q, draw fColor bColor t.shown (p, c)⟩ := by
  obtain ⟨hX, hY⟩ := cell_bounds p hColumn hRow
  have hPutX : (p.put c).x = (p.column * 8 : Nat) := by simp [Cell.put, hColumn]
  have hPutY : (p.put c).y = (p.row * 16 : Nat) := by simp [Cell.put, hRow]
  rw [hPutX, hPutY, putchar_eq_paint hSize vram (by omega) (by omega)]
  constructor
  · intro x y hx hy
    by_cases hIn : x / 8 = p.column ∧ y / 16 = p.row
    · obtain ⟨hInX, hInY⟩ := hIn
      have hI : ((x : Int) - (p.column * 8 : Nat)).toNat = x % 8 := by omega
      have hJ : ((y : Int) - (p.row * 16 : Nat)).toNat = y % 16 := by omega
      rw [paint_inside (by omega) (by omega) (by omega) (by omega) (by omega) (by omega) (by omega)
        (by omega) rfl,
        hI, hJ]
      simp [Term.pixel, draw, hInX, hInY, Glyph.pixel]
    · rw [paint_outside (by omega) (by omega) (by omega) (by omega) (by omega), h.inside x y hx hy]
      have hNe : (x / 8, y / 16) ≠ (p.column, p.row) := by
        intro hEq
        exact hIn (Prod.mk.inj hEq)
      simp [Term.pixel, draw, Function.update_of_ne hNe]
  · intro a ha
    have hPos : (0 : Int) < g.screenX := by omega
    have hAt : a = a / g.screenX * g.screenX + a % g.screenX := by
      rw [Int.mul_comm]
      exact (Int.mul_ediv_add_emod a g.screenX).symm
    have hMod := Int.emod_nonneg a (by omega : (g.screenX : Int) ≠ 0)
    have hLt := Int.emod_lt_of_pos a hPos
    have hOff : a / g.screenX < 0 ∨ g.screenY ≤ a / g.screenX := by
      obtain hNeg | hBig := ha
      · exact Or.inl (Int.ediv_neg_of_neg_of_pos hNeg hPos)
      · refine Or.inr ((Int.le_ediv_iff_mul_le hPos).mpr ?_)
        rw [Int.mul_comm]
        exact hBig
    have hSame := h.outside a ha
    rw [hAt] at hSame ⊢
    rw [paint_outside (by omega) (by omega) hMod hLt (by omega), hSame]

end

end

/-! ## The calls of a text -/

section
variable {g : Screen} {text : List Byte}

def drawnAll (p : Cell g) : List Byte → List (Cell g × Byte)
  | [] => []
  | c :: text => drawn p c ++ drawnAll (p.next c) text

def puts (qs : List (Cell g × Byte)) : List Put := qs.map fun q => q.1.put q.2

variable (text) in
theorem outputLoop_spaces (n line : Nat) (p : Cell g) (done : List Put) (hLine : line ≤ 8) (rounds : Nat) :
    outputLoop g text (rounds + line) (.at n line p done) = outputLoop g text rounds
      (.at n 0 (Cell.right^[line] p) (done ++ puts (spaces p line))) := by
  induction line generalizing p done with
  | zero => simp [puts, spaces]
  | succ line ih =>
    have hMore : (line + 1 : Nat) ≠ (0 : Int) := by omega
    rw [← Nat.add_assoc, outputLoop_round (Or.inr hMore), round_tab n line p done hLine, ih p.right _ (by omega),
      Function.iterate_succ_apply]
    simp [puts, spaces]

variable (text) in
/-- The rounds for one character, with what they draw. -/
theorem outputLoop_drawn (n : Nat) (p : Cell g) (done : List Put) (h : n < text.length)
    (hFits : text.getD n 0 = ch '\x08' → p.BackspaceFits) : ∃ k, k ≤ 8 ∧ ∀ rounds,
      outputLoop g text (rounds + k) (.at n 0 p done) = outputLoop g text rounds
        (.at (n + 1) 0 (p.next (text.getD n 0)) (done ++ puts (drawn p (text.getD n 0)))) := by
  have hCount : (State.at n 0 p done).count < text.length := Int.ofNat_lt.mpr h
  obtain ⟨c, hc⟩ : ∃ c, text.getD n 0 = c := ⟨_, rfl⟩
  rw [hc] at hFits ⊢
  unfold Cell.next drawn
  by_cases hNewline : c = ch '\n'
  · refine ⟨1, by decide, fun rounds => ?_⟩
    rw [outputLoop_round (Or.inl hCount), round_newline n p done (hc.trans hNewline), if_pos hNewline,
      if_pos hNewline]
    simp [puts]
  rw [if_neg hNewline, if_neg hNewline]
  by_cases hBack : c = ch '\x08'
  · refine ⟨1, by decide, fun rounds => ?_⟩
    rw [outputLoop_round (Or.inl hCount), round_backspace n p done (hc.trans hBack) (hFits hBack), if_pos hBack,
      if_pos hBack]
    simp [puts]
  rw [if_neg hBack, if_neg hBack]
  by_cases hTab : c = ch '\t'
  · have hEight : 8 - p.column % 8 = (7 - p.column % 8) + 1 := by omega
    refine ⟨7 - p.column % 8 + 1, by omega, fun rounds => ?_⟩
    rw [← Nat.add_assoc, outputLoop_round (Or.inl hCount), round_firstTab n p done (hc.trans hTab),
      outputLoop_spaces text (n + 1) _ p.right _ (by omega), if_pos hTab, if_pos hTab, hEight,
      Function.iterate_succ_apply]
    simp [puts, spaces]
  · refine ⟨1, by decide, fun rounds => ?_⟩
    rw [outputLoop_round (Or.inl hCount), round_char n p done (hc ▸ hNewline) (hc ▸ hBack) (hc ▸ hTab), hc,
      if_neg hTab, if_neg hTab]
    simp [puts]

theorem outputLoop_text (before rest : List Byte) (hText : text = before ++ rest) (p : Cell g) (done : List Put)
    (hFits : Fits p rest) (rounds : Nat) (hRounds : 8 * rest.length < rounds) :
    outputLoop g text rounds (.at before.length 0 p done) =
      some (.at text.length 0 (rest.foldl Cell.next p) (done ++ puts (drawnAll p rest))) := by
  induction rest generalizing before p done rounds with
  | nil =>
    obtain ⟨rounds, rfl⟩ := Nat.exists_eq_add_of_lt hRounds
    rw [List.append_nil] at hText
    have hEnd : outputLoop g text (8 * ([] : List Byte).length + rounds + 1) (.at before.length 0 p done) =
        some (.at before.length 0 p done) := by
      refine if_neg ?_
      rintro (hLess | hLine)
      · rw [hText] at hLess
        exact absurd hLess (Int.lt_irrefl _)
      · exact hLine rfl
    rw [hEnd, hText]
    simp [drawnAll, puts]
  | cons c rest ih =>
    have hLength : text.length = before.length + (rest.length + 1) := by
      rw [hText, List.length_append, List.length_cons]
    have hChar : text.getD before.length 0 = c := by
      rw [hText, List.getD_eq_getElem?_getD, List.getElem?_append_right (Nat.le_refl _), Nat.sub_self]
      rfl
    obtain ⟨hHead, hTail⟩ := (fits_cons p c rest).mp hFits
    obtain ⟨k, hk, hLoop⟩ := outputLoop_drawn text before.length p done (by omega) (by rwa [hChar])
    rw [hChar] at hLoop
    rw [List.length_cons] at hRounds
    have hRest := ih (before ++ [c]) (by rw [hText, List.append_assoc]; rfl) (p.next c) (done ++ puts (drawn p c))
      hTail (rounds - k) (by omega)
    have hEnough : rounds = rounds - k + k := by omega
    rw [List.length_append] at hRest
    rw [hEnough, hLoop]
    refine hRest.trans ?_
    simp [drawnAll, puts]

/-- The loop of a call. -/
theorem output_text (p : Cell g) (hFits : Fits p text) : output g text p.column p.row =
    some (.at text.length 0 (text.foldl Cell.next p) (puts (drawnAll p text))) := by
  have hLoop := outputLoop_text [] text rfl p [] hFits (8 * text.length + 1) (Nat.lt_succ_self _)
  exact hLoop

end

/-! ## Calls -/

section
variable {font : Font} {g : Screen} {old : Int → Color} {s : PrintkInfo} {t : Term g}

/-- The state that the terminal stands for. -/
structure At (font : Font) (g : Screen) (old : Int → Color) (s : PrintkInfo) (t : Term g) : Prop where
  mode : s.mode = 0
  posX : s.posX = t.cursor.column
  posY : s.posY = t.cursor.row
  picture : Shows font g old s.vram t

theorem type_text (fColor bColor : Color) (text : List Byte) (t : Term g) :
    text.foldl (Term.type fColor bColor) t =
      ⟨text.foldl Cell.next t.cursor, (drawnAll t.cursor text).foldl (draw fColor bColor) t.shown⟩ := by
  induction text generalizing t with
  | nil => rfl
  | cons c text ih =>
    rw [List.foldl_cons, ih]
    simp [Term.type, drawnAll]

section
variable (hSize : g.screenX * g.screenY < 2 ^ 31) (hColumn : g.csizeX = 8) (hRow : g.csizeY = 16)
include hSize hColumn hRow

theorem Shows.puts {vram : Int → Color} (h : Shows font g old vram t) (fColor bColor : Color)
    (qs : List (Cell g × Byte)) (p : Cell g) :
    Shows font g old
      ((puts qs).foldl (fun vram q => putchar font vram g.screenX q.x q.y fColor bColor q.font) vram)
      ⟨p, qs.foldl (draw fColor bColor) t.shown⟩ := by
  induction qs generalizing vram t with
  | nil => exact ⟨h.inside, h.outside⟩
  | cons q qs ih => exact ih (h.put hSize hColumn hRow q.1 p)

theorem At.print (h : At font g old s t) {print : Print} (hFits : Fits t.cursor print.text) :
    ∃ s', colorPrintk font g s print = some s' ∧ At font g old s' (t.print print) := by
  have hText := output_text t.cursor hFits
  rw [← h.posX, ← h.posY] at hText
  have hType : t.print print = _ := type_text print.fColor print.bColor print.text t
  rw [hType]
  have hShows := h.picture.puts hSize hColumn hRow print.fColor print.bColor (drawnAll t.cursor print.text)
    (print.text.foldl Cell.next t.cursor)
  unfold colorPrintk
  rw [if_neg (not_not.mpr h.mode), hText]
  exact ⟨_, rfl, h.mode, rfl, rfl, hShows⟩

theorem At.prints (h : At font g old s t) {prints : List Print} (hFits : AllFit t.cursor prints) :
    ∃ s', colorPrintks font g prints s = some s' ∧ At font g old s' (prints.foldl Term.print t) := by
  induction prints generalizing s t with
  | nil => exact ⟨s, rfl, h⟩
  | cons print prints ih =>
    obtain ⟨hHead, hTail⟩ := hFits
    obtain ⟨u, hCall, hAt⟩ := h.print hSize hColumn hRow hHead
    have hCursor : (t.print print).cursor = print.text.foldl Cell.next t.cursor :=
      congrArg Term.cursor (type_text print.fColor print.bColor print.text t)
    rw [← hCursor] at hTail
    obtain ⟨v, hRest, hAt'⟩ := ih hAt hTail
    refine ⟨v, ?_, hAt'⟩
    rw [colorPrintks, hCall]
    exact hRest

end

end

end KalinoteOS.Terminal
