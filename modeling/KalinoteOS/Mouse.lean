import Mathlib.Data.BitVec
import Mathlib.Data.List.Basic

/-! # The mouse packets

`analysis_mousecode` takes one byte a call. A `char` is signed, the coordinates in `mouse_cursor` are
unsigned and those of `mouse_cursor_move` signed.
-/
namespace KalinoteOS.Mouse
set_option autoImplicit false

abbrev Byte := BitVec 8

structure MousePacket where
  byte0 : Byte
  byte1 : Byte
  byte2 : Byte
  deriving DecidableEq, Repr

/-- The pixels of the screen, with at least one; both are an `int`. -/
structure Screen where
  screenX : Nat
  screenY : Nat
  screenX_pos : 0 < screenX
  screenY_pos : 0 < screenY
  screenX_lt : screenX < 2 ^ 31
  screenY_lt : screenY < 2 ^ 31

/-- `moves` are the calls of `layer_move` for the pointer's layer. -/
structure State where
  mouseCount : Int
  mouse : MousePacket
  cursorX : BitVec 32
  cursorY : BitVec 32
  moves : List (Int × Int)
  deriving DecidableEq, Repr

section
variable (g : Screen)

def mouseCursorMove (x y : Int) (s : State) : State :=
  let x := if (g.screenX : Int) ≤ x then (g.screenX : Int) else x
  let y := if (g.screenY : Int) ≤ y then (g.screenY : Int) else y
  let x := if x < 0 then 0 else x
  let y := if y < 0 then 0 else y
  { s with
    cursorX := BitVec.ofInt 32 x
    cursorY := BitVec.ofInt 32 y
    moves := s.moves ++ [((BitVec.ofInt 32 x).toInt, (BitVec.ofInt 32 y).toInt)] }

/-- A call that reads the byte `x`. -/
def analysisMousecode (mode : Int) (s : State) (x : Byte) : State :=
  if s.mouseCount = 0 then { s with mouseCount := s.mouseCount + 1 }
  else if s.mouseCount = 1 then
    { s with mouse := { s.mouse with byte0 := x }, mouseCount := s.mouseCount + 1 }
  else if s.mouseCount = 2 then
    { s with mouse := { s.mouse with byte1 := x }, mouseCount := s.mouseCount + 1 }
  else if s.mouseCount = 3 then
    let s := { s with mouse := { s.mouse with byte2 := x }, mouseCount := 1 }
    if mode ≠ 0 then
      mouseCursorMove g (s.cursorX + s.mouse.byte1.signExtend 32).toInt
        (s.cursorY - s.mouse.byte2.signExtend 32).toInt s
    else s
  else s

end

/-! ## The pointer -/

/-- A packet without overflow bits. -/
structure Packet where
  byte0 : Byte
  byte1 : Byte
  byte2 : Byte
  noOverflow : byte0 &&& 0xC0 = 0

namespace Packet

def bytes (p : Packet) : List Byte := [p.byte0, p.byte1, p.byte2]

/-- A movement of nine bits. -/
def movement (sign : Bool) (low : Byte) : Int := low.toNat - if sign then 256 else 0

def dx (p : Packet) : Int := movement (p.byte0.getLsbD 4) p.byte1

def dy (p : Packet) : Int := movement (p.byte0.getLsbD 5) p.byte2

end Packet

/-- A pixel of the screen. -/
structure Pointer (g : Screen) where
  x : Nat
  y : Nat
  x_lt : x < g.screenX
  y_lt : y < g.screenY

/-- The nearest of the pixels from 0 to `size - 1`. -/
def clamp (size : Nat) (v : Int) : Nat := (max 0 (min ((size : Int) - 1) v)).toNat

theorem clamp_lt {size : Nat} (h : 0 < size) (v : Int) : clamp size v < size := by
  unfold clamp
  omega

namespace Pointer
variable {g : Screen}

/-- The movement of a packet; `y` points up. -/
def move (p : Pointer g) (k : Packet) : Pointer g :=
  ⟨clamp g.screenX (p.x + k.dx), clamp g.screenY (p.y - k.dy), clamp_lt g.screenX_pos _, clamp_lt g.screenY_pos _⟩

end Pointer

/-- `v` is where a movement byte leads that is taken as a signed `char`, and `w` is where the movement leads.
Not past the far edge, and to the same place, or both to one end of the screen. -/
def CoordinateFits (size : Nat) (v w : Int) : Prop :=
  v < size ∧ (v = w ∨ (v ≤ 0 ∧ w ≤ 0) ∨ ((size : Int) - 1 ≤ v ∧ (size : Int) - 1 ≤ w) ∨ size = 1)

/-- The code can take the packet with the pointer at `p`. -/
structure Pointer.Fits {g : Screen} (p : Pointer g) (k : Packet) : Prop where
  x : CoordinateFits g.screenX (p.x + k.byte1.toInt) (p.x + k.dx)
  y : CoordinateFits g.screenY (p.y - k.byte2.toInt) (p.y - k.dy)

/-! ## A coordinate -/

/-- What `mouse_cursor_move` makes of a coordinate. -/
def limit (size : Nat) (v : Int) : Int :=
  let v := if (size : Int) ≤ v then (size : Int) else v
  if v < 0 then 0 else v

theorem movement_sub (sign : Bool) (low : Byte) :
    Packet.movement sign low = low.toInt ∨ Packet.movement sign low = low.toInt - 256 ∨
      Packet.movement sign low = low.toInt + 256 := by
  have hLt := low.isLt
  unfold Packet.movement
  rw [BitVec.toInt_eq_toNat_cond]
  cases sign with
  | false =>
    simp only [Bool.false_eq_true, if_false]
    split <;> omega
  | true =>
    simp only [if_true]
    split <;> omega

theorem limit_near {size : Nat} {v : Int} (h : v < size) : limit size v = max 0 v := by
  unfold limit
  rw [if_neg (Int.not_le.mpr h)]
  dsimp only
  split <;> omega

theorem limit_far {size : Nat} {v : Int} (h : size ≤ v) : limit size v = size := by
  unfold limit
  rw [if_pos h]
  dsimp only
  split <;> omega

theorem limit_eq_clamp_iff {size : Nat} (hPos : 0 < size) (hSize : size < 2 ^ 31) {v w : Int}
    (hv : -2 ^ 30 ≤ v) (hMax : v < size + 2 ^ 8) (hw : w = v ∨ w = v - 256 ∨ w = v + 256) :
    limit size (v.bmod (2 ^ 32)) = clamp size w ↔ CoordinateFits size v w := by
  unfold CoordinateFits
  by_cases hFar : v < size
  · have hInt : v.bmod (2 ^ 32) = v := Int.bmod_eq_of_le_mul_two (by omega) (by omega)
    rw [hInt, limit_near hFar]
    unfold clamp
    omega
  refine iff_of_false (fun hEq => ?_) (fun h => hFar h.1)
  by_cases hOverflow : v < 2 ^ 31
  · have hInt : v.bmod (2 ^ 32) = v := Int.bmod_eq_of_le_mul_two (by omega) (by omega)
    rw [hInt, limit_far (Int.not_lt.mp hFar)] at hEq
    unfold clamp at hEq
    omega
  · -- past the largest int the coordinate is negative
    have hInt : v.bmod (2 ^ 32) = v - 2 ^ 32 := by
      rw [← Int.sub_bmod_right]
      exact Int.bmod_eq_of_le_mul_two (by omega) (by omega)
    rw [hInt, limit_near (by omega)] at hEq
    unfold clamp at hEq
    omega

theorem toInt_coordinate {n : Nat} (h : n < 2 ^ 31) : (BitVec.ofInt 32 n).toInt = n := by
  rw [BitVec.toInt_ofInt]
  exact Int.bmod_eq_of_le_mul_two (by omega) (by omega)

/-! ## A packet -/

section
variable (g : Screen) (mode : Int)

/-- The pointer is at `p`. -/
def State.Shows (s : State) (p : Pointer g) : Prop :=
  s.cursorX = BitVec.ofInt 32 p.x ∧ s.cursorY = BitVec.ofInt 32 p.y

variable {g}

theorem packet_cursor (hMode : mode ≠ 0) (s : State) (hCount : s.mouseCount = 1) (k : Packet) :
    let t := k.bytes.foldl (analysisMousecode g mode) s
    t.mouseCount = 1 ∧
      t.cursorX = BitVec.ofInt 32 (limit g.screenX (s.cursorX + k.byte1.signExtend 32).toInt) ∧
      t.cursorY = BitVec.ofInt 32 (limit g.screenY (s.cursorY - k.byte2.signExtend 32).toInt) := by
  obtain ⟨count, mouse, cursorX, cursorY, moves⟩ := s
  obtain rfl : count = 1 := hCount
  have hMove : k.bytes.foldl (analysisMousecode g mode) ⟨1, mouse, cursorX, cursorY, moves⟩ =
      mouseCursorMove g (cursorX + k.byte1.signExtend 32).toInt (cursorY - k.byte2.signExtend 32).toInt
        ⟨1, ⟨k.byte0, k.byte1, k.byte2⟩, cursorX, cursorY, moves⟩ := if_pos hMode
  rw [hMove]
  exact ⟨rfl, rfl, rfl⟩

theorem byte_movement (sign : Bool) (low : Byte) (pos : Nat) :
    (pos : Int) + Packet.movement sign low = pos + low.toInt ∨
      (pos : Int) + Packet.movement sign low = pos + low.toInt - 256 ∨
      (pos : Int) + Packet.movement sign low = pos + low.toInt + 256 := by
  obtain h | h | h := movement_sub sign low <;> omega

theorem limit_x_iff {p : Pointer g} (k : Packet) :
    limit g.screenX (BitVec.ofInt 32 p.x + k.byte1.signExtend 32).toInt = clamp g.screenX (p.x + k.dx) ↔
      CoordinateFits g.screenX (p.x + k.byte1.toInt) (p.x + k.dx) := by
  have hLt := p.x_lt
  have hScreen := g.screenX_lt
  have hByte := k.byte1.toInt_lt
  have hByte' := k.byte1.le_toInt
  rw [BitVec.toInt_add, toInt_coordinate (hLt.trans hScreen), BitVec.toInt_signExtend_of_le (by decide)]
  exact limit_eq_clamp_iff g.screenX_pos hScreen (by omega) (by omega) (byte_movement _ _ _)

theorem limit_y_iff {p : Pointer g} (k : Packet) :
    limit g.screenY (BitVec.ofInt 32 p.y - k.byte2.signExtend 32).toInt = clamp g.screenY (p.y - k.dy) ↔
      CoordinateFits g.screenY (p.y - k.byte2.toInt) (p.y - k.dy) := by
  have hLt := p.y_lt
  have hScreen := g.screenY_lt
  have hByte := k.byte2.toInt_lt
  have hByte' := k.byte2.le_toInt
  have hMovement := movement_sub (k.byte0.getLsbD 5) k.byte2
  rw [BitVec.toInt_sub, toInt_coordinate (hLt.trans hScreen), BitVec.toInt_signExtend_of_le (by decide)]
  refine limit_eq_clamp_iff g.screenY_pos hScreen (by omega) (by omega) ?_
  unfold Packet.dy
  omega

theorem limit_bounds (size : Nat) (v : Int) : 0 ≤ limit size v ∧ limit size v ≤ size := by
  unfold limit
  dsimp only
  split <;> split <;> omega

theorem ofInt_limit_iff {size : Nat} (hSize : size < 2 ^ 31) (v : Int) {n : Nat} (hn : n < size) :
    BitVec.ofInt 32 (limit size v) = BitVec.ofInt 32 n ↔ limit size v = n := by
  obtain ⟨hLow, hHigh⟩ := limit_bounds size v
  refine ⟨fun h => ?_, congrArg _⟩
  have hInt := congrArg BitVec.toInt h
  rw [toInt_coordinate (hn.trans hSize), BitVec.toInt_ofInt, Int.bmod_eq_of_le_mul_two (by omega)
    (by omega)] at hInt
  exact hInt

/-- A packet moves the pointer as it should exactly if the code can take it. -/
theorem packet_shows_iff (hMode : mode ≠ 0) (s : State) (hCount : s.mouseCount = 1) {p : Pointer g}
    (hShows : s.Shows g p)
    (k : Packet) : (k.bytes.foldl (analysisMousecode g mode) s).Shows g (p.move k) ↔ p.Fits k := by
  obtain ⟨-, hX, hY⟩ := packet_cursor mode hMode s hCount k
  unfold State.Shows
  rw [hX, hY, hShows.1, hShows.2, ofInt_limit_iff g.screenX_lt _ (p.move k).x_lt,
    ofInt_limit_iff g.screenY_lt _ (p.move k).y_lt]
  exact (and_congr (limit_x_iff k) (limit_y_iff k)).trans ⟨fun h => ⟨h.1, h.2⟩, fun h => ⟨h.x, h.y⟩⟩

/-! ## Runs -/

/-- After every packet the pointer is where the packets so far lead. -/
def FollowsPackets (s : State) (p : Pointer g) (packets : List Packet) : Prop :=
  ∀ before after, packets = before ++ after →
    ((before.flatMap Packet.bytes).foldl (analysisMousecode g mode) s).Shows g (before.foldl Pointer.move p)

/-- The code can take every packet where it comes. -/
def AllFit (p : Pointer g) (packets : List Packet) : Prop :=
  ∀ before k after, packets = before ++ k :: after → (before.foldl Pointer.move p).Fits k

theorem followsPackets_cons (s : State) (p : Pointer g) (k : Packet) (packets : List Packet) :
    FollowsPackets mode s p (k :: packets) ↔
      s.Shows g p ∧ FollowsPackets mode (k.bytes.foldl (analysisMousecode g mode) s) (p.move k) packets := by
  unfold FollowsPackets
  constructor
  · intro h
    refine ⟨h [] (k :: packets) rfl, fun before after hPackets => ?_⟩
    have hNext := h (k :: before) after (congrArg (k :: ·) hPackets)
    rwa [List.flatMap_cons, List.foldl_append, List.foldl_cons] at hNext
  · rintro ⟨hFirst, hRest⟩ before after hPackets
    cases before with
    | nil => exact hFirst
    | cons d before =>
      obtain ⟨rfl, hTail⟩ := List.cons.inj hPackets
      rw [List.flatMap_cons, List.foldl_append, List.foldl_cons]
      exact hRest before after hTail

theorem allFit_cons (p : Pointer g) (k : Packet) (packets : List Packet) :
    AllFit p (k :: packets) ↔ p.Fits k ∧ AllFit (p.move k) packets := by
  unfold AllFit
  constructor
  · intro h
    exact ⟨h [] k packets rfl, fun before d after hPackets => h (k :: before) d after
      (congrArg (k :: ·) hPackets)⟩
  · rintro ⟨hFirst, hRest⟩ before d after hPackets
    cases before with
    | nil =>
      obtain ⟨rfl, -⟩ := List.cons.inj hPackets
      exact hFirst
    | cons e before =>
      obtain ⟨rfl, hTail⟩ := List.cons.inj hPackets
      exact hRest before d after hTail

theorem followsPackets_iff (hMode : mode ≠ 0) (packets : List Packet) (s : State) (hCount : s.mouseCount = 1)
    (p : Pointer g) (hShows : s.Shows g p) : FollowsPackets mode s p packets ↔ AllFit p packets := by
  induction packets generalizing s p with
  | nil =>
    refine iff_of_true (fun before after hNil => ?_) (fun before k after hNil => by simp at hNil)
    obtain ⟨rfl, -⟩ := List.append_eq_nil_iff.mp hNil.symm
    exact hShows
  | cons k packets ih =>
    have hNext := (packet_cursor (g := g) mode hMode s hCount k).1
    rw [followsPackets_cons, allFit_cons, ← packet_shows_iff mode hMode s hCount hShows k]
    refine ⟨fun ⟨_, hRest⟩ => ?_, fun ⟨hFirst, hRest⟩ => ⟨hShows, (ih _ hNext _ hFirst).mpr hRest⟩⟩
    have hFirst := hRest [] packets rfl
    exact ⟨hFirst, (ih _ hNext _ hFirst).mp hRest⟩

/-- In front of the acknowledge byte, the pointer at `p`. -/
def State.start (mouse : MousePacket) (p : Pointer g) : State :=
  ⟨0, mouse, BitVec.ofInt 32 p.x, BitVec.ofInt 32 p.y, []⟩

/-- Behind the acknowledge byte the pointer follows the packets, after each of them, exactly if the code can
take each of them. -/
theorem pointer_follows_iff (hMode : mode ≠ 0) (mouse : MousePacket) (p : Pointer g) (ack : Byte)
    (packets : List Packet) :
    (∀ before after, packets = before ++ after →
      ((ack :: before.flatMap Packet.bytes).foldl (analysisMousecode g mode) (.start mouse p)).Shows g
        (before.foldl Pointer.move p)) ↔ AllFit p packets :=
  followsPackets_iff mode hMode packets _ rfl p ⟨rfl, rfl⟩

end

/-- 1024 by 768 pixels. -/
def vga : Screen := ⟨1024, 768, by decide, by decide, by decide, by decide⟩

/-- One pixel to the right and one up from the middle. -/
theorem pointer_follows_right : AllFit (g := vga) ⟨512, 384, by decide, by decide⟩ [⟨0x08, 1, 1, by decide⟩] := by
  refine (pointer_follows_iff (g := vga) 1 (by decide) ⟨0, 0, 0⟩ ⟨512, 384, by decide, by decide⟩ 0xFA _).mp ?_
  intro before after hPackets
  cases before with
  | nil => exact ⟨rfl, rfl⟩
  | cons k before =>
    obtain ⟨rfl, hTail⟩ := List.cons.inj hPackets
    obtain ⟨rfl, -⟩ := List.append_eq_nil_iff.mp hTail.symm
    exact ⟨by decide +kernel, by decide +kernel⟩

/-- A pixel to the right from the last column: the pointer is at column 1024. -/
theorem pointer_past_edge : ∃ p : Pointer vga, ¬(([0xFA, 0x08, 1, 0] : List Byte).foldl (analysisMousecode vga 1)
    (.start ⟨0, 0, 0⟩ p)).Shows vga ([(⟨0x08, 1, 0, by decide⟩ : Packet)].foldl Pointer.move p) := by
  refine ⟨⟨1023, 10, by decide, by decide⟩, fun h => ?_⟩
  exact absurd h.1 (by decide +kernel)

end KalinoteOS.Mouse
