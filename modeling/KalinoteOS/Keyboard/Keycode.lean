import KalinoteOS.Lib.Run

/-! # `analysis_keycode`

The scan codes are the bytes that `get_scancode` returns one after the other; where it would wait for the
next one the call has no result. `key` is the value the call ends with.
-/
namespace KalinoteOS.Keycode
open Lib
set_option autoImplicit false

abbrev Byte := BitVec 8

/-- The states of the control keys. -/
structure Flags where
  shiftL : Int
  shiftR : Int
  ctrlL : Int
  ctrlR : Int
  altL : Int
  altR : Int
  deriving DecidableEq, Repr

/-- What `keyboard_init` sets. -/
def keyboardInit : Flags := ⟨0, 0, 0, 0, 0, 0⟩

def pausebreak : Nat := 1
def printscreen : Nat := 2
def otherkey : Nat := 4

def pausebreakScode : List Byte := [0xE1, 0x1D, 0x45, 0xE1, 0x9D, 0xC5]

/-- `keycode_map_normal`, without and with shift. -/
def keycodeMapNormal : List Nat :=
  ([('\x00', '\x00'), ('\x00', '\x00'), ('1', '!'), ('2', '@'), ('3', '#'), ('4', '$'), ('5', '%'), ('6', '^'),
    ('7', '&'), ('8', '*'), ('9', '('), ('0', ')'), ('-', '_'), ('=', '+'), ('\x00', '\x00'), ('\x00', '\x00'),
    ('q', 'Q'), ('w', 'W'), ('e', 'E'), ('r', 'R'), ('t', 'T'), ('y', 'Y'), ('u', 'U'), ('i', 'I'),
    ('o', 'O'), ('p', 'P'), ('[', '\x7b'), (']', '\x7d'), ('\x00', '\x00'), ('\x1d', '\x1d'), ('a', 'A'),
    ('s', 'S'),
    ('d', 'D'), ('f', 'F'), ('g', 'G'), ('h', 'H'), ('j', 'J'), ('k', 'K'), ('l', 'L'), (';', ':'),
    ('\x27', '\x22'), ('\x60', '~'), ('\x2a', '\x2a'), ('\x5c', '|'), ('z', 'Z'), ('x', 'X'), ('c', 'C'),
    ('v', 'V'),
    ('b', 'B'), ('n', 'N'), ('m', 'M'), (',', '<'), ('.', '>'), ('/', '?'), ('\x36', '\x36'), ('*', '*'),
    ('\x38', '\x38'), (' ', ' ')] ++ List.replicate 13 ('\x00', '\x00') ++
    [('7', '\x00'), ('8', '\x00'), ('9', '\x00'), ('-', '\x00'), ('4', '\x00'), ('5', '\x00'), ('6', '\x00'),
    ('+', '\x00'), ('1', '\x00'), ('2', '\x00'), ('3', '\x00'), ('0', '\x00'), ('.', '\x00')] ++
    List.replicate 44 ('\x00', '\x00')).flatMap fun (c, d) => [c.toNat, d.toNat]

def getScancode : List Byte → Option (Byte × List Byte)
  | [] => none
  | c :: bytes => some (c, bytes)

/-- The loop behind an `0xE1`, over what is left of `pausebreak_scode`. -/
def pauseLoop : List Byte → List Byte → Option (Nat × List Byte)
  | [], bytes => some (pausebreak, bytes)
  | expected :: scode, bytes => do
    let (c, bytes) ← getScancode bytes
    if c ≠ expected then some (0, bytes) else pauseLoop scode bytes

/-- The bytes behind the first two of a PrintScreen. -/
def lookAhead (last : Byte) (bytes : List Byte) : Option (Nat × List Byte) := do
  let (c, bytes) ← getScancode bytes
  if c = 0xE0 then
    let (c, bytes) ← getScancode bytes
    some (if c = last then printscreen else 0, bytes)
  else some (0, bytes)

/-- The `switch` behind an `0xE0`. -/
def extendedKey (f : Flags) (x : Byte) (bytes : List Byte) : Option (Nat × Flags × List Byte) :=
  if x = 0x2A then (lookAhead 0x37 bytes).map fun (key, bytes) => (key, f, bytes)
  else if x = 0xB7 then (lookAhead 0xAA bytes).map fun (key, bytes) => (key, f, bytes)
  else if x = 0x1d then some (otherkey, { f with ctrlR := 1 }, bytes)
  else if x = 0x9d then some (otherkey, { f with ctrlR := 0 }, bytes)
  else if x = 0x38 then some (otherkey, { f with altR := 1 }, bytes)
  else if x = 0xb8 then some (otherkey, { f with altR := 0 }, bytes)
  else some (otherkey, f, bytes)

/-- The branch for `key == 0`. -/
def plainKey (x : Byte) (f : Flags) : Nat × Flags :=
  let make : Int := if x &&& 0x80 ≠ 0 then 0 else 1
  let column := if f.shiftL ≠ 0 ∨ f.shiftR ≠ 0 then 1 else 0
  let key := keycodeMapNormal.getD ((x &&& 0x7F).toNat * 2 + column) 0
  if x &&& 0x7F = 0x2a then (0, { f with shiftL := make })
  else if x &&& 0x7F = 0x36 then (0, { f with shiftR := make })
  else if x &&& 0x7F = 0x1d then (0, { f with ctrlL := make })
  else if x &&& 0x7F = 0x38 then (0, { f with altL := make })
  else (if make = 0 then 0 else key, f)

/-- The end of a call, with the `x` and the `key` of the branches before. -/
def finish (x : Byte) (key : Nat) (f : Flags) (bytes : List Byte) : Nat × Flags × List Byte :=
  if key = 0 then ((plainKey x f).1, (plainKey x f).2, bytes) else (key, f, bytes)

def analysisKeycode (f : Flags) (bytes : List Byte) : Option (Nat × Flags × List Byte) := do
  let (x, bytes) ← getScancode bytes
  if x = 0xE1 then
    let (key, bytes) ← pauseLoop pausebreakScode.tail bytes
    some (finish x key f bytes)
  else if x = 0xE0 then
    let (x, bytes) ← getScancode bytes
    let (key, f, bytes) ← extendedKey f x bytes
    some (finish x key f bytes)
  else some (finish x 0 f bytes)

/-- No read of the table is behind its end. -/
theorem keycodeMapNormal_index (x : Byte) {column : Nat} (h : column < 2) :
    (x &&& 0x7F).toNat * 2 + column < keycodeMapNormal.length := by
  have hLength : keycodeMapNormal.length = 256 := by decide +kernel
  have hCode : (x &&& 0x7F).toNat ≤ 0x7F := by
    rw [BitVec.toNat_and]
    exact Nat.and_le_right
  omega

/-! ## Events -/

/-- The stream as set 1 divides it: six bytes from an `0xE1` on, an `0xE0` with the byte behind it, or any
other byte. -/
inductive Event where
  | plain (c : Byte) (hExtended : c ≠ 0xE0) (hPause : c ≠ 0xE1)
  | extended (c : Byte)
  | pause (b₁ b₂ b₃ b₄ b₅ : Byte)
  deriving DecidableEq

def Event.bytes : Event → List Byte
  | .plain c _ _ => [c]
  | .extended c => [0xE0, c]
  | .pause b₁ b₂ b₃ b₄ b₅ => [0xE1, b₁, b₂, b₃, b₄, b₅]

/-- The keys whose state is followed. -/
inductive Modifier where
  | shiftL | shiftR | ctrlL | altL
  deriving DecidableEq, Repr

def Modifier.code : Modifier → Byte
  | .shiftL => 0x2a
  | .shiftR => 0x36
  | .ctrlL => 0x1d
  | .altL => 0x38

def Flags.get (f : Flags) : Modifier → Int
  | .shiftL => f.shiftL
  | .shiftR => f.shiftR
  | .ctrlL => f.ctrlL
  | .altL => f.altL

/-- Whether an unprefixed event for the key is a make code; any other event says nothing. -/
def Event.made (m : Modifier) : Event → Option Bool
  | .plain c _ _ => if c &&& 0x7F = m.code then some (c &&& 0x80 = 0) else none
  | _ => none

/-- The last unprefixed event for the key was a make code. -/
def LastMake (m : Modifier) (events : List Event) : Prop :=
  (events.filterMap (Event.made m)).getLast? = some true

/-- The flags are what the events left. -/
def Follows (events : List Event) (f : Flags) : Prop := ∀ m, f.get m = 1 ↔ LastMake m events

/-- The call finds what it looks ahead for: all of a Pause but the last byte, the second event of a
PrintScreen that is pressed, and some second event with a prefix where one is let go. -/
structure LooksAhead (bytes : List Byte) : Prop where
  pause : ∀ rest, bytes = 0xE1 :: rest → [0x1D, 0x45, 0xE1, 0x9D] <+: rest
  press : ∀ rest, bytes = 0xE0 :: 0x2A :: rest → [0xE0, 0x37] <+: rest
  release : ∀ rest, bytes = 0xE0 :: 0xB7 :: rest → [0xE0] <+: rest

structure State where
  flags : Flags
  bytes : List Byte

/-- From `keyboard_init` on, with the events to come. -/
def Initial (events : List Event) (s : State) : Prop := s = ⟨keyboardInit, events.flatMap Event.bytes⟩

/-- A call, with the key it ends with. -/
def Step (s : State) (key : Nat) (t : State) : Prop :=
  analysisKeycode s.flags s.bytes = some (key, t.flags, t.bytes)

/-! ## What a call does -/

theorem plainKey_get (x : Byte) (f : Flags) (m : Modifier) : (plainKey x f).2.get m =
    if x &&& 0x7F = m.code then (if x &&& 0x80 ≠ 0 then 0 else 1) else f.get m := by
  unfold plainKey
  generalize x &&& 0x7F = code
  by_cases h₁ : code = 0x2a
  · subst h₁
    cases m <;> rfl
  by_cases h₂ : code = 0x36
  · subst h₂
    cases m <;> rfl
  by_cases h₃ : code = 0x1d
  · subst h₃
    cases m <;> rfl
  by_cases h₄ : code = 0x38
  · subst h₄
    cases m <;> rfl
  have hNot : code ≠ m.code := by
    cases m
    · exact h₁
    · exact h₂
    · exact h₃
    · exact h₄
  dsimp only
  rw [if_neg h₁, if_neg h₂, if_neg h₃, if_neg h₄, if_neg hNot]

/-- The same state of the four keys. -/
def SameLeft (f g : Flags) : Prop := ∀ m, g.get m = f.get m

theorem SameLeft.refl (f : Flags) : SameLeft f f := fun _ => rfl

theorem finish_same {x : Byte} (hx : ∀ m : Modifier, x &&& 0x7F ≠ m.code) (key : Nat) (f : Flags)
    (bytes : List Byte) :
    ∃ key' g, finish x key f bytes = (key', g, bytes) ∧ SameLeft f g := by
  unfold finish
  split
  · exact ⟨_, _, rfl, fun m => (plainKey_get x f m).trans (if_neg (hx m))⟩
  · exact ⟨_, _, rfl, .refl f⟩

section
variable (f : Flags)

theorem analysisKeycode_plain {c : Byte} (hExtended : c ≠ 0xE0) (hPause : c ≠ 0xE1) (bytes : List Byte) :
    analysisKeycode f (c :: bytes) = some ((plainKey c f).1, (plainKey c f).2, bytes) := by
  unfold analysisKeycode
  change (if c = 0xE1 then _ else if c = 0xE0 then _ else some (finish c 0 f bytes)) = _
  rw [if_neg hPause, if_neg hExtended]
  rfl

theorem analysisKeycode_pause (b : Byte) (bytes : List Byte) :
    ∃ key g, analysisKeycode f (0xE1 :: 0x1D :: 0x45 :: 0xE1 :: 0x9D :: b :: bytes) = some (key, g, bytes) ∧
      SameLeft f g := by
  have hLoop : ∃ key, pauseLoop pausebreakScode.tail (0x1D :: 0x45 :: 0xE1 :: 0x9D :: b :: bytes) =
    some (key, bytes) := by
    change ∃ key, (if b ≠ 0xC5 then some (0, bytes) else some (pausebreak, bytes)) = some (key, bytes)
    split
    · exact ⟨_, rfl⟩
    · exact ⟨_, rfl⟩
  obtain ⟨key, hLoop⟩ := hLoop
  obtain ⟨key', g, hFinish, hSame⟩ := finish_same (x := 0xE1) (by rintro (_ | _ | _ | _) <;> decide) key f bytes
  refine ⟨key', g, ?_, hSame⟩
  rw [← hFinish]
  change (pauseLoop pausebreakScode.tail _).bind _ = _
  rw [hLoop]
  rfl

/-- Behind an `0xE0` everything is up to `extendedKey`. -/
theorem analysisKeycode_extended {c : Byte} {bytes rest : List Byte} {key : Nat} {g : Flags}
    (h : extendedKey f c bytes = some (key, g, rest)) :
    analysisKeycode f (0xE0 :: c :: bytes) = some (finish c key g rest) := by
  change (extendedKey f c bytes).bind _ = _
  rw [h]
  rfl

/-- The codes that are not looked behind. -/
theorem extendedKey_single {c : Byte} (hPress : c ≠ 0x2A) (hRelease : c ≠ 0xB7) (bytes : List Byte) :
    ∃ g, extendedKey f c bytes = some (otherkey, g, bytes) ∧ SameLeft f g := by
  unfold extendedKey
  rw [if_neg hPress, if_neg hRelease]
  by_cases h₁ : c = 0x1d
  · rw [if_pos h₁]
    exact ⟨_, rfl, by rintro (_ | _ | _ | _) <;> rfl⟩
  rw [if_neg h₁]
  by_cases h₂ : c = 0x9d
  · rw [if_pos h₂]
    exact ⟨_, rfl, by rintro (_ | _ | _ | _) <;> rfl⟩
  rw [if_neg h₂]
  by_cases h₃ : c = 0x38
  · rw [if_pos h₃]
    exact ⟨_, rfl, by rintro (_ | _ | _ | _) <;> rfl⟩
  rw [if_neg h₃]
  by_cases h₄ : c = 0xb8
  · rw [if_pos h₄]
    exact ⟨_, rfl, by rintro (_ | _ | _ | _) <;> rfl⟩
  rw [if_neg h₄]
  exact ⟨f, rfl, .refl f⟩

end

/-! ## Runs -/

/-- An event that says nothing about the four keys. -/
def Event.Silent (e : Event) : Prop := ∀ m, e.made m = none

theorem silent_extended (c : Byte) : (Event.extended c).Silent := fun _ => rfl

theorem silent_pause (b₁ b₂ b₃ b₄ b₅ : Byte) : (Event.pause b₁ b₂ b₃ b₄ b₅).Silent := fun _ => rfl

theorem lastMake_silent (m : Modifier) (events : List Event) {e : Event} (h : e.Silent) :
    LastMake m (events ++ [e]) ↔ LastMake m events := by
  unfold LastMake
  rw [List.filterMap_append, List.filterMap_cons_none (h m), List.filterMap_nil, List.append_nil]

theorem Follows.silent {events : List Event} {f g : Flags} (h : Follows events f) {e : Event} (he : e.Silent)
    (hSame : SameLeft f g) : Follows (events ++ [e]) g := by
  intro m
  rw [hSame m, lastMake_silent m events he]
  exact h m

theorem Follows.plain {events : List Event} {f : Flags} (h : Follows events f) {c : Byte} (hExtended : c ≠ 0xE0)
    (hPause : c ≠ 0xE1) : Follows (events ++ [.plain c hExtended hPause]) (plainKey c f).2 := by
  intro m
  unfold LastMake
  rw [plainKey_get, List.filterMap_append]
  by_cases hCode : c &&& 0x7F = m.code
  · have hMade : (Event.plain c hExtended hPause).made m = some (decide (c &&& 0x80 = 0)) := if_pos hCode
    rw [if_pos hCode, List.filterMap_cons_some hMade, List.filterMap_nil, List.getLast?_concat, Option.some_inj,
      decide_eq_true_iff]
    by_cases hMake : c &&& 0x80 = 0
    · exact iff_of_true (if_neg (not_not_intro hMake)) hMake
    · exact iff_of_false (by rw [if_pos hMake]; decide) hMake
  · have hMade : (Event.plain c hExtended hPause).made m = none := if_neg hCode
    rw [if_neg hCode, List.filterMap_cons_none hMade, List.filterMap_nil, List.append_nil]
    exact h m

theorem follows_init : Follows [] keyboardInit := by
  intro m
  refine iff_of_false ?_ fun h => by cases h
  cases m <;> decide

theorem extended_of_prefix {events : List Event} (h : [0xE0] <+: events.flatMap Event.bytes) :
    ∃ c rest, events = .extended c :: rest := by
  obtain ⟨after, hBytes⟩ := h
  cases events with
  | nil => cases hBytes
  | cons e events =>
    cases e with
    | plain c hExtended hPause => exact absurd (List.cons.inj hBytes).1.symm hExtended
    | extended c => exact ⟨c, events, rfl⟩
    | pause => exact absurd (List.cons.inj hBytes).1 (by decide)

/-- A call that finds what it looks ahead for takes whole events and does what they say. -/
theorem analysisKeycode_events (f : Flags) (e : Event) (events : List Event)
    (h : LooksAhead ((e :: events).flatMap Event.bytes)) :
    ∃ key g taken todo, e :: events = taken ++ todo ∧
      analysisKeycode f ((e :: events).flatMap Event.bytes) = some (key, g, todo.flatMap Event.bytes) ∧
      ∀ done, Follows done f → Follows (done ++ taken) g := by
  rw [List.flatMap_cons] at h ⊢
  cases e with
  | plain c hExtended hPause =>
    exact ⟨_, _, [.plain c hExtended hPause], events, rfl, analysisKeycode_plain f hExtended hPause _,
      fun done hDone => hDone.plain hExtended hPause⟩
  | pause b₁ b₂ b₃ b₄ b₅ =>
    obtain ⟨after, hBytes⟩ := h.pause _ rfl
    have hBytes : [0x1D, 0x45, 0xE1, 0x9D] ++ after = [b₁, b₂, b₃, b₄] ++ b₅ :: events.flatMap Event.bytes :=
      hBytes
    have hFour := (List.append_inj hBytes rfl).1
    simp only [List.cons.injEq, and_true] at hFour
    obtain ⟨rfl, rfl, rfl, rfl⟩ := hFour
    obtain ⟨key, g, hCall, hSame⟩ := analysisKeycode_pause f b₅ (events.flatMap Event.bytes)
    exact ⟨key, g, [_], events, rfl, hCall, fun done hDone => hDone.silent (silent_pause _ _ _ _ _) hSame⟩
  | extended c =>
    have hTwo : ∀ (d : Byte) (rest : List Event) (key : Nat) (g : Flags), events = .extended d :: rest →
        analysisKeycode f (0xE0 :: c :: 0xE0 :: d :: rest.flatMap Event.bytes) =
          some (key, g, rest.flatMap Event.bytes) → SameLeft f g →
        ∃ key g taken todo, .extended c :: events = taken ++ todo ∧
          analysisKeycode f ((Event.extended c).bytes ++ events.flatMap Event.bytes) =
            some (key, g, todo.flatMap Event.bytes) ∧ ∀ done, Follows done f → Follows (done ++ taken) g := by
      rintro d rest key g rfl hCall hSame
      refine ⟨key, g, [.extended c] ++ [.extended d], rest, rfl, hCall, fun done hDone => ?_⟩
      rw [← List.append_assoc]
      exact (hDone.silent (silent_extended c) (.refl f)).silent (silent_extended d) hSame
    by_cases hPress : c = 0x2A
    · subst hPress
      have hAhead := h.press _ rfl
      obtain ⟨d, rest, hEvents⟩ := extended_of_prefix ((List.prefix_append [0xE0] [0x37]).trans hAhead)
      obtain ⟨after, hBytes⟩ := hAhead
      rw [hEvents] at hBytes
      have hLast : 0x37 = d := (List.cons.inj (List.cons.inj hBytes).2).1
      subst hLast
      exact hTwo 0x37 rest printscreen f hEvents rfl (.refl f)
    by_cases hRelease : c = 0xB7
    · subst hRelease
      obtain ⟨d, rest, hEvents⟩ := extended_of_prefix (h.release _ rfl)
      obtain ⟨key, g, hFinish, hSame⟩ := finish_same (x := 0xB7) (by rintro (_ | _ | _ | _) <;> decide)
        (if d = 0xAA then printscreen else 0) f (rest.flatMap Event.bytes)
      refine hTwo d rest key g hEvents ?_ hSame
      rw [← hFinish]
      exact analysisKeycode_extended f rfl
    · obtain ⟨g, hKey, hSame⟩ := extendedKey_single f hPress hRelease (events.flatMap Event.bytes)
      exact ⟨_, _, [.extended c], events, rfl, analysisKeycode_extended f hKey,
        fun done hDone => hDone.silent (silent_extended c) hSame⟩

/-- What one call keeps. -/
theorem step_follows {events : List Event} {s t : State} {key : Nat}
    (h : ∃ done todo, events = done ++ todo ∧ s.bytes = todo.flatMap Event.bytes ∧ Follows done s.flags)
    (hAhead : LooksAhead s.bytes) (hStep : Step s key t) :
    ∃ done todo, events = done ++ todo ∧ t.bytes = todo.flatMap Event.bytes ∧ Follows done t.flags := by
  obtain ⟨done, todo, hEvents, hBytes, hFollows⟩ := h
  unfold Step at hStep
  rw [hBytes] at hAhead hStep
  cases todo with
  | nil => cases hStep
  | cons e todo =>
    obtain ⟨key', g, taken, rest, hTodo, hCall, hNext⟩ := analysisKeycode_events s.flags e todo hAhead
    rw [hCall, Option.some_inj, Prod.mk.injEq, Prod.mk.injEq] at hStep
    obtain ⟨-, hFlags, hRest⟩ := hStep
    refine ⟨done ++ taken, rest, ?_, hRest.symm, hFlags ▸ hNext done hFollows⟩
    rw [hEvents, hTodo, List.append_assoc]

/-- In a run whose calls all find what they look ahead for, the four keys are at every time what the events
so far left, also when all the events are consumed; and such a call never waits. -/
theorem modifiers_follow (events : List Event) (s : State)
    (h : Reach (Initial events) (Guarded (fun s _ => LooksAhead s.bytes) Step) s) :
    (∃ done todo, events = done ++ todo ∧ s.bytes = todo.flatMap Event.bytes ∧ Follows done s.flags) ∧
      (s.bytes = [] → Follows events s.flags) ∧
      (s.bytes ≠ [] → LooksAhead s.bytes → ∃ key t, Step s key t) := by
  have hDone : ∃ done todo, events = done ++ todo ∧ s.bytes = todo.flatMap Event.bytes ∧
    Follows done s.flags := by
    refine Reach.invariant (P := fun s => ∃ done todo, events = done ++ todo ∧
      s.bytes = todo.flatMap Event.bytes ∧
      Follows done s.flags) ?_ ?_ h
    · rintro s rfl
      exact ⟨[], events, rfl, rfl, follows_init⟩
    · rintro s key t hFollows ⟨hAhead, hStep⟩
      exact step_follows hFollows hAhead hStep
  refine ⟨hDone, fun hEmpty => ?_, fun hMore hAhead => ?_⟩
  · obtain ⟨done, todo, rfl, hBytes, hFollows⟩ := hDone
    rw [hEmpty] at hBytes
    cases todo with
    | nil => rwa [List.append_nil]
    | cons e todo =>
      rw [List.flatMap_cons] at hBytes
      cases e <;> cases hBytes
  · obtain ⟨done, todo, -, hBytes, -⟩ := hDone
    rw [hBytes] at hMore hAhead
    cases todo with
    | nil => exact absurd rfl hMore
    | cons e todo =>
      obtain ⟨key, g, taken, rest, -, hCall, -⟩ := analysisKeycode_events s.flags e todo hAhead
      refine ⟨key, ⟨g, rest.flatMap Event.bytes⟩, ?_⟩
      unfold Step
      rw [hBytes]
      exact hCall

/-- A PrintScreen, and then the left shift key. -/
def shiftEvents : List Event := [.extended 0x2A, .extended 0x37, .plain 0x2A (by decide) (by decide)]

theorem modifiers_follow_shift : ∃ s : State, s.bytes = [] ∧ s.flags.shiftL = 1 ∧
    Follows shiftEvents s.flags := by
  have hPress : LooksAhead (shiftEvents.flatMap Event.bytes) := by
    refine ⟨fun rest hRest => ?_, fun rest hRest => ?_, fun rest hRest => ?_⟩
    · exact absurd (List.cons.inj hRest).1 (by decide)
    · obtain rfl := (List.cons.inj (List.cons.inj hRest).2).2
      exact ⟨[0x2A], rfl⟩
    · exact absurd (List.cons.inj (List.cons.inj hRest).2).1 (by decide)
  have hShift : LooksAhead [0x2A] := by
    refine ⟨fun rest hRest => ?_, fun rest hRest => ?_, fun rest hRest => ?_⟩
    · exact absurd (List.cons.inj hRest).1 (by decide)
    · exact absurd (List.cons.inj hRest).1 (by decide)
    · exact absurd (List.cons.inj hRest).1 (by decide)
  have hReach : Reach (Initial shiftEvents) (Guarded (fun s _ => LooksAhead s.bytes) Step)
      ⟨{ keyboardInit with shiftL := 1 }, []⟩ := by
    have hFirst : Reach (Initial shiftEvents) (Guarded (fun s _ => LooksAhead s.bytes) Step)
      ⟨keyboardInit, [0x2A]⟩ :=
      Reach.next (a := printscreen) (.start rfl) ⟨hPress, rfl⟩
    exact hFirst.next (a := 0) ⟨hShift, rfl⟩
  exact ⟨_, rfl, rfl, (modifiers_follow shiftEvents _ hReach).2.1 rfl⟩

/-- An arrow key with a fake shift leaves the left shift key pressed. -/
theorem fakeShift_pressed : ∃ s, Reach (Initial [.extended 0x2A, .extended 0x48]) Step s ∧ s.bytes = [] ∧
    ¬Follows [.extended 0x2A, .extended 0x48] s.flags := by
  refine ⟨⟨{ keyboardInit with shiftL := 1 }, []⟩, Reach.next (a := 0) (.start rfl) rfl, rfl, fun h => ?_⟩
  have hLast := (h .shiftL).mp rfl
  unfold LastMake at hLast
  exact absurd hLast (by decide)

end KalinoteOS.Keycode
