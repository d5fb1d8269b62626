import KalinoteOS.Keyboard
import KalinoteOS.Keyboard.Keycode
import KalinoteOS.Lib.Reader
import KalinoteOS.Mouse

/-! # From the interrupts to the control keys and the pointer

`KaliKernel` ends in a loop that calls `analysis_keycode` and `analysis_mousecode` as long as there is input.
An interrupt may come at any time, also while `analysis_keycode` waits for the next byte. The mouse has a
buffer of its own, of the same structure.
-/
namespace KalinoteOS.Input
open Lib
set_option autoImplicit false

abbrev Byte := BitVec 8

/-- Where the loop is. A call of `analysis_keycode` has read some bytes already. -/
inductive Pc where
  | testKeyboard
  | analysisKeycode (read : List Byte)
  | testMouse
  | analysisMousecode
  deriving DecidableEq, Repr

def Pc.read : Pc → List Byte
  | .analysisKeycode read => read
  | _ => []

/-- A ring for each device, where the loop is, the flags of `analysis_keycode` and what the mouse has moved. -/
structure State where
  keyboard : Keyboard.State
  mouse : Keyboard.State
  pc : Pc
  flags : Keycode.Flags
  pointer : Mouse.State

inductive Action where
  | keyboardHandler (x : Byte)
  | mouseHandler (x : Byte)
  | loop

/-- The functions of the mouse's ring are those of the keyboard's. -/
def mouseHandler (mouse : Keyboard.State) (x : Byte) : Option Keyboard.State :=
  Keyboard.step mouse (.keyboardHandler x)

def getMousecode (mouse : Keyboard.State) : Option Keyboard.State := Keyboard.step mouse .getScancode

section
variable (g : Mouse.Screen) (mode : Int)

/-- `get_scancode` within `analysis_keycode`, which ends as soon as the bytes suffice. -/
def readKey (read : List Byte) (s : State) : Option State := do
  let x := (Keyboard.getScancode s.keyboard.kb).1
  let keyboard ← Keyboard.step s.keyboard .getScancode
  match Keycode.analysisKeycode s.flags (read ++ [x]) with
  | none => some { s with keyboard := keyboard, pc := .analysisKeycode (read ++ [x]) }
  | some (_, flags, _) => some { s with keyboard := keyboard, flags := flags, pc := .testMouse }

def readMouse (s : State) : Option State := do
  let x := (Keyboard.getScancode s.mouse.kb).1
  let mouse ← getMousecode s.mouse
  some { s with mouse := mouse, pointer := Mouse.analysisMousecode g mode s.pointer x, pc := .testKeyboard }

/-- `while(1)` -/
def loopStep (s : State) : Option State :=
  match s.pc with
  | .testKeyboard => some { s with pc := if s.keyboard.kb.count ≠ 0 then .analysisKeycode [] else .testMouse }
  | .analysisKeycode read => readKey read s
  | .testMouse => some { s with pc := if s.mouse.kb.count ≠ 0 then .analysisMousecode else .testKeyboard }
  | .analysisMousecode => readMouse g mode s

def step (s : State) : Action → Option State
  | .keyboardHandler x => (Keyboard.step s.keyboard (.keyboardHandler x)).map fun keyboard =>
      { s with keyboard := keyboard }
  | .mouseHandler x => (mouseHandler s.mouse x).map fun mouse => { s with mouse := mouse }
  | .loop => loopStep g mode s

def Step (s : State) (a : Action) (t : State) : Prop := step g mode s a = some t

end

/-- The byte finds a free place. -/
def Good (s : State) : Action → Prop
  | .keyboardHandler _ => s.keyboard.kb.count < Keyboard.kbBufSize
  | .mouseHandler _ => s.mouse.kb.count < Keyboard.kbBufSize
  | .loop => True

instance (s : State) (a : Action) : Decidable (Good s a) := by
  cases a <;> unfold Good <;> infer_instance

/-- From `keyboard_init` and `mouse_init` on. -/
def init (first : Mouse.State) : State :=
  ⟨Keyboard.init, Keyboard.init, .testKeyboard, Keycode.keyboardInit, first⟩

/-! ## `analysis_keycode` as a reader -/

/-- The key and the flags that a call ends with. -/
def keycode (f : Keycode.Flags) : Reader Byte (Nat × Keycode.Flags) := fun bytes =>
  (Keycode.analysisKeycode f bytes).map fun r => ((r.1, r.2.1), r.2.2)

section
open Keycode Reader

theorem incremental_pauseLoop (scode : List Byte) : Incremental (pauseLoop scode) := by
  induction scode with
  | nil => exact incremental_done pausebreak
  | cons expected scode ih =>
    have hRead : pauseLoop (expected :: scode) =
        next.bind fun c => if c ≠ expected then done 0 else pauseLoop scode := by
      funext bytes
      cases bytes with
      | nil => rfl
      | cons c bytes =>
        change _ = (if c ≠ expected then done 0 else pauseLoop scode : Reader Byte Nat) bytes
        rw [ite_apply]
        rfl
    rw [hRead]
    exact incremental_next.bind fun c => (incremental_done 0).ite ih

theorem incremental_lookAhead (last : Byte) : Incremental (lookAhead last) := by
  have hRead : lookAhead last = next.bind fun c => if c = 0xE0 then
      next.bind fun c => done (if c = last then printscreen else 0) else done 0 := by
    funext bytes
    cases bytes with
    | nil => rfl
    | cons c bytes =>
      change _ = (if c = 0xE0 then _ else _ : Reader Byte Nat) bytes
      rw [ite_apply]
      cases bytes with
      | nil => rfl
      | cons d bytes => rfl
  rw [hRead]
  exact incremental_next.bind fun c => (incremental_next.bind fun d => incremental_done _).ite
    (incremental_done 0)

/-- The key and the flags behind an `0xE0`. -/
def extended (f : Flags) (x : Byte) : Reader Byte (Nat × Flags) := fun bytes =>
  (extendedKey f x bytes).map fun r => ((r.1, r.2.1), r.2.2)

theorem incremental_extended (f : Flags) (x : Byte) : Incremental (extended f x) := by
  have hLook : ∀ last, Incremental fun bytes => ((lookAhead last bytes).map fun r => (r.1, f, r.2)).map fun r =>
      ((r.1, r.2.1), r.2.2) := by
    intro last
    have hRead : (fun bytes => ((lookAhead last bytes).map fun r => (r.1, f, r.2)).map fun r =>
      ((r.1, r.2.1), r.2.2)) =
        Reader.bind (lookAhead last) fun key => done (key, f) := by
      funext bytes
      unfold Reader.bind
      cases lookAhead last bytes with
      | none => rfl
      | some r => rfl
    rw [hRead]
    exact (incremental_lookAhead last).bind fun key => incremental_done _
  by_cases hPress : x = 0x2A
  · have hRead := hLook 0x37
    unfold extended extendedKey
    simpa only [if_pos hPress] using hRead
  by_cases hRelease : x = 0xB7
  · have hRead := hLook 0xAA
    unfold extended extendedKey
    simpa only [if_neg hPress, if_pos hRelease] using hRead
  obtain ⟨g, hKey⟩ : ∃ g, ∀ bytes, extendedKey f x bytes = some (otherkey, g, bytes) := by
    unfold extendedKey
    simp only [if_neg hPress, if_neg hRelease]
    split_ifs
    all_goals exact ⟨_, fun bytes => rfl⟩
  have hRead : extended f x = done (otherkey, g) := by
    funext bytes
    unfold extended
    rw [hKey]
    rfl
  rw [hRead]
  exact incremental_done _

/-- The key and the flags of `finish`. -/
def finished (x : Byte) (key : Nat) (f : Flags) : Nat × Flags := if key = 0 then plainKey x f else (key, f)

theorem finish_eq (x : Byte) (key : Nat) (f : Flags) (bytes : List Byte) :
    finish x key f bytes = ((finished x key f).1, (finished x key f).2, bytes) := by
  unfold finish finished
  split
  · rfl
  · rfl

theorem incremental_keycode (f : Flags) : Incremental (keycode f) := by
  have hRead : keycode f = next.bind fun x => if x = 0xE1 then
      Reader.bind (pauseLoop pausebreakScode.tail) fun key => done (finished x key f)
      else if x = 0xE0 then next.bind fun x => (extended f x).bind fun r => done (finished x r.1 r.2)
      else done (finished x 0 f) := by
    funext bytes
    cases bytes with
    | nil => rfl
    | cons x bytes =>
      change Option.map _ (if x = 0xE1 then (pauseLoop pausebreakScode.tail bytes).bind _ else
        if x = 0xE0 then (getScancode bytes).bind _ else some (finish x 0 f bytes)) =
          (ite _ _ _ : Reader Byte _) bytes
      by_cases hPause : x = 0xE1
      · rw [if_pos hPause, if_pos hPause]
        unfold Reader.bind
        cases pauseLoop pausebreakScode.tail bytes with
        | none => rfl
        | some r =>
          change some ((_, _), _) = some _
          rw [finish_eq]
      rw [if_neg hPause, if_neg hPause]
      by_cases hExtended : x = 0xE0
      · rw [if_pos hExtended, if_pos hExtended]
        cases bytes with
        | nil => rfl
        | cons y bytes =>
          change Option.map _ ((extendedKey f y bytes).bind _) = ((extended f y bytes).bind _)
          unfold extended
          cases extendedKey f y bytes with
          | none => rfl
          | some r =>
            change some ((_, _), _) = some _
            rw [finish_eq]
      · rw [if_neg hExtended, if_neg hExtended, finish_eq]
        rfl
  rw [hRead]
  refine incremental_next.bind fun x => ((incremental_pauseLoop _).bind fun key => incremental_done _).ite ?_
  exact (incremental_next.bind fun y => (incremental_extended f y).bind fun r => incremental_done _).ite
    (incremental_done _)

/-- A call that has read all but its last byte. -/
theorem analysisKeycode_ends {f g : Flags} {read left : List Byte} {x : Byte} {key : Nat}
    (hNone : analysisKeycode f read = none) (h : analysisKeycode f (read ++ [x]) = some (key, g, left))
    (rest : List Byte) :
    analysisKeycode f (read ++ x :: rest) = some (key, g, rest) := by
  have hWaits : keycode f read = none := congrArg (Option.map _) hNone
  have hLast : keycode f (read ++ [x]) = some ((key, g), left) := congrArg (Option.map _) h
  obtain ⟨⟨key', g', rest'⟩, hCall, hEq⟩ :=
    Option.map_eq_some_iff.mp ((incremental_keycode f).ends hWaits hLast rest)
  cases hEq
  exact hCall

end

/-! ## Whole runs -/

/-- The calls of `analysis_keycode` one after the other, with all the bytes there from the beginning. -/
abbrev Alone (bytes : List Byte) : Keycode.State → Prop := Reach (· = ⟨Keycode.keyboardInit, bytes⟩) Keycode.Step

section
variable (g : Mouse.Screen) (mode : Int) (first : Mouse.State)

structure Inv (s : State) : Prop where
  keyboard : Keyboard.Inv s.keyboard
  mouse : Keyboard.Inv s.mouse
  waits : Keycode.analysisKeycode s.flags s.pc.read = none
  keys : ∀ future, Alone (s.keyboard.returned ++ future) ⟨s.flags, s.pc.read ++ future⟩
  pointer : s.pointer = s.mouse.returned.foldl (Mouse.analysisMousecode g mode) first
  called : s.pc = .analysisKeycode [] → 0 < s.keyboard.kb.count
  packet : s.pc = .analysisMousecode → 0 < s.mouse.kb.count

variable {g mode first} {s t : State}

theorem init_inv : Inv g mode first (init first) where
  keyboard := Keyboard.init_inv
  mouse := Keyboard.init_inv
  waits := rfl
  keys _ := .start rfl
  pointer := rfl
  called hPc := by cases hPc
  packet hPc := by cases hPc

/-- The loop goes on, between two calls. -/
theorem Inv.moved (h : Inv g mode first s) {pc : Pc} (hFrom : s.pc.read = []) (hTo : pc.read = [])
    (hCalled : pc = .analysisKeycode [] → 0 < s.keyboard.kb.count)
    (hPacket : pc = .analysisMousecode → 0 < s.mouse.kb.count) :
    Inv g mode first { s with pc := pc } := by
  have hWaits := h.waits
  have hKeys := h.keys
  rw [hFrom, ← hTo] at hWaits hKeys
  exact { h with waits := hWaits, keys := hKeys, called := hCalled, packet := hPacket }

theorem getScancode_step {k l : Keyboard.State} (h : Keyboard.step k .getScancode = some l) :
    0 < k.kb.count ∧ l.returned = k.returned ++ [(Keyboard.getScancode k.kb).1] := by
  obtain ⟨hCount, hEq⟩ := Option.ite_none_right_eq_some.mp h
  cases hEq
  exact ⟨hCount, rfl⟩

theorem Inv.readKey (h : Inv g mode first s) {read : List Byte} (hPc : s.pc = .analysisKeycode read)
    (hStep : readKey read s = some t) : Inv g mode first t := by
  obtain ⟨keyboard, hGet, hEnd⟩ := Option.bind_eq_some_iff.mp hStep
  have hKeyboard := @Keyboard.step_inv s.keyboard keyboard .getScancode h.keyboard trivial hGet
  obtain ⟨-, hReturned⟩ := getScancode_step hGet
  have hWaits := h.waits
  rw [hPc] at hWaits
  generalize (Keyboard.getScancode s.keyboard.kb).1 = x at hReturned hEnd
  have hKeys : ∀ future, Alone (keyboard.returned ++ future) ⟨s.flags, read ++ x :: future⟩ := by
    intro future
    have hBefore := h.keys (x :: future)
    rw [hPc] at hBefore
    rw [hReturned, List.append_assoc]
    exact hBefore
  cases hCall : Keycode.analysisKeycode s.flags (read ++ [x]) with
  | none =>
    rw [hCall] at hEnd
    cases hEnd
    refine { h with keyboard := hKeyboard, waits := hCall, keys := fun future => ?_, called := fun hNil => ?_,
                    packet := fun hOther => ?_ }
    · have hNext := hKeys future
      rwa [List.append_cons] at hNext
    · cases List.append_ne_nil_of_right_ne_nil read (List.cons_ne_nil x []) (Pc.analysisKeycode.inj hNil)
    · cases hOther
  | some r =>
    obtain ⟨key, flags, left⟩ := r
    rw [hCall] at hEnd
    cases hEnd
    -- the call ends, with the stream behind the byte untouched
    refine { h with keyboard := hKeyboard, waits := rfl, keys := fun future => ?_, called := fun hOther => ?_,
                    packet := fun hOther => ?_ }
    · exact (hKeys future).next (analysisKeycode_ends hWaits hCall future)
    · cases hOther
    · cases hOther

theorem Inv.readMouse (h : Inv g mode first s) (hPc : s.pc = .analysisMousecode)
    (hStep : readMouse g mode s = some t) :
    Inv g mode first t := by
  obtain ⟨mouse, hGet, hEnd⟩ := Option.bind_eq_some_iff.mp hStep
  have hMouse := @Keyboard.step_inv s.mouse mouse .getScancode h.mouse trivial hGet
  obtain ⟨-, hReturned⟩ := getScancode_step hGet
  have hKeys := h.keys
  rw [hPc] at hKeys
  cases hEnd
  refine { h with mouse := hMouse, waits := rfl, keys := hKeys, pointer := ?_, called := fun hOther => ?_,
                  packet := fun hOther => ?_ }
  · dsimp only
    rw [hReturned, List.foldl_append, ← h.pointer]
    rfl
  · cases hOther
  · cases hOther

theorem step_inv {a : Action} (h : Inv g mode first s) (hGood : Good s a) (hStep : Step g mode s a t) :
    Inv g mode first t := by
  cases a with
  | keyboardHandler x =>
    cases hStep
    have hKeyboard := @Keyboard.step_inv s.keyboard _ (.keyboardHandler x) h.keyboard hGood rfl
    refine { h with keyboard := hKeyboard, called := fun hPc => ?_ }
    have hCount := h.called hPc
    change 0 < s.keyboard.kb.count + 1
    omega
  | mouseHandler x =>
    cases hStep
    have hMouse := @Keyboard.step_inv s.mouse _ (.keyboardHandler x) h.mouse hGood rfl
    refine { h with mouse := hMouse, packet := fun hPc => ?_ }
    have hCount := h.packet hPc
    change 0 < s.mouse.kb.count + 1
    omega
  | loop =>
    change loopStep g mode s = some t at hStep
    have hKeyboard := h.keyboard.holds.count
    have hMouse := h.mouse.holds.count
    unfold loopStep at hStep
    cases hPc : s.pc with
    | testKeyboard =>
      rw [hPc] at hStep
      cases hStep
      split
      · exact h.moved (congrArg Pc.read hPc) rfl (fun _ => by omega) (fun hOther => by cases hOther)
      · exact h.moved (congrArg Pc.read hPc) rfl (fun hOther => by cases hOther) (fun hOther => by cases hOther)
    | analysisKeycode read =>
      rw [hPc] at hStep
      exact h.readKey hPc hStep
    | testMouse =>
      rw [hPc] at hStep
      cases hStep
      split
      · exact h.moved (congrArg Pc.read hPc) rfl (fun hOther => by cases hOther) (fun _ => by omega)
      · exact h.moved (congrArg Pc.read hPc) rfl (fun hOther => by cases hOther) (fun hOther => by cases hOther)
    | analysisMousecode =>
      rw [hPc] at hStep
      exact h.readMouse hPc hStep

theorem reach_inv (h : Reach (· = init first) (Guarded Good (Step g mode)) s) : Inv g mode first s := by
  apply Reach.invariant (P := Inv g mode first) _ _ h
  · rintro s rfl
    exact init_inv
  · intro s a t hs hStep
    exact step_inv hs hStep.1 hStep.2

/-- The loop cannot go on exactly while a call waits for the rest of a key. -/
theorem Inv.stuck_iff (h : Inv g mode first s) :
    loopStep g mode s = none ↔ s.keyboard.ideal.queue = [] ∧ s.pc.read ≠ [] := by
  have hKeyboard := h.keyboard.holds.count
  unfold loopStep
  cases hPc : s.pc with
  | testKeyboard => exact iff_of_false (Option.some_ne_none _) fun hRead => hRead.2 rfl
  | testMouse => exact iff_of_false (Option.some_ne_none _) fun hRead => hRead.2 rfl
  | analysisMousecode =>
    have hGet : getMousecode s.mouse = some _ := if_pos (h.packet hPc)
    dsimp only
    unfold Input.readMouse
    rw [hGet]
    exact iff_of_false (Option.some_ne_none _) fun hRead => hRead.2 rfl
  | analysisKeycode read =>
    dsimp only
    unfold Input.readKey
    by_cases hCount : 0 < s.keyboard.kb.count
    · have hGet : Keyboard.step s.keyboard .getScancode = some _ := if_pos hCount
      rw [hGet]
      refine iff_of_false (fun hNone => ?_) fun hEmpty => ?_
      · cases hCall : Keycode.analysisKeycode s.flags (read ++ [(Keyboard.getScancode s.keyboard.kb).1]) with
        | none =>
          rw [Option.bind_eq_bind, Option.bind_some, hCall] at hNone
          cases hNone
        | some r =>
          rw [Option.bind_eq_bind, Option.bind_some, hCall] at hNone
          cases hNone
      · rw [hEmpty.1] at hKeyboard
        rw [hKeyboard] at hCount
        cases hCount
    · have hGet : Keyboard.step s.keyboard .getScancode = none := if_neg hCount
      rw [hGet]
      refine iff_of_true rfl ⟨List.eq_nil_of_length_eq_zero (by omega), ?_⟩
      rintro rfl
      exact hCount (h.called hPc)

end

/-! ## What the input has done -/

section
open Keycode

theorem alone_follows {events : List Event} {s : Keycode.State} (h : Alone (events.flatMap Event.bytes) s)
    (hAhead : ∀ u, Alone (events.flatMap Event.bytes) u → LooksAhead u.bytes) :
    ∃ done todo, events = done ++ todo ∧ s.bytes = todo.flatMap Event.bytes ∧ Follows done s.flags := by
  have hBoth : Alone (events.flatMap Event.bytes) s ∧
      ∃ done todo, events = done ++ todo ∧ s.bytes = todo.flatMap Event.bytes ∧ Follows done s.flags := by
    refine Reach.invariant (P := fun s => Alone (events.flatMap Event.bytes) s ∧
      ∃ done todo, events = done ++ todo ∧ s.bytes = todo.flatMap Event.bytes ∧ Follows done s.flags) ?_ ?_ h
    · rintro s rfl
      exact ⟨.start rfl, [], events, rfl, rfl, follows_init⟩
    · rintro s key t ⟨hAlone, hFollows⟩ hStep
      exact ⟨hAlone.next hStep, step_follows hFollows (hAhead s hAlone) hStep⟩
  exact hBoth.2

end

section
open Mouse
variable {g : Screen} {mode : Int}

/-- Of a packet that has not come whole nothing is shown. -/
theorem prefix_shows (hMode : mode ≠ 0) {packets : List Packet} {p : Pointer g} {s : Mouse.State}
    (hCount : s.mouseCount = 1)
    (hShows : s.Shows g p) (hFit : AllFit p packets) {bytes : List Byte}
    (hPrefix : bytes <+: packets.flatMap Packet.bytes) :
    (bytes.foldl (analysisMousecode g mode) s).Shows g
    ((packets.take (bytes.length / 3)).foldl Pointer.move p) := by
  induction packets generalizing s p bytes with
  | nil =>
    obtain rfl := List.prefix_nil.mp hPrefix
    exact hShows
  | cons k packets ih =>
    have hOne : ∀ x, (analysisMousecode g mode s x).Shows g p ∧ (analysisMousecode g mode s x).mouseCount =
      2 := by
      intro x
      unfold analysisMousecode
      rw [hCount]
      exact ⟨hShows, rfl⟩
    cases bytes with
    | nil => exact hShows
    | cons x bytes =>
      obtain ⟨hFirst, hTwo⟩ := hOne x
      obtain ⟨rfl, hSecond⟩ := List.cons_prefix_cons.mp hPrefix
      cases bytes with
      | nil =>
        have hNone : [k.byte0].length / 3 = 0 := Nat.div_eq_of_lt (by decide : 1 < 3)
        rw [hNone]
        exact hFirst
      | cons y bytes =>
        obtain ⟨rfl, hThird⟩ := List.cons_prefix_cons.mp hSecond
        cases bytes with
        | nil =>
          have hNone : [k.byte0, k.byte1].length / 3 = 0 := Nat.div_eq_of_lt (by decide : 2 < 3)
          rw [hNone]
          change (analysisMousecode g mode (analysisMousecode g mode s k.byte0) k.byte1).Shows g p
          generalize analysisMousecode g mode s k.byte0 = u at hFirst hTwo
          unfold analysisMousecode
          rw [hTwo]
          exact hFirst
        | cons z rest =>
          obtain ⟨rfl, hOther⟩ := List.cons_prefix_cons.mp hThird
          obtain ⟨hHere, hRest⟩ := (allFit_cons p k packets).mp hFit
          have hLength : (k.byte0 :: k.byte1 :: k.byte2 :: rest).length / 3 = rest.length / 3 + 1 :=
            Nat.add_div_right rest.length (by decide : 0 < 3)
          rw [hLength, List.take_succ_cons, List.foldl_cons]
          exact ih (packet_cursor mode hMode s hCount k).1
            ((packet_shows_iff mode hMode s hCount hShows k).mpr hHere)
            hRest hOther

theorem packets_shown (hMode : mode ≠ 0) {mouse : MousePacket} {p : Pointer g} {ack : Byte}
    {packets : List Packet}
    (hFit : AllFit p packets) {bytes : List Byte} (hPrefix : bytes <+: ack :: packets.flatMap Packet.bytes) :
    (bytes.foldl (analysisMousecode g mode) (.start mouse p)).Shows g
      ((packets.take ((bytes.length - 1) / 3)).foldl Pointer.move p) := by
  cases bytes with
  | nil => exact ⟨rfl, rfl⟩
  | cons x bytes =>
    obtain ⟨-, hRest⟩ := List.cons_prefix_cons.mp hPrefix
    exact prefix_shows hMode (s := analysisMousecode g mode (.start mouse p) x) rfl ⟨rfl, rfl⟩ hFit hRest

/-- In text mode no packet moves the pointer. -/
theorem text_shows {p : Pointer g} {s : Mouse.State} (hShows : s.Shows g p) (bytes : List Byte) :
    (bytes.foldl (analysisMousecode g 0) s).Shows g p := by
  induction bytes generalizing s with
  | nil => exact hShows
  | cons x bytes ih =>
    refine ih ?_
    unfold analysisMousecode
    split
    · exact hShows
    · split
      · exact hShows
      · split
        · exact hShows
        · split
          · exact hShows
          · exact hShows

/-- Whenever the interrupts come, as long as each finds room. A call that has to wait does what one
does that finds all its bytes, so the control keys follow the events; in graphic mode the pointer
follows the packets that have been read, in text mode it stays. Exactly while a call waits for the
rest of a key the loop stands still, also for the mouse. -/
theorem input_follows (mouse : MousePacket) (p : Pointer g) {s : State}
    (h : Reach (· = init (.start mouse p)) (Guarded Good (Step g mode)) s) :
    (∀ future, Alone (s.keyboard.ideal.received ++ future)
      ⟨s.flags, s.pc.read ++ s.keyboard.ideal.queue ++ future⟩) ∧
    (∀ future events, s.keyboard.ideal.received ++ future = events.flatMap Keycode.Event.bytes →
      (∀ u, Alone (events.flatMap Keycode.Event.bytes) u → Keycode.LooksAhead u.bytes) →
      ∃ done todo, events = done ++ todo ∧
        s.pc.read ++ s.keyboard.ideal.queue ++ future = todo.flatMap Keycode.Event.bytes ∧
        Keycode.Follows done s.flags) ∧
    (mode ≠ 0 → ∀ ack packets, s.mouse.ideal.received <+: ack :: packets.flatMap Packet.bytes →
      AllFit p packets →
      s.pointer.Shows g ((packets.take ((s.mouse.returned.length - 1) / 3)).foldl Pointer.move p)) ∧
    (mode = 0 → s.pointer.Shows g p) ∧
    (loopStep g mode s = none ↔ s.keyboard.ideal.queue = [] ∧ s.pc.read ≠ []) := by
  have hInv := reach_inv h
  have hAlone : ∀ future, Alone (s.keyboard.ideal.received ++ future)
      ⟨s.flags, s.pc.read ++ s.keyboard.ideal.queue ++ future⟩ := by
    intro future
    rw [hInv.keyboard.lossless, ← hInv.keyboard.returned, List.append_assoc, List.append_assoc]
    exact hInv.keys _
  refine ⟨hAlone, fun future events hEvents hAhead => ?_, fun hMode ack packets hPrefix hFit => ?_,
    fun hMode => ?_, hInv.stuck_iff⟩
  · have hHere := hAlone future
    rw [hEvents] at hHere
    exact alone_follows hHere hAhead
  · rw [hInv.pointer]
    refine packets_shown hMode hFit (List.IsPrefix.trans ?_ hPrefix)
    rw [hInv.mouse.lossless, hInv.mouse.returned]
    exact List.prefix_append _ _
  · subst hMode
    rw [hInv.pointer]
    exact text_shows ⟨rfl, rfl⟩ _

end

/-- The left shift key in the middle of a packet for one pixel to the right. -/
def shiftAndMove : List Action :=
  [.mouseHandler 0xFA, .mouseHandler 0x08, .keyboardHandler 0x2A, .loop, .loop, .mouseHandler 1,
    .mouseHandler 0] ++
    List.replicate 12 .loop

theorem input_follows_shift : ∃ s : State, Keycode.Follows [.plain 0x2A (by decide) (by decide)] s.flags ∧
    s.pointer.Shows Mouse.vga ⟨513, 384, by decide, by decide⟩ := by
  have hEnd : (runList (guardedNext Good (step Mouse.vga 1))
      (init (.start (g := Mouse.vga) ⟨0, 0, 0⟩ ⟨512, 384, by decide, by decide⟩)) shiftAndMove).map
        (fun s => (s.keyboard.ideal.received, s.keyboard.ideal.queue, s.pc.read, s.mouse.ideal.received,
          s.mouse.returned)) =
      some ([0x2A], [], [], [0xFA, 0x08, 1, 0], [0xFA, 0x08, 1, 0]) := by decide +kernel
  obtain ⟨s, hs, hEq⟩ := Option.map_eq_some_iff.mp hEnd
  simp only [Prod.mk.injEq] at hEq
  obtain ⟨hKeys, hQueue, hRead, hBytes, hReturned⟩ := hEq
  have hStep : ∀ s a t, guardedNext Good (step Mouse.vga 1) s a = some t →
    Guarded Good (Step Mouse.vga 1) s a t :=
    guarded_of_next fun _ _ _ hNext => hNext
  obtain ⟨-, hFollows, hShows, -⟩ := @input_follows Mouse.vga 1 ⟨0, 0, 0⟩
    ⟨512, 384, by decide, by decide⟩ s ⟨_, shiftAndMove, rfl, run_of_runList hStep hs⟩
  have hOne : ∀ u, Alone [0x2A] u → u.bytes = [0x2A] ∨ u.bytes = [] := by
    intro u hAlone
    refine Reach.invariant (P := fun u => u.bytes = [0x2A] ∨ u.bytes = []) ?_ ?_ hAlone
    · rintro u rfl
      exact Or.inl rfl
    · rintro u key t hu hNext
      unfold Keycode.Step at hNext
      obtain hByte | hNone := hu
      · rw [hByte, Keycode.analysisKeycode_plain u.flags (by decide) (by decide)] at hNext
        exact Or.inr (Prod.mk.inj (Prod.mk.inj (Option.some.inj hNext)).2).2.symm
      · rw [hNone] at hNext
        cases hNext
  have hAhead : ∀ u, Alone [0x2A] u → Keycode.LooksAhead u.bytes := by
    intro u hAlone
    have hFirst : ∀ {c rest}, u.bytes = c :: rest → c = 0x2A := by
      intro c rest hCons
      obtain hByte | hNone := hOne u hAlone
      · exact (List.cons.inj (hCons.symm.trans hByte)).1
      · cases hCons.symm.trans hNone
    exact ⟨fun _ h => absurd (hFirst h) (by decide), fun _ h => absurd (hFirst h) (by decide),
      fun _ h => absurd (hFirst h) (by decide)⟩
  refine ⟨s, ?_, ?_⟩
  · obtain ⟨done, todo, hEvents, hRest, hDone⟩ := hFollows [] [.plain 0x2A (by decide) (by decide)]
      (by rw [hKeys]; rfl) hAhead
    rw [hRead, hQueue] at hRest
    cases todo with
    | nil =>
      rw [hEvents, List.append_nil]
      exact hDone
    | cons e todo => cases e <;> cases hRest
  · have hFit : Mouse.AllFit (g := Mouse.vga) ⟨512, 384, by decide, by decide⟩ [⟨0x08, 1, 0, by decide⟩] := by
      have hRight : Mouse.CoordinateFits 1024 (512 + 1) (512 + 1) := ⟨by decide, Or.inl rfl⟩
      have hLevel : Mouse.CoordinateFits 768 (384 - 0) (384 - 0) := ⟨by decide, Or.inl rfl⟩
      refine (Mouse.allFit_cons _ _ _).mpr ⟨⟨hRight, hLevel⟩, ?_⟩
      intro before k after hNil
      cases List.append_ne_nil_of_right_ne_nil before (List.cons_ne_nil k after) hNil.symm
    have hShown := hShows (by decide) 0xFA [⟨0x08, 1, 0, by decide⟩] (by rw [hBytes]; exact List.prefix_rfl) hFit
    rw [hReturned] at hShown
    exact hShown

end KalinoteOS.Input
