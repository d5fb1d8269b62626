import KalinoteOS.Lib.Fifo
import KalinoteOS.Lib.Run

/-! # The keyboard buffer

`p_head` and `p_tail` are offsets into `buf`. Each stays one past the end until its next use,
so the offsets 0 and `KB_BUF_SIZE` are the same place.
-/
namespace KalinoteOS.Keyboard
open Lib
set_option autoImplicit false

abbrev kbBufSize : Nat := 100

abbrev Byte := BitVec 8

structure KeyboardBuffer where
  pHead : Nat
  pTail : Nat
  count : Int
  buf : Nat → Byte

/-- The buffer that `keyboard_init` sets up. -/
def keyboardInit : KeyboardBuffer := ⟨0, 0, 0, fun _ => 0⟩

def keyboardHandler (kb : KeyboardBuffer) (x : Byte) : KeyboardBuffer :=
  let pHead := if kb.pHead = kbBufSize then 0 else kb.pHead
  { kb with buf := Function.update kb.buf pHead x, count := kb.count + 1, pHead := pHead + 1 }

/-- `get_scancode` once `count` is not 0. -/
def getScancode (kb : KeyboardBuffer) : Byte × KeyboardBuffer :=
  let pTail := if kb.pTail = kbBufSize then 0 else kb.pTail
  (kb.buf pTail, { kb with count := kb.count - 1, pTail := pTail + 1 })

/-- The driver, the bytes it returned, and a bounded queue that sees the same calls. -/
structure State where
  kb : KeyboardBuffer
  returned : List Byte
  ideal : BoundedFifo Byte kbBufSize

def init : State := ⟨keyboardInit, [], .empty⟩

inductive Action where
  | keyboardHandler (x : Byte)
  | getScancode
  deriving DecidableEq, Repr

def step (s : State) : Action → Option State
  | .keyboardHandler x =>
    some { s with kb := Keyboard.keyboardHandler s.kb x, ideal := s.ideal.put x }
  | .getScancode =>
    if 0 < s.kb.count then
      let (ret, kb) := Keyboard.getScancode s.kb
      some ⟨kb, s.returned ++ [ret], s.ideal.take⟩
    else none

def Step (s : State) (a : Action) (t : State) : Prop := step s a = some t

/-- The driver is a bounded queue: it refuses a byte only when `KB_BUF_SIZE` are unread. -/
structure Spec (s : State) : Prop where
  count : s.kb.count = s.ideal.queue.length
  bounded : s.kb.count ≤ kbBufSize
  returned : s.returned = s.ideal.taken
  order : s.returned.Sublist s.ideal.received

/-- The byte finds a free place. -/
def Good (s : State) : Action → Prop
  | .keyboardHandler _ => s.kb.count < kbBufSize
  | .getScancode => True

instance (s : State) (a : Action) : Decidable (Good s a) := by
  cases a <;> unfold Good <;> infer_instance

/-! ## The ring holds the queue -/

/-- From `p_tail` on the ring holds the unread bytes, and `p_head` is behind the last one. -/
structure Holds (kb : KeyboardBuffer) (queue : List Byte) : Prop where
  tail_le : kb.pTail ≤ kbBufSize
  head_le : kb.pHead ≤ kbBufSize
  head : kb.pHead % kbBufSize = (kb.pTail + queue.length) % kbBufSize
  count : kb.count = queue.length
  bytes : ∀ i x, queue[i]? = some x → kb.buf ((kb.pTail + i) % kbBufSize) = x

/-- The test before each access is a remainder. -/
theorem wrap_eq {p : Nat} (h : p ≤ kbBufSize) : (if p = kbBufSize then 0 else p) = p % kbBufSize := by
  unfold kbBufSize at h ⊢
  split <;> omega

theorem Holds.handler {kb : KeyboardBuffer} {queue : List Byte} (h : Holds kb queue) (x : Byte)
    (hRoom : queue.length < kbBufSize) : Holds (keyboardHandler kb x) (queue ++ [x]) := by
  have hHead := h.head
  unfold kbBufSize at hHead hRoom
  unfold keyboardHandler
  rw [wrap_eq h.head_le]
  constructor
  · exact h.tail_le
  · dsimp only [kbBufSize]
    omega
  · rw [List.length_append, List.length_singleton]
    dsimp only [kbBufSize]
    omega
  · rw [List.length_append, List.length_singleton, h.count]
    rfl
  · intro i y hi
    dsimp only
    obtain hLt | rfl | hGt := Nat.lt_trichotomy i queue.length
    · have hOther : (kb.pTail + i) % kbBufSize ≠ kb.pHead % kbBufSize := by
        unfold kbBufSize
        omega
      rw [Function.update_of_ne hOther]
      rw [List.getElem?_append_left hLt] at hi
      exact h.bytes i y hi
    · rw [← h.head, Function.update_self]
      rw [List.getElem?_concat_length] at hi
      exact Option.some.inj hi
    · rw [List.getElem?_eq_none (by rw [List.length_append, List.length_singleton]; omega)] at hi
      cases hi

theorem Holds.get {kb : KeyboardBuffer} {x : Byte} {rest : List Byte} (h : Holds kb (x :: rest)) :
    (getScancode kb).1 = x ∧ Holds (getScancode kb).2 rest := by
  have hHead := h.head
  have hCount := h.count
  rw [List.length_cons] at hHead hCount
  unfold kbBufSize at hHead
  unfold getScancode
  rw [wrap_eq h.tail_le]
  constructor
  · exact h.bytes 0 x rfl
  · constructor
    · dsimp only [kbBufSize]
      omega
    · exact h.head_le
    · dsimp only [kbBufSize]
      omega
    · dsimp only
      omega
    · intro i y hi
      have hIndex : (kb.pTail % kbBufSize + 1 + i) % kbBufSize = (kb.pTail + (i + 1)) % kbBufSize := by
        unfold kbBufSize
        omega
      dsimp only
      rw [hIndex]
      exact h.bytes (i + 1) y hi

/-! ## Whole runs -/

structure Inv (s : State) : Prop where
  holds : Holds s.kb s.ideal.queue
  returned : s.returned = s.ideal.taken
  lossless : s.ideal.received = s.ideal.taken ++ s.ideal.queue

theorem Inv.spec {s : State} (h : Inv s) : Spec s := by
  refine ⟨h.holds.count, ?_, h.returned, ?_⟩
  · rw [h.holds.count]
    exact Int.ofNat_le.mpr s.ideal.bounded
  · rw [h.returned, h.lossless]
    exact List.sublist_append_left s.ideal.taken s.ideal.queue

theorem init_inv : Inv init := by
  refine ⟨⟨Nat.zero_le _, Nat.zero_le _, rfl, rfl, ?_⟩, rfl, rfl⟩
  intro i x hi
  cases hi

/-- A call that finds room, or a byte, keeps the ring and the queue together. -/
theorem step_inv {s t : State} {a : Action} (h : Inv s) (hGood : Good s a) (hStep : Step s a t) :
    Inv t := by
  cases a with
  | keyboardHandler x =>
    cases hStep
    have hRoom : s.ideal.queue.length < kbBufSize := by
      have hCount := h.holds.count
      have hLt : s.kb.count < kbBufSize := hGood
      omega
    constructor
    · rw [s.ideal.put_queue hRoom]
      exact h.holds.handler x hRoom
    · rw [s.ideal.put_taken]
      exact h.returned
    · rw [s.ideal.put_received, s.ideal.put_taken, s.ideal.put_queue hRoom, h.lossless,
        List.append_assoc]
  | getScancode =>
    obtain ⟨hCount, hEq⟩ := Option.ite_none_right_eq_some.mp hStep
    cases hQueue : s.ideal.queue with
    | nil =>
      have hZero := h.holds.count
      rw [hQueue] at hZero
      rw [hZero] at hCount
      cases hCount
    | cons x rest =>
      cases hEq
      obtain ⟨hTaken, hRest⟩ := s.ideal.take_cons hQueue
      obtain ⟨hByte, hHolds⟩ := (hQueue ▸ h.holds : Holds s.kb (x :: rest)).get
      constructor
      · rw [hRest]
        exact hHolds
      · rw [hTaken, ← h.returned, ← hByte]
        rfl
      · rw [s.ideal.take_received, hTaken, hRest, h.lossless, hQueue, List.append_assoc]
        rfl

theorem reach_inv {s : State} (h : Reach (· = init) (Guarded Good Step) s) : Inv s := by
  apply Reach.invariant (P := Inv) _ _ h
  · rintro s rfl
    exact init_inv
  · intro s a t hs hStep
    exact step_inv hs hStep.1 hStep.2

/-- A byte that finds no room is counted all the same. -/
theorem handler_full {s t : State} {x : Byte} (hBad : ¬ Good s (.keyboardHandler x))
    (hStep : Step s (.keyboardHandler x) t) : ¬ Spec t := by
  cases hStep
  intro hSpec
  have hBounded : s.kb.count + 1 ≤ kbBufSize := hSpec.bounded
  have hFull : (kbBufSize : Int) ≤ s.kb.count := Int.not_lt.mp hBad
  omega

/-- As long as every byte finds room the driver is a bounded queue that loses nothing, and the
next call keeps it one exactly when it finds room as well. -/
theorem fifo_iff_good (s : State) (h : Reach (· = init) (Guarded Good Step) s) :
    Spec s ∧ s.ideal.received = s.returned ++ s.ideal.queue ∧
      ∀ a t, Step s a t → (Spec t ↔ Good s a) := by
  have hInv := reach_inv h
  refine ⟨hInv.spec, ?_, fun a t hStep => ?_⟩
  · rw [hInv.returned]
    exact hInv.lossless
  · constructor
    · intro hSpec
      cases a with
      | keyboardHandler x =>
        apply Classical.byContradiction
        intro hBad
        exact handler_full hBad hStep hSpec
      | getScancode => trivial
    · intro hGood
      exact (step_inv hInv hGood hStep).spec

theorem run_count (x : Byte) (n : Nat) :
    ∃ s, Run Step init (List.replicate n (.keyboardHandler x)) s ∧ s.kb.count = n := by
  induction n with
  | zero => exact ⟨init, .nil init, rfl⟩
  | succ n ih =>
    obtain ⟨s, hRun, hCount⟩ := ih
    refine ⟨{ s with kb := keyboardHandler s.kb x, ideal := s.ideal.put x }, ?_, ?_⟩
    · rw [List.replicate_succ']
      exact hRun.snoc rfl
    · show s.kb.count + 1 = ((n + 1 : Nat) : Int)
      rw [hCount]
      rfl

/-- 101 keys and no reader. -/
theorem count_overflow : ¬ ∀ s, Reach (· = init) Step s → Spec s := by
  intro h
  obtain ⟨s, hRun, hCount⟩ := run_count 0x1e#8 101
  have hBounded := (h s ⟨init, _, rfl, hRun⟩).bounded
  rw [hCount] at hBounded
  exact absurd hBounded (by decide)

theorem fifo_iff_good_key : ∃ s, s.returned = [0x1e#8] ∧ Spec s := by
  have hReturned : (runList (guardedNext Good step) init
      [.keyboardHandler 0x1e#8, .keyboardHandler 0x9e#8, .getScancode]).map State.returned =
      some [0x1e#8] := by decide
  obtain ⟨s, hs, hEq⟩ := Option.map_eq_some_iff.mp hReturned
  have hStep : ∀ s a t, guardedNext Good step s a = some t → Guarded Good Step s a t :=
    guarded_of_next fun _ _ _ hNext => hNext
  exact ⟨s, hEq, (fifo_iff_good s ⟨init, _, rfl, run_of_runList hStep hs⟩).1⟩

end KalinoteOS.Keyboard
