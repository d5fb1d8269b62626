import Mathlib.Algebra.Group.Nat.Defs
import Mathlib.Logic.Function.Basic

/-! # Kernel timers

`timer.c` over a heap of `timer_list` cells. A pointer is an `Option`, with `none` for `NULL`.
A loop takes fuel, and its result tells a missing cell from missing fuel.
-/
namespace KalinoteOS.Timer
set_option autoImplicit false

/-- The address of a `timer_list`. -/
abbrev TimerId := Nat

/-- `&timer_list_last`. -/
def timerListLast : TimerId := 0

structure TimerList where
  expireJiffies : Nat
  func : Option Nat
  data : Nat
  nextTimer : Option TimerId
  deriving DecidableEq, Repr

structure State where
  jiffies : Nat
  timerListHead : Option TimerId
  timers : TimerId → TimerList

/-- How a call can fail to return: `NULL` was followed or called, or the fuel ran out. -/
inductive Fault where
  | null
  | fuel
  deriving DecidableEq, Repr

namespace State

def expire (s : State) (timer : TimerId) : Nat := (s.timers timer).expireJiffies

def nextTimer (s : State) (timer : TimerId) : Option TimerId := (s.timers timer).nextTimer

def func (s : State) (timer : TimerId) : Option Nat := (s.timers timer).func

def setNext (s : State) (timer : TimerId) (next : Option TimerId) : State :=
  { s with timers := Function.update s.timers timer { s.timers timer with nextTimer := next } }

end State

def initTimer (s : State) (timer : TimerId) (func : Option Nat) (data expireJiffies : Nat) : State :=
  { s with
    timers := Function.update s.timers timer
      ⟨(s.jiffies + expireJiffies) % 2 ^ 64, func, data, none⟩ }

/-- The loop of `add_timer`: the last timer in front of `expire`, and the one after it. -/
def addTimerLoop (s : State) (expire : Nat) :
    Nat → Option TimerId → Option TimerId → Except Fault (Option TimerId × Option TimerId)
  | _, _, none => .error .null
  | 0, _, some _ => .error .fuel
  | fuel + 1, pre, some tmp =>
    if expire > s.expire tmp then addTimerLoop s expire fuel (some tmp) (s.nextTimer tmp)
    else .ok (pre, some tmp)

def addTimer (fuel : Nat) (s : State) (timer : TimerId) : Except Fault State := do
  let (pre, tmp) ← addTimerLoop s (s.expire timer) fuel none s.timerListHead
  let linked := match pre with
    | some pre => s.setNext pre (some timer)
    | none => { s with timerListHead := some timer }
  return linked.setNext timer tmp

/-- The loop of `del_timer`: the timer whose link is `timer`. -/
def delTimerLoop (s : State) (timer : Option TimerId) : Nat → Option TimerId → Except Fault TimerId
  | _, none => .error .null
  | 0, some _ => .error .fuel
  | fuel + 1, some tmp =>
    if s.nextTimer tmp = timer then .ok tmp else delTimerLoop s timer fuel (s.nextTimer tmp)

def delTimer (fuel : Nat) (s : State) (timer : Option TimerId) : Except Fault State :=
  if timer = some timerListLast then .ok s
  else if timer = s.timerListHead then
    match s.timerListHead with
    | none => .error .null
    | some head => .ok { s with timerListHead := s.nextTimer head }
  else do
    let tmp ← delTimerLoop s timer fuel s.timerListHead
    match timer with
    | none => .error .null
    | some timer => return s.setNext tmp (s.nextTimer timer)

/-- `do_timer`, with the timers whose function it called, in order. `call func data` is what
the function `func` does to the timers when it is called with `data`. -/
def doTimer (call : Nat → Nat → State → State) : Nat → State → Except Fault (List TimerId × State)
  | 0, _ => .error .fuel
  | fuel + 1, s =>
    match s.timerListHead with
    | none => .error .null
    | some head =>
      if s.expire head ≤ s.jiffies then
        match s.func head with
        | none => .error .null
        | some func => do
          let called := call func (s.timers head).data s
          let s ← delTimer fuel called called.timerListHead
          let (fired, s) ← doTimer call fuel s
          return (head :: fired, s)
      else .ok ([], s)

/-- What `timer_init` does first: `jiffies` is 0 and the last timer expires at `-1UL`. -/
def timerInit (timers : TimerId → TimerList) : State :=
  initTimer ⟨0, some timerListLast, timers⟩ timerListLast none 0 (2 ^ 64 - 1)

/-! ## One lemma per field and update -/

namespace State

@[simp] theorem setNext_jiffies (s : State) (t : TimerId) (n : Option TimerId) :
    (s.setNext t n).jiffies = s.jiffies := rfl
@[simp] theorem setNext_head (s : State) (t : TimerId) (n : Option TimerId) :
    (s.setNext t n).timerListHead = s.timerListHead := rfl

theorem setNext_nextTimer (s : State) (t : TimerId) (n : Option TimerId) :
    (s.setNext t n).nextTimer = Function.update s.nextTimer t n := by
  funext u
  by_cases h : u = t
  · subst h
    simp [setNext, nextTimer]
  · simp [setNext, nextTimer, h]

@[simp] theorem setNext_expire (s : State) (t : TimerId) (n : Option TimerId) :
    (s.setNext t n).expire = s.expire := by
  funext u
  by_cases h : u = t
  · subst h
    simp [setNext, expire]
  · simp [setNext, expire, h]

@[simp] theorem setNext_func (s : State) (t : TimerId) (n : Option TimerId) :
    (s.setNext t n).func = s.func := by
  funext u
  by_cases h : u = t
  · subst h
    simp [setNext, func]
  · simp [setNext, func, h]

end State

theorem initTimer_other (s : State) (timer : TimerId) (func : Option Nat) (data expire : Nat)
    {t : TimerId} (h : t ≠ timer) : (initTimer s timer func data expire).timers t = s.timers t := by
  simp [initTimer, h]

@[simp] theorem initTimer_expire_self (s : State) (timer : TimerId) (func : Option Nat)
    (data expire : Nat) :
    (initTimer s timer func data expire).expire timer = (s.jiffies + expire) % 2 ^ 64 := by
  simp [initTimer, State.expire]

@[simp] theorem initTimer_func_self (s : State) (timer : TimerId) (func : Option Nat)
    (data expire : Nat) : (initTimer s timer func data expire).func timer = func := by
  simp [initTimer, State.func]

end KalinoteOS.Timer
