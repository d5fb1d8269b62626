import KalinoteOS.Lib.Run
import KalinoteOS.Timer.Queue

/-! # Runs of the timer queue

The callers of `timer.c`, the specification of each call, and what becomes of one timer between
its `add_timer` and the end of the run.
-/
namespace KalinoteOS.Timer
open Lib
set_option autoImplicit false

inductive Op where
  /-- `init_timer` and then `add_timer`. -/
  | add (timer : TimerId) (func data expireJiffies : Nat)
  | del (timer : TimerId)
  | inc
  /-- `do_timer` at this value of `jiffies`, and the timers whose function it called. -/
  | doTimer (now : Nat) (fired : List TimerId)
  deriving DecidableEq, Repr

/-- `timer` is met on the way from `timer_list_head`. -/
def InList (s : State) (timer : TimerId) : Prop :=
  ∃ path, Linked s.nextTimer s.timerListHead path (some timer)

/-- A step is a call that returns, under what its caller promises. -/
inductive Step : State → Op → State → Prop
  | add {s t : State} {timer : TimerId} {func data expireJiffies : Nat} (fuel : Nat)
      (hNew : ¬ InList s timer) (hSum : s.jiffies + expireJiffies < 2 ^ 64)
      (hCall : addTimer fuel (initTimer s timer (some func) data expireJiffies) timer = .ok t) :
      Step s (.add timer func data expireJiffies) t
  | del {s t : State} {timer : TimerId} (fuel : Nat) (hIn : InList s timer)
      (hLast : timer ≠ timerListLast) (hCall : delTimer fuel s (some timer) = .ok t) :
      Step s (.del timer) t
  | inc {s : State} (hBelow : s.jiffies + 1 < 2 ^ 64 - 1) :
      Step s .inc { s with jiffies := s.jiffies + 1 }
  | doTimer {s t : State} {fired : List TimerId} (fuel : Nat)
      (hCall : doTimer noTouch fuel s = .ok (fired, t)) : Step s (.doTimer s.jiffies fired) t

def Initial (s : State) : Prop := ∃ timers, s = timerInit timers

/-- What each call does to the queue, from whatever fuel its loop needs. -/
structure CallSpec (s : State) (queue : List TimerId) : Prop where
  add : ∀ timer func data expireJiffies, ¬ InList s timer → s.jiffies + expireJiffies < 2 ^ 64 →
    ∃ n t, let new := initTimer s timer (some func) data expireJiffies
      Takes n (fun fuel => Timer.addTimer fuel new timer) t ∧ SameTimers new t ∧
        Inv t (queue.orderedInsert (ExpireLe new) timer)
  del : ∀ timer, InList s timer → timer ≠ timerListLast →
    ∃ n t, Takes n (fun fuel => Timer.delTimer fuel s (some timer)) t ∧ SameTimers s t ∧
      Inv t (queue.erase timer)
  doTimer : ∃ n t, Takes n (fun fuel => Timer.doTimer noTouch fuel s) (queue.filter (due s), t) ∧
    SameTimers s t ∧ Inv t (queue.filter fun u => !due s u)

theorem initial_inv {s : State} (h : Initial s) : Inv s [] := by
  obtain ⟨timers, rfl⟩ := h
  have hExpire : (timerInit timers).expire timerListLast = 2 ^ 64 - 1 := by
    simp [timerInit]
  have hNext : (timerInit timers).nextTimer timerListLast = none := by
    simp [timerInit, initTimer, State.nextTimer]
  exact ⟨rfl, hNext, List.not_mem_nil, List.nodup_nil, List.Pairwise.nil, hExpire, by simp,
    by simp, (by decide : 0 < 2 ^ 64 - 1)⟩

section
variable {s : State} {queue : List TimerId} (h : Inv s queue)
include h

theorem Inv.inList_iff (timer : TimerId) :
    InList s timer ↔ timer ∈ queue ∨ timer = timerListLast := by
  constructor
  · rintro ⟨path, hPath⟩
    exact h.linked.mem_of_reach h.last_next hPath
  · rintro (hMem | rfl)
    · exact h.linked.reach_of_mem hMem
    · exact ⟨queue, h.linked⟩

theorem Inv.initTimer {timer : TimerId} (hNew : ¬ InList s timer) (func : Option Nat)
    (data expireJiffies : Nat) : Inv (initTimer s timer func data expireJiffies) queue := by
  rw [h.inList_iff, not_or] at hNew
  have hOther : ∀ u, u ∈ queue ∨ u = timerListLast →
      (Timer.initTimer s timer func data expireJiffies).timers u = s.timers u := by
    intro u hu
    apply initTimer_other
    rintro rfl
    obtain hu | hu := hu
    · exact hNew.1 hu
    · exact hNew.2 hu
  have hExpire : ∀ u ∈ queue, (Timer.initTimer s timer func data expireJiffies).expire u
      = s.expire u := fun u hu => congrArg TimerList.expireJiffies (hOther u (Or.inl hu))
  exact {
    linked := h.linked.congr fun u hu => congrArg TimerList.nextTimer (hOther u (Or.inl hu))
    last_next := (congrArg TimerList.nextTimer (hOther _ (Or.inr rfl))).trans h.last_next
    last_notMem := h.last_notMem
    nodup := h.nodup
    sorted := h.sorted.imp_of_mem fun {a b} ha hb hLe => by
      unfold ExpireLe
      rw [hExpire a ha, hExpire b hb]
      exact hLe
    last_expire := (congrArg TimerList.expireJiffies (hOther _ (Or.inr rfl))).trans h.last_expire
    below := fun u hu => (hExpire u hu).trans_lt (h.below u hu)
    callable := fun u hu => by
      rw [State.func, hOther u (Or.inl hu)]
      exact h.callable u hu
    jiffies := h.jiffies }

theorem Inv.callSpec : CallSpec s queue where
  add := by
    intro timer func data expireJiffies hNew hSum
    have hNotIn := (not_congr (h.inList_iff timer)).mp hNew
    rw [not_or] at hNotIn
    refine (h.initTimer hNew (some func) data expireJiffies).addTimer hNotIn.1 hNotIn.2 ?_ ?_
    · rw [initTimer_expire_self]
      exact Nat.mod_lt _ (by decide)
    · rw [initTimer_func_self]
      exact Option.some_ne_none func
  del := by
    intro timer hIn hLast
    exact h.delTimer (((h.inList_iff timer).mp hIn).resolve_right hLast)
  doTimer := by
    obtain ⟨t, hTakes, hRest⟩ := h.doTimer
    exact ⟨_, t, hTakes, hRest⟩

/-- What a step did, read off the specification of its call. -/
theorem Inv.step_cases {t : State} {op : Op} (hStep : Step s op t) :
    (∃ timer func data expireJiffies, op = .add timer func data expireJiffies ∧
      timer ∉ queue ∧
      SameTimers (Timer.initTimer s timer (some func) data expireJiffies) t ∧
      t.expire timer = s.jiffies + expireJiffies ∧
      Inv t (queue.orderedInsert
        (ExpireLe (Timer.initTimer s timer (some func) data expireJiffies)) timer)) ∨
    (∃ timer, op = .del timer ∧ SameTimers s t ∧ Inv t (queue.erase timer)) ∨
    (op = .inc ∧ t.expire = s.expire ∧ Inv t queue) ∨
    (op = .doTimer s.jiffies (queue.filter (due s)) ∧ SameTimers s t ∧
      Inv t (queue.filter fun u => !due s u)) := by
  cases hStep with
  | @add _ timer func data expireJiffies fuel hNew hSum hCall =>
    obtain ⟨n, r, hTakes, hSame, hInv⟩ := h.callSpec.add timer func data expireJiffies hNew hSum
    have hEq : t = r := hTakes.eq_of_ok hCall
    subst hEq
    have hNotIn := (not_congr (h.inList_iff timer)).mp hNew
    refine Or.inl ⟨timer, func, data, expireJiffies, rfl, fun hMem => hNotIn (Or.inl hMem), hSame,
      ?_, hInv⟩
    rw [hSame.expire, initTimer_expire_self, Nat.mod_eq_of_lt hSum]
  | @del _ timer fuel hIn hLast hCall =>
    obtain ⟨n, r, hTakes, hSame, hInv⟩ := h.callSpec.del timer hIn hLast
    have hEq : t = r := hTakes.eq_of_ok hCall
    subst hEq
    exact Or.inr (Or.inl ⟨timer, rfl, hSame, hInv⟩)
  | inc hBelow =>
    refine Or.inr (Or.inr (Or.inl ⟨rfl, rfl, ?_⟩))
    exact ⟨h.linked, h.last_next, h.last_notMem, h.nodup, h.sorted, h.last_expire, h.below,
      h.callable, hBelow⟩
  | @doTimer _ fired fuel hCall =>
    obtain ⟨n, r, hTakes, hSame, hInv⟩ := h.callSpec.doTimer
    have hEq := hTakes.eq_of_ok hCall
    obtain ⟨rfl, rfl⟩ := Prod.mk.inj hEq
    exact Or.inr (Or.inr (Or.inr ⟨rfl, hSame, hInv⟩))

theorem Inv.step {t : State} {op : Op} (hStep : Step s op t) : ∃ next, Inv t next := by
  obtain ⟨_, _, _, _, -, -, -, -, hInv⟩ | ⟨_, -, -, hInv⟩ | ⟨-, -, hInv⟩ | ⟨-, -, hInv⟩ :=
    h.step_cases hStep
  · exact ⟨_, hInv⟩
  · exact ⟨_, hInv⟩
  · exact ⟨_, hInv⟩
  · exact ⟨_, hInv⟩

end

theorem reach_inv {s : State} (h : Reach Initial Step s) : ∃ queue, Inv s queue :=
  Reach.invariant (P := fun s => ∃ queue, Inv s queue) (fun _ hs => ⟨[], initial_inv hs⟩)
    (fun _ _ _ ⟨_, hs⟩ hStep => hs.step hStep) h

/-! ## One timer from its `add_timer` on -/

/-- No `do_timer` among `ops` ran at or after `expiry`. -/
def NoneDue (expiry : Nat) (ops : List Op) : Prop :=
  ∀ now fired, Op.doTimer now fired ∈ ops → now < expiry

/-- `op` neither adds nor deletes `timer`. -/
def Leaves (timer : TimerId) : Op → Prop
  | .add added _ _ _ => added ≠ timer
  | .del deleted => deleted ≠ timer
  | _ => True

/-- After `ops`, `timer` waits exactly while no `do_timer` was due. -/
structure Pending (timer : TimerId) (expiry : Nat) (ops : List Op) (s : State)
    (queue : List TimerId) : Prop where
  inv : Inv s queue
  expire : s.expire timer = expiry
  waits : timer ∈ queue ↔ NoneDue expiry ops

theorem noneDue_append {expiry : Nat} {ops : List Op} {op : Op} :
    NoneDue expiry (ops ++ [op]) ↔ NoneDue expiry ops ∧ NoneDue expiry [op] := by
  simp only [NoneDue, List.mem_append, or_imp, forall_and]

theorem noneDue_doTimer {expiry now : Nat} {fired : List TimerId} :
    NoneDue expiry [.doTimer now fired] ↔ now < expiry := by
  simp only [NoneDue, List.mem_singleton]
  constructor
  · exact fun h => h now fired rfl
  · rintro h _ _ hEq
    cases hEq
    exact h

theorem noneDue_other {expiry : Nat} {op : Op} (h : ∀ now fired, op ≠ .doTimer now fired) :
    NoneDue expiry [op] := by
  intro now fired hMem
  exact absurd (List.mem_singleton.mp hMem).symm (h now fired)

section
variable {timer : TimerId} {expiry : Nat} {ops : List Op} {s t : State} {queue : List TimerId}
  (h : Pending timer expiry ops s queue)
include h

theorem Pending.step {op : Op} (hLeaves : Leaves timer op) (hStep : Step s op t) :
    ∃ next, Pending timer expiry (ops ++ [op]) t next := by
  obtain ⟨added, func, data, expireJiffies, rfl, hNew, hSame, -, hInv⟩ |
    ⟨deleted, rfl, hSame, hInv⟩ | ⟨rfl, hExpire, hInv⟩ | ⟨rfl, hSame, hInv⟩ := h.inv.step_cases hStep
  · have hNone : NoneDue expiry [.add added func data expireJiffies] :=
      noneDue_other (fun _ _ => by simp)
    refine ⟨_, hInv, ?_, ?_⟩
    · rw [hSame.expire, State.expire, initTimer_other _ _ _ _ _ (Ne.symm hLeaves)]
      exact h.expire
    · rw [List.mem_orderedInsert, noneDue_append, or_iff_right (Ne.symm hLeaves), h.waits]
      exact (and_iff_left hNone).symm
  · have hNone : NoneDue expiry [.del deleted] := noneDue_other (fun _ _ => by simp)
    refine ⟨_, hInv, (congrFun hSame.expire timer).trans h.expire, ?_⟩
    rw [List.mem_erase_of_ne (Ne.symm hLeaves), noneDue_append, h.waits]
    exact (and_iff_left hNone).symm
  · have hNone : NoneDue expiry [.inc] := noneDue_other (fun _ _ => by simp)
    refine ⟨_, hInv, (congrFun hExpire timer).trans h.expire, ?_⟩
    rw [noneDue_append, h.waits]
    exact (and_iff_left hNone).symm
  · refine ⟨_, hInv, (congrFun hSame.expire timer).trans h.expire, ?_⟩
    rw [List.mem_filter, noneDue_append, noneDue_doTimer, h.waits, due, h.expire]
    simp

theorem Pending.fired {now : Nat} {fired : List TimerId} (hStep : Step s (.doTimer now fired) t) :
    fired.Nodup ∧ (timer ∈ fired ↔ expiry ≤ now ∧ NoneDue expiry ops) := by
  obtain ⟨_, _, _, _, hOp, -⟩ | ⟨_, hOp, -⟩ | ⟨hOp, -⟩ | ⟨hOp, -⟩ := h.inv.step_cases hStep
  · cases hOp
  · cases hOp
  · cases hOp
  · obtain ⟨rfl, rfl⟩ := Op.doTimer.inj hOp
    refine ⟨h.inv.nodup.filter _, ?_⟩
    rw [List.mem_filter, h.waits, due, h.expire, and_comm]
    simp

theorem Pending.run {more : List Op} (hLeaves : ∀ op ∈ more, Leaves timer op)
    (hRun : Run Step s more t) : ∃ next, Pending timer expiry (ops ++ more) t next := by
  induction hRun with
  | nil => exact ⟨queue, by rwa [List.append_nil]⟩
  | snoc _ last ih =>
    obtain ⟨mid, hMid⟩ := ih fun op hop => hLeaves op (List.mem_append_left _ hop)
    rw [← List.append_assoc]
    exact hMid.step (hLeaves _ (List.mem_append_right _ (List.mem_singleton_self _))) last

end

theorem Inv.pending_of_add {s t : State} {queue : List TimerId} (h : Inv s queue)
    {timer : TimerId} {func data expireJiffies : Nat}
    (hStep : Step s (.add timer func data expireJiffies) t) :
    ∃ next, Pending timer (s.jiffies + expireJiffies) [] t next := by
  obtain ⟨_, _, _, _, hOp, -, -, hExpire, hInv⟩ | ⟨_, hOp, -⟩ | ⟨hOp, -⟩ | ⟨hOp, -⟩ :=
    h.step_cases hStep
  · cases hOp
    refine ⟨_, hInv, hExpire, iff_of_true ?_ ?_⟩
    · exact (List.mem_orderedInsert _).mpr (Or.inl rfl)
    · exact fun _ _ hMem => absurd hMem List.not_mem_nil
  · cases hOp
  · cases hOp
  · cases hOp

/-- In every run each call meets its specification, and a timer that is neither deleted nor
added again fires once: in the first `do_timer` at or after its expiry. -/
theorem run_fires_once (start s : State) (before : List Op) (hInit : Initial start)
    (hBefore : Run Step start before s) :
    (∃ queue, Inv s queue ∧ CallSpec s queue) ∧
    ∀ timer func data expireJiffies more t,
      Run Step s (.add timer func data expireJiffies :: more) t →
      (∀ op ∈ more, Leaves timer op) →
      ∀ pre now fired post, more = pre ++ Op.doTimer now fired :: post →
        fired.Nodup ∧
        (timer ∈ fired ↔
          s.jiffies + expireJiffies ≤ now ∧ NoneDue (s.jiffies + expireJiffies) pre) := by
  obtain ⟨queue, hInv⟩ := reach_inv ⟨start, before, hInit, hBefore⟩
  refine ⟨⟨queue, hInv, hInv.callSpec⟩, ?_⟩
  rintro timer func data expireJiffies more t hRun hLeaves pre now fired post rfl
  obtain ⟨added, hAdd, hMore⟩ := hRun.uncons
  obtain ⟨r, hPre, hPost⟩ := hMore.split
  obtain ⟨u, hFire, -⟩ := hPost.uncons
  obtain ⟨_, hPending⟩ := hInv.pending_of_add hAdd
  obtain ⟨_, hNow⟩ := hPending.run (fun op hop => hLeaves op (List.mem_append_left _ hop)) hPre
  exact hNow.fired hFire

/-! ## A run of three timers -/

def bootTimers : TimerId → TimerList := fun _ => ⟨0, none, 0, none⟩

/-- The calls of a run, from the queue that `timer_list_head` leads to. -/
def next (p : State × List TimerId) : Op → Option (State × List TimerId)
  | .add timer func data expireJiffies =>
    let new := initTimer p.1 timer (some func) data expireJiffies
    if timer ∉ p.2 ∧ timer ≠ timerListLast ∧ p.1.jiffies + expireJiffies < 2 ^ 64 then
      (addTimer (p.2.length + 1) new timer).toOption.map fun t => (t, p.2.orderedInsert (ExpireLe new) timer)
    else none
  | .del timer =>
    if timer ∈ p.2 ∧ timer ≠ timerListLast then
      (delTimer (p.2.length + 1) p.1 (some timer)).toOption.map fun t => (t, p.2.erase timer)
    else none
  | .inc =>
    if p.1.jiffies + 1 < 2 ^ 64 - 1 then some ({ p.1 with jiffies := p.1.jiffies + 1 }, p.2) else none
  | .doTimer now fired =>
    (doTimer noTouch (p.2.length + 1) p.1).toOption.bind fun r =>
      if now = p.1.jiffies ∧ fired = r.1 then some (r.2, p.2.filter fun u => !due p.1 u) else none

theorem ok_of_toOption {β : Type} {e : Except Fault β} {r : β} (h : e.toOption = some r) : e = .ok r := by
  cases e with
  | error f => cases h
  | ok r' => exact congrArg Except.ok (Option.some.inj h)

theorem step_of_next {s t : State} {queue queue' : List TimerId} {op : Op} (hInv : Inv s queue)
    (h : next (s, queue) op = some (t, queue')) : Step s op t ∧ Inv t queue' := by
  cases op with
  | add timer func data expireJiffies =>
    obtain ⟨⟨hNew, hLast, hSum⟩, hMap⟩ := Option.ite_none_right_eq_some.mp h
    obtain ⟨r, hCall, hEq⟩ := Option.map_eq_some_iff.mp hMap
    obtain ⟨rfl, rfl⟩ := Prod.mk.inj hEq
    have hOut : ¬ InList s timer := by
      rw [hInv.inList_iff, not_or]
      exact ⟨hNew, hLast⟩
    have hOk := ok_of_toOption hCall
    obtain ⟨n, u, hTakes, -, hNext⟩ := hInv.callSpec.add timer func data expireJiffies hOut hSum
    exact ⟨.add _ hOut hSum hOk, hTakes.eq_of_ok hOk ▸ hNext⟩
  | del timer =>
    obtain ⟨⟨hIn, hLast⟩, hMap⟩ := Option.ite_none_right_eq_some.mp h
    obtain ⟨r, hCall, hEq⟩ := Option.map_eq_some_iff.mp hMap
    obtain ⟨rfl, rfl⟩ := Prod.mk.inj hEq
    have hList : InList s timer := (hInv.inList_iff timer).mpr (Or.inl hIn)
    have hOk := ok_of_toOption hCall
    obtain ⟨n, u, hTakes, -, hNext⟩ := hInv.callSpec.del timer hList hLast
    exact ⟨.del _ hList hLast hOk, hTakes.eq_of_ok hOk ▸ hNext⟩
  | inc =>
    obtain ⟨hBelow, hEq⟩ := Option.ite_none_right_eq_some.mp h
    obtain ⟨rfl, rfl⟩ := Prod.mk.inj (Option.some.inj hEq)
    exact ⟨.inc hBelow, hInv.linked, hInv.last_next, hInv.last_notMem, hInv.nodup, hInv.sorted, hInv.last_expire,
      hInv.below, hInv.callable, hBelow⟩
  | doTimer now fired =>
    obtain ⟨r, hCall, hRest⟩ := Option.bind_eq_some_iff.mp h
    obtain ⟨⟨rfl, rfl⟩, hEq⟩ := Option.ite_none_right_eq_some.mp hRest
    obtain ⟨rfl, rfl⟩ := Prod.mk.inj (Option.some.inj hEq)
    have hOk := ok_of_toOption hCall
    obtain ⟨n, u, hTakes, -, hNext⟩ := hInv.callSpec.doTimer
    obtain ⟨-, hSame⟩ := Prod.mk.inj (hTakes.eq_of_ok hOk)
    exact ⟨.doTimer _ hOk, hSame ▸ hNext⟩

theorem run_of_next {s t : State} {queue queue' : List TimerId} {ops : List Op} (hInv : Inv s queue)
    (h : runList next (s, queue) ops = some (t, queue')) : Run Step s ops t := by
  induction ops generalizing s queue with
  | nil =>
    cases h
    exact .nil _
  | cons op ops ih =>
    obtain ⟨⟨r, mid⟩, hNext, hRest⟩ := Option.bind_eq_some_iff.mp h
    obtain ⟨hStep, hInvR⟩ := step_of_next hInv hNext
    exact .cons hStep (ih hInvR hRest)

/-- A tick for timer 2, which fires alone, and one more for timers 1 and 3. -/
def threeTimers : List Op :=
  [.add 2 7 0 1, .add 3 7 0 2, .inc, .doTimer 1 [2], .inc, .doTimer 2 [3, 1]]

/-- Timer 1, of two ticks, among two others. -/
theorem run_fires_once_ticks : ∃ t, Run Step (timerInit bootTimers) (.add 1 7 0 2 :: threeTimers) t ∧
    ∀ pre now fired post, threeTimers = pre ++ Op.doTimer now fired :: post →
      fired.Nodup ∧ (1 ∈ fired ↔ 2 ≤ now ∧ NoneDue 2 pre) := by
  have hInit : Initial (timerInit bootTimers) := ⟨bootTimers, rfl⟩
  have hSome : (runList next (timerInit bootTimers, []) (.add 1 7 0 2 :: threeTimers)).isSome = true := by
    decide +kernel
  obtain ⟨⟨t, _⟩, ht⟩ := Option.isSome_iff_exists.mp hSome
  have hRun := run_of_next (initial_inv hInit) ht
  refine ⟨t, hRun, fun pre now fired post hSplit => ?_⟩
  have hLeaves : ∀ op ∈ threeTimers, Leaves 1 op := by simp [threeTimers, Leaves]
  exact (run_fires_once (timerInit bootTimers) (timerInit bootTimers) [] hInit (.nil _)).2 1 7 0 2 threeTimers t
    hRun hLeaves pre now fired post hSplit

end KalinoteOS.Timer
