import KalinoteOS.Lib.Linked
import KalinoteOS.Timer.Timer
import Mathlib.Data.List.Sort

/-! # The timer queue

The cells from `timer_list_head` to `timer_list_last` represent a list of timers sorted by
expiry. Each function of `timer.c` is an operation on that list: an ordered insertion, an
erasure, and a split at `jiffies`. Its result is given for every amount of fuel.
-/
namespace KalinoteOS.Timer
open Lib
set_option autoImplicit false

/-- The queue order. -/
def ExpireLe (s : State) (a b : TimerId) : Prop := s.expire a ≤ s.expire b

instance (s : State) : DecidableRel (ExpireLe s) :=
  fun a b => inferInstanceAs (Decidable (s.expire a ≤ s.expire b))

instance (s : State) : Std.Total (ExpireLe s) := ⟨fun a b => le_total (s.expire a) (s.expire b)⟩

instance (s : State) : IsTrans TimerId (ExpireLe s) := ⟨fun _ _ _ h h' => le_trans h h'⟩

/-- `queue` is what waits in front of `timer_list_last`. -/
structure Inv (s : State) (queue : List TimerId) : Prop where
  linked : Linked s.nextTimer s.timerListHead queue (some timerListLast)
  last_next : s.nextTimer timerListLast = none
  last_notMem : timerListLast ∉ queue
  nodup : queue.Nodup
  sorted : queue.Pairwise (ExpireLe s)
  last_expire : s.expire timerListLast = 2 ^ 64 - 1
  below : ∀ t ∈ queue, s.expire t < 2 ^ 64
  callable : ∀ t ∈ queue, s.func t ≠ none
  jiffies : s.jiffies < 2 ^ 64 - 1

/-- Nothing but links and the head differs. -/
structure SameTimers (s t : State) : Prop where
  expire : t.expire = s.expire
  func : t.func = s.func
  jiffies : t.jiffies = s.jiffies

/-- A call that succeeds from `n` units of fuel on, and reports missing fuel before. -/
def Takes {β : Type} (n : Nat) (call : Nat → Except Fault β) (result : β) : Prop :=
  ∀ fuel, call fuel = if n ≤ fuel then .ok result else .error .fuel

/-- Whatever the fuel, a call that returns gives the one result. -/
theorem Takes.eq_of_ok {β : Type} {n fuel : Nat} {call : Nat → Except Fault β} {result other : β}
    (h : Takes n call result) (hOther : call fuel = .ok other) : other = result := by
  rw [h fuel] at hOther
  split at hOther
  · exact (Except.ok.inj hOther).symm
  · cases hOther

/-! ## The loops -/

theorem addTimerLoop_eq {s : State} {expire : Nat} {front : List TimerId} {tmp : TimerId}
    (hFront : ∀ a ∈ front, s.expire a < expire) (hTmp : expire ≤ s.expire tmp) :
    ∀ (pre : Option TimerId) {p : Option TimerId}, Linked s.nextTimer p front (some tmp) →
      Takes (front.length + 1) (fun fuel => addTimerLoop s expire fuel pre p)
        (front.getLast?.or pre, some tmp) := by
  induction front with
  | nil =>
    intro pre p hLinked fuel
    rw [linked_nil] at hLinked
    subst hLinked
    cases fuel with
    | zero => rfl
    | succ fuel => simp [addTimerLoop, not_lt.mpr hTmp]
  | cons a front ih =>
    intro pre p hLinked fuel
    obtain ⟨rfl, hRest⟩ := hLinked
    cases fuel with
    | zero => rfl
    | succ fuel =>
      have hStep := ih (fun b hb => hFront b (List.mem_cons_of_mem a hb)) (some a) hRest fuel
      have hLast : (a :: front).getLast?.or pre = front.getLast?.or (some a) := by
        cases front with
        | nil => rfl
        | cons b front => simp [List.getLast?_cons]
      simp only [addTimerLoop, gt_iff_lt, hFront a List.mem_cons_self, if_true, hLast,
        List.length_cons, Nat.add_le_add_iff_right]
      exact hStep

theorem delTimerLoop_eq {s : State} {timer a : TimerId} {front : List TimerId}
    (hNotMem : timer ∉ front ++ [a]) :
    ∀ {p : Option TimerId}, Linked s.nextTimer p (front ++ [a]) (some timer) →
      Takes (front.length + 1) (fun fuel => delTimerLoop s (some timer) fuel p) a := by
  induction front with
  | nil =>
    rintro p ⟨rfl, hNext⟩ fuel
    rw [linked_nil] at hNext
    cases fuel with
    | zero => rfl
    | succ fuel => simp [delTimerLoop, hNext]
  | cons b front ih =>
    rintro p ⟨rfl, hRest⟩ fuel
    rw [List.cons_append, List.mem_cons, not_or] at hNotMem
    cases fuel with
    | zero => rfl
    | succ fuel =>
      -- the cell behind `b` is one of `front ++ [a]`, hence not `timer`
      have hNext : s.nextTimer b ≠ some timer := by
        intro hEq
        apply hNotMem.2
        rw [hEq] at hRest
        cases front with
        | nil => exact (Option.some.inj hRest.1) ▸ List.mem_singleton_self a
        | cons c front => exact (Option.some.inj hRest.1) ▸ List.mem_cons_self
      have hStep := ih hNotMem.2 hRest fuel
      simp only [delTimerLoop, hNext, if_false, List.length_cons, Nat.add_le_add_iff_right]
      exact hStep

/-! ## `add_timer` -/

/-- Where an ordered insertion puts `timer`. -/
theorem insert_split {s : State} {queue : List TimerId} (timer : TimerId)
    (hSorted : queue.Pairwise (ExpireLe s)) :
    ∃ front back, queue = front ++ back ∧
      queue.orderedInsert (ExpireLe s) timer = front ++ timer :: back ∧
      (∀ a ∈ front, s.expire a < s.expire timer) ∧
      ∀ t, back.head? = some t → s.expire timer ≤ s.expire t := by
  induction queue with
  | nil => exact ⟨[], [], rfl, rfl, by simp, by simp⟩
  | cons a queue ih =>
    by_cases hLe : ExpireLe s timer a
    · refine ⟨[], a :: queue, rfl, List.orderedInsert_cons_of_le _ _ hLe, by simp, ?_⟩
      intro t ht
      cases ht
      exact hLe
    · obtain ⟨front, back, rfl, hInsert, hFront, hBack⟩ := ih (List.pairwise_cons.mp hSorted).2
      refine ⟨a :: front, back, rfl, ?_, ?_, hBack⟩
      · rw [List.orderedInsert_of_not_le _ _ hLe, hInsert, List.cons_append]
      · intro b hb
        obtain rfl | hb := List.mem_cons.mp hb
        · exact not_le.mp hLe
        · exact hFront b hb

section
variable {s : State} {queue : List TimerId} (h : Inv s queue)
include h

/-- The cell in front of which a timer goes exists and does not expire earlier. -/
theorem Inv.back_start {front back : List TimerId} (hQueue : queue = front ++ back) {expire : Nat}
    (hExpire : expire < 2 ^ 64) (hBack : ∀ t, back.head? = some t → expire ≤ s.expire t) :
    ∃ tmp, Linked s.nextTimer s.timerListHead front (some tmp) ∧
      Linked s.nextTimer (some tmp) back (some timerListLast) ∧ expire ≤ s.expire tmp := by
  subst hQueue
  obtain ⟨r, hFront, hRest⟩ := linked_append.mp h.linked
  cases back with
  | nil =>
    rw [linked_nil] at hRest
    subst hRest
    refine ⟨timerListLast, hFront, rfl, ?_⟩
    rw [h.last_expire]
    omega
  | cons tmp back =>
    obtain ⟨rfl, hRest⟩ := hRest
    exact ⟨tmp, hFront, ⟨rfl, hRest⟩, hBack tmp rfl⟩

/-- The invariant after the queue and the links changed but no timer did. -/
theorem Inv.relink {t : State} {other : List TimerId} (hSame : SameTimers s t)
    (hLinked : Linked t.nextTimer t.timerListHead other (some timerListLast))
    (hLast : t.nextTimer timerListLast = none) (hNotMem : timerListLast ∉ other)
    (hNodup : other.Nodup) (hSorted : other.Pairwise (ExpireLe s))
    (hBelow : ∀ u ∈ other, s.expire u < 2 ^ 64) (hFunc : ∀ u ∈ other, s.func u ≠ none) :
    Inv t other where
  linked := hLinked
  last_next := hLast
  last_notMem := hNotMem
  nodup := hNodup
  sorted := by
    unfold ExpireLe
    rw [hSame.expire]
    exact hSorted
  last_expire := by
    rw [hSame.expire]
    exact h.last_expire
  below := by
    rw [hSame.expire]
    exact hBelow
  callable := by
    rw [hSame.func]
    exact hFunc
  jiffies := by
    rw [hSame.jiffies]
    exact h.jiffies

/-- `timer` linked in behind `front`. -/
def linkIn (s : State) (front : List TimerId) (timer tmp : TimerId) : State :=
  (match front.getLast? with
    | some pre => s.setNext pre (some timer)
    | none => { s with timerListHead := some timer }).setNext timer (some tmp)

omit h in
theorem linkIn_same (s : State) (front : List TimerId) (timer tmp : TimerId) :
    SameTimers s (linkIn s front timer tmp) := by
  unfold linkIn
  split
  · exact ⟨by simp, by simp, rfl⟩
  · exact ⟨State.setNext_expire _ _ _, State.setNext_func _ _ _, rfl⟩

theorem Inv.linkIn_linked {front back : List TimerId} (hQueue : queue = front ++ back)
    {timer tmp : TimerId} (hNew : timer ∉ queue)
    (hBefore : Linked s.nextTimer s.timerListHead front (some tmp))
    (hAfter : Linked s.nextTimer (some tmp) back (some timerListLast)) :
    Linked (linkIn s front timer tmp).nextTimer (linkIn s front timer tmp).timerListHead
      (front ++ timer :: back) (some timerListLast) := by
  subst hQueue
  obtain rfl | ⟨init, pre, rfl⟩ := List.eq_nil_or_concat' front
  · refine ⟨rfl, ?_⟩
    have hNext : (linkIn s [] timer tmp).nextTimer
        = Function.update s.nextTimer timer (some tmp) := State.setNext_nextTimer _ _ _
    rw [hNext, Function.update_self]
    exact hAfter.update_other hNew _
  · obtain ⟨r, -, hPre⟩ := linked_append.mp hBefore
    have hTmp : s.nextTimer pre = some tmp := hPre.2
    have hLink := (linked_append.mpr ⟨_, hBefore, hAfter⟩).insert_behind h.nodup hNew
    have hEq : linkIn s (init ++ [pre]) timer tmp
        = (s.setNext pre (some timer)).setNext timer (some tmp) := by
      simp [linkIn]
    rw [hEq, State.setNext_nextTimer, State.setNext_nextTimer, ← hTmp]
    exact hLink

theorem Inv.linkIn_last {front back : List TimerId} (hQueue : queue = front ++ back)
    {timer tmp : TimerId} (hLast : timer ≠ timerListLast) :
    (linkIn s front timer tmp).nextTimer timerListLast = none := by
  have hNotMem : timerListLast ∉ front := fun hMem =>
    h.last_notMem (hQueue ▸ List.mem_append_left _ hMem)
  obtain rfl | ⟨init, pre, rfl⟩ := List.eq_nil_or_concat' front
  · have hNext : (linkIn s [] timer tmp).nextTimer
        = Function.update s.nextTimer timer (some tmp) := State.setNext_nextTimer _ _ _
    rw [hNext, Function.update_of_ne hLast.symm]
    exact h.last_next
  · have hPre : timerListLast ≠ pre := by
      rintro rfl
      exact hNotMem (List.mem_append_right _ (List.mem_singleton_self _))
    have hEq : linkIn s (init ++ [pre]) timer tmp
        = (s.setNext pre (some timer)).setNext timer (some tmp) := by
      simp [linkIn]
    rw [hEq, State.setNext_nextTimer, State.setNext_nextTimer, Function.update_of_ne hLast.symm,
      Function.update_of_ne hPre]
    exact h.last_next

/-- `add_timer` is an ordered insertion. -/
theorem Inv.addTimer {timer : TimerId} (hNew : timer ∉ queue) (hLast : timer ≠ timerListLast)
    (hExpire : s.expire timer < 2 ^ 64) (hFunc : s.func timer ≠ none) :
    ∃ n t, Takes n (fun fuel => addTimer fuel s timer) t ∧ SameTimers s t ∧
      Inv t (queue.orderedInsert (ExpireLe s) timer) := by
  obtain ⟨front, back, hQueue, hInsert, hFront, hBack⟩ := insert_split (s := s) timer h.sorted
  obtain ⟨tmp, hBefore, hAfter, hTmp⟩ := h.back_start hQueue hExpire hBack
  have hPerm := List.perm_orderedInsert (ExpireLe s) timer queue
  have hTakes : Takes (front.length + 1) (fun fuel => Timer.addTimer fuel s timer)
      (linkIn s front timer tmp) := by
    intro fuel
    have hLoop : addTimerLoop s (s.expire timer) fuel none s.timerListHead = _ :=
      addTimerLoop_eq hFront hTmp none hBefore fuel
    change Timer.addTimer fuel s timer = _
    rw [Timer.addTimer, hLoop, Option.or_none]
    split <;> rfl
  refine ⟨_, _, hTakes, linkIn_same s front timer tmp, ?_⟩
  refine h.relink (linkIn_same s front timer tmp) ?_ (h.linkIn_last hQueue hLast) ?_ ?_ ?_ ?_ ?_
  · rw [hInsert]
    exact h.linkIn_linked hQueue hNew hBefore hAfter
  · rw [hPerm.mem_iff, List.mem_cons, not_or]
    exact ⟨hLast.symm, h.last_notMem⟩
  · exact hPerm.nodup_iff.mpr (List.nodup_cons.mpr ⟨hNew, h.nodup⟩)
  · exact h.sorted.orderedInsert timer queue
  · intro u hu
    obtain rfl | hu := List.mem_cons.mp (hPerm.mem_iff.mp hu)
    · exact hExpire
    · exact h.below u hu
  · intro u hu
    obtain rfl | hu := List.mem_cons.mp (hPerm.mem_iff.mp hu)
    · exact hFunc
    · exact h.callable u hu

/-! ## `del_timer` -/

theorem delTimer_head {timer : TimerId} {rest : List TimerId} (hQueue : queue = timer :: rest)
    (fuel : Nat) :
    delTimer fuel s (some timer) = .ok { s with timerListHead := s.nextTimer timer } := by
  subst hQueue
  have hHead : s.timerListHead = some timer := h.linked.1
  have hLast : timer ≠ timerListLast := by
    rintro rfl
    exact h.last_notMem List.mem_cons_self
  simp [delTimer, hHead, hLast]

theorem Inv.behead {timer : TimerId} {rest : List TimerId} (hQueue : queue = timer :: rest) :
    Inv { s with timerListHead := s.nextTimer timer } rest := by
  subst hQueue
  have hMem := h.last_notMem
  rw [List.mem_cons, not_or] at hMem
  exact h.relink ⟨rfl, rfl, rfl⟩ h.linked.2 h.last_next hMem.2 (List.nodup_cons.mp h.nodup).2
    (List.pairwise_cons.mp h.sorted).2 (fun u hu => h.below u (List.mem_cons_of_mem _ hu))
    (fun u hu => h.callable u (List.mem_cons_of_mem _ hu))

theorem Inv.delTimer_behind {front back : List TimerId} {pre timer : TimerId}
    (hQueue : queue = front ++ [pre] ++ timer :: back) :
    Takes (front.length + 1) (fun fuel => delTimer fuel s (some timer))
      (s.setNext pre (s.nextTimer timer)) ∧
    Inv (s.setNext pre (s.nextTimer timer)) (front ++ [pre] ++ back) := by
  subst hQueue
  have hDisjoint := h.nodup.disjoint
  have hNew : timer ∉ front ++ [pre] := fun hMem => hDisjoint hMem List.mem_cons_self
  have hLast : timer ≠ timerListLast := by
    rintro rfl
    exact h.last_notMem (List.mem_append_right _ List.mem_cons_self)
  obtain ⟨r, hBefore, hTimer, -⟩ := linked_append.mp h.linked
  subst hTimer
  have hHead : some timer ≠ s.timerListHead := by
    intro hEq
    rw [← hEq] at hBefore
    cases front with
    | nil => exact hNew ((Option.some.inj hBefore.1) ▸ List.mem_singleton_self _)
    | cons a front => exact hNew ((Option.some.inj hBefore.1) ▸ List.mem_cons_self)
  have hSub : List.Sublist (front ++ [pre] ++ back) (front ++ [pre] ++ timer :: back) :=
    List.Sublist.append_left (List.sublist_cons_self timer back) _
  constructor
  · intro fuel
    have hLoop : delTimerLoop s (some timer) fuel s.timerListHead = _ :=
      delTimerLoop_eq hNew hBefore fuel
    change delTimer fuel s (some timer) = _
    rw [delTimer, if_neg (by simpa using hLast), if_neg hHead, hLoop]
    split <;> rfl
  · refine h.relink ⟨State.setNext_expire _ _ _, State.setNext_func _ _ _, rfl⟩ ?_ ?_
      (fun hMem => h.last_notMem (hSub.subset hMem)) (h.nodup.sublist hSub) (h.sorted.sublist hSub)
      (fun u hu => h.below u (hSub.subset hu)) (fun u hu => h.callable u (hSub.subset hu))
    · rw [State.setNext_nextTimer]
      exact h.linked.remove_behind h.nodup
    · rw [State.setNext_nextTimer, Function.update_of_ne]
      · exact h.last_next
      · rintro hEq
        apply h.last_notMem
        rw [hEq]
        simp

theorem Inv.delTimer {timer : TimerId} (hMem : timer ∈ queue) :
    ∃ n t, Takes n (fun fuel => delTimer fuel s (some timer)) t ∧ SameTimers s t ∧
      Inv t (queue.erase timer) := by
  obtain ⟨front, back, hQueue⟩ := List.append_of_mem hMem
  obtain rfl | ⟨init, pre, rfl⟩ := List.eq_nil_or_concat' front
  · refine ⟨0, { s with timerListHead := s.nextTimer timer }, fun fuel => ?_, ⟨rfl, rfl, rfl⟩, ?_⟩
    · rw [if_pos (Nat.zero_le fuel)]
      exact delTimer_head h hQueue fuel
    · have hErase : queue.erase timer = back := by simp [hQueue]
      rw [hErase]
      exact h.behead hQueue
  · obtain ⟨hTakes, hInv⟩ := h.delTimer_behind hQueue
    refine ⟨_, _, hTakes, ⟨State.setNext_expire _ _ _, State.setNext_func _ _ _, rfl⟩, ?_⟩
    have hNotMem : timer ∉ init ++ [pre] := fun hIn =>
      (hQueue ▸ h.nodup).disjoint hIn List.mem_cons_self
    have hErase : queue.erase timer = init ++ [pre] ++ back := by
      rw [hQueue, List.erase_append_right _ hNotMem, List.erase_cons_head]
    rw [hErase]
    exact hInv

end

/-! ## `do_timer` -/

/-- A callback that leaves the timers alone. -/
def noTouch (_func _data : Nat) (s : State) : State := s

/-- The timers that are due. -/
def due (s : State) (t : TimerId) : Bool := s.expire t ≤ s.jiffies

/-- `do_timer` fires the timers that are due, in queue order, and leaves the others. -/
theorem Inv.doTimer {s : State} {queue : List TimerId} (h : Inv s queue) :
    ∃ t, Takes ((queue.filter (due s)).length + 1) (fun fuel => doTimer noTouch fuel s)
        (queue.filter (due s), t) ∧
      SameTimers s t ∧ Inv t (queue.filter fun u => !due s u) := by
  induction queue generalizing s with
  | nil =>
    refine ⟨s, fun fuel => ?_, ⟨rfl, rfl, rfl⟩, h⟩
    have hHead : s.timerListHead = some timerListLast := h.linked
    have hNot : ¬ s.expire timerListLast ≤ s.jiffies := by
      rw [h.last_expire]
      exact not_le.mpr h.jiffies
    cases fuel with
    | zero => rfl
    | succ fuel => simp [Timer.doTimer, hHead, hNot]
  | cons a queue ih =>
    have hHead : s.timerListHead = some a := h.linked.1
    by_cases hDue : s.expire a ≤ s.jiffies
    · obtain ⟨t, hTakes, hSame, hInv⟩ := ih (h.behead rfl)
      have hKeep : due { s with timerListHead := s.nextTimer a } = due s := rfl
      rw [hKeep] at hTakes hInv
      obtain ⟨func, hFunc⟩ := Option.ne_none_iff_exists'.mp (h.callable a List.mem_cons_self)
      have hFired : (a :: queue).filter (due s) = a :: queue.filter (due s) :=
        List.filter_cons_of_pos (by simpa [due] using hDue)
      have hRest : (a :: queue).filter (fun u => !due s u) = queue.filter (fun u => !due s u) :=
        List.filter_cons_of_neg (by simpa [due] using hDue)
      refine ⟨t, fun fuel => ?_, ⟨hSame.expire, hSame.func, hSame.jiffies⟩, hRest ▸ hInv⟩
      rw [hFired]
      cases fuel with
      | zero => rfl
      | succ fuel =>
        have hDel : Timer.delTimer fuel s (some a) = _ := delTimer_head h rfl fuel
        have hCall : Timer.doTimer noTouch fuel { s with timerListHead := s.nextTimer a } = _ :=
          hTakes fuel
        simp only [Timer.doTimer, hHead, hDue, if_true, hFunc, noTouch, hDel]
        change (Timer.doTimer noTouch fuel { s with timerListHead := s.nextTimer a } >>= _) = _
        rw [hCall, List.length_cons]
        by_cases hFuel : (queue.filter (due s)).length + 1 ≤ fuel
        · rw [if_pos hFuel, if_pos (by omega)]
          rfl
        · rw [if_neg hFuel, if_neg (by omega)]
          rfl
    · -- the head is not due, so nothing behind it is
      have hNone : ∀ u ∈ a :: queue, due s u = false := by
        intro u hu
        obtain rfl | hu := List.mem_cons.mp hu
        · simpa [due] using hDue
        · have hLe : s.expire a ≤ s.expire u := (List.pairwise_cons.mp h.sorted).1 u hu
          simp only [due, decide_eq_false_iff_not]
          omega
      have hFired : (a :: queue).filter (due s) = [] :=
        List.filter_eq_nil_iff.mpr fun u hu => by simp [hNone u hu]
      have hRest : (a :: queue).filter (fun u => !due s u) = a :: queue :=
        List.filter_eq_self.mpr fun u hu => by simp [hNone u hu]
      refine ⟨s, fun fuel => ?_, ⟨rfl, rfl, rfl⟩, hRest.symm ▸ h⟩
      rw [hFired]
      cases fuel with
      | zero => rfl
      | succ fuel => simp [Timer.doTimer, hHead, hDue]

end KalinoteOS.Timer
