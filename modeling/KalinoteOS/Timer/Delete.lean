import KalinoteOS.Timer.Callbacks

/-! # `del_timer` of any timer

The search of `del_timer` ends at the timer in front of the one to delete. A timer that is not in
the list has none, and the search leaves the list at its end.
-/
namespace KalinoteOS.Timer
open Lib
set_option autoImplicit false

/-- A call on one timer: `init_timer` and `add_timer` of a timer that is not in the list, and a
`del_timer` that returns. -/
inductive Touch : State → State → Prop
  | init {s : State} {timer func data expireJiffies : Nat} (hNew : ¬ InList s timer) :
      Touch s (initTimer s timer (some func) data expireJiffies)
  | add {s t : State} {timer : TimerId} (fuel : Nat) (hNew : ¬ InList s timer)
      (hFunc : s.func timer ≠ none) (hExpire : s.expire timer < 2 ^ 64)
      (hCall : addTimer fuel s timer = .ok t) : Touch s t
  | del {s t : State} (timer : TimerId) (fuel : Nat)
      (hCall : delTimer fuel s (some timer) = .ok t) : Touch s t

inductive Event where
  | touch
  | inc
  | doTimer
  deriving DecidableEq, Repr

/-- What moves the list: the calls on timers, the tick, and `do_timer` with functions that make
such calls themselves. -/
inductive Happens : State → Event → State → Prop
  | touch {s t : State} (hTouch : Touch s t) : Happens s .touch t
  | inc {s : State} (hBelow : s.jiffies + 1 < 2 ^ 64 - 1) :
      Happens s .inc { s with jiffies := s.jiffies + 1 }
  | doTimer {s t : State} {fired : List TimerId} (call : Nat → Nat → State → State) (fuel : Nat)
      (hCalls : ∀ fired r, Run (Round call) s fired r → ∀ head, Due r head →
        Relation.ReflTransGen Touch r (callFunc call r head))
      (hCall : Timer.doTimer call fuel s = .ok (fired, t)) : Happens s .doTimer t

/-! ## The search for a timer that is not there -/

section
variable {s : State} {queue : List TimerId} {timer : TimerId}

theorem delTimerLoop_absent (hNext : s.nextTimer timerListLast = none) (hNew : timer ∉ queue)
    (hLast : timer ≠ timerListLast) {p : Option TimerId}
    (h : Linked s.nextTimer p queue (some timerListLast)) (fuel : Nat) :
    delTimerLoop s (some timer) fuel p =
      if queue.length + 1 ≤ fuel then .error .null else .error .fuel := by
  induction queue generalizing p fuel with
  | nil =>
    rw [linked_nil] at h
    subst h
    cases fuel with
    | zero => rfl
    | succ fuel => simp [delTimerLoop, hNext]
  | cons a rest ih =>
    obtain ⟨rfl, hRest⟩ := h
    rw [List.mem_cons, not_or] at hNew
    cases fuel with
    | zero => rfl
    | succ fuel =>
      have hOther : s.nextTimer a ≠ some timer := by
        intro hEq
        rw [hEq] at hRest
        cases rest with
        | nil => exact hLast (Option.some.inj hRest)
        | cons b rest => exact hNew.2 (Option.some.inj hRest.1 ▸ List.mem_cons_self)
      rw [delTimerLoop, if_neg hOther, ih hNew.2 hRest]
      simp only [List.length_cons, Nat.add_le_add_iff_right]

theorem Inv.delTimer_absent (h : Inv s queue) (hOut : ¬ InList s timer) (fuel : Nat) :
    Timer.delTimer fuel s (some timer) =
      if queue.length + 1 ≤ fuel then .error .null else .error .fuel := by
  rw [h.inList_iff, not_or] at hOut
  obtain ⟨hNew, hLast⟩ := hOut
  have hHead : some timer ≠ s.timerListHead := by
    intro hEq
    have hLinked := h.linked
    rw [← hEq] at hLinked
    cases queue with
    | nil => exact hLast (Option.some.inj hLinked)
    | cons a rest => exact hNew (Option.some.inj hLinked.1 ▸ List.mem_cons_self)
  have hLoop := delTimerLoop_absent h.last_next hNew hLast h.linked fuel
  rw [Timer.delTimer, if_neg (by simpa using hLast), if_neg hHead, hLoop]
  split
  · rfl
  · rfl

theorem Inv.delTimer_last (h : Inv s queue) :
    Takes 0 (fun fuel => Timer.delTimer fuel s (some timerListLast)) s ∧
      Inv s (queue.erase timerListLast) := by
  rw [List.erase_of_not_mem h.last_notMem]
  exact ⟨fun fuel => by simp [Timer.delTimer], h⟩

/-- A timer of the list is deleted, and the last one stays. -/
theorem Inv.delTimer_inList (h : Inv s queue) (hIn : InList s timer) :
    ∃ n t, Takes n (fun fuel => Timer.delTimer fuel s (some timer)) t ∧ SameTimers s t ∧
      Inv t (queue.erase timer) := by
  obtain hMem | rfl := (h.inList_iff timer).mp hIn
  · exact h.delTimer hMem
  · obtain ⟨hTakes, hInv⟩ := h.delTimer_last
    exact ⟨0, s, hTakes, ⟨rfl, rfl, rfl⟩, hInv⟩

/-! ## What happens keeps the list -/

theorem Inv.touch {t : State} (h : Inv s queue) (hTouch : Touch s t) : ∃ next, Inv t next := by
  cases hTouch with
  | init hNew => exact ⟨queue, h.initTimer hNew _ _ _⟩
  | add fuel hNew hFunc hExpire hCall =>
    rw [h.inList_iff, not_or] at hNew
    obtain ⟨n, r, hTakes, -, hInv⟩ := h.addTimer hNew.1 hNew.2 hExpire hFunc
    rw [hTakes.eq_of_ok hCall]
    exact ⟨_, hInv⟩
  | del timer fuel hCall =>
    by_cases hIn : InList s timer
    · obtain ⟨n, r, hTakes, -, hInv⟩ := h.delTimer_inList hIn
      rw [hTakes.eq_of_ok hCall]
      exact ⟨_, hInv⟩
    · rw [h.delTimer_absent hIn] at hCall
      split at hCall
      · cases hCall
      · cases hCall

theorem Inv.touches {t : State} (h : Inv s queue) (hTouches : Relation.ReflTransGen Touch s t) :
    ∃ next, Inv t next := by
  induction hTouches with
  | refl => exact ⟨queue, h⟩
  | tail _ hTouch ih =>
    obtain ⟨next, hInv⟩ := ih
    exact hInv.touch hTouch

theorem Inv.delTimer_own_head {t : State} (h : Inv s queue)
    (hDel : Timer.delTimer 0 s s.timerListHead = .ok t) : ∃ next, Inv t next := by
  cases queue with
  | nil =>
    have hHead : s.timerListHead = some timerListLast := h.linked
    have hSame : s = t := by
      rw [hHead, Timer.delTimer, if_pos rfl] at hDel
      exact Except.ok.inj hDel
    exact ⟨[], hSame ▸ h⟩
  | cons a rest =>
    rw [h.linked.1, delTimer_head h rfl] at hDel
    rw [← Except.ok.inj hDel]
    exact ⟨rest, h.behead rfl⟩

end

theorem doTimer_rounds {call : Nat → Nat → State → State} {s t : State} {fired : List TimerId}
    {fuel : Nat} (h : doTimer call fuel s = .ok (fired, t)) : Run (Round call) s fired t := by
  induction fuel generalizing s fired with
  | zero => cases h
  | succ fuel ih =>
    unfold doTimer at h
    split at h
    · cases h
    · next head hHead =>
      split at h
      · next hLe =>
        split at h
        · cases h
        · next func hFunc =>
          cases hDel : delTimer fuel (call func (s.timers head).data s)
              (call func (s.timers head).data s).timerListHead with
          | error fault =>
            simp only [hDel] at h
            cases h
          | ok r =>
            cases hRest : doTimer call fuel r with
            | error fault =>
              simp only [hDel] at h
              change (doTimer call fuel r >>= _) = _ at h
              rw [hRest] at h
              cases h
            | ok result =>
              obtain ⟨rest, u⟩ := result
              simp only [hDel] at h
              change (doTimer call fuel r >>= _) = _ at h
              rw [hRest] at h
              cases h
              have hCalled : callFunc call s head = call func (s.timers head).data s := by
                unfold callFunc
                rw [hFunc]
              have hRound : Round call s head r := by
                refine ⟨⟨hHead, hLe⟩, by rw [hFunc]; exact Option.some_ne_none func, ?_⟩
                rw [hCalled, ← delTimer_own_head fuel]
                exact hDel
              exact .cons hRound (ih hRest)
      · cases h
        exact .nil _

theorem Inv.rounds {call : Nat → Nat → State → State} {s t : State} {queue fired : List TimerId}
    (h : Inv s queue)
    (hCalls : ∀ fired r, Run (Round call) s fired r → ∀ head, Due r head →
      Relation.ReflTransGen Touch r (callFunc call r head))
    (hRun : Run (Round call) s fired t) : ∃ next, Inv t next := by
  induction hRun with
  | nil => exact ⟨queue, h⟩
  | snoc hBefore hRound ih =>
    obtain ⟨next, hInv⟩ := ih
    obtain ⟨called, hCalled⟩ := hInv.touches (hCalls _ _ hBefore _ hRound.1)
    exact hCalled.delTimer_own_head hRound.2.2

theorem Inv.happens {s t : State} {queue : List TimerId} {event : Event} (h : Inv s queue)
    (hStep : Happens s event t) : ∃ next, Inv t next := by
  cases hStep with
  | touch hTouch => exact h.touch hTouch
  | inc hBelow =>
    exact ⟨queue, h.linked, h.last_next, h.last_notMem, h.nodup, h.sorted, h.last_expire, h.below,
      h.callable, hBelow⟩
  | doTimer call fuel hCalls hCall => exact h.rounds hCalls (doTimer_rounds hCall)

theorem happens_inv {s : State} (h : Reach Initial Happens s) : ∃ queue, Inv s queue :=
  Reach.invariant (P := fun s => ∃ queue, Inv s queue) (fun _ hs => ⟨[], initial_inv hs⟩)
    (fun _ _ _ ⟨_, hs⟩ hStep => hs.happens hStep) h

/-- `del_timer` returns, with the timer out of the list and the rest as it was, exactly for the
timers of the list and for `timer_list_last`, which stays. -/
theorem delTimer_safe_iff (s : State) (h : Reach Initial Happens s) :
    ∃ queue, Inv s queue ∧ ∀ timer,
      (∃ n t, Takes n (fun fuel => delTimer fuel s (some timer)) t ∧ SameTimers s t ∧
        Inv t (queue.erase timer)) ↔ InList s timer := by
  obtain ⟨queue, hInv⟩ := happens_inv h
  refine ⟨queue, hInv, fun timer => ?_⟩
  constructor
  · rintro ⟨n, t, hTakes, -⟩
    by_contra hOut
    have hCall : delTimer n s (some timer) = _ := hTakes n
    rw [hInv.delTimer_absent hOut, if_pos (le_refl n)] at hCall
    split at hCall
    · cases hCall
    · cases hCall
  · exact hInv.delTimer_inList

/-- Timer 1 of no ticks, added and fired. -/
theorem del_fired_timer :
    ¬ ∀ s, Reach Initial Happens s → ∀ queue, Inv s queue → ∀ timer, s.func timer ≠ none →
      ∃ n t, Takes n (fun fuel => delTimer fuel s (some timer)) t ∧ SameTimers s t ∧
        Inv t (queue.erase timer) := by
  intro h
  have hBoot : Initial (timerInit bootTimers) := ⟨bootTimers, rfl⟩
  have hNew : ¬ InList (timerInit bootTimers) 1 := by
    rw [(initial_inv hBoot).inList_iff]
    decide
  have hInit : Reach Initial Happens (initTimer (timerInit bootTimers) 1 (some 7) 0 0) :=
    (Reach.start hBoot).next (.touch (.init hNew))
  have hStillNew : ¬ InList (initTimer (timerInit bootTimers) 1 (some 7) 0 0) 1 := by
    rw [((initial_inv hBoot).initTimer hNew (some 7) 0 0).inList_iff]
    decide
  have hCalls : ∃ added fired,
      addTimer 1 (initTimer (timerInit bootTimers) 1 (some 7) 0 0) 1 = .ok added ∧
      doTimer noTouch 2 added = .ok ([1], fired) ∧ fired.func 1 ≠ none ∧
      delTimer 1 fired (some 1) = .error .null :=
    ⟨_, _, rfl, rfl, by decide, rfl⟩
  obtain ⟨added, fired, hAdd, hFire, hFunc, hNull⟩ := hCalls
  have hAdded := hInit.next (.touch (.add 1 hStillNew (by decide) (by decide) hAdd))
  have hQuiet : ∀ labels r, Run (Round noTouch) added labels r → ∀ head, Due r head →
      Relation.ReflTransGen Touch r (callFunc noTouch r head) := by
    intro labels r _ head _
    unfold callFunc
    split
    · exact .refl
    · exact .refl
  have hFired := hAdded.next (.doTimer noTouch 2 hQuiet hFire)
  obtain ⟨queue, hInv⟩ := happens_inv hFired
  obtain ⟨n, t, hTakes, -⟩ := h fired hFired queue hInv 1 hFunc
  have hCall : delTimer 1 fired (some 1) = _ := hTakes 1
  rw [hNull] at hCall
  split at hCall
  · cases hCall
  · cases hCall

theorem reach_add {s t : State} {queue : List TimerId} {timer : TimerId} {func data expireJiffies : Nat}
    (hReach : Reach Initial Happens s) (hInv : Inv s queue)
    (hStep : Step s (.add timer func data expireJiffies) t) :
    Reach Initial Happens t := by
  obtain ⟨fuel, hNew, -, hCall⟩ := hStep
  have hInit : Touch s (initTimer s timer (some func) data expireJiffies) := .init hNew
  have hOut : ¬ InList (initTimer s timer (some func) data expireJiffies) timer := by
    rw [(hInv.initTimer hNew (some func) data expireJiffies).inList_iff, ← hInv.inList_iff]
    exact hNew
  have hFunc : (initTimer s timer (some func) data expireJiffies).func timer ≠ none := by
    rw [initTimer_func_self]
    exact Option.some_ne_none func
  have hExpire : (initTimer s timer (some func) data expireJiffies).expire timer < 2 ^ 64 := by
    rw [initTimer_expire_self]
    exact Nat.mod_lt _ (by decide)
  exact (hReach.next (.touch hInit)).next (.touch (.add fuel hOut hFunc hExpire hCall))

/-- Timers 1 and 2 are in the list, timer 3 is not. -/
theorem delTimer_safe_iff_twoTimers : ∃ s, Reach Initial Happens s ∧ InList s 1 ∧ InList s 2 ∧ ¬ InList s 3 ∧
    ∃ queue, Inv s queue ∧ ∀ timer,
      (∃ n t, Takes n (fun fuel => delTimer fuel s (some timer)) t ∧ SameTimers s t ∧
        Inv t (queue.erase timer)) ↔ InList s timer := by
  have hInit : Initial (timerInit bootTimers) := ⟨bootTimers, rfl⟩
  have hAdded : ((next (timerInit bootTimers, []) (.add 1 7 0 2)).bind fun p => next p (.add 2 7 0 1)).map
    Prod.snd =
      some [2, 1] := by
    decide +kernel
  obtain ⟨⟨s, _⟩, hBoth, rfl⟩ := Option.map_eq_some_iff.mp hAdded
  obtain ⟨⟨s₁, queue₁⟩, hFirst, hSecond⟩ := Option.bind_eq_some_iff.mp hBoth
  obtain ⟨hAdd₁, hInv₁⟩ := step_of_next (initial_inv hInit) hFirst
  obtain ⟨hAdd, hInv⟩ := step_of_next hInv₁ hSecond
  have hReach := reach_add (reach_add (.start hInit) (initial_inv hInit) hAdd₁) hInv₁ hAdd
  refine ⟨s, hReach, ?_, ?_, ?_, delTimer_safe_iff s hReach⟩
  · exact (hInv.inList_iff 1).mpr (by decide)
  · exact (hInv.inList_iff 2).mpr (by decide)
  · exact (not_congr (hInv.inList_iff 3)).mpr (by decide)

end KalinoteOS.Timer
