import Mathlib.Logic.Relation
import Mathlib.Data.Set.Basic
import KalinoteOS.Timer.Run

/-! # Callbacks that arm timers

`do_timer` runs the function of the head of the list and then deletes whatever the head is by
then. A round of its loop takes out the timer it runs unless the function put another one in
front of it.
-/
namespace KalinoteOS.Timer
open Lib
set_option autoImplicit false

/-- `init_timer` and `add_timer` of a timer that is not in the list. -/
inductive Arm : State → State → Prop
  | mk {s t : State} {timer : TimerId} {func data expireJiffies : Nat} (fuel : Nat)
      (hNew : ¬ InList s timer)
      (hCall : addTimer fuel (initTimer s timer (some func) data expireJiffies) timer = .ok t) :
      Arm s t

def Arms : State → State → Prop := Relation.ReflTransGen Arm

/-- The function of `head`, called. -/
def callFunc (call : Nat → Nat → State → State) (s : State) (head : TimerId) : State :=
  match s.func head with
  | none => s
  | some func => call func (s.timers head).data s

/-- The condition of the loop, for the head of the list. -/
def Due (s : State) (head : TimerId) : Prop :=
  s.timerListHead = some head ∧ s.expire head ≤ s.jiffies

/-- A round of the loop, with the timer whose function it calls. -/
def Round (call : Nat → Nat → State → State) (s : State) (head : TimerId) (t : State) : Prop :=
  Due s head ∧ s.func head ≠ none ∧
    delTimer 0 (callFunc call s head) (callFunc call s head).timerListHead = .ok t

/-- The function of `head` adds `timer` to the list. -/
def Added (call : Nat → Nat → State → State) (s : State) (head timer : TimerId) : Prop :=
  InList (callFunc call s head) timer ∧ ¬ InList s timer

/-- What the functions do during one `do_timer` is to arm timers that are not in the list. -/
def Arming (call : Nat → Nat → State → State) (s : State) : Prop :=
  ∀ fired r, Run (Round call) s fired r → ∀ head, Due r head → Arms r (callFunc call r head)

/-- No function arms a timer that expires when its own timer does, or earlier. -/
def Later (call : Nat → Nat → State → State) (s : State) : Prop :=
  ∀ fired r, Run (Round call) s fired r → ∀ head, Due r head →
    ∀ timer, Added call r head timer → r.expire head < (callFunc call r head).expire timer

/-- No function arms a timer that this call has run already and that is due. -/
def Once (call : Nat → Nat → State → State) (s : State) : Prop :=
  ∀ fired r, Run (Round call) s fired r → ∀ head, Due r head →
    ∀ timer ∈ fired, Added call r head timer → r.jiffies < (callFunc call r head).expire timer

/-- The rounds over the set of the timers that wait: a round runs one of them and takes it out,
and puts in those that its function adds, none of which waits already. -/
inductive Serves (call : Nat → Nat → State → State) :
    State → Set TimerId → List TimerId → State → Set TimerId → Prop
  | done (s : State) (waiting : Set TimerId) : Serves call s waiting [] s waiting
  | round {s r t : State} {head : TimerId} {waiting left : Set TimerId} {fired : List TimerId}
      (hRound : Round call s head r) (hWaits : head ∈ waiting)
      (hNew : ∀ timer, Added call s head timer → timer ∉ waiting)
      (rest : Serves call r {u | (u ∈ waiting ∧ u ≠ head) ∨ Added call s head u} fired t left) :
      Serves call s waiting (head :: fired) t left

/-- `do_timer` returns, no timer ran twice, each function it ran was that of a timer that waited,
and what is left in the list, sorted and not due, is what the rounds leave of the timers that
waited. -/
def Tolerates (call : Nat → Nat → State → State) (s : State) (queue : List TimerId) : Prop :=
  ∃ n fired t left, Takes n (fun fuel => doTimer call fuel s) (fired, t) ∧ fired.Nodup ∧
    Inv t left ∧ (∀ u ∈ left, t.jiffies < t.expire u) ∧
    Serves call s {u | u ∈ queue} fired t {u | u ∈ left}

/-! ## What a function leaves of the list -/

/-- The list after timers were armed: those of `new` joined those of `queue`. -/
structure Armed (s : State) (queue : List TimerId) (head : TimerId) (t : State)
    (after new : List TimerId) : Prop where
  inv : Inv t after
  jiffies : t.jiffies = s.jiffies
  perm : after.Perm (new ++ queue)
  expire : ∀ u ∈ queue, t.expire u = s.expire u
  first : ∃ x, after.head? = some x ∧ (x = head ∨ x ∈ new)
  later : after.head? = some head → ∀ u ∈ new, s.expire head < t.expire u

section
variable {call : Nat → Nat → State → State} {s t : State} {queue : List TimerId} {head : TimerId}

theorem head?_orderedInsert (s : State) (timer x : TimerId) (rest : List TimerId) :
    ((x :: rest).orderedInsert (ExpireLe s) timer).head? =
      if ExpireLe s timer x then some timer else some x := by
  rw [List.orderedInsert_cons]
  split
  · rfl
  · rfl

theorem Armed.step {r : State} {after new : List TimerId} (hHead : head ∈ queue)
    (h : Armed s queue head r after new) (hArm : Arm r t) :
    ∃ after' new', Armed s queue head t after' new' := by
  obtain ⟨fuel, hNew, hCall⟩ := hArm
  rename_i timer func data expireJiffies
  have hNotIn := hNew
  rw [h.inv.inList_iff, not_or] at hNotIn
  obtain ⟨hQueue, hLast⟩ := hNotIn
  have hInit := h.inv.initTimer hNew (some func) data expireJiffies
  obtain ⟨n, r', hTakes, hSame, hInv⟩ := hInit.addTimer hQueue hLast
    (by rw [initTimer_expire_self]; exact Nat.mod_lt _ (by decide))
    (by rw [initTimer_func_self]; exact Option.some_ne_none func)
  have hEq : t = r' := hTakes.eq_of_ok hCall
  subst hEq
  have hExpire : ∀ u, u ≠ timer → t.expire u = r.expire u := by
    intro u hu
    rw [hSame.expire, State.expire, initTimer_other _ _ _ _ _ hu]
    rfl
  have hOld : ∀ u ∈ new ++ queue, u ≠ timer := by
    rintro u hu rfl
    exact hQueue (h.perm.mem_iff.mpr hu)
  obtain ⟨x, hFirst, hx⟩ := h.first
  obtain ⟨rest, hAfter⟩ : ∃ rest, after = x :: rest := by
    cases after with
    | nil => cases hFirst
    | cons y rest => exact ⟨rest, by rw [Option.some.inj hFirst]⟩
  have hHeads := head?_orderedInsert (initTimer r timer (some func) data expireJiffies) timer x rest
  rw [← hAfter] at hHeads
  refine ⟨_, timer :: new, hInv, ?_, ?_, ?_, ?_, ?_⟩
  · rw [hSame.jiffies]
    exact h.jiffies
  · exact (List.perm_orderedInsert _ timer after).trans (h.perm.cons timer)
  · intro u hu
    rw [hExpire u (hOld u (List.mem_append_right _ hu))]
    exact h.expire u hu
  · rw [hHeads]
    split
    · exact ⟨timer, rfl, Or.inr List.mem_cons_self⟩
    · exact ⟨x, rfl, hx.imp_right (List.mem_cons_of_mem _)⟩
  · intro hEq u hu
    rw [hHeads] at hEq
    have hHeadNe := hOld head (List.mem_append_right _ hHead)
    split at hEq
    · exact absurd (Option.some.inj hEq).symm hHeadNe
    · next hNotLe =>
      have hxHead : x = head := Option.some.inj hEq
      subst hxHead
      obtain rfl | hu := List.mem_cons.mp hu
      · unfold ExpireLe at hNotLe
        rw [← hSame.expire, hExpire x hHeadNe, h.expire x hHead] at hNotLe
        exact not_le.mp hNotLe
      · rw [hExpire u (hOld u (List.mem_append_left _ hu))]
        exact h.later hFirst u hu

theorem Inv.armed {rest : List TimerId} (h : Inv s (head :: rest)) (hArms : Arms s t) :
    ∃ after new, Armed s (head :: rest) head t after new := by
  induction hArms with
  | refl =>
    refine ⟨head :: rest, [], h, rfl, List.Perm.refl _, fun _ _ => rfl, ?_, ?_⟩
    · exact ⟨head, rfl, Or.inl rfl⟩
    · intro _ u hu
      cases hu
  | tail _ hArm ih =>
    obtain ⟨after, new, hArmed⟩ := ih
    exact hArmed.step List.mem_cons_self hArm

section
variable {after new : List TimerId}

theorem Armed.fresh (h : Armed s queue head t after new) {u : TimerId} (hu : u ∈ new) :
    u ∉ queue := by
  have hNodup := h.perm.nodup_iff.mp h.inv.nodup
  exact fun hOld => (List.disjoint_of_nodup_append hNodup) hu hOld

theorem Armed.mem_iff (h : Armed s queue head t after new) (u : TimerId) :
    u ∈ after ↔ u ∈ new ∨ u ∈ queue := by
  rw [h.perm.mem_iff, List.mem_append]

/-- The head stays the head exactly when every new timer expires later. -/
theorem Armed.head_iff (h : Armed s queue head t after new) (hHead : head ∈ queue) :
    after.head? = some head ↔ ∀ u ∈ new, s.expire head < t.expire u := by
  constructor
  · exact h.later
  · intro hLater
    obtain ⟨x, hFirst, rfl | hx⟩ := h.first
    · exact hFirst
    · -- the first timer of a sorted list does not expire after `head`
      exfalso
      have hMem : head ∈ after := (h.mem_iff head).mpr (Or.inr hHead)
      have hLe : t.expire x ≤ t.expire head := by
        cases hAfter : after with
        | nil =>
          rw [hAfter] at hMem
          cases hMem
        | cons y tail =>
          rw [hAfter] at hFirst hMem
          cases hFirst
          obtain rfl | hTail := List.mem_cons.mp hMem
          · exact le_refl _
          · have hSorted := h.inv.sorted
            rw [hAfter] at hSorted
            exact (List.pairwise_cons.mp hSorted).1 head hTail
      rw [h.expire head hHead] at hLe
      exact absurd (hLater x hx) (not_lt.mpr hLe)

end

/-! ## One round -/

theorem Inv.due_mem (h : Inv s queue) (hDue : Due s head) : ∃ rest, queue = head :: rest := by
  obtain ⟨hHead, hExpire⟩ := hDue
  have hLinked := h.linked
  cases queue with
  | nil =>
    rw [linked_nil, hHead] at hLinked
    have hLast : head = timerListLast := Option.some.inj hLinked
    have hJiffies := h.jiffies
    rw [hLast, h.last_expire] at hExpire
    exact absurd hExpire (not_le.mpr hJiffies)
  | cons x rest =>
    have hx : head = x := Option.some.inj (hHead.symm.trans hLinked.1)
    exact ⟨rest, by rw [hx]⟩

/-- What a round does: its function adds the timers of `new`, then the first timer goes. -/
structure RoundSpec (call : Nat → Nat → State → State) (s : State) (queue : List TimerId)
    (head : TimerId) (t : State) (first : TimerId) (left new : List TimerId) : Prop where
  armed : Armed s queue head (callFunc call s head) (first :: left) new
  inv : Inv t left
  same : SameTimers (callFunc call s head) t
  added : ∀ u, Added call s head u ↔ u ∈ new

theorem Inv.round_exists (h : Inv s queue) (hDue : Due s head)
    (hArms : Arms s (callFunc call s head)) :
    ∃ t first left new, Round call s head t ∧ RoundSpec call s queue head t first left new := by
  obtain ⟨rest, rfl⟩ := h.due_mem hDue
  obtain ⟨after, new, hArmed⟩ := h.armed hArms
  obtain ⟨first, hFirst, -⟩ := hArmed.first
  cases after with
  | nil => cases hFirst
  | cons x left =>
    have hHeadEq : (callFunc call s head).timerListHead = some x := hArmed.inv.linked.1
    have hDel := delTimer_head hArmed.inv rfl 0
    rw [← hHeadEq] at hDel
    refine ⟨_, x, left, new, ⟨hDue, h.callable head List.mem_cons_self, hDel⟩, hArmed,
      hArmed.inv.behead rfl, ⟨rfl, rfl, rfl⟩, fun u => ?_⟩
    unfold Added
    rw [h.inList_iff, hArmed.inv.inList_iff, hArmed.mem_iff, not_or]
    constructor
    · rintro ⟨(hNew | hOld) | hLast, hNotOld, hNotLast⟩
      · exact hNew
      · exact absurd hOld hNotOld
      · exact absurd hLast hNotLast
    · intro hNew
      refine ⟨Or.inl (Or.inl hNew), hArmed.fresh hNew, ?_⟩
      rintro rfl
      exact hArmed.inv.last_notMem ((hArmed.mem_iff _).mpr (Or.inl hNew))

theorem Round.unique {a b : TimerId} {r : State} (h : Round call s a r) (h' : Round call s b t) :
    a = b ∧ r = t := by
  have hHead : a = b := Option.some.inj (h.1.1.symm.trans h'.1.1)
  subst hHead
  exact ⟨rfl, Except.ok.inj (h.2.2.symm.trans h'.2.2)⟩

theorem Inv.round_spec (h : Inv s queue) (hArms : Arms s (callFunc call s head))
    (hRound : Round call s head t) :
    ∃ first left new, RoundSpec call s queue head t first left new := by
  obtain ⟨r, first, left, new, hRound', hSpec⟩ := h.round_exists hRound.1 hArms
  obtain ⟨-, rfl⟩ := hRound.unique hRound'
  exact ⟨first, left, new, hSpec⟩

theorem Arming.round (h : Arming call s) (hRound : Round call s head t) : Arming call t :=
  fun fired r hRun => h (head :: fired) r (.cons hRound hRun)

theorem rounds_of_done {P : List TimerId → State → TimerId → Prop}
    (h : ∀ head, ¬ Due s head) :
    ∀ fired r, Run (Round call) s fired r → ∀ head, Due r head → P fired r head := by
  intro fired r hRun head hDue
  cases fired with
  | nil =>
    rw [← hRun.eq_of_nil] at hDue
    exact absurd hDue (h head)
  | cons a fired =>
    obtain ⟨_, hFirst, -⟩ := hRun.uncons
    exact absurd hFirst.1 (h a)

/-- What holds of the head in every state of a call holds here and in the states after the round
of `head`. -/
theorem Round.rounds {P : List TimerId → State → TimerId → Prop} (hRound : Round call s head t)
    (hHere : P [] s head)
    (hRest : ∀ fired r, Run (Round call) t fired r → ∀ other, Due r other →
      P (head :: fired) r other) :
    ∀ fired r, Run (Round call) s fired r → ∀ other, Due r other → P fired r other := by
  intro fired r hRun other hDue
  cases fired with
  | nil =>
    rw [← hRun.eq_of_nil] at hDue ⊢
    have hSame : other = head := Option.some.inj (hDue.1.symm.trans hRound.1.1)
    rw [hSame]
    exact hHere
  | cons a fired =>
    obtain ⟨m, hStep, hMore⟩ := hRun.uncons
    obtain ⟨rfl, rfl⟩ := hRound.unique hStep
    exact hRest fired r hMore other hDue

theorem Later.round (h : Later call s) (hRound : Round call s head t) : Later call t :=
  fun fired r hRun => h (head :: fired) r (.cons hRound hRun)

theorem Arming.run {fired : List TimerId} (h : Arming call s)
    (hRun : Run (Round call) s fired t) : Arming call t :=
  fun more r hMore => h (fired ++ more) r (hRun.append hMore)

theorem Later.run {fired : List TimerId} (h : Later call s)
    (hRun : Run (Round call) s fired t) : Later call t :=
  fun more r hMore => h (fired ++ more) r (hRun.append hMore)

theorem Inv.after_rounds {fired : List TimerId} (h : Inv s queue) (hArming : Arming call s)
    (hRun : Run (Round call) s fired t) : ∃ queue', Inv t queue' := by
  induction hRun with
  | nil => exact ⟨queue, h⟩
  | snoc before hRound ih =>
    obtain ⟨queue', hInv⟩ := ih
    obtain ⟨_, left, _, hSpec⟩ := hInv.round_spec (hArming _ _ before _ hRound.1) hRound
    exact ⟨left, hSpec.inv⟩

section
variable {first : TimerId} {left new : List TimerId}

/-- A timer that waited is taken out only in front of the others. -/
theorem RoundSpec.mem_left (h : RoundSpec call s queue head t first left new) {u : TimerId}
    (hu : u ∈ queue) (hNe : u ≠ first) : u ∈ left := by
  have hMem := (h.armed.mem_iff u).mpr (Or.inr hu)
  exact (List.mem_cons.mp hMem).resolve_left hNe

/-- When the head is still the first timer, exactly it is gone. -/
theorem RoundSpec.mem_iff (h : RoundSpec call s queue head t head left new) (hHead : head ∈ queue)
    (u : TimerId) : u ∈ left ↔ (u ∈ queue ∧ u ≠ head) ∨ Added call s head u := by
  have hNodup := List.nodup_cons.mp h.armed.inv.nodup
  have hMem := h.armed.mem_iff u
  rw [List.mem_cons] at hMem
  rw [h.added]
  constructor
  · intro hu
    have hNe : u ≠ head := fun hEq => hNodup.1 (hEq ▸ hu)
    obtain hNew | hOld := hMem.mp (Or.inr hu)
    · exact Or.inr hNew
    · exact Or.inl ⟨hOld, hNe⟩
  · rintro (⟨hOld, hNe⟩ | hNew)
    · exact (hMem.mpr (Or.inr hOld)).resolve_left hNe
    · have hNe : u ≠ head := by
        rintro rfl
        exact h.armed.fresh hNew hHead
      exact (hMem.mpr (Or.inl hNew)).resolve_left hNe

theorem RoundSpec.jiffies (h : RoundSpec call s queue head t first left new) :
    t.jiffies = s.jiffies :=
  h.same.jiffies.trans h.armed.jiffies

theorem RoundSpec.expire (h : RoundSpec call s queue head t first left new) {u : TimerId}
    (hu : u ∈ queue) : t.expire u = s.expire u :=
  (congrFun h.same.expire u).trans (h.armed.expire u hu)

theorem RoundSpec.first_iff (h : RoundSpec call s queue head t first left new)
    (hHead : head ∈ queue) :
    first = head ↔ ∀ u, Added call s head u → s.expire head < (callFunc call s head).expire u := by
  have hIff := h.armed.head_iff hHead
  rw [List.head?_cons, Option.some_inj] at hIff
  rw [hIff]
  constructor
  · intro hLater u hu
    exact hLater u ((h.added u).mp hu)
  · intro hLater u hu
    exact hLater u ((h.added u).mpr hu)

end

end

/-! ## The rounds of a call -/

section
variable {call : Nat → Nat → State → State} {s t : State} {queue : List TimerId}

/-- A timer that waits in the list but is not counted among the waiting ones cannot be served:
nothing takes it out of the list but a round that runs it. -/
theorem Serves.absent {waiting left : Set TimerId} {fired queue' : List TimerId}
    (hServes : Serves call s waiting fired t left) (h : Inv s queue) (hArming : Arming call s)
    (hEnd : Inv t queue') (hLeft : ∀ u ∈ queue', u ∈ left) {timer : TimerId}
    (hMem : timer ∈ queue) : timer ∈ waiting := by
  induction hServes generalizing queue with
  | done s waiting =>
    apply hLeft
    have hIn := (h.inList_iff timer).mpr (Or.inl hMem)
    obtain hThere | hLast := (hEnd.inList_iff timer).mp hIn
    · exact hThere
    · exact absurd (hLast ▸ hMem) h.last_notMem
  | @round s r t head waiting left fired hRound hWaits hNew rest ih =>
    obtain ⟨first, next, new, hSpec⟩ := h.round_spec (hArming [] s (.nil s) head hRound.1) hRound
    by_contra hAbsent
    have hNe : timer ≠ head := fun hEq => hAbsent (hEq ▸ hWaits)
    have hNotAdded : ¬ Added call s head timer := by
      rintro ⟨-, hNotIn⟩
      exact hNotIn ((h.inList_iff timer).mpr (Or.inl hMem))
    obtain ⟨tail, hQueue⟩ := h.due_mem hRound.1
    have hFirst : timer ≠ first := by
      rintro rfl
      obtain ⟨x, hx, hOr⟩ := hSpec.armed.first
      cases hx
      obtain hEq | hIsNew := hOr
      · exact hNe hEq
      · exact hSpec.armed.fresh hIsNew hMem
    have hStill := ih hSpec.inv (hArming.round hRound) hEnd hLeft (hSpec.mem_left hMem hFirst)
    obtain ⟨hWaiting, -⟩ | hAdded := hStill
    · exact hAbsent hWaiting
    · exact hNotAdded hAdded

theorem Inv.not_due (h : Inv s queue) (hRest : ∀ u ∈ queue, s.jiffies < s.expire u) :
    ∀ head, ¬ Due s head := by
  intro head hDue
  obtain ⟨tail, hQueue⟩ := h.due_mem hDue
  have hLt := hRest head (by rw [hQueue]; exact List.mem_cons_self)
  exact absurd hDue.2 (not_le.mpr hLt)

theorem Inv.none_due (h : Inv s queue) (hNone : ∀ head, ¬ Due s head) :
    ∀ u ∈ queue, s.jiffies < s.expire u := by
  cases queue with
  | nil =>
    intro u hu
    cases hu
  | cons a rest =>
    have hNot : ¬ s.expire a ≤ s.jiffies := fun hLe => hNone a ⟨h.linked.1, hLe⟩
    intro u hu
    obtain rfl | hu := List.mem_cons.mp hu
    · exact not_le.mp hNot
    · have hLe : s.expire a ≤ s.expire u := (List.pairwise_cons.mp h.sorted).1 u hu
      omega

/-- A call that serves what waits runs good rounds only. -/
theorem Serves.later {left : Set TimerId} {fired queue' : List TimerId}
    (hServes : Serves call s {u | u ∈ queue} fired t left) (h : Inv s queue)
    (hArming : Arming call s) (hEnd : Inv t queue') (hRest : ∀ u ∈ queue', t.jiffies < t.expire u)
    (hLeft : ∀ u ∈ queue', u ∈ left) : Later call s := by
  generalize hWaiting : {u | u ∈ queue} = waiting at hServes
  induction hServes generalizing queue with
  | done s waiting =>
    exact rounds_of_done (hEnd.not_due hRest)
  | @round s r t head waiting left fired hRound hWaits hNew rest ih =>
    subst hWaiting
    have hHead : head ∈ queue := hWaits
    obtain ⟨first, next, new, hSpec⟩ := h.round_spec (hArming [] s (.nil s) head hRound.1) hRound
    have hFirst : first = head := by
      by_contra hNe
      have hStill := rest.absent hSpec.inv (hArming.round hRound) hEnd hLeft
        (hSpec.mem_left hHead (Ne.symm hNe))
      obtain ⟨-, hGone⟩ | ⟨-, hNotIn⟩ := hStill
      · exact hGone rfl
      · exact hNotIn ((h.inList_iff head).mpr (Or.inl hHead))
    have hLater := (hSpec.first_iff hHead).mp hFirst
    subst hFirst
    have hNext : {u | u ∈ next} = {u | (u ∈ {u | u ∈ queue} ∧ u ≠ first) ∨ Added call s first u} :=
      Set.ext (hSpec.mem_iff hHead)
    exact hRound.rounds hLater (ih hSpec.inv (hArming.round hRound) hEnd hRest hLeft hNext)

theorem Serves.run {waiting left : Set TimerId} {fired : List TimerId}
    (hServes : Serves call s waiting fired t left) : Run (Round call) s fired t := by
  induction hServes with
  | done s waiting => exact .nil s
  | round hRound _ _ _ ih => exact .cons hRound ih

/-- Runs of rounds that end with nothing due go on from every state of the call. -/
theorem Round.run_rest {fired ran : List TimerId} {r : State} (hRun : Run (Round call) s fired t)
    (hDone : ∀ head, ¬ Due t head) (hHere : Run (Round call) s ran r) :
    ∃ rest, fired = ran ++ rest ∧ Run (Round call) r rest t := by
  induction ran generalizing s fired with
  | nil =>
    rw [← hHere.eq_of_nil]
    exact ⟨fired, rfl, hRun⟩
  | cons a ran ih =>
    obtain ⟨m, hFirst, hMore⟩ := hHere.uncons
    cases fired with
    | nil =>
      rw [hRun.eq_of_nil] at hFirst
      exact absurd hFirst.1 (hDone a)
    | cons b fired =>
      obtain ⟨m', hFirst', hRest⟩ := hRun.uncons
      obtain ⟨rfl, rfl⟩ := hFirst.unique hFirst'
      obtain ⟨rest, hEq, hRun'⟩ := ih hRest hMore
      exact ⟨rest, by rw [hEq, List.cons_append], hRun'⟩


/-! ## No timer twice -/

/-- A good round, of a timer that stays the head: the expiry of each timer that waits stays. -/
theorem Later.round_spec (hLater : Later call s) (h : Inv s queue) (hArming : Arming call s)
    {head : TimerId} (hRound : Round call s head t) :
    ∃ left new, RoundSpec call s queue head t head left new ∧ head ∈ queue := by
  have hDue := hRound.1
  obtain ⟨tail, hQueue⟩ := h.due_mem hDue
  have hHead : head ∈ queue := by rw [hQueue]; exact List.mem_cons_self
  obtain ⟨first, left, new, hSpec⟩ := h.round_spec (hArming [] s (.nil s) head hDue) hRound
  have hFirst : first = head := (hSpec.first_iff hHead).mpr (hLater [] s (.nil s) head hDue)
  subst hFirst
  exact ⟨left, new, hSpec, hHead⟩

/-- A due timer of the list is run before the call ends. -/
theorem Later.runs_due (hLater : Later call s) (h : Inv s queue) (hArming : Arming call s)
    {fired : List TimerId} (hRun : Run (Round call) s fired t) (hDone : ∀ head, ¬ Due t head)
    {u : TimerId} (hu : u ∈ queue) (hExpired : s.expire u ≤ s.jiffies) : u ∈ fired := by
  induction fired generalizing s queue with
  | nil =>
    -- the first timer of the sorted list would be due as well
    rw [← hRun.eq_of_nil] at hDone
    exact absurd hExpired (not_le.mpr (h.none_due hDone u hu))
  | cons head fired ih =>
    obtain ⟨r, hRound, hRest⟩ := hRun.uncons
    obtain ⟨left, new, hSpec, hHead⟩ := hLater.round_spec h hArming hRound
    by_cases hNe : u = head
    · rw [hNe]
      exact List.mem_cons_self
    · apply List.mem_cons_of_mem
      refine ih (hLater.round hRound) hSpec.inv (hArming.round hRound) hRest
        (hSpec.mem_left hu hNe) ?_
      rw [hSpec.expire hu, hSpec.jiffies]
      exact hExpired

/-- A call that runs no timer twice arms none again that is due. -/
theorem Later.once (hLater : Later call s) (h : Inv s queue) (hArming : Arming call s)
    {fired : List TimerId} (hRun : Run (Round call) s fired t) (hDone : ∀ head, ¬ Due t head)
    (hNodup : fired.Nodup) : Once call s := by
  intro ran r hHere head hDue timer hRan hAdded
  by_contra hNot
  obtain ⟨rest, rfl, hRest⟩ := Round.run_rest hRun hDone hHere
  obtain ⟨queue', hInv⟩ := h.after_rounds hArming hHere
  have hArming' := hArming.run hHere
  have hLater' := hLater.run hHere
  cases rest with
  | nil =>
    rw [← hRest.eq_of_nil] at hDone
    exact hDone head hDue
  | cons other rest =>
    obtain ⟨m, hRound, hMore⟩ := hRest.uncons
    obtain rfl : head = other := Option.some.inj (hDue.1.symm.trans hRound.1.1)
    obtain ⟨left, new, hSpec, hHead⟩ := hLater'.round_spec hInv hArming' hRound
    have hIn : timer ∈ left := (hSpec.mem_iff hHead timer).mpr (Or.inr hAdded)
    have hExpired : m.expire timer ≤ m.jiffies := by
      rw [hSpec.same.expire, hSpec.jiffies]
      exact not_lt.mp hNot
    have hAgain : timer ∈ rest := (hLater'.round hRound).runs_due hSpec.inv
      (hArming'.round hRound) hMore hDone hIn hExpired
    exact (List.disjoint_of_nodup_append hNodup) hRan (List.mem_cons_of_mem head hAgain)

/-- Of the timers that were run only such as are not due are in the list again. -/
theorem Once.nodup (hOnce : Once call s) (hLater : Later call s) (h : Inv s queue)
    (hArming : Arming call s) {fired : List TimerId} {r : State}
    (hRun : Run (Round call) s fired r) :
    fired.Nodup ∧ ∃ queue', Inv r queue' ∧ ∀ u ∈ fired, u ∈ queue' → r.jiffies < r.expire u := by
  induction hRun with
  | nil =>
    refine ⟨List.nodup_nil, queue, h, ?_⟩
    intro u hu
    cases hu
  | @snoc r t fired head before hRound ih =>
    obtain ⟨hNodup, queue', hInv, hAgain⟩ := ih
    obtain ⟨left, new, hSpec, hHead⟩ :=
      (hLater.run before).round_spec hInv (hArming.run before) hRound
    have hNotRun : head ∉ fired :=
      fun hRan => absurd hRound.1.2 (not_le.mpr (hAgain head hRan hHead))
    refine ⟨?_, left, hSpec.inv, ?_⟩
    · rw [List.nodup_append']
      exact ⟨hNodup, List.nodup_singleton head, List.disjoint_singleton.mpr hNotRun⟩
    · intro u hRan hu
      obtain ⟨hOld, hNe⟩ | hAdded := (hSpec.mem_iff hHead u).mp hu
      · have hFired : u ∈ fired :=
          (List.mem_append.mp hRan).resolve_right fun hLast => hNe (List.mem_singleton.mp hLast)
        rw [hSpec.expire hOld, hSpec.jiffies]
        exact hAgain u hFired hOld
      · have hNe : u ≠ head := by
          rintro rfl
          exact hAdded.2 ((hInv.inList_iff u).mpr (Or.inl hHead))
        have hFired : u ∈ fired :=
          (List.mem_append.mp hRan).resolve_right fun hLast => hNe (List.mem_singleton.mp hLast)
        rw [hSpec.same.expire, hSpec.jiffies]
        exact hOnce fired r before head hRound.1 u hFired hAdded

/-! ## A call of good rounds returns -/

/-- What is left to run of the timers that expire with the first one, and how late they are. -/
def rank (s : State) : List TimerId → Nat × Nat
  | [] => (0, 0)
  | head :: rest =>
    (s.jiffies + 1 - s.expire head,
      (head :: rest).countP fun u => decide (s.expire u = s.expire head))

/-- The timers that a round adds expire later than the one it runs. -/
theorem RoundSpec.rank_lt {head : TimerId} {rest left new : List TimerId}
    (h : RoundSpec call s (head :: rest) head t head left new) (hDue : Due s head) :
    Prod.Lex (· < ·) (· < ·) (rank t left) (rank s (head :: rest)) := by
  have hExpire : ∀ u, t.expire u = (callFunc call s head).expire u :=
    fun u => congrFun h.same.expire u
  have hJiffies : t.jiffies = s.jiffies := h.jiffies
  have hHead := h.armed.expire head List.mem_cons_self
  have hDueLe := hDue.2
  cases left with
  | nil =>
    apply Prod.Lex.left
    omega
  | cons b tail =>
    have hLe := (List.pairwise_cons.mp h.armed.inv.sorted).1 b List.mem_cons_self
    unfold ExpireLe at hLe
    rw [hHead] at hLe
    obtain hEq | hLt := Nat.eq_or_lt_of_le hLe
    · have hNew : new.countP (fun u => decide ((callFunc call s head).expire u = s.expire head)) = 0 := by
        rw [List.countP_eq_zero]
        intro u hu
        have hLater := h.armed.later rfl u hu
        simp only [decide_eq_true_eq]
        omega
      have hOld : (head :: rest).countP
            (fun u => decide ((callFunc call s head).expire u = s.expire head)) =
          (head :: rest).countP fun u => decide (s.expire u = s.expire head) := by
        apply List.countP_congr
        intro u hu
        rw [h.armed.expire u hu]
      have hPerm := h.armed.perm.countP_eq
        fun u => decide ((callFunc call s head).expire u = s.expire head)
      rw [List.countP_append, hNew, hOld, List.countP_cons_of_pos (by simpa using hHead)] at hPerm
      have hFirst : s.jiffies + 1 - s.expire head = t.jiffies + 1 - t.expire b := by
        rw [hJiffies, hExpire, ← hEq]
      dsimp only [rank]
      rw [← hFirst]
      apply Prod.Lex.right
      simp only [hExpire, ← hEq]
      omega
    · apply Prod.Lex.left
      rw [hExpire, hJiffies]
      omega

theorem delTimer_own_head (fuel : Nat) (s : State) :
    delTimer fuel s s.timerListHead = delTimer 0 s s.timerListHead := by
  unfold delTimer
  rw [if_pos rfl, if_pos rfl]

theorem Round.doTimer_eq {head : TimerId} (h : Round call s head t) (fuel : Nat) :
    doTimer call (fuel + 1) s =
      (doTimer call fuel t).map fun (fired, r) => (head :: fired, r) := by
  obtain ⟨⟨hHead, hLe⟩, hFunc, hDel⟩ := h
  obtain ⟨func, hSome⟩ := Option.ne_none_iff_exists'.mp hFunc
  rw [← delTimer_own_head fuel] at hDel
  unfold callFunc at hDel
  rw [hSome] at hDel
  dsimp only at hDel
  simp only [doTimer, hHead, hLe, if_true, hSome, hDel]
  change (doTimer call fuel t >>= fun x => pure (head :: x.1, x.2)) = _
  cases doTimer call fuel t with
  | error fault => rfl
  | ok result => rfl

theorem doTimer_done (hHead : s.timerListHead ≠ none) (hNone : ∀ head, ¬ Due s head) :
    Takes 1 (fun fuel => doTimer call fuel s) ([], s) := by
  obtain ⟨head, hSome⟩ := Option.ne_none_iff_exists'.mp hHead
  have hNot : ¬ s.expire head ≤ s.jiffies := fun hLe => hNone head ⟨hSome, hLe⟩
  intro fuel
  cases fuel with
  | zero => rfl
  | succ fuel => simp [doTimer, hSome, hNot]

theorem Inv.head_ne_none (h : Inv s queue) : s.timerListHead ≠ none := by
  have hLinked := h.linked
  cases queue with
  | nil =>
    rw [linked_nil] at hLinked
    rw [hLinked]
    exact Option.some_ne_none _
  | cons a rest =>
    rw [hLinked.1]
    exact Option.some_ne_none _

theorem Inv.tolerates (h : Inv s queue) (hArming : Arming call s) (hLater : Later call s) :
    ∃ fired t left, Takes (fired.length + 1) (fun fuel => Timer.doTimer call fuel s) (fired, t) ∧
      Inv t left ∧ (∀ u ∈ left, t.jiffies < t.expire u) ∧
      Serves call s {u | u ∈ queue} fired t {u | u ∈ left} := by
  generalize hRank : rank s queue = bound
  induction bound using (Prod.lex ⟨(· < ·), Nat.lt_wfRel.wf⟩ ⟨(· < ·), Nat.lt_wfRel.wf⟩ :
    WellFoundedRelation (Nat × Nat)).wf.induction generalizing s queue with
  | h bound ih =>
    by_cases hNone : ∀ head, ¬ Due s head
    · exact ⟨[], s, queue, doTimer_done h.head_ne_none hNone, h, h.none_due hNone, .done s _⟩
    · obtain ⟨head, hDue⟩ := not_forall_not.mp hNone
      obtain ⟨rest, rfl⟩ := h.due_mem hDue
      have hHead : head ∈ head :: rest := List.mem_cons_self
      obtain ⟨t, first, left, new, hRound, hSpec⟩ :=
        h.round_exists hDue (hArming [] s (.nil s) head hDue)
      have hFirst : first = head :=
        (hSpec.first_iff hHead).mpr (hLater [] s (.nil s) head hDue)
      subst hFirst
      obtain ⟨fired, r, queue', hTakes, hInv, hNotDue, hServes⟩ :=
        ih (rank t left) (hRank ▸ hSpec.rank_lt hDue) hSpec.inv (hArming.round hRound)
          (hLater.round hRound) rfl
      have hWaiting : {u | u ∈ left} =
          {u | (u ∈ {u | u ∈ first :: rest} ∧ u ≠ first) ∨ Added call s first u} :=
        Set.ext (hSpec.mem_iff hHead)
      rw [hWaiting] at hServes
      refine ⟨first :: fired, r, queue', fun fuel => ?_, hInv, hNotDue,
        .round hRound hHead (fun u hu => hSpec.armed.fresh ((hSpec.added u).mp hu)) hServes⟩
      cases fuel with
      | zero => rfl
      | succ fuel =>
        have hCall : Timer.doTimer call fuel t = _ := hTakes fuel
        change Timer.doTimer call (fuel + 1) s = _
        rw [hRound.doTimer_eq, hCall, List.length_cons]
        by_cases hFuel : fired.length + 1 ≤ fuel
        · rw [if_pos hFuel, if_pos (by omega)]
          rfl
        · rw [if_neg hFuel, if_neg (by omega)]
          rfl

end

/-- A call tolerates what its functions arm exactly when none of them arms a timer that expires
when its own timer does, or earlier, or one that this call has run already and that is due. -/
theorem doTimer_tolerates_iff (call : Nat → Nat → State → State) (s : State)
    (queue : List TimerId) (h : Inv s queue) (hArming : Arming call s) :
    Tolerates call s queue ↔ Later call s ∧ Once call s := by
  constructor
  · rintro ⟨n, fired, t, left, -, hNodup, hEnd, hRest, hServes⟩
    have hLater := hServes.later h hArming hEnd hRest fun u hu => hu
    exact ⟨hLater, hLater.once h hArming hServes.run (hEnd.not_due hRest) hNodup⟩
  · rintro ⟨hLater, hOnce⟩
    obtain ⟨fired, t, left, hTakes, hEnd, hRest, hServes⟩ := h.tolerates hArming hLater
    obtain ⟨hNodup, -⟩ := hOnce.nodup hLater h hArming hServes.run
    exact ⟨_, fired, t, left, hTakes, hNodup, hEnd, hRest, hServes⟩

/-- Functions that arm free timers do so in all of their rounds. -/
theorem Inv.arming {call : Nat → Nat → State → State} {s : State} {queue : List TimerId}
    (h : Inv s queue)
    (hCall : ∀ r queue head, Inv r queue → Due r head → Arms r (callFunc call r head)) :
    Arming call s := by
  have hRuns : ∀ fired r, Run (Round call) s fired r → ∃ queue, Inv r queue := by
    intro fired r hRun
    induction hRun with
    | nil => exact ⟨queue, h⟩
    | snoc _ hRound ih =>
      obtain ⟨queue', hInv⟩ := ih
      obtain ⟨_, left, _, hSpec⟩ := hInv.round_spec (hCall _ queue' _ hInv hRound.1) hRound
      exact ⟨left, hSpec.inv⟩
  intro fired r hRun head hDue
  obtain ⟨queue', hInv⟩ := hRuns fired r hRun
  exact hCall r queue' head hInv hDue

/-- Timer 1 is in the list and due, timer 2 was never initialised. -/
def oneDue (jiffies : Nat) : State where
  jiffies := jiffies
  timerListHead := some 1
  timers timer :=
    if timer = 1 then ⟨0, some 7, 0, some timerListLast⟩
    else if timer = timerListLast then ⟨2 ^ 64 - 1, none, 0, none⟩
    else ⟨0, none, 0, none⟩

/-- The function 7 arms timer 2 when it runs for the first time. -/
def armOnce (expireJiffies func _data : Nat) (s : State) : State :=
  if func = 7 ∧ s.func 2 = none then
    match addTimer 2 (initTimer s 2 (some 8) 0 expireJiffies) 2 with
    | .ok t => t
    | .error _ => s
  else s

theorem oneDue_inv {jiffies : Nat} (hJiffies : jiffies < 2 ^ 64 - 1) :
    Inv (oneDue jiffies) [1] where
  linked := ⟨rfl, rfl⟩
  last_next := rfl
  last_notMem := by decide
  nodup := by decide
  sorted := List.pairwise_singleton _ _
  last_expire := rfl
  below := List.forall_mem_singleton.mpr (Nat.two_pow_pos 64)
  callable := List.forall_mem_singleton.mpr (Option.some_ne_none 7)
  jiffies := hJiffies

theorem armOnce_arms (expireJiffies : Nat) {r : State} {queue : List TimerId} (h : Inv r queue)
    (head : TimerId) : Arms r (callFunc (armOnce expireJiffies) r head) := by
  unfold callFunc armOnce
  split
  · exact .refl
  · split
    · next func _ hFirst =>
      have hNew : ¬ InList r 2 := by
        rw [h.inList_iff]
        rintro (hMem | hLast)
        · exact h.callable 2 hMem hFirst.2
        · cases hLast
      split
      · next hCall => exact .single (.mk 2 hNew hCall)
      · exact .refl
    · exact .refl

/-- Timer 2 expires with timer 1: it is deleted in its place without having run, and timer 1
runs twice. -/
theorem doTimer_deletes_armed :
    ¬ ∀ (call : Nat → Nat → State → State) (s : State) (queue : List TimerId),
      Inv s queue → Arming call s → Tolerates call s queue := by
  intro h
  have hInv : Inv (oneDue 0) [1] := oneDue_inv (by decide)
  have hArming : Arming (armOnce 0) (oneDue 0) :=
    hInv.arming fun r queue head hr _ => armOnce_arms 0 hr head
  obtain ⟨n, fired, t, left, hTakes, hNodup, -⟩ := h _ _ _ hInv hArming
  have hTwice : ∃ r, doTimer (armOnce 0) 3 (oneDue 0) = .ok ([1, 1], r) := ⟨_, rfl⟩
  obtain ⟨r, hCall⟩ := hTwice
  have hFired : [1, 1] = fired := congrArg Prod.fst (hTakes.eq_of_ok hCall)
  rw [← hFired] at hNodup
  exact absurd hNodup (by decide)

/-- The function 7 arms timer 2, to be run at once, and the function 8 arms timer 1 again. -/
def relay (func _data : Nat) (s : State) : State :=
  let called :=
    if func = 7 then addTimer 2 (initTimer s 2 (some 8) 0 0) 2
    else addTimer 2 (initTimer s 1 (some 7) 0 4) 1
  match called with
  | .ok t => t
  | .error _ => s

/-- Timer 1 was run, timer 2 is due. -/
def relayed : State := { callFunc relay (oneDue 1) 1 with timerListHead := some 2 }

/-- Both were run, timer 1 waits. -/
def relayedTwice : State := { callFunc relay relayed 2 with timerListHead := some 1 }

theorem relayed_inv : Inv relayed [2] where
  linked := ⟨rfl, rfl⟩
  last_next := rfl
  last_notMem := by decide
  nodup := by decide
  sorted := List.pairwise_singleton _ _
  last_expire := rfl
  below := List.forall_mem_singleton.mpr (by decide)
  callable := List.forall_mem_singleton.mpr (by decide)
  jiffies := by decide

theorem Inv.added_mem {call : Nat → Nat → State → State} {s : State} {queue after : List TimerId}
    {head u : TimerId} (h : Inv s queue) (hAdded : Added call s head u)
    (hLinked : Linked (callFunc call s head).nextTimer (callFunc call s head).timerListHead after
      (some timerListLast))
    (hEnd : (callFunc call s head).nextTimer timerListLast = none) : u ∈ after ∧ u ∉ queue := by
  obtain ⟨⟨path, hPath⟩, hNotIn⟩ := hAdded
  rw [h.inList_iff, not_or] at hNotIn
  exact ⟨(hLinked.mem_of_reach hEnd hPath).resolve_right hNotIn.2, hNotIn.1⟩

/-- One call runs the timers 1 and 2, and timer 1 waits for the jiffy 5 then. -/
theorem doTimer_tolerates_iff_relay : Tolerates relay (oneDue 1) [1] := by
  have hStart : Inv (oneDue 1) [1] := oneDue_inv (by decide)
  have hFirst : Round relay (oneDue 1) 1 relayed := ⟨⟨rfl, by decide⟩, by decide, rfl⟩
  have hSecond : Round relay relayed 2 relayedTwice := ⟨⟨rfl, by decide⟩, by decide, rfl⟩
  have hDone : ∀ head, ¬ Due relayedTwice head := by
    rintro head ⟨hHead, hLe⟩
    cases hHead
    exact absurd hLe (by decide)
  have hArm : Arm (oneDue 1) (callFunc relay (oneDue 1) 1) := by
    refine @Arm.mk _ _ 2 8 0 0 2 ?_ rfl
    rw [hStart.inList_iff]
    decide
  have hAgain : Arm relayed (callFunc relay relayed 2) := by
    refine @Arm.mk _ _ 1 7 0 4 2 ?_ rfl
    rw [relayed_inv.inList_iff]
    decide
  have hArming : Arming relay (oneDue 1) :=
    hFirst.rounds (.single hArm) (hSecond.rounds (.single hAgain) (rounds_of_done hDone))
  apply (doTimer_tolerates_iff relay _ [1] hStart hArming).mpr
  have hTwo : ∀ u, Added relay (oneDue 1) 1 u → u = 2 := by
    intro u hAdded
    have hMem : u ∈ [1, 2] ∧ u ∉ [1] := hStart.added_mem hAdded ⟨rfl, rfl, rfl⟩ rfl
    simp only [List.mem_cons, List.not_mem_nil, or_false] at hMem
    tauto
  have hOne : ∀ u, Added relay relayed 2 u → u = 1 := by
    intro u hAdded
    have hMem : u ∈ [2, 1] ∧ u ∉ [2] := relayed_inv.added_mem hAdded ⟨rfl, rfl, rfl⟩ rfl
    simp only [List.mem_cons, List.not_mem_nil, or_false] at hMem
    tauto
  constructor
  · refine hFirst.rounds ?_ (hSecond.rounds ?_ (rounds_of_done hDone))
    · intro u hAdded
      rw [hTwo u hAdded]
      decide
    · intro u hAdded
      rw [hOne u hAdded]
      decide
  · refine hFirst.rounds ?_ (hSecond.rounds ?_ (rounds_of_done hDone))
    · intro u hRan
      cases hRan
    · intro u _ hAdded
      rw [hOne u hAdded]
      decide

end KalinoteOS.Timer
