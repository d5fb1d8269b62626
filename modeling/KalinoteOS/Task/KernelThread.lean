import KalinoteOS.Task.Switch

/-! # What `kernel_thread` leaves for its thread -/
namespace KalinoteOS.Task
open Lib Memory Entry Strings
set_option autoImplicit false

/-- Where the compiler may put `regs`: on the stack of the current task, below everything that is still needed. -/
def RegsRoom (t rsp regs : Word) : Prop :=
  structSize ≤ (regs - t).toNat ∧ (regs - t).toNat + 192 ≤ (rsp - t).toNat

instance (t rsp regs : Word) : Decidable (RegsRoom t rsp regs) := inferInstanceAs (Decidable (_ ∧ _))

/-! ## Filling in a structure -/

/-- Words stored one after the other, at their numbers in the structure. -/
def stores (a : Word) (l : List (Nat × Word)) (m : Memory) : Memory :=
  l.foldl (fun m p => m.store (a + BitVec.ofNat 64 (8 * p.1)) p.2) m

section
variable {a : Word} {l : List (Nat × Word)} {m : Memory} {n : Nat}

theorem stores_words (hSize : 8 * n ≤ 2 ^ 64) (h : ∀ p ∈ l, p.1 < n) :
    (stores a l m).words a n = l.foldl (fun ws p => ws.set p.1 p.2) (m.words a n) := by
  induction l generalizing m with
  | nil => rfl
  | cons p l ih =>
    obtain ⟨k, hk⟩ := Nat.exists_eq_add_of_lt (h p List.mem_cons_self)
    have hOne : (m.store (a + BitVec.ofNat 64 (8 * p.1)) p.2).words a n = (m.words a n).set p.1 p.2 := by
      have hSplit : n = p.1 + 1 + k := by omega
      rw [hSplit] at hSize ⊢
      exact words_store_at hSize
    refine (ih fun q hq => h q (List.mem_cons_of_mem _ hq)).trans ?_
    rw [hOne]
    rfl

theorem stores_outside {x : Word} (h : ∀ p ∈ l, p.1 < n) (hx : 8 * n ≤ (x - a).toNat) : stores a l m x = m x := by
  induction l generalizing m with
  | nil => rfl
  | cons p l ih =>
    have hLt := h p List.mem_cons_self
    have hFar : 8 ≤ (x - (a + BitVec.ofNat 64 (8 * p.1))).toNat := by
      have hBound := (x - a).isLt
      rw [sub_add_eq_sub_sub, BitVec.toNat_sub, BitVec.toNat_ofNat]
      omega
    exact (ih fun q hq => h q (List.mem_cons_of_mem _ hq)).trans (store_outside _ hFar)

end

section
variable {link : Link} {m : Memory} {regs fn arg : Word}

/-- The assignments of `kernel_thread`, each member with its number. -/
def regsFields (link : Link) (fn arg : Word) : List (Nat × Word) :=
  [(8, fn), (10, arg), (14, kernelDs), (15, kernelDs), (20, kernelCs), (23, kernelDs), (21, (1 : Word) <<< 9),
    (19, link.kernelThreadFunc)]

theorem fillRegs_eq (link : Link) (m : Memory) (regs fn arg : Word) :
    fillRegs link m regs fn arg = stores regs (regsFields link fn arg) (memset m regs 0 ptRegsSize).1 := rfl

theorem regsFields_lt : ∀ p ∈ regsFields link fn arg, p.1 < 24 := by
  simp [regsFields]

theorem memset_zero_words : (memset m regs 0 ptRegsSize).1.words regs 24 = List.replicate 24 0 := by
  have hWrote := memset_wrote m regs 0 (by decide : ptRegsSize.toNat < 2 ^ 63)
  have hZero : (memset m regs 0 ptRegsSize).1.words regs 24 = Memory.words (fun _ => 0) 0 24 :=
    words_congr fun i hi => hWrote.inside (by decide) hi
  rw [hZero]
  decide

/-- The members that are not assigned are 0. -/
theorem fillRegs_words : (fillRegs link m regs fn arg).words regs 24 = (threadRegs link fn arg).words := by
  rw [fillRegs_eq, stores_words (by decide) regsFields_lt, memset_zero_words]
  rfl

theorem fillRegs_outside {x : Word} (hx : 192 ≤ (x - regs).toNat) : fillRegs link m regs fn arg x = m x := by
  rw [fillRegs_eq, stores_outside regsFields_lt hx]
  exact (memset_wrote m regs 0 (by decide : ptRegsSize.toNat < 2 ^ 63)).outside hx

end

/-! ## The new task -/

section
variable {link : Link} {s : Cpu} {flags regs tsk fn arg : Word}

/-- The frame of `tsk` lies in its union, and `regs` in that of the current task. -/
theorem frame_apart (hAligned : Aligned s.nowTask) (hTsk : Aligned tsk) (hNe : tsk ≠ s.nowTask)
    (hRegs : RegsRoom s.nowTask (s.reg .rsp) regs) (hRsp : InUnion s.nowTask (s.reg .rsp)) :
    ∀ i < 192, 192 ≤ (regs + BitVec.ofNat 64 i - (tsk + stackSize - ptRegsSize)).toNat := by
  intro i hi
  by_contra hHit
  obtain ⟨-, hEnd⟩ := hRegs
  have hHere : InUnion s.nowTask (regs + BitVec.ofNat 64 i) := by
    have hSwap : regs + BitVec.ofNat 64 i - s.nowTask = regs - s.nowTask + BitVec.ofNat 64 i := by abel
    unfold InUnion at *
    rw [hSwap, BitVec.toNat_add, BitVec.toNat_ofNat]
    omega
  have hThere : InUnion tsk (regs + BitVec.ofNat 64 i) := by
    unfold InUnion stackSize ptRegsSize at *
    bv_omega
  exact hNe (InUnion.unique hTsk hAligned hThere hHere)

/-- `do_fork` for a caller with `PF_KTHREAD`. -/
theorem doFork_kthread (link : Link) (regs tsk : Word) (hFlags : flags &&& pfKthread ≠ 0) {copied : Memory}
    (hCopied : copied = (memcpy s.mem regs (tsk + stackSize - ptRegsSize) ptRegsSize).1) :
    doFork link flags regs tsk s = (s.withMem copied).setThread tsk fun _ =>
      ⟨tsk + stackSize, copied.load (regs + 0x98), tsk + stackSize - ptRegsSize, kernelDs, kernelDs⟩ := by
  unfold doFork
  rw [if_neg hFlags, ← hCopied]

/-- The child waits for its first run with the function and the argument; the caller's stack and all other
unions are as they were. -/
theorem kernelThread_spec (link : Link) (fn arg : Word) (hFlags : flags &&& pfKthread ≠ 0)
    (hAligned : Aligned s.nowTask) (hTsk : Aligned tsk)
    (hNe : tsk ≠ s.nowTask) (hRegs : RegsRoom s.nowTask (s.reg .rsp) regs)
    (hRsp : InUnion s.nowTask (s.reg .rsp)) :
    ∃ mem thd, kernelThread link flags regs tsk fn arg s =
        { s with machine := { s.machine with mem := mem }.set .rax 1, thread :=
          Function.update s.thread tsk thd } ∧
      thd = ⟨tsk + stackSize, link.kernelThreadFunc, tsk + stackSize - ptRegsSize, kernelDs, kernelDs⟩ ∧
      mem.words (tsk + stackSize - ptRegsSize) 24 = (threadRegs link fn arg).words ∧
      ∀ t x, Aligned t → t ≠ tsk → InUnion t x →
        (t = s.nowTask → (s.reg .rsp - t).toNat ≤ (x - t).toNat) → mem x = s.mem x := by
  have hApart := frame_apart hAligned hTsk hNe hRegs hRsp
  have hWords : (fillRegs link s.mem regs fn arg).words regs 24 = (threadRegs link fn arg).words := fillRegs_words
  have hFilled : ∀ x, 192 ≤ (x - regs).toNat → fillRegs link s.mem regs fn arg x = s.mem x :=
    fun x hx => fillRegs_outside hx
  unfold kernelThread
  dsimp only
  generalize fillRegs link s.mem regs fn arg = filled at hWords hFilled
  obtain ⟨dest, hDest⟩ : ∃ dest, dest = tsk + stackSize - ptRegsSize := ⟨_, rfl⟩
  obtain ⟨copied, hCopied⟩ : ∃ copied, copied = (memcpy filled regs dest ptRegsSize).1 := ⟨_, rfl⟩
  rw [← hDest] at hApart
  have hSafe : ForwardSafe regs dest ptRegsSize.toNat := by
    right
    by_contra hNear
    have hSize : ptRegsSize.toNat = 192 := rfl
    have hAt := hApart (dest - regs).toNat (by omega)
    have hZero : regs + BitVec.ofNat 64 (dest - regs).toNat - dest = 0 := by
      rw [BitVec.ofNat_toNat, BitVec.setWidth_eq]
      abel
    rw [hZero] at hAt
    exact absurd hAt (by decide)
  have hWrote : Wrote filled copied dest 192 fun i => filled (regs + BitVec.ofNat 64 i) := by
    rw [hCopied]
    exact memcpy_wrote (by decide) hSafe
  -- `regs->rip` is read after the copy
  have hRip : copied.load (regs + 0x98) = link.kernelThreadFunc := by
    have hSame : copied.load (regs + 0x98) = filled.load (regs + 0x98) := by
      refine load_congr fun i hi => hWrote.outside ?_
      have hSplit : regs + 0x98 + BitVec.ofNat 64 i = regs + BitVec.ofNat 64 (0x98 + i) := by
        rw [BitVec.ofNat_add, ← BitVec.add_assoc]
        rfl
      rw [hSplit]
      exact hApart (0x98 + i) (by omega)
    have hWord := getElem?_words (m := filled) (a := regs) (by decide : 19 < 24)
    rw [hWords] at hWord
    rw [hSame]
    exact (Option.some.inj hWord).symm
  rw [hDest] at hCopied
  rw [doFork_kthread (s := s.withMem filled) link regs tsk hFlags hCopied, hRip, ← hDest]
  refine ⟨copied, _, rfl, rfl, ?_, fun t x hT hOther hx hLive => ?_⟩
  · rw [← hWords]
    exact hWrote.words (Nat.le_refl _) (by decide)
  · have hOutside : 192 ≤ (x - dest).toNat := by
      by_contra hHit
      refine hOther (InUnion.unique hT hTsk hx ?_)
      rw [hDest] at hHit
      unfold InUnion stackSize ptRegsSize at *
      bv_omega
    rw [hWrote.outside hOutside]
    refine hFilled x ?_
    by_contra hHit
    obtain ⟨hLow, hEnd⟩ := hRegs
    have hHere : InUnion s.nowTask x := by
      unfold InUnion at *
      bv_omega
    have hSame := InUnion.unique hT hAligned hx hHere
    have hFar := hLive hSame
    rw [hSame] at hFar
    unfold InUnion at *
    bv_omega

end
end KalinoteOS.Task
