import KalinoteOS.Task.Cpu

/-! # What `switch_to` keeps

The registers that `switch_to` pushes and the live part of the stack are a task's own: the task that is left
is parked with them, and the one that is entered gets its own back.
-/
namespace KalinoteOS.Task
open Lib Memory Entry Strings
set_option autoImplicit false

/-! ## Unions -/

def Aligned (t : Word) : Prop := t.toNat % 32768 = 0

def InUnion (t x : Word) : Prop := (x - t).toNat < 32768

/-- `rsp` is on the stack of `t`, and `n` more bytes may be pushed before the structures are reached. -/
def Room (n : Nat) (t rsp : Word) : Prop := structSize + n ≤ (rsp - t).toNat ∧ InUnion t rsp

instance (t : Word) : Decidable (Aligned t) := inferInstanceAs (Decidable (_ = _))

instance (t x : Word) : Decidable (InUnion t x) := inferInstanceAs (Decidable (_ < _))

instance (n : Nat) (t rsp : Word) : Decidable (Room n t rsp) := inferInstanceAs (Decidable (_ ∧ _))

section
variable {t u x rsp : Word} {n : Nat}

theorem toNat_inUnion (hAligned : Aligned t) (hIn : InUnion t x) : x.toNat = t.toNat + (x - t).toNat := by
  have hT := t.isLt
  unfold Aligned InUnion at *
  have hSum : x = t + (x - t) := by abel
  have hValue := congrArg BitVec.toNat hSum
  rw [BitVec.toNat_add] at hValue
  omega

theorem getCurrent_eq (hAligned : Aligned t) (hIn : InUnion t x) : getCurrent x = t := by
  have hX := toNat_inUnion hAligned hIn
  unfold Aligned InUnion at *
  have hMask : (~~~32767 : Word).toNat = (2 ^ 49 - 1) <<< 15 := by decide
  have hSplit := upper_or_lower (q := 0) (k := 15) (w := 49) x.isLt (by decide)
  apply BitVec.eq_of_toNat_eq
  unfold getCurrent
  rw [BitVec.toNat_and, hMask]
  rw [Nat.or_zero] at hSplit
  omega

/-- Unions do not overlap. -/
theorem InUnion.unique (hT : Aligned t) (hU : Aligned u) (hInT : InUnion t x) (hInU : InUnion u x) : t = u :=
  (getCurrent_eq hT hInT).symm.trans (getCurrent_eq hU hInU)

theorem Room.less {k : Nat} (h : Room n t rsp) (hk : k ≤ n) : Room k t rsp := ⟨by have := h.1; omega, h.2⟩

theorem Room.sub {k : Nat} (h : Room (k + n) t rsp) :
    (rsp - BitVec.ofNat 64 k - t).toNat = (rsp - t).toNat - k := by
  have hLow := h.1
  have hBound := (rsp - t).isLt
  have hSwap : rsp - BitVec.ofNat 64 k - t = rsp - t - BitVec.ofNat 64 k := by abel
  rw [hSwap, BitVec.toNat_sub, BitVec.toNat_ofNat]
  omega

theorem Room.push {k : Nat} (h : Room (k + n) t rsp) : Room n t (rsp - BitVec.ofNat 64 k) := by
  have hSub := h.sub
  obtain ⟨hLow, hIn⟩ := h
  unfold Room InUnion at *
  omega

/-- A byte of the union behind `rsp - k`, seen from there. -/
theorem Room.above {k : Nat} (h : Room (k + n) t rsp) {i : Nat} (hi : i < k + (32768 - (rsp - t).toNat)) :
    (rsp - BitVec.ofNat 64 k + BitVec.ofNat 64 i - t).toNat = (rsp - t).toNat - k + i := by
  have hSub := h.sub
  obtain ⟨hLow, hIn⟩ := h
  unfold InUnion at hIn
  have hSwap : rsp - BitVec.ofNat 64 k + BitVec.ofNat 64 i - t = rsp - BitVec.ofNat 64 k - t +
    BitVec.ofNat 64 i := by
    abel
  rw [hSwap, BitVec.toNat_add, hSub, BitVec.toNat_ofNat]
  omega

end

/-! ## The registers and the stack of a task -/

/-- What `switch_to` keeps for a task; `stack` is what lies between `rsp` and the end of the union. -/
structure Context where
  rsp : Word
  rbp : Word
  rax : Word
  fs : BitVec 16
  gs : BitVec 16
  stack : List (BitVec 8)

/-- The number of bytes from `rsp` to the end of the union. -/
def depth (t rsp : Word) : Nat := 32768 - (rsp - t).toNat

def Cpu.context (s : Cpu) (t : Word) : Context :=
  ⟨s.reg .rsp, s.reg .rbp, s.reg .rax, s.fs, s.gs, s.mem.bytes (s.reg .rsp) (depth t (s.reg .rsp))⟩

theorem Cpu.context_eq {s : Cpu} {t : Word} {c : Context} (hRsp : s.reg .rsp = c.rsp) (hRbp : s.reg .rbp = c.rbp)
    (hRax : s.reg .rax = c.rax) (hFs : s.fs = c.fs) (hGs : s.gs = c.gs)
    (hStack : s.mem.bytes c.rsp (depth t c.rsp) = c.stack) : s.context t = c := by
  unfold Cpu.context
  rw [hRsp, hRbp, hRax, hFs, hGs, hStack]

/-- A task that has been left: `rax` and `rbp` are on its stack, below what it had there. -/
structure Parked (link : Link) (s : Cpu) (t : Word) (c : Context) : Prop where
  thread : s.thread t = ⟨t + stackSize, link.afterSwitch, c.rsp - 16, c.fs.setWidth 64, c.gs.setWidth 64⟩
  frame : s.mem.words (c.rsp - 16) 2 = [c.rax, c.rbp]
  stack : s.mem.bytes c.rsp (depth t c.rsp) = c.stack
  room : Room 24 t c.rsp

/-- The registers that `kernel_thread` has filled in. -/
def threadRegs (link : Link) (fn arg : Word) : PtRegs :=
  ⟨0, 0, 0, 0, 0, 0, 0, 0, fn, 0, arg, 0, 0, 0, kernelDs, kernelDs, 0, 0, 0, link.kernelThreadFunc, kernelCs,
    (1 : Word) <<< 9, 0, kernelDs⟩

/-- A thread that has not run yet. -/
structure Waiting (link : Link) (s : Cpu) (t fn arg : Word) : Prop where
  thread : s.thread t =
    ⟨t + stackSize, link.kernelThreadFunc, t + stackSize - ptRegsSize, kernelDs, kernelDs⟩
  frame : s.mem.words (t + stackSize - ptRegsSize) 24 = (threadRegs link fn arg).words

section
variable {link : Link} {s s' : Cpu} {t fn arg : Word} {c : Context}

theorem Parked.keep (h : Parked link s t c) (hThread : s'.thread t = s.thread t)
    (hMem : ∀ x, InUnion t x → structSize ≤ (x - t).toNat → s'.mem x = s.mem x) : Parked link s' t c := by
  obtain ⟨hOld, hFrame, hStack, hRoom⟩ := h
  have hAbove := fun i hi => hRoom.above (k := 16) (n := 8) (i := i) hi
  have hHere := fun i hi => (hRoom.less (Nat.zero_le 24)).above (k := 0) (n := 0) (i := i) hi
  have hBounds := hRoom
  unfold Room InUnion structSize at hBounds
  refine ⟨hThread.trans hOld, ?_, ?_, hRoom⟩
  · rw [← hFrame]
    refine words_congr fun i hi => ?_
    have hOffset := hAbove i (by omega)
    change (c.rsp - 16 + BitVec.ofNat 64 i - t).toNat = _ at hOffset
    unfold InUnion structSize at hMem
    exact hMem _ (by omega) (by omega)
  · rw [← hStack]
    refine bytes_congr fun i hi => ?_
    unfold depth at hi
    have hOffset := hHere i (by omega)
    have hZero : c.rsp - BitVec.ofNat 64 0 = c.rsp := BitVec.sub_zero _
    rw [hZero] at hOffset
    unfold InUnion structSize at hMem
    exact hMem _ (by omega) (by omega)

theorem Waiting.keep (h : Waiting link s t fn arg) (hThread : s'.thread t = s.thread t)
    (hMem : ∀ x, InUnion t x → structSize ≤ (x - t).toNat → s'.mem x = s.mem x) : Waiting link s' t fn arg := by
  refine ⟨hThread.trans h.thread, ?_⟩
  rw [← h.frame]
  refine words_congr fun i hi => ?_
  have hOffset : (t + stackSize - ptRegsSize + BitVec.ofNat 64 i - t).toNat = 32768 - 192 + i := by
    unfold stackSize ptRegsSize
    bv_omega
  unfold InUnion structSize at hMem
  exact hMem _ (by omega) (by omega)

end
/-! ## Leaving a task -/

/-- The memory after the two pushes of `switch_to`. -/
def pushed (s : Cpu) : Memory :=
  (s.mem.store (s.reg .rsp - 8) (s.reg .rbp)).store (s.reg .rsp - 16) (s.reg .rax)

/-- The thread of a task that is being left. -/
def leftThread (link : Link) (s : Cpu) (thread : Thread) : Thread :=
  ⟨thread.rsp0, link.afterSwitch, s.reg .rsp - 16, s.fs.setWidth 64, s.gs.setWidth 64⟩

/-- The machine at the first instruction of `__switch_to`. -/
structure AtBody (link : Link) (s s' : Cpu) (next : Word) (m : Machine) : Prop where
  rsp : m.reg .rsp = (s'.thread next).rsp - 8
  mem : m.mem = (pushed s).store ((s'.thread next).rsp - 8) (s'.thread next).rip
  interrupts : m.interrupts = false

theorem switchAway_spec (link : Link) (env : Env) (body : Machine → Machine) (next : Word) (s : Cpu) :
    ∃ m, AtBody link s (switchAway link env body s.nowTask next s) next m ∧
      switchAway link env body s.nowTask next s =
        { machine := (body m).set .rsp ((body m).reg .rsp + 8)
          rip := (body m).mem.load ((body m).reg .rsp)
          fs := ((switchAway link env body s.nowTask next s).thread next).fs.setWidth 16
          gs := ((switchAway link env body s.nowTask next s).thread next).gs.setWidth 16
          thread := Function.update s.thread s.nowTask (leftThread link s (s.thread s.nowTask))
          initTss := { s.initTss with rsp0 := ((switchAway link env body s.nowTask next s).thread next).rsp0 }
          tss64Table := { s.initTss with rsp0 := ((switchAway link env body s.nowTask next s).thread next).rsp0 }
          sysenterEsp := ((switchAway link env body s.nowTask next s).thread next).rsp0
          nowTask := next } := by
  have hThread : (switchAway link env body s.nowTask next s).thread =
      Function.update s.thread s.nowTask (leftThread link s (s.thread s.nowTask)) := by
    funext t
    by_cases h : t = s.nowTask
    · subst h
      simp [switchAway, switchTo', Cpu.setThread, Cpu.withMachine, leftThread, Cpu.reg, run, step, set_reg,
        set_reg_self, push_reg]
      bv_omega
    · simp [switchAway, switchTo', Cpu.setThread, Cpu.withMachine, h]
  obtain ⟨n, hn⟩ : ∃ n, n = (switchAway link env body s.nowTask next s).thread next := ⟨_, rfl⟩
  have hNext : n = Function.update s.thread s.nowTask (leftThread link s (s.thread s.nowTask)) next := by
    rw [hn, hThread]
  rw [← hn]
  let pushes : Machine := run env [.push .rbp, .push .rax]
    { (s.machine.set .rdi s.nowTask).set .rsi next with interrupts := false }
  let m : Machine := ((pushes.set .rsp n.rsp).set .rax link.afterSwitch).push n.rip
  refine ⟨m, ?_, ?_⟩
  · constructor
    · rw [← hn]
      simp [m, set_reg, set_reg_self]
    · rw [← hn]
      have hTwo : s.reg .rsp - 8 - 8 = s.reg .rsp - 16 := by bv_omega
      unfold pushed
      rw [← hTwo]
      simp [m, pushes, Machine.push, run, step, set_reg, set_reg_self, Cpu.reg, Cpu.mem]
    · simp [m, pushes, Machine.push, run, step, Machine.set]
  · rw [← hThread, hn]
    by_cases h : next = s.nowTask
    · subst h
      have hRsp : n.rsp = pushes.reg .rsp := by
        rw [hNext, Function.update_self]
        simp [pushes, leftThread, run, step, set_reg, Cpu.reg]
        bv_omega
      have hRip : n.rip = link.afterSwitch := by
        rw [hNext, Function.update_self]
        rfl
      simp [switchAway, switchTo', Cpu.setThread, Cpu.withMachine, m, hRsp, hRip, pushes, setTss64,
        set_reg_self, Cpu.reg, Cpu.mem]
    · have hN : n = s.thread next := by
        rw [hNext, Function.update_of_ne h]
      simp [switchAway, switchTo', Cpu.setThread, Cpu.withMachine, m, hN, h, pushes, setTss64, set_reg_self,
        Cpu.reg, Cpu.mem]

/-- The first half of `switch_to`: the current task is parked, and nothing of the other one has been used. -/
def park (link : Link) (s : Cpu) : Cpu :=
  { s.withMachine { s.machine with mem := pushed s } with
    thread := Function.update s.thread s.nowTask (leftThread link s (s.thread s.nowTask)) }

/-- What is relied on of the compiled `__switch_to`: it returns with the stack as it was, and writes to no task's
union but below the stack pointer of the one it runs on. -/
structure BodyKeeps (tasks : List Word) (next : Word) (body : Machine → Machine) : Prop where
  rsp : ∀ m, (body m).reg .rsp = m.reg .rsp
  interrupts : ∀ m, (body m).interrupts = m.interrupts
  mem : ∀ m, Room 0 next (m.reg .rsp) → ∀ t ∈ tasks, ∀ x, InUnion t x →
    (t = next → (m.reg .rsp - next).toNat ≤ (x - next).toNat) → (body m).mem x = m.mem x

/-- The state in which `ret` arrives. -/
structure Left (link : Link) (tasks : List Word) (s s' : Cpu) (next : Word) : Prop where
  thread : s'.thread = (park link s).thread
  rip : s'.rip = (s'.thread next).rip
  rsp : s'.reg .rsp = (s'.thread next).rsp
  fs : s'.fs = (s'.thread next).fs.setWidth 16
  gs : s'.gs = (s'.thread next).gs.setWidth 16
  nowTask : s'.nowTask = next
  rsp0 : s'.initTss.rsp0 = (s'.thread next).rsp0 ∧ s'.tss64Table.rsp0 = (s'.thread next).rsp0 ∧
    s'.sysenterEsp = (s'.thread next).rsp0
  interrupts : s'.machine.interrupts = false
  mem : ∀ t ∈ tasks, ∀ x, InUnion t x →
    (t = next → ((s'.thread next).rsp - next).toNat ≤ (x - next).toNat) → s'.mem x = (park link s).mem x

section
variable {link : Link} {env : Env} {tasks : List Word} {body : Machine → Machine} {next : Word} {s s' : Cpu}

theorem switchAway_left (env : Env) (hBody : BodyKeeps tasks next body) (hAligned : ∀ t ∈ tasks, Aligned t)
    (hNext : next ∈ tasks)
    (hRoom : Room 8 next (((park link s).thread next).rsp)) :
    Left link tasks s (switchAway link env body s.nowTask next s) next := by
  obtain ⟨m, hAt, hEq⟩ := switchAway_spec link env body next s
  generalize switchAway link env body s.nowTask next s = s' at hAt hEq
  have hThread : s'.thread = (park link s).thread := by
    rw [hEq]
    rfl
  rw [← hThread] at hRoom
  have hBelow : Room 0 next (m.reg .rsp) := by
    rw [hAt.rsp]
    exact hRoom.push (k := 8)
  have hSub : (m.reg .rsp - next).toNat = ((s'.thread next).rsp - next).toNat - 8 := by
    rw [hAt.rsp]
    exact hRoom.sub (k := 8) (n := 0)
  have hLow := hRoom.1
  -- the address that `ret` pops is on the stack of `next`, where the body leaves it
  have hReturn : (body m).mem.load (m.reg .rsp) = (s'.thread next).rip := by
    have hKept : (body m).mem.load (m.reg .rsp) = m.mem.load (m.reg .rsp) := by
      refine load_congr fun i hi => hBody.mem m hBelow next hNext _ ?_ fun _ => ?_
      · have hIn := hRoom.2
        unfold InUnion structSize at *
        bv_omega
      · have hIn := hRoom.2
        unfold InUnion structSize at *
        bv_omega
    rw [hKept, hAt.mem, hAt.rsp, load_store]
  refine ⟨hThread, ?_, ?_, ?_, ?_, ?_, ?_, ?_, fun t ht x hx hAbove => ?_⟩
  · rw [← hReturn, ← hBody.rsp]
    exact congrArg Cpu.rip hEq
  · have hTop : s'.reg .rsp = (body m).reg .rsp + 8 :=
      (congrArg (fun u : Cpu => u.reg .rsp) hEq).trans (set_reg_self _ _ _)
    rw [hTop, hBody.rsp, hAt.rsp]
    bv_omega
  · exact congrArg Cpu.fs hEq
  · exact congrArg Cpu.gs hEq
  · exact congrArg Cpu.nowTask hEq
  · exact ⟨congrArg (fun u : Cpu => u.initTss.rsp0) hEq, congrArg (fun u : Cpu => u.tss64Table.rsp0) hEq,
      congrArg Cpu.sysenterEsp hEq⟩
  · have hFlag : s'.machine.interrupts = (body m).interrupts := congrArg (fun u : Cpu => u.machine.interrupts) hEq
    rw [hFlag, hBody.interrupts, hAt.interrupts]
  · have hMem : s'.mem x = (body m).mem x := congrArg (fun u : Cpu => u.mem x) hEq
    have hBehind : t = next → (m.reg .rsp - next).toNat ≤ (x - next).toNat := by
      intro h
      have hFar := hAbove h
      omega
    rw [hMem, hBody.mem m hBelow t ht x hx hBehind, hAt.mem]
    -- the address lies just below the words that count
    refine store_outside _ ?_
    by_contra hHit
    have hIn := hRoom.2
    have hNextUnion : InUnion next x := by
      unfold InUnion structSize at *
      bv_omega
    have hSame := InUnion.unique (hAligned t ht) (hAligned next hNext) hx hNextUnion
    have hFar := hAbove hSame
    unfold InUnion structSize at *
    bv_omega

theorem pushed_outside {t x : Word} (hAligned : Aligned t) (hRoom : Room 16 t (s.reg .rsp))
    (hx : ¬InUnion t x ∨ (s.reg .rsp - t).toNat ≤ (x - t).toNat) : pushed s x = s.mem x := by
  obtain ⟨hLow, hIn⟩ := hRoom
  have hFar : 16 ≤ (x - (s.reg .rsp - 16)).toNat := by
    have hT := t.isLt
    unfold Aligned InUnion structSize at *
    bv_omega
  unfold pushed
  rw [store_outside _ (by omega), store_outside _ (by bv_omega)]

/-- The task that is left finds its registers and its stack on its stack. -/
theorem park_parked (hAligned : Aligned s.nowTask) (hRoom : Room 24 s.nowTask (s.reg .rsp))
    (hTop : (s.thread s.nowTask).rsp0 = s.nowTask + stackSize) :
    Parked link (park link s) s.nowTask (s.context s.nowTask) := by
  refine ⟨?_, ?_, ?_, hRoom⟩
  · refine (Function.update_self _ _ _).trans ?_
    unfold leftThread
    rw [hTop]
    rfl
  · have hTwo : s.reg .rsp - 8 - 8 = s.reg .rsp - 16 := by bv_omega
    change (pushed s).words (s.reg .rsp - 16) 2 = [s.reg .rax, s.reg .rbp]
    unfold pushed
    rw [← hTwo, words_push (n := 1) (by decide), words_push (n := 0) (by decide)]
    rfl
  · refine bytes_congr fun i hi => ?_
    have hOffset := (hRoom.less (Nat.zero_le 24)).above (k := 0) (n := 0) (i := i) (by
      unfold depth at hi
      exact Nat.lt_of_lt_of_eq hi (Nat.zero_add _).symm)
    have hZero : s.reg .rsp - BitVec.ofNat 64 0 = s.reg .rsp := BitVec.sub_zero _
    rw [hZero] at hOffset
    exact pushed_outside hAligned (hRoom.less (by decide)) (.inr (by
      change (s.reg .rsp - s.nowTask).toNat ≤ (s.reg .rsp + BitVec.ofNat 64 i - s.nowTask).toNat
      omega))

/-- Another task is not touched. -/
theorem park_other (link : Link) {t : Word} (hNe : t ≠ s.nowTask) (hAligned : Aligned s.nowTask) (hT : Aligned t)
    (hRoom : Room 16 s.nowTask (s.reg .rsp)) :
    (park link s).thread t = s.thread t ∧ ∀ x, InUnion t x → (park link s).mem x = s.mem x := by
  refine ⟨Function.update_of_ne hNe _ _, fun x hx => pushed_outside hAligned hRoom (.inl fun h => ?_)⟩
  exact hNe (InUnion.unique hT hAligned hx h)

/-! ## Arriving -/

/-- Nothing outside of the union of `next` has changed on the way out of `switch_to`. -/
structure Arrived (s s' : Cpu) (next : Word) : Prop where
  thread : s'.thread = s.thread
  nowTask : s'.nowTask = next
  rsp0 : s'.initTss = s.initTss ∧ s'.tss64Table = s.tss64Table ∧ s'.sysenterEsp = s.sysenterEsp
  mem : ∀ t x, Aligned t → Aligned next → t ≠ next → InUnion t x → s'.mem x = s.mem x

/-- A parked task gets its own registers and stack back. -/
theorem Left.resume (env : Env) {c : Context} (hLeft : Left link tasks s s' next) (hNext : next ∈ tasks)
    (hParked : Parked link (park link s) next c) :
    ∃ u, arrive link env s' = some u ∧ Arrived s' u next ∧ u.context next = c ∧ u.rip = link.afterSwitch ∧
      u.machine.interrupts = true := by
  obtain ⟨hThread, hFrame, hStack, hRoom⟩ := hParked
  rw [← hLeft.thread] at hThread
  have hRip : s'.rip = link.afterSwitch := by rw [hLeft.rip, hThread]
  have hRsp : s'.reg .rsp = c.rsp - 16 := by rw [hLeft.rsp, hThread]
  -- what was parked is what is there now
  have hMem : ∀ i, i < 16 + depth next c.rsp →
      s'.mem (c.rsp - 16 + BitVec.ofNat 64 i) = (park link s).mem (c.rsp - 16 + BitVec.ofNat 64 i) := by
    intro i hi
    have hSub := (hRoom.less (by decide : 16 ≤ 24)).sub (k := 16) (n := 0)
    have hOffset := (hRoom.less (by decide : 16 ≤ 24)).above (k := 16) (n := 0) hi
    have hBounds := hRoom
    unfold Room InUnion structSize depth at *
    change (c.rsp - 16 - next).toNat = _ at hSub
    change (c.rsp - 16 + BitVec.ofNat 64 i - next).toNat = _ at hOffset
    refine hLeft.mem next hNext _ ?_ fun _ => ?_
    · unfold InUnion
      omega
    · rw [hThread]
      dsimp only
      omega
  have hTop : s'.machine.stack 2 = [c.rax, c.rbp] := by
    unfold Machine.stack
    change s'.mem.words (s'.reg .rsp) 2 = _
    rw [hRsp, ← hFrame]
    exact words_congr fun i hi => hMem i (by omega)
  obtain ⟨hRax, hOthers, hRsp₁, hStack₁⟩ := pop_spec s'.machine c.rax (by decide : Reg.rax ≠ .rsp) hTop
  obtain ⟨hRbp, hOthers₂, hRsp₂, -⟩ := pop_spec (s'.machine.pop .rax) c.rbp (by decide : Reg.rbp ≠ .rsp) hStack₁
  have hEnd : ((s'.machine.pop .rax).pop .rbp).reg .rsp = c.rsp := by
    rw [hRsp₂, hRsp₁]
    change s'.reg .rsp + 8 + 8 = c.rsp
    rw [hRsp]
    bv_omega
  refine ⟨s'.withMachine { run env [.pop .rax, .pop .rbp] s'.machine with interrupts := true }, ?_,
    ⟨rfl, hLeft.nowTask, ⟨rfl, rfl, rfl⟩, fun _ _ _ _ _ _ => rfl⟩, ?_, hRip, rfl⟩
  · unfold arrive
    rw [if_pos hRip]
  · have hBytes : s'.mem.bytes c.rsp (depth next c.rsp) = c.stack := by
      rw [← hStack]
      refine bytes_congr fun i hi => ?_
      have hSplit : c.rsp + BitVec.ofNat 64 i = c.rsp - 16 + BitVec.ofNat 64 (16 + i) := by bv_omega
      rw [hSplit]
      exact hMem (16 + i) (by omega)
    have hFs : s'.fs = c.fs := by
      rw [hLeft.fs, hThread]
      simp
    have hGs : s'.gs = c.gs := by
      rw [hLeft.gs, hThread]
      simp
    exact Cpu.context_eq hEnd hRbp ((hOthers₂ .rax (by decide) (by decide)).trans hRax) hFs hGs hBytes

/-- How a thread begins: nothing but the return address is on its stack. -/
def startContext (link : Link) (t : Word) : Context :=
  ⟨t + stackSize - 8, 0, 0, 0x10, 0x10, wordBytes link.threadReturn⟩

/-- A machine with the registers of `threadRegs`. -/
def threadMachine (fn arg : Word) (m : Machine) : Machine :=
  { m with
    reg := fun
      | .rbx => fn
      | .rdx => arg
      | _ => 0
    seg := fun _ => 0x10 }

theorem threadRegs_words (fn arg : Word) (m : Machine) : (threadRegs link fn arg).words =
    (threadMachine fn arg m).saved ++ [0, 0, link.kernelThreadFunc, kernelCs, (1 : Word) <<< 9, 0, kernelDs] :=
      rfl

theorem kernelThreadFunc_split :
    kernelThreadFunc = restoreFrame ++ [.addImm 0x38 .rsp, .mov .rdx .rdi] := rfl

/-- The frame of a new thread is popped, and its function is called with the argument. -/
theorem kernelThreadFunc_spec (env : Env) {m : Machine} {fn arg : Word}
    (hFrame : m.stack 24 = (threadRegs link fn arg).words) :
    (run env kernelThreadFunc m).reg .rbx = fn ∧ (run env kernelThreadFunc m).reg .rdi = arg ∧
      (run env kernelThreadFunc m).reg .rsp = m.reg .rsp + ptRegsSize ∧
      (run env kernelThreadFunc m).reg .rbp = 0 ∧ (run env kernelThreadFunc m).reg .rax = 0 ∧
      (run env kernelThreadFunc m).seg = (fun _ => 0x10) ∧
      (run env kernelThreadFunc m).mem = m.mem ∧
      (run env kernelThreadFunc m).interrupts = m.interrupts := by
  rw [threadRegs_words fn arg m] at hFrame
  obtain ⟨hReg, hSeg, hRsp, -⟩ := restoreFrame_spec env (n := 7) hFrame
  have hMem : (run env restoreFrame m).mem = m.mem := rfl
  have hFlag : (run env restoreFrame m).interrupts = m.interrupts := rfl
  rw [kernelThreadFunc_split, run_append]
  generalize run env restoreFrame m = u at hReg hSeg hRsp hMem hFlag
  have hOthers : ∀ r, r ≠ .rsp → r ≠ .rdi →
      (run env [.addImm 0x38 .rsp, .mov .rdx .rdi] u).reg r = u.reg r := by
    intro r hNeRsp hNeRdi
    simp [run, step, set_reg, hNeRsp, hNeRdi]
  refine ⟨?_, ?_, ?_, ?_, ?_, ?_, hMem, hFlag⟩
  · rw [hOthers .rbx (by decide) (by decide), hReg .rbx (by decide)]
    rfl
  · have hRdi : (run env [.addImm 0x38 .rsp, .mov .rdx .rdi] u).reg .rdi = u.reg .rdx := by
      simp [run, step, set_reg, set_reg_self]
    rw [hRdi, hReg .rdx (by decide)]
    rfl
  · have hTop : (run env [.addImm 0x38 .rsp, .mov .rdx .rdi] u).reg .rsp = u.reg .rsp + 0x38 := by
      simp [run, step, set_reg, set_reg_self]
    rw [hTop, hRsp]
    unfold ptRegsSize
    bv_omega
  · rw [hOthers .rbp (by decide) (by decide), hReg .rbp (by decide)]
    rfl
  · rw [hOthers .rax (by decide) (by decide), hReg .rax (by decide)]
    rfl
  · exact hSeg

/-- A new thread enters its function. -/
theorem Left.start (env : Env) {fn arg : Word} (hLink : link.kernelThreadFunc ≠ link.afterSwitch)
    (hLeft : Left link tasks s s' next) (hNext : next ∈ tasks)
    (hWaiting : Waiting link (park link s) next fn arg) :
    ∃ u, arrive link env s' = some u ∧ Arrived s' u next ∧ u.context next = startContext link next ∧ u.rip = fn ∧
      u.reg .rdi = arg ∧ u.machine.seg = (fun _ => 0x10) ∧ u.machine.interrupts = false := by
  obtain ⟨hThread, hFrame⟩ := hWaiting
  rw [← hLeft.thread] at hThread
  have hRip : s'.rip = link.kernelThreadFunc := by rw [hLeft.rip, hThread]
  have hRsp : s'.reg .rsp = next + stackSize - ptRegsSize := by rw [hLeft.rsp, hThread]
  have hTop : s'.machine.stack 24 = (threadRegs link fn arg).words := by
    unfold Machine.stack
    change s'.mem.words (s'.reg .rsp) 24 = _
    rw [hRsp, ← hFrame]
    refine words_congr fun i hi => ?_
    have hOffset : (next + stackSize - ptRegsSize + BitVec.ofNat 64 i - next).toNat = 32768 - 192 + i := by
      unfold stackSize ptRegsSize
      bv_omega
    have hBase : (next + stackSize - ptRegsSize - next).toNat = 32768 - 192 := by
      unfold stackSize ptRegsSize
      bv_omega
    refine hLeft.mem next hNext _ ?_ fun _ => ?_
    · unfold InUnion
      omega
    · rw [hThread, hBase, hOffset]
      omega
  obtain ⟨hRbx, hRdi, hRspEnd, hRbp, hRax, hSeg, hMem, hFlag⟩ := kernelThreadFunc_spec env hTop
  generalize hm : run env kernelThreadFunc s'.machine = m at hRbx hRdi hRspEnd hRbp hRax hSeg hMem hFlag
  have hStackTop : m.reg .rsp - 8 = next + stackSize - 8 := by
    rw [hRspEnd]
    change s'.reg .rsp + ptRegsSize - 8 = _
    rw [hRsp]
    unfold ptRegsSize
    bv_omega
  refine ⟨{ s'.withMachine (m.push link.threadReturn) with rip := m.reg .rbx }, ?_, ?_, ?_, hRbx, ?_, hSeg,
    hFlag.trans hLeft.interrupts⟩
  · unfold arrive
    rw [if_neg (hRip.trans_ne hLink), if_pos hRip, hm]
  · refine ⟨rfl, hLeft.nowTask, ⟨rfl, rfl, rfl⟩, fun t x hAligned hNextAligned hNe hx => ?_⟩
    change m.mem.store (m.reg .rsp - 8) link.threadReturn x = s'.mem x
    rw [hStackTop, hMem]
    refine store_outside _ ?_
    by_contra hHit
    refine hNe (InUnion.unique hAligned hNextAligned hx ?_)
    unfold InUnion stackSize at *
    bv_omega
  · refine Cpu.context_eq ?_ ?_ ?_ ?_ ?_ ?_
    · exact (push_reg_rsp m link.threadReturn).trans hStackTop
    · exact (push_reg m _ (by decide)).trans hRbp
    · exact (push_reg m _ (by decide)).trans hRax
    · refine hLeft.fs.trans ?_
      rw [hThread]
      rfl
    · refine hLeft.gs.trans ?_
      rw [hThread]
      rfl
    · have hDepth : depth next (next + stackSize - 8) = 8 := by
        unfold depth stackSize
        bv_omega
      change (m.mem.store (m.reg .rsp - 8) link.threadReturn).bytes (next + stackSize - 8)
        (depth next (next + stackSize - 8)) = wordBytes link.threadReturn
      rw [hStackTop, hDepth, bytes_store]
  · exact (push_reg m _ (by decide)).trans hRdi

end
end KalinoteOS.Task
