import KalinoteOS.Disk.Medium

/-! # What the requests return

The drive works on one request after the other, with the tasks and the other drivers at work in between.
In the end each request has read or written all of its sectors at once.
-/
namespace KalinoteOS.Disk
open Lib
set_option autoImplicit false

/-- The entry that the request leaves in the history. -/
inductive Ended (sent : List (List Sector)) (r : BlockBufferNode) : BlockStore.Op Sector → Prop
  | write {data : List Sector} (hCmd : r.cmd = ataWriteCmd) (hSent : sent[r.serial]? = some data)
      (hLength : data.length = r.count) : Ended sent r (.write (r.LBA % 2 ^ 48) data)
  | read {data : List Sector} (hCmd : r.cmd ≠ ataWriteCmd) (hLength : data.length = r.count) :
      Ended sent r (.read (r.LBA % 2 ^ 48) data)

/-- `done` are in the history, `n` interrupts were raised for `active`, `waiting` have not moved. -/
structure Backed (first : Nat → Sector) (d : Data) (done : List BlockBufferNode)
    (active : Option BlockBufferNode) (waiting : List BlockBufferNode) (n : Nat) : Prop where
  sent : d.sent.length = (done ++ active.toList ++ waiting).length
  apart : (active.toList ++ waiting).Pairwise BlockBufferNode.Apart
  unmoved : ∀ r ∈ active.toList ++ waiting, r.cmd = ataWriteCmd →
    d.sent[r.serial]? = some (contents d.memory r.buffer r.count)
  command : ∀ r ∈ active, d.command = some (commandOf r)
  history : List.Forall₂ (Ended d.sent) done d.history
  legal : BlockStore.Legal first d.history
  idle : active = none → d.medium = BlockStore.after first d.history
  writing : ∀ r ∈ active, r.cmd = ataWriteCmd →
    d.medium = written (BlockStore.after first d.history) d.memory r (blocksAfter r n)
  reading : ∀ r ∈ active, r.cmd ≠ ataWriteCmd → d.medium = BlockStore.after first d.history ∧
    contents d.memory r.buffer n = BlockStore.read d.medium (r.LBA % 2 ^ 48) n

theorem Ended.append {sent : List (List Sector)} {r : BlockBufferNode} {op : BlockStore.Op Sector}
    (h : Ended sent r op) (more : List (List Sector)) : Ended (sent ++ more) r op := by
  cases h with
  | write hCmd hSent hLength =>
    have hLt := (List.getElem?_eq_some_iff.mp hSent).1
    have hGet : (sent ++ more)[r.serial]? = sent[r.serial]? := List.getElem?_append_left hLt
    exact .write hCmd (hGet.trans hSent) hLength
  | read hCmd hLength => exact .read hCmd hLength

theorem contents_unchanged {memory memory' : Nat → BitVec 8} {r : BlockBufferNode} {n : Nat}
    (hLe : n ≤ r.count) (h : ∀ a, r.Owns a → memory' a = memory a) :
    contents memory' r.buffer n = contents memory r.buffer n :=
  contents_congr fun a hFrom hTo => h a ⟨hFrom, by omega⟩

namespace Backed
section
variable {first : Nat → Sector} {d : Data} {done waiting : List BlockBufferNode}
  {active : Option BlockBufferNode} {n : Nat} {submitted : List BlockBufferNode} {r : BlockBufferNode}

/-- Writes of others outside the buffers. -/
theorem store (h : Backed first d done active waiting n) (hLe : ∀ r ∈ active, n ≤ r.count)
    {memory : Nat → BitVec 8}
    (hKeep : ∀ r ∈ active.toList ++ waiting, ∀ a, r.Owns a → memory a = d.memory a) :
    Backed first { d with memory := memory } done active waiting n where
  sent := h.sent
  apart := h.apart
  unmoved := by
    intro r hr hCmd
    rw [contents_unchanged (le_refl _) (hKeep r hr)]
    exact h.unmoved r hr hCmd
  command := h.command
  history := h.history
  legal := h.legal
  idle := h.idle
  writing := by
    intro r hr hCmd
    have hBlocks : blocksAfter r n ≤ r.count := by
      rw [blocksAfter, if_pos hCmd]
      exact Nat.min_le_right _ _
    have hMedium := h.writing r hr hCmd
    rw [written] at hMedium ⊢
    rwa [contents_unchanged hBlocks (hKeep r (List.mem_append_left _ (Option.mem_toList.mpr hr)))]
  reading := by
    intro r hr hCmd
    rw [contents_unchanged (hLe r hr) (hKeep r (List.mem_append_left _ (Option.mem_toList.mpr hr)))]
    exact h.reading r hr hCmd

/-- `submit` records the buffer. -/
theorem submit (h : Backed first d done active waiting n)
    (hSerial : r.serial = (done ++ active.toList ++ waiting).length)
    (hApart : ∀ q ∈ active.toList ++ waiting, q.Apart r) :
    Backed first { d with sent := d.sent ++ [contents d.memory r.buffer r.count] } done active
      (waiting ++ [r]) n where
  sent := by
    simp [h.sent, Nat.add_assoc]
  apart := by
    rw [← List.append_assoc, List.pairwise_append]
    refine ⟨h.apart, List.pairwise_singleton _ _, fun q hq p hp => ?_⟩
    rw [List.mem_singleton.mp hp]
    exact hApart q hq
  unmoved := by
    intro q hq hCmd
    rw [← List.append_assoc, List.mem_append] at hq
    obtain hq | hq := hq
    · have hSent := h.unmoved q hq hCmd
      have hLt := (List.getElem?_eq_some_iff.mp hSent).1
      rw [List.getElem?_append_left hLt]
      exact hSent
    · rw [List.mem_singleton.mp hq, hSerial, ← h.sent]
      simp
  command := h.command
  history := h.history.imp fun _ _ hEnded => hEnded.append _
  legal := h.legal
  idle := h.idle
  writing := h.writing
  reading := h.reading

/-- `cmd_out`. -/
theorem start (h : Backed first d done none (r :: waiting) n) (hPos : 0 < r.count) :
    Backed first (d.performAll submitted (startEvents r)) done (some r) waiting 0 := by
  by_cases hCmd : r.cmd = ataWriteCmd
  · rw [start_write hCmd]
    have hBlocks : blocksAfter r 0 = 1 := by
      rw [blocksAfter, if_pos hCmd]
      omega
    refine ⟨by simpa using h.sent, h.apart, h.unmoved, by rintro q ⟨⟩; rfl, h.history, h.legal,
      fun hNone => absurd hNone (Option.some_ne_none r), ?_, ?_⟩
    · rintro q ⟨⟩ -
      rw [hBlocks, ← h.idle rfl]
    · rintro q ⟨⟩ hRead
      exact absurd hCmd hRead
  · rw [start_read hCmd]
    refine ⟨by simpa using h.sent, h.apart, h.unmoved, by rintro q ⟨⟩; rfl, h.history, h.legal,
      fun hNone => absurd hNone (Option.some_ne_none r), ?_, ?_⟩
    · rintro q ⟨⟩ hWrite
      exact absurd hWrite hCmd
    · rintro q ⟨⟩ -
      exact ⟨h.idle rfl, by simp [contents, BlockStore.read]⟩

/-- A sector of a read goes to the buffer of `r` only. -/
theorem deposit_apart {q : BlockBufferNode} {i : Nat} (hi : i < r.count) (hApart : r.Apart q)
    (memory : Nat → BitVec 8) (sector : Sector) :
    contents (deposit memory (r.buffer + 512 * i) sector) q.buffer q.count
      = contents memory q.buffer q.count := by
  apply contents_congr
  intro a hFrom hTo
  apply deposit_outside
  obtain hBefore | hAfter := hApart
  · exact Or.inr (by omega)
  · exact Or.inl (by omega)

section
variable (h : Backed first d done (some r) waiting n)
include h

theorem apart_active {q : BlockBufferNode} (hq : q ∈ waiting) : r.Apart q :=
  (List.pairwise_cons.mp h.apart).1 q hq

theorem irq_read (hCmd : r.cmd ≠ ataWriteCmd) (hLt : n < r.count) :
    Backed first (d.performAll submitted (irqEvents r n)) done (some r) waiting (n + 1) := by
  obtain ⟨hMedium, hSeen⟩ := h.reading r rfl hCmd
  rw [Disk.irq_read (h.command r rfl) hCmd]
  refine ⟨h.sent, h.apart, ?_, h.command, h.history, h.legal,
    fun hNone => absurd hNone (Option.some_ne_none r), ?_, ?_⟩
  · intro q hq hWrite
    obtain rfl | hWaiting := List.mem_cons.mp hq
    · exact absurd hWrite hCmd
    · rw [deposit_apart hLt (h.apart_active hWaiting)]
      exact h.unmoved q hq hWrite
  · rintro q ⟨⟩ hWrite
    exact absurd hWrite hCmd
  · rintro q ⟨⟩ -
    refine ⟨hMedium, ?_⟩
    rw [contents_deposit, hSeen, BlockStore.read_succ]

theorem irq_write (hCmd : r.cmd = ataWriteCmd) (hMore : n + 1 < r.count) :
    Backed first (d.performAll submitted (irqEvents r n)) done (some r) waiting (n + 1) := by
  have hMedium := h.writing r rfl hCmd
  have hNow : blocksAfter r n = n + 1 := by
    rw [blocksAfter, if_pos hCmd]
    omega
  have hNext : blocksAfter r (n + 1) = n + 1 + 1 := by
    rw [blocksAfter, if_pos hCmd]
    omega
  rw [hNow] at hMedium
  rw [Disk.irq_write (h.command r rfl) hCmd hMore]
  refine ⟨h.sent, h.apart, h.unmoved, h.command, h.history, h.legal,
    fun hNone => absurd hNone (Option.some_ne_none r), ?_, ?_⟩
  · rintro q ⟨⟩ -
    rw [hNext, written_succ, hMedium]
  · rintro q ⟨⟩ hRead
    exact absurd hCmd hRead

/-- An interrupt with more of them to come. -/
theorem more (hMore : n + 1 < r.count) :
    Backed first (d.performAll submitted (irqEvents r n)) done (some r) waiting (n + 1) := by
  by_cases hCmd : r.cmd = ataWriteCmd
  · exact h.irq_write hCmd hMore
  · exact h.irq_read hCmd (by omega)

/-- The end of a request, when all of its sectors were moved. -/
theorem finish (hSubmitted : submitted[r.serial]? = some r) (hLast : n = r.count) (m : Nat) :
    Backed first (d.performAll submitted [.finish r.serial]) (done ++ [r]) none waiting m := by
  have hWaiting : waiting.Pairwise BlockBufferNode.Apart := (List.pairwise_cons.mp h.apart).2
  have hUnmoved : ∀ q ∈ waiting, q.cmd = ataWriteCmd →
      d.sent[q.serial]? = some (contents d.memory q.buffer q.count) :=
    fun q hq => h.unmoved q (List.mem_cons_of_mem _ hq)
  have hSent : d.sent.length = (done ++ [r] ++ (none : Option BlockBufferNode).toList ++ waiting).length := by
    simpa using h.sent
  rw [finish_ended hSubmitted]
  by_cases hCmd : r.cmd = ataWriteCmd
  · have hOwn := h.unmoved r List.mem_cons_self hCmd
    have hEnded : d.ended r = .write (r.LBA % 2 ^ 48) (contents d.memory r.buffer r.count) := by
      rw [Data.ended, if_pos hCmd, hOwn]
      rfl
    have hBlocks : blocksAfter r n = r.count := by
      rw [blocksAfter, if_pos hCmd]
      omega
    have hMedium := h.writing r rfl hCmd
    rw [hBlocks] at hMedium
    rw [hEnded]
    refine ⟨hSent, hWaiting, hUnmoved, fun q hq => absurd hq (Option.not_mem_none q), ?_, ?_, fun _ => ?_,
      fun q hq => absurd hq (Option.not_mem_none q), fun q hq => absurd hq (Option.not_mem_none q)⟩
    · exact List.rel_append h.history (.cons (.write hCmd hOwn (length_contents _ _ _)) .nil)
    · exact BlockStore.legal_snoc.mpr ⟨h.legal, trivial⟩
    · rw [BlockStore.after_snoc]
      exact hMedium
  · have hEnded : d.ended r = .read (r.LBA % 2 ^ 48) (contents d.memory r.buffer r.count) := by
      rw [Data.ended, if_neg hCmd]
    obtain ⟨hMedium, hSeen⟩ := h.reading r rfl hCmd
    rw [hMedium, hLast] at hSeen
    rw [hEnded]
    refine ⟨hSent, hWaiting, hUnmoved, fun q hq => absurd hq (Option.not_mem_none q), ?_, ?_, fun _ => ?_,
      fun q hq => absurd hq (Option.not_mem_none q), fun q hq => absurd hq (Option.not_mem_none q)⟩
    · exact List.rel_append h.history (.cons (.read hCmd (length_contents _ _ _)) .nil)
    · refine BlockStore.legal_snoc.mpr ⟨h.legal, ?_⟩
      change _ = BlockStore.read _ _ (contents d.memory r.buffer r.count).length
      rw [length_contents]
      exact hSeen
    · rw [BlockStore.after_snoc]
      exact hMedium

/-- The last interrupt. -/
theorem last (hSubmitted : submitted[r.serial]? = some r) (hLast : n + 1 = r.count) (m : Nat) :
    Backed first (d.performAll submitted (irqEvents r n ++ [.finish r.serial])) (done ++ [r]) none waiting m := by
  rw [Data.performAll_append]
  by_cases hCmd : r.cmd = ataWriteCmd
  · rw [irq_write_last hCmd hLast]
    have hSame : blocksAfter r r.count = blocksAfter r n := by
      rw [blocksAfter, blocksAfter, if_pos hCmd, if_pos hCmd]
      omega
    have hNow : Backed first d done (some r) waiting r.count := by
      refine ⟨h.sent, h.apart, h.unmoved, h.command, h.history, h.legal,
        fun hNone => absurd hNone (Option.some_ne_none r), ?_, ?_⟩
      · rintro q ⟨⟩ hWrite
        rw [hSame]
        exact h.writing r rfl hWrite
      · rintro q ⟨⟩ hRead
        exact absurd hCmd hRead
    exact hNow.finish hSubmitted rfl m
  · exact (h.irq_read hCmd (by omega)).finish hSubmitted hLast m

end
end
end Backed

/-! ## The events of a step -/

/-- What a step adds to the log. -/
def eventsOf (s t : State) : List Event := t.log.drop s.log.length

theorem eventsOf_append {s t : State} {events : List Event} (h : t.log = s.log ++ events) :
    eventsOf s t = events := by
  rw [eventsOf, h, List.drop_left]

section
variable {s t : State} {done : List BlockBufferNode} {active : Option BlockBufferNode} {r : BlockBufferNode}

theorem submit_busy (h : Inv s done active) (hBusy : active ≠ none) (hCall : submit s r = some t) :
    t = addRequest s r := by
  have hUsing : (addRequest s r).inUsing ≠ none := by
    change s.inUsing ≠ none
    rw [h.inUsing]
    simpa using hBusy
  exact (Option.some.inj ((if_neg hUsing).symm.trans hCall)).symm

theorem submit_idle (h : Inv s done none) (hValid : Valid r) (hCall : submit s r = some t) :
    Issued (addRequest s r) t r [] := by
  have hQueue : (addRequest s r).waitQueueList = r :: [] := by
    simp [addRequest, (h.idle rfl).1]
  have hIdle : (addRequest s r).inUsing = none := h.inUsing
  obtain ⟨u, hOut, hIssued⟩ := cmdOut_issued hQueue hValid
  rwa [Option.some.inj (hCall.symm.trans ((if_pos hIdle).trans hOut))]

theorem irq_more (h : Inv s done (some r)) (hLogged : Logged s done (some r)) (hMore : s.drive.irqs + 1 < r.count)
    (hCall : diskHandler false (raiseIrq s) = some t) :
    t.log = s.log ++ irqEvents r s.drive.irqs ∧ t.drive.irqs = s.drive.irqs + 1 ∧
      t.waitQueueList = s.waitQueueList := by
  have hValid : Valid r := h.valid r (by rw [h.submitted]; simp)
  obtain ⟨u, hSame, hServed, -⟩ := diskHandler_more false hValid h.inUsing hMore
  obtain rfl := Option.some.inj (hCall.symm.trans hSame)
  exact ⟨(hServed.logged rfl (hLogged.blocks r rfl)).1, hServed.irqs, hServed.waitQueueList⟩

/-- `end_request` after the last interrupt: the next request is issued, if there is one. -/
theorem irq_last (h : Inv s done (some r)) (hLogged : Logged s done (some r)) (hLast : s.drive.irqs + 1 = r.count)
    (hCall : diskHandler false (raiseIrq s) = some t) :
    ∃ u : State, u.log = s.log ++ (irqEvents r s.drive.irqs ++ [.finish r.serial]) ∧
      u.waitQueueList = s.waitQueueList ∧
      ((t = u ∧ t.inUsing = none ∧ s.waitQueueList = []) ∨
        ∃ next rest, s.waitQueueList = next :: rest ∧ Issued u t next rest) := by
  have hValid : Valid r := h.valid r (by rw [h.submitted]; simp)
  obtain ⟨v, node, hEnd, hServed, -, hSerial⟩ := diskHandler_last false hValid h.inUsing hLast
  have hLog : (release v node).log = s.log ++ (irqEvents r s.drive.irqs ++ [.finish r.serial]) := by
    change v.log ++ [.finish node.serial] = _
    rw [(hServed.logged rfl (hLogged.blocks r rfl)).1, hSerial, List.append_assoc]
  have hQueue : (release v node).waitQueueList = s.waitQueueList := hServed.waitQueueList
  have hCount : (release v node).blockRequestCount = s.waitQueueList.length := hServed.count.trans h.count
  rw [hEnd] at hCall
  refine ⟨release v node, hLog, hQueue, ?_⟩
  cases hWaiting : s.waitQueueList with
  | nil =>
    have hZero : ¬ (release v node).blockRequestCount ≠ 0 := by simp [hCount, hWaiting]
    have hSame : t = release v node := (Option.some.inj ((if_neg hZero).symm.trans hCall)).symm
    exact Or.inl ⟨hSame, hSame ▸ rfl, rfl⟩
  | cons next rest =>
    have hMore : (release v node).blockRequestCount ≠ 0 := by
      rw [hCount, hWaiting, List.length_cons]
      omega
    have hNext : Valid next := h.valid next (by rw [h.submitted, hWaiting]; simp)
    obtain ⟨w, hOut, hIssued⟩ := cmdOut_issued (hQueue.trans hWaiting) hNext
    obtain rfl := Option.some.inj (hCall.symm.trans ((if_pos hMore).trans hOut))
    exact Or.inr ⟨next, rest, rfl, hIssued⟩

/-- Who is in service after a command was issued. -/
theorem Inv.active_issued {u : State} {rest : List BlockBufferNode} (h : Inv t done active)
    (hIssued : Issued u t r rest) : active = some r := by
  have hUsing : active.map (progress · t.drive.irqs) = some r := h.inUsing.symm.trans hIssued.inUsing
  obtain ⟨q, rfl, hq⟩ := Option.map_eq_some_iff.mp hUsing
  rw [hIssued.irqs] at hq
  exact congrArg some hq

end

/-! ## The drive, the driver and the rest of the machine -/

structure System where
  driver : State
  data : Data

/-- A request that was submitted and has not ended. -/
def Pending (s : State) (r : BlockBufferNode) : Prop := r ∈ s.submitted ∧ .finish r.serial ∉ s.log

inductive Act where
  | driver (op : Op)
  /-- Others write to the memory. -/
  | store (memory : Nat → BitVec 8)

/-- Buffers are not shared, and nobody else writes to the buffer of a pending request. -/
inductive System.Step : System → Act → System → Prop
  | submit {x : System} {t : State} {cmd blocks count buffer : Nat}
      (hStep : Disk.Step x.driver (.submit cmd blocks count buffer) t)
      (hApart : ∀ q, Pending x.driver q → q.Apart (makeRequest x.driver cmd blocks count buffer)) :
      Step x (.driver (.submit cmd blocks count buffer))
        ⟨t, Data.performAll t.submitted
          { x.data with sent := x.data.sent ++ [contents x.data.memory buffer count] } (eventsOf x.driver t)⟩
  | irq {x : System} {t : State} (hStep : Disk.Step x.driver .irq t) :
      Step x (.driver .irq) ⟨t, x.data.performAll t.submitted (eventsOf x.driver t)⟩
  | resched {x : System} {t : State} {sched : Scheduler.Schedule}
      (hStep : Disk.Step x.driver (.resched sched) t) :
      Step x (.driver (.resched sched)) ⟨t, x.data⟩
  | store {x : System} {memory : Nat → BitVec 8}
      (hKeep : ∀ r, Pending x.driver r → ∀ a, r.Owns a → memory a = x.data.memory a) :
      Step x (.store memory) ⟨x.driver, { x.data with memory := memory }⟩

def System.Initial (first : Nat → Sector) (x : System) : Prop :=
  Disk.Initial x.driver ∧ x.data.medium = first ∧ x.data.sent = [] ∧ x.data.history = []

/-- The invariant of the driver, with the sectors behind it. -/
structure System.Holds (first : Nat → Sector) (x : System) (done : List BlockBufferNode)
    (active : Option BlockBufferNode) : Prop where
  inv : Inv x.driver done active
  logged : Logged x.driver done active
  backed : Backed first x.data done active x.driver.waitQueueList x.driver.drive.irqs

theorem Inv.pending {s : State} {done : List BlockBufferNode} {active : Option BlockBufferNode}
    (h : Inv s done active) {r : BlockBufferNode} (hr : r ∈ active.toList ++ s.waitQueueList) : Pending s r := by
  have hMem : r ∈ s.submitted := by
    rw [h.submitted, List.append_assoc]
    exact List.mem_append_right _ hr
  refine ⟨hMem, fun hFinish => ?_⟩
  have hDone : r ∈ done := (h.mem_done_iff hMem).mpr hFinish
  have hNodup : (s.submitted.map BlockBufferNode.serial).Nodup := by
    rw [h.serials]
    exact List.nodup_range
  rw [h.submitted, List.append_assoc, List.map_append, List.nodup_append] at hNodup
  exact hNodup.2.2 _ (List.mem_map_of_mem hDone) _ (List.mem_map_of_mem hr) rfl

namespace System
section
variable {first : Nat → Sector} {x y : System} {a : Act} {done : List BlockBufferNode}
  {active : Option BlockBufferNode}

theorem initial_holds (h : Initial first x) : Holds first x [] none := by
  obtain ⟨hDriver, hMedium, hSent, hHistory⟩ := h
  obtain ⟨hInv, hLogged⟩ := initial_inv hDriver
  have hQueue : x.driver.waitQueueList = [] := (hInv.idle rfl).1
  refine ⟨hInv, hLogged, ?_⟩
  rw [hQueue]
  refine ⟨by simp [hSent], by simp, by simp, fun q hq => absurd hq (Option.not_mem_none q), ?_, ?_, fun _ => ?_,
    fun q hq => absurd hq (Option.not_mem_none q), fun q hq => absurd hq (Option.not_mem_none q)⟩
  · rw [hHistory]
    exact .nil
  · rw [hHistory]
    exact trivial
  · rw [hHistory]
    exact hMedium

section
variable (h : Holds first x done active)
include h

theorem Holds.submit {t : State} {cmd blocks count buffer : Nat}
    (hStep : Disk.Step x.driver (.submit cmd blocks count buffer) t)
    (hApart : ∀ q, Pending x.driver q → q.Apart (makeRequest x.driver cmd blocks count buffer)) :
    Holds first ⟨t, Data.performAll t.submitted
      { x.data with sent := x.data.sent ++ [contents x.data.memory buffer count] } (eventsOf x.driver t)⟩
      done (active.or (some (makeRequest x.driver cmd blocks count buffer))) := by
  obtain ⟨hCmd, hPos, hLe, hCall⟩ := hStep
  obtain ⟨r, hr⟩ : ∃ r, makeRequest x.driver cmd blocks count buffer = r := ⟨_, rfl⟩
  have hValid : Valid r := hr ▸ makeRequest_valid x.driver hCmd hPos hLe
  have hSerial : r.serial = x.driver.submitted.length := hr ▸ rfl
  have hSent : contents x.data.memory buffer count = contents x.data.memory r.buffer r.count := by
    subst hr
    simp only [makeRequest]
    rw [Nat.mod_eq_of_lt (by omega)]
  rw [hr] at hCall hApart ⊢
  rw [hSent]
  obtain ⟨u, hSame, -, -, hInv, hLog⟩ := h.inv.submit hValid hSerial
  obtain rfl := Option.some.inj (hCall.symm.trans hSame)
  rw [h.inv.submitted] at hSerial
  have hBacked := h.backed.submit hSerial fun q hq => hApart q (h.inv.pending hq)
  refine ⟨hInv, hLog h.logged, ?_⟩
  cases active with
  | some q =>
    obtain rfl := submit_busy h.inv (by simp) hCall
    have hNone : eventsOf x.driver (addRequest x.driver r) = [] := eventsOf_append (List.append_nil _).symm
    rw [hNone]
    exact hBacked
  | none =>
    have hIssued := submit_idle h.inv hValid hCall
    have hStart : eventsOf x.driver t = startEvents r := by
      apply eventsOf_append
      rw [hIssued.log, trace_zero]
      rfl
    rw [hStart]
    change Backed _ _ _ _ t.waitQueueList t.drive.irqs
    rw [hIssued.waitQueueList, hIssued.irqs]
    rw [(h.inv.idle rfl).1] at hBacked
    exact hBacked.start hValid.pos

theorem Holds.irq {t : State} (hStep : Disk.Step x.driver .irq t) :
    ∃ done active, Holds first ⟨t, x.data.performAll t.submitted (eventsOf x.driver t)⟩ done active := by
  obtain ⟨hFlight, hCall⟩ : x.driver.drive.InFlight ∧ diskHandler false (raiseIrq x.driver) = some t := by
    cases hStep with
    | irq hFlight hCall => exact ⟨hFlight, hCall⟩
  obtain ⟨r, u, rfl, hSame, hSubmitted, hNext⟩ := h.inv.irq hFlight false
  obtain rfl := Option.some.inj (hCall.symm.trans hSame)
  have hMem : r ∈ x.driver.submitted := by
    rw [h.inv.submitted]
    simp
  have hGet : t.submitted[r.serial]? = some r := by
    rw [hSubmitted]
    exact h.inv.submitted_get hMem
  obtain ⟨hMore, -, hInv, hLog⟩ | ⟨hLast, -, next, hInv, hLog⟩ := hNext
  · obtain ⟨hEvents, hIrqs, hQueue⟩ := irq_more h.inv h.logged hMore hCall
    refine ⟨done, some r, hInv, hLog rfl h.logged, ?_⟩
    rw [eventsOf_append hEvents]
    change Backed _ _ _ _ t.waitQueueList t.drive.irqs
    rw [hIrqs, hQueue]
    exact h.backed.more hMore
  · obtain ⟨v, hEvents, hQueue, ⟨rfl, hUsing, hEmpty⟩ | ⟨head, rest, hWaiting, hIssued⟩⟩ :=
      irq_last h.inv h.logged hLast hCall
    · have hNone : next = none := by
        have hMap := hInv.inUsing
        rw [hUsing] at hMap
        exact Option.map_eq_none_iff.mp hMap.symm
      subst hNone
      refine ⟨done ++ [r], none, hInv, hLog rfl h.logged, ?_⟩
      rw [eventsOf_append hEvents]
      change Backed _ _ _ _ t.waitQueueList t.drive.irqs
      rw [hQueue]
      exact h.backed.last hGet hLast _
    · obtain rfl := hInv.active_issued hIssued
      have hValid : Valid head := h.inv.valid head (by rw [h.inv.submitted, hWaiting]; simp)
      have hAll : eventsOf x.driver t
          = (irqEvents r x.driver.drive.irqs ++ [.finish r.serial]) ++ startEvents head := by
        apply eventsOf_append
        rw [hIssued.log, hEvents, trace_zero, List.append_assoc]
      refine ⟨done ++ [r], some head, hInv, hLog rfl h.logged, ?_⟩
      rw [hAll, Data.performAll_append]
      change Backed _ _ _ _ t.waitQueueList t.drive.irqs
      rw [hIssued.waitQueueList, hIssued.irqs]
      have hEnded := h.backed.last hGet hLast 0
      rw [hWaiting] at hEnded
      exact hEnded.start hValid.pos

theorem Holds.step (hStep : System.Step x a y) : ∃ done active, Holds first y done active := by
  cases hStep with
  | submit hStep hApart => exact ⟨_, _, h.submit hStep hApart⟩
  | irq hStep => exact h.irq hStep
  | resched hStep =>
    cases hStep with
    | resched => exact ⟨done, active, h.inv.of_sched _, ⟨h.logged.log, h.logged.blocks⟩, h.backed⟩
  | store hKeep =>
    refine ⟨done, active, h.inv, h.logged, h.backed.store (fun r hr => ?_) fun r hr => ?_⟩
    · exact (h.inv.busy r hr).1.le
    · exact hKeep r (h.inv.pending hr)

/-- Of the submitted requests the first ones have ended. -/
theorem Holds.done_eq : done = x.driver.submitted.take x.data.history.length := by
  rw [← h.backed.history.length_eq, h.inv.submitted, List.append_assoc, List.take_left]

theorem Holds.finish_iff {r : BlockBufferNode} (hr : r ∈ x.driver.submitted) :
    .finish r.serial ∈ x.driver.log ↔ r.serial < x.data.history.length := by
  have hGet := h.inv.submitted_get hr
  rw [← h.inv.mem_done_iff hr, h.done_eq, List.mem_take_iff_getElem]
  constructor
  · rintro ⟨i, hi, hEq⟩
    have hLt : i < x.driver.submitted.length := by omega
    have hMem : x.driver.submitted[i] ∈ x.driver.submitted := List.getElem_mem hLt
    have hSerial : (x.driver.submitted.map BlockBufferNode.serial)[i]? = some r.serial := by
      rw [List.getElem?_map, List.getElem?_eq_getElem hLt, hEq]
      rfl
    rw [h.inv.serials, List.getElem?_range hLt] at hSerial
    have hSame := Option.some.inj hSerial
    omega
  · intro hLt
    obtain ⟨hIn, hEq⟩ := List.getElem?_eq_some_iff.mp hGet
    exact ⟨r.serial, by omega, hEq⟩

end

theorem reach_holds (h : Reach (Initial first) System.Step x) : ∃ done active, Holds first x done active := by
  refine Reach.invariant (P := fun x => ∃ done active, Holds first x done active) ?_ ?_ h
  · exact fun x hx => ⟨[], none, initial_holds hx⟩
  · rintro x a y ⟨done, active, hx⟩ hStep
    exact hx.step hStep

end

section
variable {first : Nat → Sector} {x : System}

def writeNode : BlockBufferNode := ⟨1, ataWriteCmd, 7, 4096, .writeHandler, Scheduler.initTask, 0⟩
def readNode : BlockBufferNode := ⟨1, ataReadCmd, 7, 8192, .readHandler, Scheduler.initTask, 1⟩

def blankMedium (_ : Nat) : Sector := ⟨List.replicate 512 0, List.length_replicate⟩

/-- A sector is written and read back. -/
theorem two_requests (first : Nat → Sector) : ∃ x, Reach (Initial first) System.Step x ∧
    x.driver.submitted = [writeNode, readNode] ∧ .finish 1 ∈ x.driver.log := by
  have hCalls : ∃ t u v w,
      submit (diskInit bootSched restingDrive)
        (makeRequest (diskInit bootSched restingDrive) ataWriteCmd 7 1 4096) = some t ∧
      t.drive.InFlight ∧ diskHandler false (raiseIrq t) = some u ∧
      u.submitted = [writeNode] ∧ .finish 0 ∈ u.log ∧
      submit u (makeRequest u ataReadCmd 7 1 8192) = some v ∧ v.drive.InFlight ∧
      diskHandler false (raiseIrq v) = some w ∧ w.submitted = [writeNode, readNode] ∧ .finish 1 ∈ w.log :=
    ⟨_, _, _, _, rfl, ⟨_, rfl, by decide⟩, rfl, rfl, by decide, rfl, ⟨_, rfl, by decide⟩, rfl, rfl, by decide⟩
  obtain ⟨t, u, v, w, hWrite, hFlight, hIrq, hSubmitted, hEnded, hRead, hFlight', hIrq', hBoth, hFinish⟩ := hCalls
  let x : System := ⟨diskInit bootSched restingDrive, ⟨first, fun _ => 0, none, [], []⟩⟩
  have hInit : Initial first x :=
    ⟨⟨bootSched, restingDrive, by simp [Drive.InFlight, restingDrive], rfl⟩, rfl, rfl, rfl⟩
  have hFirst : ∀ q, Pending x.driver q → q.Apart (makeRequest x.driver ataWriteCmd 7 1 4096) :=
    fun q hq => absurd hq.1 List.not_mem_nil
  have hSecond : ∀ q, Pending u q → q.Apart (makeRequest u ataReadCmd 7 1 8192) := by
    rintro q ⟨hMem, hOpen⟩
    rw [hSubmitted, List.mem_singleton] at hMem
    subst hMem
    exact absurd hEnded hOpen
  obtain ⟨d₁, h₁⟩ : ∃ d, System.Step x (.driver (.submit ataWriteCmd 7 1 4096)) ⟨t, d⟩ :=
    ⟨_, .submit (.submit (Or.inr rfl) (by decide) (by decide) hWrite) hFirst⟩
  obtain ⟨d₂, h₂⟩ : ∃ d, System.Step ⟨t, d₁⟩ (.driver .irq) ⟨u, d⟩ := ⟨_, .irq (.irq hFlight hIrq)⟩
  obtain ⟨d₃, h₃⟩ : ∃ d, System.Step ⟨u, d₂⟩ (.driver (.submit ataReadCmd 7 1 8192)) ⟨v, d⟩ :=
    ⟨_, .submit (.submit (Or.inl rfl) (by decide) (by decide) hRead) hSecond⟩
  obtain ⟨d₄, h₄⟩ : ∃ d, System.Step ⟨v, d₃⟩ (.driver .irq) ⟨w, d⟩ := ⟨_, .irq (.irq hFlight' hIrq')⟩
  exact ⟨_, ((((Reach.start hInit).next h₁).next h₂).next h₃).next h₄, hBoth, hFinish⟩

/-- In every state of every run the requests that have ended are the first of those submitted. Each read or
wrote all of its sectors at once, in the order of submission; with no request in service the medium is
what they leave. -/
theorem requests_atomic (h : Reach (Initial first) System.Step x) :
    List.Forall₂ (Ended x.data.sent) (x.driver.submitted.take x.data.history.length) x.data.history ∧
      (∀ r ∈ x.driver.submitted, .finish r.serial ∈ x.driver.log ↔ r.serial < x.data.history.length) ∧
      BlockStore.Legal first x.data.history ∧
      (x.driver.inUsing = none → x.data.medium = BlockStore.after first x.data.history) := by
  obtain ⟨done, active, hx⟩ := reach_holds h
  refine ⟨?_, fun r hr => hx.finish_iff hr, hx.backed.legal, fun hIdle => hx.backed.idle ?_⟩
  · have hHistory := hx.backed.history
    rw [hx.done_eq] at hHistory
    exact hHistory
  · rw [hx.inv.inUsing] at hIdle
    exact Option.map_eq_none_iff.mp hIdle

theorem requests_atomic_two : ∃ x : System, 1 < x.data.history.length ∧
    List.Forall₂ (Ended x.data.sent) ([writeNode, readNode].take x.data.history.length) x.data.history ∧
    BlockStore.Legal blankMedium x.data.history := by
  obtain ⟨x, hReach, hSubmitted, hFinish⟩ := two_requests blankMedium
  obtain ⟨hHistory, hEnd, hLegal, -⟩ := requests_atomic hReach
  rw [hSubmitted] at hHistory hEnd
  exact ⟨x, (hEnd readNode (by simp)).mp hFinish, hHistory, hLegal⟩

/-- The entry of an ended request. -/
theorem Holds.entry {done : List BlockBufferNode} {active : Option BlockBufferNode}
    (hx : Holds first x done active)
    {r : BlockBufferNode} {i : Nat} (hr : x.driver.submitted[i]? = some r) (hi : i < x.data.history.length) :
    ∃ op, x.data.history[i]? = some op ∧ Ended x.data.sent r op := by
  have hDone : done[i]? = some r := by
    rw [hx.done_eq, List.getElem?_take_of_lt hi]
    exact hr
  obtain ⟨hIn, hEq⟩ := List.getElem?_eq_some_iff.mp hDone
  have hEnded := (List.forall₂_iff_get.mp hx.backed.history).2 i hIn hi
  refine ⟨x.data.history[i], List.getElem?_eq_getElem hi, ?_⟩
  rw [← hEq]
  exact hEnded

/-- A read returns what was in the buffer of the last write of these sectors when it was submitted. -/
theorem read_last_write (h : Reach (Initial first) System.Step x) {w r : BlockBufferNode} {i j : Nat}
    (hW : x.driver.submitted[i]? = some w) (hR : x.driver.submitted[j]? = some r) (hOrder : i < j)
    (hFinish : .finish r.serial ∈ x.driver.log) (hWrite : w.cmd = ataWriteCmd) (hRead : r.cmd ≠ ataWriteCmd)
    (hLBA : r.LBA % 2 ^ 48 = w.LBA % 2 ^ 48) (hCount : r.count = w.count)
    (hBetween : ∀ k q, i < k → k < j → x.driver.submitted[k]? = some q → q.cmd = ataWriteCmd →
      BlockStore.Apart (w.LBA % 2 ^ 48) w.count (q.LBA % 2 ^ 48) q.count) :
    ∃ data, x.data.sent[w.serial]? = some data ∧ x.data.history[j]? = some (.read (r.LBA % 2 ^ 48) data) := by
  obtain ⟨done, active, hx⟩ := reach_holds h
  have hMem : r ∈ x.driver.submitted := List.mem_of_getElem? hR
  have hSerial : r.serial = j := by
    have hMap : (x.driver.submitted.map BlockBufferNode.serial)[j]? = some r.serial := by simp [hR]
    have hLt := (List.getElem?_eq_some_iff.mp hR).1
    rw [hx.inv.serials, List.getElem?_range hLt] at hMap
    exact (Option.some.inj hMap).symm
  have hj : j < x.data.history.length := hSerial ▸ (hx.finish_iff hMem).mp hFinish
  obtain ⟨op, hOp, hEndedR⟩ := hx.entry hR hj
  obtain ⟨op', hOp', hEndedW⟩ := hx.entry hW (hOrder.trans hj)
  cases hEndedR with
  | write hCmd => exact absurd hCmd hRead
  | @read seen _ hSeen =>
    cases hEndedW with
    | read hCmd => exact absurd hWrite hCmd
    | @write data _ hSent hData =>
      refine ⟨data, hSent, ?_⟩
      rw [hLBA] at hOp ⊢
      have hSame : seen = data := by
        refine hx.backed.legal.read_of_last hOp' hOp hOrder (by rw [hSeen, hData, hCount]) ?_
        intro k op hFrom hTo hOp
        have hk : k < x.data.history.length := hTo.trans hj
        have hLt : k < x.driver.submitted.length := hTo.trans (List.getElem?_eq_some_iff.mp hR).1
        obtain ⟨op₁, hGet, hEnded⟩ := hx.entry (List.getElem?_eq_getElem hLt) hk
        obtain rfl := Option.some.inj (hGet.symm.trans hOp)
        cases hEnded with
        | read => exact trivial
        | write hCmd _ hLength =>
          rw [hData]
          change BlockStore.Apart _ _ _ _
          rw [hLength]
          exact hBetween k _ hFrom hTo (List.getElem?_eq_getElem hLt) hCmd
      rw [hOp, hSame]

theorem read_last_write_two : ∃ (x : System) (data : List Sector),
    x.data.sent[0]? = some data ∧ x.data.history[1]? = some (.read 7 data) := by
  obtain ⟨x, hReach, hSubmitted, hFinish⟩ := two_requests blankMedium
  have hBetween : ∀ k q, 0 < k → k < 1 → x.driver.submitted[k]? = some q → q.cmd = ataWriteCmd →
      BlockStore.Apart (writeNode.LBA % 2 ^ 48) writeNode.count (q.LBA % 2 ^ 48) q.count :=
    fun k q hFrom hTo => absurd hTo (by omega)
  have hW : x.driver.submitted[0]? = some writeNode := by rw [hSubmitted]; rfl
  have hR : x.driver.submitted[1]? = some readNode := by rw [hSubmitted]; rfl
  exact ⟨x, read_last_write hReach hW hR Nat.zero_lt_one hFinish rfl (by decide) rfl rfl hBetween⟩

end
end System

end KalinoteOS.Disk
