import KalinoteOS.Idt.Gate
import KalinoteOS.Task.Run

/-! # The interrupt descriptor table

`setup_IDT`, `sys_vector_init` and `APIC_init` fill the table, and `set_tss64` the segment that the gates take
their stacks from.
-/
namespace KalinoteOS.Idt
open Lib Memory Entry KalinoteOS.Task
set_option autoImplicit false

/-- `IDT_Table`. -/
abbrev IdtTable := Nat → GateStruct

def setIntrGate (n : Nat) (ist : BitVec 8) (addr : Word) (idt : IdtTable) : IdtTable :=
  Function.update idt n (setGate 0x8E ist addr)
def setTrapGate (n : Nat) (ist : BitVec 8) (addr : Word) (idt : IdtTable) : IdtTable :=
  Function.update idt n (setGate 0x8F ist addr)
def setSystemGate (n : Nat) (ist : BitVec 8) (addr : Word) (idt : IdtTable) : IdtTable :=
  Function.update idt n (setGate 0xEF ist addr)

/-- `address` is where the code of a path lies. -/
def sysVectorInit (address : Path → Word) (idt : IdtTable) : IdtTable :=
  let idt := setTrapGate 0 1 (address (.exception .divideError)) idt
  let idt := setTrapGate 1 1 (address (.exception .debug)) idt
  let idt := setIntrGate 2 1 (address .nmi) idt
  let idt := setSystemGate 3 1 (address (.exception .int3)) idt
  let idt := setSystemGate 4 1 (address (.exception .overflow)) idt
  let idt := setSystemGate 5 1 (address (.exception .bounds)) idt
  let idt := setTrapGate 6 1 (address (.exception .undefinedOpcode)) idt
  let idt := setTrapGate 7 1 (address (.exception .devNotAvailable)) idt
  let idt := setTrapGate 8 1 (address (.exception .doubleFault)) idt
  let idt := setTrapGate 9 1 (address (.exception .coprocessorSegmentOverrun)) idt
  let idt := setTrapGate 10 1 (address (.exception .invalidTSS)) idt
  let idt := setTrapGate 11 1 (address (.exception .segmentNotPresent)) idt
  let idt := setTrapGate 12 1 (address (.exception .stackSegmentFault)) idt
  let idt := setTrapGate 13 1 (address (.exception .generalProtection)) idt
  let idt := setTrapGate 14 1 (address (.exception .pageFault)) idt
  let idt := setTrapGate 16 1 (address (.exception .x87FPUError)) idt
  let idt := setTrapGate 17 1 (address (.exception .alignmentCheck)) idt
  let idt := setTrapGate 18 1 (address (.exception .machineCheck)) idt
  let idt := setTrapGate 19 1 (address (.exception .simdException)) idt
  setTrapGate 20 1 (address (.exception .virtualizationException)) idt

/-- The loop of `APIC_init` over `interrupt`. -/
def apicGates (address : Path → Word) (idt : IdtTable) : IdtTable :=
  (List.range 24).foldl (fun idt i => setIntrGate (32 + i) 2 (address (.irq (BitVec.ofNat 64 (0x20 + i)))) idt)
    idt

/-- The table when the kernel has come up. -/
def bootIdt (ignoreInt : Word) (address : Path → Word) : IdtTable :=
  apicGates address (sysVectorInit address fun _ => setupGate ignoreInt)

/-- `set_tss64`. -/
def setTss64At (m : Memory) (table rsp0 rsp1 rsp2 ist1 ist2 ist3 ist4 ist5 ist6 ist7 : Word) : Memory :=
  let m := m.store (table + 4) rsp0
  let m := m.store (table + 12) rsp1
  let m := m.store (table + 20) rsp2
  let m := m.store (table + 36) ist1
  let m := m.store (table + 44) ist2
  let m := m.store (table + 52) ist3
  let m := m.store (table + 60) ist4
  let m := m.store (table + 68) ist5
  let m := m.store (table + 76) ist6
  m.store (table + 84) ist7

/-- The stack pointers where the processor looks for them. -/
def tssAt (m : Memory) (table : Word) : Tss :=
  ⟨m.load (table + 0x04), m.load (table + 0x0c), m.load (table + 0x14), m.load (table + 0x24),
    m.load (table + 0x2c),
    m.load (table + 0x34), m.load (table + 0x3c), m.load (table + 0x44), m.load (table + 0x4c),
      m.load (table + 0x54)⟩

/-! ## The vectors -/

/-- One call of `set_intr_gate`, `set_trap_gate` or `set_system_gate`. -/
structure GateEntry where
  nr : Nat
  path : Path
  attr : BitVec 8
  ist : BitVec 8

/-- What `sys_vector_init` and `APIC_init` set. -/
def vectors : List GateEntry :=
  [⟨0, .exception .divideError, 0x8F, 1⟩, ⟨1, .exception .debug, 0x8F, 1⟩, ⟨2, .nmi, 0x8E, 1⟩,
    ⟨3, .exception .int3, 0xEF, 1⟩, ⟨4, .exception .overflow, 0xEF, 1⟩, ⟨5, .exception .bounds, 0xEF, 1⟩,
    ⟨6, .exception .undefinedOpcode, 0x8F, 1⟩, ⟨7, .exception .devNotAvailable, 0x8F, 1⟩,
    ⟨8, .exception .doubleFault, 0x8F, 1⟩, ⟨9, .exception .coprocessorSegmentOverrun, 0x8F, 1⟩,
    ⟨10, .exception .invalidTSS, 0x8F, 1⟩, ⟨11, .exception .segmentNotPresent, 0x8F, 1⟩,
    ⟨12, .exception .stackSegmentFault, 0x8F, 1⟩, ⟨13, .exception .generalProtection, 0x8F, 1⟩,
    ⟨14, .exception .pageFault, 0x8F, 1⟩, ⟨16, .exception .x87FPUError, 0x8F, 1⟩,
    ⟨17, .exception .alignmentCheck, 0x8F, 1⟩, ⟨18, .exception .machineCheck, 0x8F, 1⟩,
    ⟨19, .exception .simdException, 0x8F, 1⟩, ⟨20, .exception .virtualizationException, 0x8F, 1⟩] ++
  (List.range 24).map fun i => ⟨32 + i, .irq (BitVec.ofNat 64 (0x20 + i)), 0x8E, 2⟩

section
variable {α β : Type} (key : α → Nat) (value : α → β) {l : List α} {f : Nat → β}

theorem foldl_update_rest {n : Nat} (h : ∀ x ∈ l, key x ≠ n) :
    l.foldl (fun f x => Function.update f (key x) (value x)) f n = f n := by
  induction l generalizing f with
  | nil => rfl
  | cons x l ih =>
    refine (ih fun y hy => h y (List.mem_cons_of_mem _ hy)).trans ?_
    exact Function.update_of_ne (h x List.mem_cons_self).symm _ _

/-- With no key twice, each update is there at the end. -/
theorem foldl_update_mem (hNodup : (l.map key).Nodup) {x : α} (hx : x ∈ l) :
    l.foldl (fun f x => Function.update f (key x) (value x)) f (key x) = value x := by
  induction l generalizing f with
  | nil => exact absurd hx List.not_mem_nil
  | cons y l ih =>
    obtain ⟨hNotIn, hNodup⟩ := List.nodup_cons.mp hNodup
    rw [List.foldl_cons]
    obtain rfl | hx := List.mem_cons.mp hx
    · have hRest : ∀ z ∈ l, key z ≠ key x := by
        intro z hz hEq
        exact hNotIn (hEq ▸ List.mem_map_of_mem hz)
      rw [foldl_update_rest key value hRest, Function.update_self]
    · exact ih hNodup hx

end

section

def GateEntry.gate (address : Path → Word) (v : GateEntry) : GateStruct := setGate v.attr v.ist (address v.path)

theorem bootIdt_eq (ignoreInt : Word) (address : Path → Word) : bootIdt ignoreInt address =
    vectors.foldl (fun idt v => Function.update idt v.nr (v.gate address)) fun _ => setupGate ignoreInt := by
  unfold vectors
  rw [List.foldl_append, List.foldl_map]
  rfl

theorem vectors_nodup : (vectors.map GateEntry.nr).Nodup := by decide

theorem bootIdt_vector (ignoreInt : Word) (address : Path → Word) {v : GateEntry} (hv : v ∈ vectors) :
    (bootIdt ignoreInt address v.nr).gate = gateOf v.attr v.ist (address v.path) := by
  rw [bootIdt_eq, foldl_update_mem GateEntry.nr (GateEntry.gate address) vectors_nodup hv]
  exact gate_setGate _ _ _

theorem bootIdt_rest (ignoreInt : Word) (address : Path → Word) {n : Nat} (hn : n ∉ vectors.map GateEntry.nr) :
    (bootIdt ignoreInt address n).gate = gateOf 0x8E 0 ignoreInt := by
  have hNot : ∀ v ∈ vectors, v.nr ≠ n := by
    rintro v hv rfl
    exact hn (List.mem_map_of_mem hv)
  rw [bootIdt_eq, foldl_update_rest GateEntry.nr (GateEntry.gate address) hNot, setupGate_eq, gate_setGate]

end

/-! ## The stacks of the gates -/

section
variable {m : Memory} {table rsp0 rsp1 rsp2 ist1 ist2 ist3 ist4 ist5 ist6 ist7 : Word}

/-- The members with their numbers, counted from `rsp0` on. -/
def tssFields (rsp0 rsp1 rsp2 ist1 ist2 ist3 ist4 ist5 ist6 ist7 : Word) : List (Nat × Word) :=
  [(0, rsp0), (1, rsp1), (2, rsp2), (4, ist1), (5, ist2), (6, ist3), (7, ist4), (8, ist5), (9, ist6), (10, ist7)]

theorem tssFields_lt : ∀ p ∈ tssFields rsp0 rsp1 rsp2 ist1 ist2 ist3 ist4 ist5 ist6 ist7, p.1 < 11 := by
  simp [tssFields]

theorem setTss64At_eq : setTss64At m table rsp0 rsp1 rsp2 ist1 ist2 ist3 ist4 ist5 ist6 ist7 =
    stores (table + 4) (tssFields rsp0 rsp1 rsp2 ist1 ist2 ist3 ist4 ist5 ist6 ist7) m := by
  have hSplit : ∀ k : Nat, table + 4 + BitVec.ofNat 64 (8 * k) = table + BitVec.ofNat 64 (4 + 8 * k) := by
    intro k
    rw [BitVec.ofNat_add, ← BitVec.add_assoc]
    rfl
  unfold stores tssFields setTss64At
  simp only [List.foldl_cons, List.foldl_nil, hSplit]
  rfl

/-- The processor finds what `set_tss64` has put there, and nothing else is written. -/
theorem tssAt_setTss64At :
    tssAt (setTss64At m table rsp0 rsp1 rsp2 ist1 ist2 ist3 ist4 ist5 ist6 ist7) table =
        setTss64 rsp0 rsp1 rsp2 ist1 ist2 ist3 ist4 ist5 ist6 ist7 ∧
      ∀ x, 88 ≤ (x - (table + 4)).toNat →
        setTss64At m table rsp0 rsp1 rsp2 ist1 ist2 ist3 ist4 ist5 ist6 ist7 x = m x := by
  rw [setTss64At_eq]
  obtain ⟨l, hl⟩ : ∃ l, l = tssFields rsp0 rsp1 rsp2 ist1 ist2 ist3 ist4 ist5 ist6 ist7 := ⟨_, rfl⟩
  have hLt : ∀ p ∈ l, p.1 < 11 := by
    rw [hl]
    exact tssFields_lt
  rw [← hl]
  refine ⟨?_, fun x hx => stores_outside hLt hx⟩
  obtain ⟨ws, hws⟩ : ∃ ws, ws = m.words (table + 4) 11 := ⟨_, rfl⟩
  have hLength : ws.length = 11 := by
    rw [hws]
    rfl
  have hWords : (stores (table + 4) l m).words (table + 4) 11 = l.foldl (fun ws p => ws.set p.1 p.2) ws := by
    rw [hws]
    exact stores_words (by decide) hLt
  have hLoad : ∀ (i : Nat) (v : Word), i < 11 → (l.foldl (fun ws p => ws.set p.1 p.2) ws)[i]? = some v →
      (stores (table + 4) l m).load (table + 4 + BitVec.ofNat 64 (8 * i)) = v := by
    intro i v hi hAt
    rw [← hWords, getElem?_words hi] at hAt
    exact Option.some.inj hAt
  have hSplit : ∀ k : Nat, table + 4 + BitVec.ofNat 64 (8 * k) = table + BitVec.ofNat 64 (4 + 8 * k) := by
    intro k
    rw [BitVec.ofNat_add, ← BitVec.add_assoc]
    rfl
  simp only [hSplit] at hLoad
  have hGet : ∀ p ∈ l, (l.foldl (fun ws p => ws.set p.1 p.2) ws)[p.1]? = some p.2 := by
    rw [hl]
    simp [tssFields, hLength]
  have hField : ∀ (i : Nat) (v : Word), (i, v) ∈ l →
    (stores (table + 4) l m).load (table + BitVec.ofNat 64 (4 + 8 * i)) = v :=
    fun i v h => hLoad i v (hLt _ h) (hGet _ h)
  rw [hl] at hField ⊢
  refine Tss.mk.injEq .. |>.mpr ⟨hField 0 _ ?_, hField 1 _ ?_, hField 2 _ ?_, hField 4 _ ?_, hField 5 _ ?_,
    hField 6 _ ?_, hField 7 _ ?_, hField 8 _ ?_, hField 9 _ ?_, hField 10 _ ?_⟩
  all_goals simp [tssFields]

/-- The processor reads from the tables what was meant: each vector its own code with its attributes and its
stack, all others `ignore_int`, the segment with its whole address, and the stack pointers. -/
theorem processor_reads_tables (ignoreInt : Word) (address : Path → Word) :
    (∀ v ∈ vectors, (bootIdt ignoreInt address v.nr).gate = gateOf v.attr v.ist (address v.path)) ∧
      (∀ n, n ∉ vectors.map GateEntry.nr → (bootIdt ignoreInt address n).gate = gateOf 0x8E 0 ignoreInt) ∧
      (∀ addr, setupTss64 addr = setTssDescriptor addr ∧ (setTssDescriptor addr).tssDescriptor =
        ⟨addr, 103, 9, true⟩) ∧
      ∀ m table rsp0 rsp1 rsp2 ist1 ist2 ist3 ist4 ist5 ist6 ist7,
        tssAt (setTss64At m table rsp0 rsp1 rsp2 ist1 ist2 ist3 ist4 ist5 ist6 ist7) table =
          setTss64 rsp0 rsp1 rsp2 ist1 ist2 ist3 ist4 ist5 ist6 ist7 ∧
        ∀ x, 88 ≤ (x - (table + 4)).toNat →
          setTss64At m table rsp0 rsp1 rsp2 ist1 ist2 ist3 ist4 ist5 ist6 ist7 x = m x :=
  ⟨fun _ hv => bootIdt_vector ignoreInt address hv, fun _ hn => bootIdt_rest ignoreInt address hn, fun addr =>
    ⟨setupTss64_eq addr, tssDescriptor_set addr⟩,
    fun _ _ _ _ _ _ _ _ _ _ _ _ => tssAt_setTss64At⟩

end
end KalinoteOS.Idt
