import KalinoteOS.Lib.Run
import KalinoteOS.Interrupt.IoApic
import Mathlib.Data.List.Induction

/-! # Registered interrupts

The descriptors of the vectors, the I/O APIC, and what happened on an interrupt, in order.
-/
namespace KalinoteOS.Interrupt
open Lib
set_option autoImplicit false

/-- A call of the handler at an address, and the writes to the two EOI registers. -/
inductive Event where
  | handler (address nr parameter regs : Word)
  | localEoi
  | ioapicEoi (irq : BitVec 32)
  deriving DecidableEq, Repr

structure Hardware where
  ioapic : IoApic
  events : List Event

/-- `hw_int_controller`; `arg` of `install` is the redirection entry it points to. -/
structure HwIntController where
  enable : Word → Hardware → Hardware
  disable : Word → Hardware → Hardware
  install : Word → Word → Hardware → Hardware
  uninstall : Word → Hardware → Hardware
  ack : Option (Word → Hardware → Hardware)

def Hardware.onIoapic (f : IoApic → IoApic) (h : Hardware) : Hardware := { h with ioapic := f h.ioapic }

def ioapicLevelAck (irq : Word) (h : Hardware) : Hardware :=
  { h with events := h.events ++ [.localEoi, .ioapicEoi (irq.setWidth 32)] }

def ioapicEdgeAck (_irq : Word) (h : Hardware) : Hardware :=
  { h with events := h.events ++ [.localEoi] }

def localApicEdgeLevelAck (_irq : Word) (h : Hardware) : Hardware :=
  { h with events := h.events ++ [.localEoi] }

/-- The ways the I/O APIC acknowledges. -/
inductive Ack where
  | edge
  | level
  deriving DecidableEq, Repr

def Ack.run : Ack → Word → Hardware → Hardware
  | .edge => ioapicEdgeAck
  | .level => ioapicLevelAck

/-- What every driver fills its `hw_int_controller` with. -/
def intController (ack : Ack) : HwIntController where
  enable irq := Hardware.onIoapic (ioapicEnable irq)
  disable irq := Hardware.onIoapic (ioapicDisable irq)
  install irq arg := Hardware.onIoapic (ioapicInstall irq arg)
  uninstall irq := Hardware.onIoapic (ioapicUninstall irq)
  ack := some ack.run

/-- `irq_desc_T`; `none` is the null pointer. -/
structure IrqDesc where
  controller : Option HwIntController
  irqName : Option String
  parameter : Word
  handler : Option Word
  flags : Word

/-- A descriptor of zero bytes. -/
def IrqDesc.null : IrqDesc where
  controller := none
  irqName := none
  parameter := 0
  handler := none
  flags := 0

def nrIrqs : Nat := 24

structure State where
  hw : Hardware
  /-- `interrupt_desc`. -/
  desc : Nat → IrqDesc

/-- The place of a vector in `interrupt_desc`. -/
def descIndex (irq : Word) : Nat := (irq - 32).toNat

namespace State

def descOf (s : State) (irq : Word) : IrqDesc := s.desc (descIndex irq)

def setDesc (s : State) (irq : Word) (p : IrqDesc) : State :=
  { s with desc := Function.update s.desc (descIndex irq) p }

/-- The redirection entry of a vector. -/
def entry (s : State) (irq : Word) : Word := s.hw.ioapic.entry irq

end State

def registerIrq (irq arg handler parameter : Word) (controller : HwIntController) (irqName : String)
    (s : State) : State :=
  let s := s.setDesc irq
    { controller := some controller
      irqName := some irqName
      parameter := parameter
      flags := 0
      handler := some handler }
  { s with hw := controller.enable irq (controller.install irq arg s.hw) }

/-- `unregister_irq`; `none` if it calls through a null pointer. -/
def unregisterIrq (irq : Word) (s : State) : Option State :=
  (s.descOf irq).controller.map fun controller =>
    let s := { s with hw := controller.uninstall irq (controller.disable irq s.hw) }
    s.setDesc irq { controller := none, irqName := none, parameter := 0, flags := 0, handler := none }

/-- The descriptors and the I/O APIC after `APIC_init`. -/
def apicInit (s : State) : State where
  hw := s.hw.onIoapic ioapicInit
  desc := fun i => if i < nrIrqs then .null else s.desc i

/-- What the function at an address does when it is called with `nr`, `parameter` and `regs`. -/
abbrev Functions := Word → Word → Word → Word → State → State

/-- The call `irq->handler(nr,irq->parameter,regs)`. -/
def callHandler (functions : Functions) (handler nr parameter regs : Word) (s : State) : State :=
  functions handler nr parameter regs { s with hw.events := s.hw.events ++ [.handler handler nr parameter regs] }

/-- `do_IRQ`; `regs` is the address of the frame. The controller is looked up when the handler has returned. -/
def doIRQ (functions : Functions) (regs nr : Word) (s : State) : State :=
  if nr &&& 0x80 = 0 then
    let s := match (s.descOf nr).handler with
      | some handler => callHandler functions handler nr (s.descOf nr).parameter regs s
      | none => s
    match (s.descOf nr).controller.bind HwIntController.ack with
    | some ack => { s with hw := ack nr s.hw }
    | none => s
  else if nr &&& 0x80 = 0x80 then { s with hw := localApicEdgeLevelAck nr s.hw }
  else s

/-! ## Runs -/

/-- What `register_irq` is called with. -/
structure Registration where
  arg : Word
  handler : Word
  parameter : Word
  ack : Ack
  irqName : String
  deriving DecidableEq, Repr

inductive Op where
  | register (irq : Word) (r : Registration)
  | unregister (irq : Word)
  deriving DecidableEq, Repr

def Op.irq : Op → Word
  | .register irq _ => irq
  | .unregister irq => irq

inductive Step (s : State) : Op → State → Prop
  | register {irq : Word} {r : Registration} (vector : IsVector irq) :
      Step s (.register irq r)
        (registerIrq irq r.arg r.handler r.parameter (intController r.ack) r.irqName s)
  | unregister {irq : Word} {s' : State} (vector : IsVector irq)
      (registered : (s.descOf irq).handler.isSome) (call : unregisterIrq irq s = some s') :
      Step s (.unregister irq) s'

/-- What a list of operations leaves registered for a vector. -/
def registration (v : Word) : List Op → Option Registration :=
  List.foldl (fun old op =>
    match op with
    | .register irq r => if irq = v then some r else old
    | .unregister irq => if irq = v then none else old) none

/-- The descriptor of a registered vector. -/
def Registration.desc (r : Registration) : IrqDesc where
  controller := some (intController r.ack)
  irqName := some r.irqName
  parameter := r.parameter
  handler := some r.handler
  flags := 0

/-- The EOI writes of one acknowledgement. -/
def Ack.events (v : Word) : Ack → List Event
  | .edge => [.localEoi]
  | .level => [.localEoi, .ioapicEoi (v.setWidth 32)]

/-! ## One operation -/

section
variable {s s' : State} {irq v : Word}

theorem descIndex_inj (hIrq : IsVector irq) (hV : IsVector v) (h : descIndex v = descIndex irq) :
    v = irq := by
  unfold IsVector at hIrq hV
  unfold descIndex at h
  bv_omega

theorem descOf_setDesc (p : IrqDesc) : (s.setDesc irq p).descOf irq = p := by
  simp [State.setDesc, State.descOf]

theorem descOf_setDesc_other (hIrq : IsVector irq) (hV : IsVector v) (hNe : v ≠ irq) (p : IrqDesc) :
    (s.setDesc irq p).descOf v = s.descOf v := by
  have hIndex : descIndex v ≠ descIndex irq := fun h => hNe (descIndex_inj hIrq hV h)
  simp [State.setDesc, State.descOf, hIndex]

theorem register_spec (irq : Word) (r : Registration) (s : State) :
    let s' := registerIrq irq r.arg r.handler r.parameter (intController r.ack) r.irqName s
    s'.entry irq = r.arg &&& ~~~0x10000 ∧ s'.descOf irq = r.desc := by
  constructor
  · exact entry_enable.trans (congrArg (· &&& ~~~0x10000) entry_install)
  · exact descOf_setDesc r.desc

/-- The calls through `p->controller` need one of the controllers of the drivers. -/
theorem unregister_spec {r : Registration} (hDesc : s.descOf irq = r.desc)
    (hCall : unregisterIrq irq s = some s') : s'.entry irq = 0x10000 ∧ s'.descOf irq = .null := by
  unfold unregisterIrq at hCall
  rw [hDesc] at hCall
  cases hCall
  exact ⟨entry_uninstall, descOf_setDesc _⟩

theorem register_other (hIrq : IsVector irq) (hV : IsVector v) (hNe : v ≠ irq) (r : Registration)
    (s : State) :
    let s' := registerIrq irq r.arg r.handler r.parameter (intController r.ack) r.irqName s
    s'.entry v = s.entry v ∧ s'.descOf v = s.descOf v := by
  constructor
  · exact (entry_enable_other hIrq hV hNe).trans (entry_write_other hIrq hV hNe)
  · exact descOf_setDesc_other hIrq hV hNe r.desc

theorem unregister_other {r : Registration} (hDesc : s.descOf irq = r.desc) (hIrq : IsVector irq)
    (hV : IsVector v) (hNe : v ≠ irq) (hCall : unregisterIrq irq s = some s') :
    s'.entry v = s.entry v ∧ s'.descOf v = s.descOf v := by
  unfold unregisterIrq at hCall
  rw [hDesc] at hCall
  cases hCall
  constructor
  · exact (entry_write_other hIrq hV hNe).trans (entry_disable_other hIrq hV hNe)
  · exact descOf_setDesc_other hIrq hV hNe _

end

/-! ## The invariant -/

/-- A vector is as its last registration, or the lack of one, left it. -/
structure Follows (ops : List Op) (s : State) (v : Word) : Prop where
  registered : ∀ r, registration v ops = some r →
    s.entry v = r.arg &&& ~~~0x10000 ∧ s.descOf v = r.desc
  unregistered : registration v ops = none → s.descOf v = .null
  masked : registration v ops = none → (v = 33 → ∃ op ∈ ops, op.irq = 33) → ¬ Unmasked (s.entry v)
  boot : v = 33 → (∀ op ∈ ops, op.irq ≠ 33) → s.entry v = 0x21

section
variable {s s₀ : State} {ops : List Op} {v : Word}

theorem registration_append (op : Op) : registration v (ops ++ [op]) =
    match op with
    | .register irq r => if irq = v then some r else registration v ops
    | .unregister irq => if irq = v then none else registration v ops := by
  unfold registration
  rw [List.foldl_append]
  rfl

theorem registration_other {op : Op} (hNe : v ≠ op.irq) :
    registration v (ops ++ [op]) = registration v ops := by
  rw [registration_append]
  cases op with
  | register irq r => exact if_neg hNe.symm
  | unregister irq => exact if_neg hNe.symm

theorem follows_init (hV : IsVector v) (s₀ : State) : Follows [] (apicInit s₀) v := by
  have hEntry : (apicInit s₀).entry v = if v = 33 then 0x21 else 0x10020 + (v - 32) :=
    entry_ioapicInit hV
  constructor
  · intro r hNone
    cases hNone
  · intro _
    refine if_pos ?_
    unfold IsVector at hV
    unfold descIndex nrIrqs
    bv_omega
  · intro _ hTouched
    apply masked_ioapicInit hV
    intro hEq
    obtain ⟨op, hMem, -⟩ := hTouched hEq
    cases hMem
  · intro hEq _
    rw [hEntry, if_pos hEq]

/-- A vector that the operation is not on stays as it is. -/
theorem Follows.other (h : Follows ops s v) {op : Op} {s' : State} (hNe : v ≠ op.irq)
    (hEntry : s'.entry v = s.entry v) (hDesc : s'.descOf v = s.descOf v) :
    Follows (ops ++ [op]) s' v := by
  constructor
  · intro r
    rw [registration_other hNe, hEntry, hDesc]
    exact h.registered r
  · rw [registration_other hNe, hDesc]
    exact h.unregistered
  · rw [registration_other hNe, hEntry]
    intro hNone hTouched
    refine h.masked hNone fun hEq => ?_
    obtain ⟨o, ho, hIrq⟩ := hTouched hEq
    obtain hOld | hLast := List.mem_append.mp ho
    · exact ⟨o, hOld, hIrq⟩
    · rw [List.mem_singleton.mp hLast] at hIrq
      exact absurd (hEq.trans hIrq.symm) hNe
  · rw [hEntry]
    exact fun hEq hUntouched => h.boot hEq fun o ho => hUntouched o (List.mem_append_left _ ho)

/-- A registered handler was registered by one of the operations. -/
theorem Follows.exists_registration (h : Follows ops s v) (hSome : (s.descOf v).handler.isSome) :
    ∃ r, registration v ops = some r := by
  cases hReg : registration v ops with
  | some r => exact ⟨r, rfl⟩
  | none =>
    rw [h.unregistered hReg] at hSome
    cases hSome

theorem follows_step {s' : State} {op : Op} (h : ∀ v, IsVector v → Follows ops s v)
    (hStep : Step s op s') : ∀ v, IsVector v → Follows (ops ++ [op]) s' v := by
  intro v hV
  cases hStep with
  | @register irq r vector =>
    by_cases hEq : v = irq
    · subst hEq
      have hReg : registration v (ops ++ [.register v r]) = some r := by
        rw [registration_append]
        exact if_pos rfl
      have hIn : Op.register v r ∈ ops ++ [.register v r] := List.mem_append_right _ (List.mem_singleton_self _)
      obtain ⟨hEntry, hDesc⟩ := register_spec v r s
      constructor
      · intro r' hr'
        cases hReg.symm.trans hr'
        exact ⟨hEntry, hDesc⟩
      · intro hNone
        cases hReg.symm.trans hNone
      · intro hNone
        cases hReg.symm.trans hNone
      · exact fun hEq hUntouched => absurd hEq (hUntouched _ hIn)
    · obtain ⟨hEntry, hDesc⟩ := register_other vector hV hEq r s
      exact (h v hV).other hEq hEntry hDesc
  | @unregister irq _ vector registered call =>
    obtain ⟨r, hOld⟩ := (h irq vector).exists_registration registered
    have hOldDesc := ((h irq vector).registered r hOld).2
    by_cases hEq : v = irq
    · subst hEq
      have hReg : registration v (ops ++ [.unregister v]) = none := by
        rw [registration_append]
        exact if_pos rfl
      have hIn : Op.unregister v ∈ ops ++ [.unregister v] := List.mem_append_right _ (List.mem_singleton_self _)
      obtain ⟨hEntry, hDesc⟩ := unregister_spec hOldDesc call
      constructor
      · intro r' hr'
        cases hReg.symm.trans hr'
      · exact fun _ => hDesc
      · intro _ _
        rw [hEntry]
        unfold Unmasked
        decide
      · exact fun hEq hUntouched => absurd hEq (hUntouched _ hIn)
    · obtain ⟨hEntry, hDesc⟩ := unregister_other hOldDesc vector hV hEq call
      exact (h v hV).other hEq hEntry hDesc

theorem follows_run (h : Run Step (apicInit s₀) ops s) : ∀ v, IsVector v → Follows ops s v := by
  generalize hInit : apicInit s₀ = t at h
  induction h with
  | nil =>
    rw [← hInit]
    exact fun v hV => follows_init hV s₀
  | snoc _ last ih => exact follows_step ih last

end

/-! ## Descriptors and entries -/

/-- What holds of the descriptors and the redirection entries after the operations `ops`. -/
structure Agrees (ops : List Op) (s : State) : Prop where
  /-- The boot code opens the entry of vector 33, before a handler is there. -/
  unmasked : ∀ v, IsVector v → (Unmasked (s.entry v) ↔
    (s.descOf v).handler.isSome ∨ (v = 33 ∧ ∀ op ∈ ops, op.irq ≠ 33))
  boot : (∀ op ∈ ops, op.irq ≠ 33) → s.entry 33 = 0x21 ∧ s.descOf 33 = .null
  entry : ∀ v r, IsVector v → registration v ops = some r →
    s.entry v = r.arg &&& ~~~0x10000 ∧ s.descOf v = r.desc
  unregistered : ∀ v, IsVector v → registration v ops = none → s.descOf v = .null
  others : ∀ op s', Step s op s' → ∀ v, IsVector v → v ≠ op.irq →
    s'.entry v = s.entry v ∧ s'.descOf v = s.descOf v
  /-- The handler is called first, and one acknowledgement comes last, if the handler leaves its vector
  registered. -/
  interrupt : ∀ functions v r regs, IsVector v → registration v ops = some r →
    let t := callHandler functions r.handler v r.parameter regs s
    t.descOf v = s.descOf v → doIRQ functions regs v s = { t with hw.events := t.hw.events ++ r.ack.events v }

section
variable {s : State} {ops : List Op} {v : Word}

theorem Follows.unmasked_iff (h : Follows ops s v) :
    Unmasked (s.entry v) ↔ (s.descOf v).handler.isSome ∨ (v = 33 ∧ ∀ op ∈ ops, op.irq ≠ 33) := by
  cases hReg : registration v ops with
  | some r =>
    obtain ⟨hEntry, hDesc⟩ := h.registered r hReg
    rw [hEntry, hDesc]
    exact ⟨fun _ => Or.inl rfl, fun _ => unmasked_enable⟩
  | none =>
    constructor
    · intro hUnmasked
      right
      by_contra hNot
      refine h.masked hReg (fun hEq => ?_) hUnmasked
      by_contra hNone
      push Not at hNone
      exact hNot ⟨hEq, hNone⟩
    · rintro (hSome | ⟨hEq, hUntouched⟩)
      · rw [h.unregistered hReg] at hSome
        cases hSome
      · rw [h.boot hEq hUntouched]
        unfold Unmasked
        decide

theorem registration_untouched (h : ∀ op ∈ ops, op.irq ≠ v) : registration v ops = none := by
  induction ops using List.reverseRecOn with
  | nil => rfl
  | append_singleton ops op ih =>
    have hLast := h op (List.mem_append_right _ (List.mem_singleton_self op))
    rw [registration_other hLast.symm]
    exact ih fun o ho => h o (List.mem_append_left _ ho)

theorem step_others {op : Op} {s' : State} (h : ∀ v, IsVector v → Follows ops s v)
    (hStep : Step s op s') (hV : IsVector v) (hNe : v ≠ op.irq) :
    s'.entry v = s.entry v ∧ s'.descOf v = s.descOf v := by
  cases hStep with
  | @register irq r vector => exact register_other vector hV hNe r s
  | @unregister irq _ vector registered call =>
    obtain ⟨r, hOld⟩ := (h irq vector).exists_registration registered
    exact unregister_other ((h irq vector).registered r hOld).2 vector hV hNe call

theorem doIRQ_registered {r : Registration} (hV : IsVector v) (hDesc : s.descOf v = r.desc)
    (functions : Functions)
    (regs : Word) (hKept : (callHandler functions r.handler v r.parameter regs s).descOf v = s.descOf v) :
    doIRQ functions regs v s =
      { callHandler functions r.handler v r.parameter regs s with
        hw.events := (callHandler functions r.handler v r.parameter regs s).hw.events ++ r.ack.events v } := by
  have hPlain : v &&& 0x80 = 0 := by
    have hNumber : v = BitVec.ofNat 64 v.toNat := by bv_omega
    have hAll : ∀ k < 56, (BitVec.ofNat 64 k : Word) &&& 0x80 = 0 := by decide
    rw [hNumber]
    exact hAll _ hV.2
  have hHandler : (s.descOf v).handler = some r.handler := by
    rw [hDesc]
    rfl
  have hParameter : (s.descOf v).parameter = r.parameter := by
    rw [hDesc]
    rfl
  unfold doIRQ
  rw [if_pos hPlain, hHandler, hParameter]
  dsimp only
  rw [hKept, hDesc]
  obtain ⟨arg, handler, parameter, ack, irqName⟩ := r
  cases ack with
  | edge => rfl
  | level => rfl

end

/-- After every sequence of registrations the descriptors and the redirection entries agree, as far
as the boot code lets them. -/
theorem irq_agrees (s₀ s : State) (ops : List Op) (h : Run Step (apicInit s₀) ops s) :
    Agrees ops s := by
  have hAll := follows_run h
  constructor
  · exact fun v hV => (hAll v hV).unmasked_iff
  · intro hUntouched
    have hBoot := hAll 33 (by decide)
    exact ⟨hBoot.boot rfl hUntouched, hBoot.unregistered (registration_untouched hUntouched)⟩
  · exact fun v r hV hReg => (hAll v hV).registered r hReg
  · exact fun v hV hReg => (hAll v hV).unregistered hReg
  · exact fun op s' hStep v hV hNe => step_others hAll hStep hV hNe
  · exact fun functions v r regs hV hReg => doIRQ_registered hV ((hAll v hV).registered r hReg).2 functions regs

/-- The keyboard is registered after boot: its entry is the one passed, with the mask bit cleared. -/
theorem irq_agrees_keyboard : ∃ s : State,
    registration 33 [.register 33 ⟨0x10021, 1, 2, .edge, "ps/2 keyboard"⟩] =
      some ⟨0x10021, 1, 2, .edge, "ps/2 keyboard"⟩ ∧
    Agrees [.register 33 ⟨0x10021, 1, 2, .edge, "ps/2 keyboard"⟩] s := by
  let s₀ : State := ⟨⟨⟨0, fun _ => 0⟩, []⟩, fun _ => .null⟩
  refine ⟨_, by decide, irq_agrees s₀ _ _ (Run.single (.register (by decide)))⟩

/-- Right after boot the entry of vector 33 is unmasked, and no handler is registered. -/
theorem unmasked_unregistered : ¬ ∀ (s₀ s : State) (ops : List Op), Run Step (apicInit s₀) ops s →
    ∀ v, IsVector v → (Unmasked (s.entry v) ↔ (s.descOf v).handler.isSome) := by
  intro h
  let s₀ : State := ⟨⟨⟨0, fun _ => 0⟩, []⟩, fun _ => .null⟩
  have hVector : IsVector 33 := by decide
  have hIff := h s₀ (apicInit s₀) [] (Run.nil _) 33 hVector
  have hBoot := follows_init hVector s₀
  have hEntry : (apicInit s₀).entry 33 = 0x21 := hBoot.boot rfl fun _ ho => by cases ho
  have hNull : (apicInit s₀).descOf 33 = .null := hBoot.unregistered rfl
  rw [hEntry, hNull] at hIff
  exact absurd (hIff.mp (by unfold Unmasked; decide)) (by decide)

end KalinoteOS.Interrupt
