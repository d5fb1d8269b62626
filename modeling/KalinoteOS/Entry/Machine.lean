import KalinoteOS.Lib.WordStack

/-! # The processor behind the entry paths

The registers, the data segments and the memory, and those instructions that `entry.S` and
`SAVE_ALL` use. What a C function does between its call and its return is a parameter.
-/
namespace KalinoteOS.Entry
open Lib
set_option autoImplicit false

inductive Reg where
  | rax | rbx | rcx | rdx | rsi | rdi | rbp | rsp
  | r8 | r9 | r10 | r11 | r12 | r13 | r14 | r15
  deriving DecidableEq, Repr

inductive Seg where
  | ds | es
  deriving DecidableEq, Repr

/-- `zf`, `df` and `interrupts` are the zero, direction and interrupt flags. -/
structure Machine where
  reg : Reg → Word
  seg : Seg → BitVec 16
  mem : Memory
  zf : Bool
  df : Bool
  interrupts : Bool

/-- The exceptions whose entry goes through `error_code`. -/
inductive Exception where
  | divideError | debug | int3 | overflow | bounds | undefinedOpcode | devNotAvailable
  | doubleFault | coprocessorSegmentOverrun | invalidTSS | segmentNotPresent | stackSegmentFault
  | generalProtection | pageFault | x87FPUError | alignmentCheck | machineCheck | simdException
  | virtualizationException
  deriving DecidableEq, Repr

/-- The labels whose addresses are used; `handler e` is the C function `do_…` of an exception. -/
inductive Symbol where
  | handler (e : Exception)
  | doNmi | doIRQ | doSoftirq | schedule
  | retFromIntr | nowTask | softirqStatus | systemCallTable
  deriving DecidableEq, Repr

/-- `imm` stands for an immediate operand, `sym` for `symbol(%rip)`; operands in the order of the
source, the destination last. -/
inductive Instr where
  | cld
  | sti
  | pushImm (v : Word)
  | push (r : Reg)
  | pop (r : Reg)
  | movImm (v : Word) (dst : Reg)
  | mov (src dst : Reg)
  | movFromSeg (s : Seg) (dst : Reg)
  | movToSeg (src : Reg) (s : Seg)
  | load (offset : Word) (base dst : Reg)
  | store (src : Reg) (offset : Word) (base : Reg)
  | loadSym (x : Symbol) (dst : Reg)
  | lea (x : Symbol) (dst : Reg)
  | xchgTop (r : Reg)
  | xchg (a b : Reg)
  | addImm (v : Word) (dst : Reg)
  | subImm (v : Word) (dst : Reg)
  | xor (src dst : Reg)
  | testImm (v : Word) (r : Reg)
  | testSym (x : Symbol) (r : Reg)
  | cmpImm (v : Word) (r : Reg)
  deriving DecidableEq, Repr

/-- The operand of `callq`; `table x index` is `*(x,index,8)`, the word at `x + 8 * index`. -/
inductive Target where
  | sym (x : Symbol)
  | reg (r : Reg)
  | table (base index : Reg)
  deriving DecidableEq, Repr

/-- A path through the code. A jump forward is followed by the code of its label, so that `jmp`
needs no constructor of its own. -/
inductive Code where
  | block (is : List Instr) (next : Code)
  | call (target : Target) (next : Code)
  /-- `jmp` to a C function, which returns to what the stack has on top: the label `ret` with
  the code `next`. -/
  | tailCall (target ret : Symbol) (next : Code)
  | jnz (taken next : Code)
  | iretq
  | sysexit

/-- The link addresses, what a called function does up to its return, and the address that
`callq` pushes. -/
structure Env where
  address : Symbol → Word
  function : Word → Machine → Machine
  returnAddress : Word

namespace Machine

def set (m : Machine) (r : Reg) (v : Word) : Machine :=
  { m with reg := Function.update m.reg r v }

def setSeg (m : Machine) (s : Seg) (v : BitVec 16) : Machine :=
  { m with seg := Function.update m.seg s v }

def push (m : Machine) (v : Word) : Machine :=
  { m with
    reg := Function.update m.reg .rsp (m.reg .rsp - 8)
    mem := m.mem.store (m.reg .rsp - 8) v }

/-- `pop`: the word on top goes to `r`. -/
def pop (m : Machine) (r : Reg) : Machine :=
  ({ m with reg := Function.update m.reg .rsp (m.reg .rsp + 8) } : Machine).set r
    (m.mem.load (m.reg .rsp))

/-- The `n` words on top of the stack. -/
def stack (m : Machine) (n : Nat) : List Word := m.mem.words (m.reg .rsp) n

end Machine

def step (env : Env) (m : Machine) : Instr → Machine
  | .cld => { m with df := false }
  | .sti => { m with interrupts := true }
  | .pushImm v => m.push v
  | .push r => m.push (m.reg r)
  | .pop r => m.pop r
  | .movImm v dst => m.set dst v
  | .mov src dst => m.set dst (m.reg src)
  | .movFromSeg s dst => m.set dst ((m.seg s).setWidth 64)
  | .movToSeg src s => m.setSeg s ((m.reg src).setWidth 16)
  | .load offset base dst => m.set dst (m.mem.load (m.reg base + offset))
  | .store src offset base => { m with mem := m.mem.store (m.reg base + offset) (m.reg src) }
  | .loadSym x dst => m.set dst (m.mem.load (env.address x))
  | .lea x dst => m.set dst (env.address x)
  | .xchgTop r =>
    { m.set r (m.mem.load (m.reg .rsp)) with mem := m.mem.store (m.reg .rsp) (m.reg r) }
  | .xchg a b => (m.set a (m.reg b)).set b (m.reg a)
  | .addImm v dst => { m.set dst (m.reg dst + v) with zf := m.reg dst + v == 0 }
  | .subImm v dst => { m.set dst (m.reg dst - v) with zf := m.reg dst - v == 0 }
  | .xor src dst => { m.set dst (m.reg dst ^^^ m.reg src) with zf := m.reg dst ^^^ m.reg src == 0 }
  | .testImm v r => { m with zf := m.reg r &&& v == 0 }
  | .testSym x r => { m with zf := m.reg r &&& m.mem.load (env.address x) == 0 }
  | .cmpImm v r => { m with zf := m.reg r - v == 0 }

def run (env : Env) : List Instr → Machine → Machine
  | [], m => m
  | i :: is, m => run env is (step env m i)

/-- A call: where to, the machine at the first instruction of the function, and after its return. -/
structure Call where
  target : Word
  before : Machine
  after : Machine

def Target.address (env : Env) (m : Machine) : Target → Word
  | .sym x => env.address x
  | .reg r => m.reg r
  | .table base index => m.mem.load (m.reg base + m.reg index * 8)

/-- The call of the function at `target` by a `callq`. -/
def Env.call (env : Env) (m : Machine) (target : Word) : Call :=
  ⟨target, m.push env.returnAddress, env.function target (m.push env.returnAddress)⟩

/-- The calls on the path, and the machine at the `iretq` or `sysexit` it ends in; `none` for a
return to somewhere else than the label that was meant. -/
def exec (env : Env) : Code → Machine → Option (List Call × Machine)
  | .block is next, m => exec env next (run env is m)
  | .call target next, m =>
    let call := env.call m (target.address env m)
    (exec env next call.after).map fun r => (call :: r.1, r.2)
  | .tailCall target ret next, m =>
    let call : Call := ⟨env.address target, m, env.function (env.address target) m⟩
    if m.mem.load (m.reg .rsp) = env.address ret then
      (exec env next call.after).map fun r => (call :: r.1, r.2)
    else none
  | .jnz taken next, m => if m.zf then exec env next m else exec env taken m
  | .iretq, m => some ([], m)
  | .sysexit, m => some ([], m)

end KalinoteOS.Entry
