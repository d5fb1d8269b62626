import KalinoteOS.Entry.Frame
import KalinoteOS.Strings.Blocks

/-! # Tasks on one processor

`switch_to` with `__switch_to`, `kernel_thread` with the stack that `do_fork` prepares, and
`kernel_thread_func`, over the machine of the entry paths. A task is the address of its `task_union`: the
structures at its lower end, the stack from its upper end down.
-/
namespace KalinoteOS.Task
open Lib Entry Strings
set_option autoImplicit false

def stackSize : Word := 32768
/-- `sizeof(struct pt_regs)`. -/
def ptRegsSize : Word := 192
/-- Where `struct thread_struct` ends, which `do_fork` puts behind `struct task_struct`. -/
def structSize : Nat := 0xa0

def kernelCs : Word := 0x08
def kernelDs : Word := 0x10
def pfKthread : Word := 1

/-- `get_current`. -/
def getCurrent (rsp : Word) : Word := rsp &&& ~~~32767

/-- `struct thread_struct`. -/
structure Thread where
  rsp0 : Word
  rip : Word
  rsp : Word
  fs : Word
  gs : Word
  deriving DecidableEq, Repr

/-- The stack pointers of `struct tss_struct`. -/
structure Tss where
  rsp0 : Word
  rsp1 : Word
  rsp2 : Word
  ist1 : Word
  ist2 : Word
  ist3 : Word
  ist4 : Word
  ist5 : Word
  ist6 : Word
  ist7 : Word
  deriving DecidableEq, Repr

/-- The addresses of the code that `ret` and `callq` go to: the label 1 of `switch_to`, `kernel_thread_func`
and the instruction behind its `callq *%rbx`. -/
structure Link where
  afterSwitch : Word
  kernelThreadFunc : Word
  retSystemCall : Word
  threadReturn : Word

/-- The processor, the threads' structures by the address of the task, and the global variables; `rip` is where
the task goes on. -/
structure Cpu where
  machine : Machine
  rip : Word
  fs : BitVec 16
  gs : BitVec 16
  thread : Word → Thread
  initTss : Tss
  tss64Table : Tss
  sysenterEsp : Word
  nowTask : Word

namespace Cpu

def reg (s : Cpu) (r : Reg) : Word := s.machine.reg r

def mem (s : Cpu) : Memory := s.machine.mem

def withMachine (s : Cpu) (m : Machine) : Cpu := { s with machine := m }

def withMem (s : Cpu) (m : Memory) : Cpu := s.withMachine { s.machine with mem := m }

def setThread (s : Cpu) (t : Word) (f : Thread → Thread) : Cpu :=
  { s with thread := Function.update s.thread t (f (s.thread t)) }

end Cpu

/-! ## Making a thread -/

/-- `struct pt_regs regs` of `kernel_thread` at the address `regs`. -/
def fillRegs (link : Link) (m : Memory) (regs fn arg : Word) : Memory :=
  let m := (memset m regs 0 ptRegsSize).1
  let m := m.store (regs + 0x40) fn
  let m := m.store (regs + 0x50) arg
  let m := m.store (regs + 0x70) kernelDs
  let m := m.store (regs + 0x78) kernelDs
  let m := m.store (regs + 0xa0) kernelCs
  let m := m.store (regs + 0xb8) kernelDs
  let m := m.store (regs + 0xa8) ((1 : Word) <<< 9)
  m.store (regs + 0x98) link.kernelThreadFunc

/-- What `do_fork` does to the new task's thread and stack. `flags` are those of the caller, which `*tsk =
*current` copies. -/
def doFork (link : Link) (flags regs tsk : Word) (s : Cpu) : Cpu :=
  let mem := (memcpy s.mem regs (tsk + stackSize - ptRegsSize) ptRegsSize).1
  let thd : Thread :=
    { rsp0 := tsk + stackSize
      rip := mem.load (regs + 0x98)
      rsp := tsk + stackSize - ptRegsSize
      fs := kernelDs
      gs := kernelDs }
  let s := s.withMem mem
  if flags &&& pfKthread = 0 then
    let s := s.withMem (s.mem.store (regs + 0x98) link.retSystemCall)
    s.setThread tsk fun _ => { thd with rip := link.retSystemCall }
  else s.setThread tsk fun _ => thd

/-- `regs` is where the compiler has put the structure; `do_fork` returns 1. -/
def kernelThread (link : Link) (flags regs tsk fn arg : Word) (s : Cpu) : Cpu :=
  let s := s.withMem (fillRegs link s.mem regs fn arg)
  let s := doFork link flags regs tsk s
  s.withMachine (s.machine.set .rax 1)

/-! ## Switching -/

/-- `set_tss64` with the members of `init_tss[0]`. -/
def setTss64 (rsp0 rsp1 rsp2 ist1 ist2 ist3 ist4 ist5 ist6 ist7 : Word) : Tss :=
  ⟨rsp0, rsp1, rsp2, ist1, ist2, ist3, ist4, ist5, ist6, ist7⟩

/-- `body` is what the compiled function does to the machine besides: its own use of registers and stack, and
the two lines that it prints. -/
def switchTo' (body : Machine → Machine) (prev next : Word) (s : Cpu) : Cpu :=
  let s := { s with initTss := { s.initTss with rsp0 := (s.thread next).rsp0 } }
  let tss := s.initTss
  let s := { s with
    tss64Table := setTss64 tss.rsp0 tss.rsp1 tss.rsp2 tss.ist1 tss.ist2 tss.ist3 tss.ist4 tss.ist5 tss.ist6
      tss.ist7 }
  let s := s.setThread prev fun thread => { thread with fs := s.fs.setWidth 64 }
  let s := s.setThread prev fun thread => { thread with gs := s.gs.setWidth 64 }
  let s := { s with fs := (s.thread next).fs.setWidth 16 }
  let s := { s with gs := (s.thread next).gs.setWidth 16 }
  let s := { s with sysenterEsp := (s.thread next).rsp0 }
  let s := { s with nowTask := next }
  s.withMachine (body s.machine)

/-- The macro, up to the `ret` of `__switch_to` into `next`. The operands are in `rdi` and `rsi`. -/
def switchAway (link : Link) (env : Env) (body : Machine → Machine) (prev next : Word) (s : Cpu) : Cpu :=
  let m := (s.machine.set .rdi prev).set .rsi next
  let s := s.withMachine (run env [.push .rbp, .push .rax] { m with interrupts := false })
  let s := s.setThread prev fun thread => { thread with rsp := s.reg .rsp }
  let s := s.withMachine (s.machine.set .rsp (s.thread next).rsp)
  let s := s.withMachine (s.machine.set .rax link.afterSwitch)
  let s := s.setThread prev fun thread => { thread with rip := s.reg .rax }
  let s := s.withMachine (s.machine.push (s.thread next).rip)
  let s := switchTo' body prev next s
  let rsp := s.reg .rsp
  { s.withMachine (s.machine.set .rsp (rsp + 8)) with rip := s.mem.load rsp }

def kernelThreadFunc : List Instr :=
  [.pop .r15, .pop .r14, .pop .r13, .pop .r12, .pop .r11, .pop .r10, .pop .r9, .pop .r8,
    .pop .rbx, .pop .rcx, .pop .rdx, .pop .rsi, .pop .rdi, .pop .rbp,
    .pop .rax, .movToSeg .rax .ds, .pop .rax, .movToSeg .rax .es, .pop .rax,
    .addImm 0x38 .rsp, .mov .rdx .rdi]

/-- The code that `ret` has gone to, until the task is in its own again: behind `switch_to`, or in the function
of the thread, which `callq *%rbx` enters. -/
def arrive (link : Link) (env : Env) (s : Cpu) : Option Cpu :=
  if s.rip = link.afterSwitch then
    some (s.withMachine { run env [.pop .rax, .pop .rbp] s.machine with interrupts := true })
  else if s.rip = link.kernelThreadFunc then
    let m := run env kernelThreadFunc s.machine
    some { s.withMachine (m.push link.threadReturn) with rip := m.reg .rbx }
  else none

/-- `switch_to(now_task[0], next)`, as `schedule` has it. -/
def switchTo (link : Link) (env : Env) (body : Machine → Machine) (next : Word) (s : Cpu) : Option Cpu :=
  arrive link env (switchAway link env body s.nowTask next s)

end KalinoteOS.Task
