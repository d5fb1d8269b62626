import KalinoteOS.Entry.Machine

/-! # The entry paths

Each path is written out as the source has it: `SAVE_ALL` in the stubs of `Build_IRQ`, the pushes of
`error_code`, of `nmi` and of `system_call`, and the two sequences of pops.
-/
namespace KalinoteOS.Entry
open Lib
set_option autoImplicit false

/-- `RAX`, `FUNC` and `ERRCODE`: places in the saved frame. -/
def offsetRAX : Word := 0x80
def offsetFUNC : Word := 0x88
def offsetERRCODE : Word := 0x90

/-- `TSK_FLAGS` and `TSK_PREEMPT` in the task. -/
def tskFlags : Word := 0x08
def tskPreempt : Word := 0x10

def restoreAll : Code :=
  .block
    [.pop .r15, .pop .r14, .pop .r13, .pop .r12, .pop .r11, .pop .r10, .pop .r9, .pop .r8,
      .pop .rbx, .pop .rcx, .pop .rdx, .pop .rsi, .pop .rdi, .pop .rbp,
      .pop .rax, .movToSeg .rax .ds, .pop .rax, .movToSeg .rax .es, .pop .rax,
      .addImm 0x10 .rsp]
    .iretq

def reschedule : Code := .call (.sym .schedule) restoreAll

/-- The tests of the preempt count and of `NEED_SCHEDULE`, which `ret_from_intr` and
`softirq_handler` both make. -/
def checkSchedule : Code :=
  .block [.loadSym .nowTask .rbx, .load tskPreempt .rbx .rcx, .cmpImm 0 .rcx]
    (.jnz restoreAll
      (.block [.load tskFlags .rbx .rcx, .testImm 2 .rcx] (.jnz reschedule restoreAll)))

def softirqHandler : Code := .call (.sym .doSoftirq) checkSchedule

/-- `ret_from_intr`, which `ret_from_exception` runs into. -/
def retFromIntr : Code :=
  .block [.movImm (-1) .rcx, .testSym .softirqStatus .rcx] (.jnz softirqHandler checkSchedule)

def saveAll : List Instr :=
  [.cld, .push .rax, .push .rax, .movFromSeg .es .rax, .push .rax, .movFromSeg .ds .rax, .push .rax,
    .xor .rax .rax,
    .push .rbp, .push .rdi, .push .rsi, .push .rdx, .push .rcx, .push .rbx,
    .push .r8, .push .r9, .push .r10, .push .r11, .push .r12, .push .r13, .push .r14, .push .r15,
    .movImm 0x10 .rdx, .movToSeg .rdx .ds, .movToSeg .rdx .es]

/-- `Build_IRQ(nr)`. -/
def irqInterrupt (nr : Word) : Code :=
  .block
    ([.pushImm 0] ++ saveAll ++
      [.mov .rsp .rdi, .lea .retFromIntr .rax, .push .rax, .movImm nr .rsi])
    (.tailCall .doIRQ .retFromIntr retFromIntr)

def errorCode : Code :=
  .block
    [.push .rax, .movFromSeg .es .rax, .push .rax, .movFromSeg .ds .rax, .push .rax, .xor .rax .rax,
      .push .rbp, .push .rdi, .push .rsi, .push .rdx, .push .rcx, .push .rbx,
      .push .r8, .push .r9, .push .r10, .push .r11, .push .r12, .push .r13, .push .r14, .push .r15,
      .cld, .load offsetERRCODE .rsp .rsi, .load offsetFUNC .rsp .rdx,
      .movImm 0x10 .rdi, .movToSeg .rdi .ds, .movToSeg .rdi .es, .mov .rsp .rdi]
    (.call (.reg .rdx) retFromIntr)

/-- The stub of an exception for which the processor pushes no error code. -/
def entryNoCode (e : Exception) : Code :=
  .block [.pushImm 0, .push .rax, .lea (.handler e) .rax, .xchgTop .rax] errorCode

/-- The stub of an exception with an error code. -/
def entryWithCode (e : Exception) : Code :=
  .block [.push .rax, .lea (.handler e) .rax, .xchgTop .rax] errorCode

def divideError : Code := entryNoCode .divideError
def debug : Code := entryNoCode .debug
def int3 : Code := entryNoCode .int3
def overflow : Code := entryNoCode .overflow
def bounds : Code := entryNoCode .bounds
def undefinedOpcode : Code := entryNoCode .undefinedOpcode
def devNotAvailable : Code := entryNoCode .devNotAvailable
def doubleFault : Code := entryWithCode .doubleFault
def coprocessorSegmentOverrun : Code := entryNoCode .coprocessorSegmentOverrun
def invalidTSS : Code := entryWithCode .invalidTSS
def segmentNotPresent : Code := entryWithCode .segmentNotPresent
def stackSegmentFault : Code := entryWithCode .stackSegmentFault
def generalProtection : Code := entryWithCode .generalProtection
def pageFault : Code := entryWithCode .pageFault
def x87FPUError : Code := entryNoCode .x87FPUError
def alignmentCheck : Code := entryWithCode .alignmentCheck
def machineCheck : Code := entryNoCode .machineCheck
def simdException : Code := entryNoCode .simdException
def virtualizationException : Code := entryNoCode .virtualizationException

def exceptionEntry : Exception → Code
  | .divideError => divideError
  | .debug => debug
  | .int3 => int3
  | .overflow => overflow
  | .bounds => bounds
  | .undefinedOpcode => undefinedOpcode
  | .devNotAvailable => devNotAvailable
  | .doubleFault => doubleFault
  | .coprocessorSegmentOverrun => coprocessorSegmentOverrun
  | .invalidTSS => invalidTSS
  | .segmentNotPresent => segmentNotPresent
  | .stackSegmentFault => stackSegmentFault
  | .generalProtection => generalProtection
  | .pageFault => pageFault
  | .x87FPUError => x87FPUError
  | .alignmentCheck => alignmentCheck
  | .machineCheck => machineCheck
  | .simdException => simdException
  | .virtualizationException => virtualizationException

/-- The processor pushes an error code for these exceptions. -/
def Exception.pushesCode : Exception → Bool
  | .doubleFault | .invalidTSS | .segmentNotPresent | .stackSegmentFault | .generalProtection
  | .pageFault | .alignmentCheck => true
  | _ => false

def nmi : Code :=
  .block
    [.push .rax, .cld, .push .rax,
      .push .rax, .movFromSeg .es .rax, .push .rax, .movFromSeg .ds .rax, .push .rax, .xor .rax .rax,
      .push .rbp, .push .rdi, .push .rsi, .push .rdx, .push .rcx, .push .rbx,
      .push .r8, .push .r9, .push .r10, .push .r11, .push .r12, .push .r13, .push .r14, .push .r15,
      .movImm 0x10 .rdx, .movToSeg .rdx .ds, .movToSeg .rdx .es,
      .movImm 0 .rsi, .mov .rsp .rdi]
    (.call (.sym .doNmi) restoreAll)

def retSystemCall : Code :=
  .block
    [.pop .r15, .pop .r14, .pop .r13, .pop .r12, .pop .r11, .pop .r10, .pop .r9, .pop .r8,
      .pop .rbx, .pop .rcx, .pop .rdx, .pop .rsi, .pop .rdi, .pop .rbp,
      .pop .rax, .movToSeg .rax .ds, .pop .rax, .movToSeg .rax .es, .pop .rax,
      .addImm 0x38 .rsp,
      .xchg .rdx .r10, .xchg .rcx .r11,
      .sti]
    .sysexit

def systemCall : Code :=
  .block
    [.sti, .subImm 0x38 .rsp, .cld,
      .push .rax, .movFromSeg .es .rax, .push .rax, .movFromSeg .ds .rax, .push .rax, .xor .rax .rax,
      .push .rbp, .push .rdi, .push .rsi, .push .rdx, .push .rcx, .push .rbx,
      .push .r8, .push .r9, .push .r10, .push .r11, .push .r12, .push .r13, .push .r14, .push .r15,
      .movImm 0x10 .rax, .movToSeg .rax .ds, .movToSeg .rax .es,
      .load offsetRAX .rsp .rax, .lea .systemCallTable .rbx]
    (.call (.table .rbx .rax) (.block [.store .rax offsetRAX .rsp] retSystemCall))

/-! ## The frame -/

structure PtRegs where
  r15 : Word
  r14 : Word
  r13 : Word
  r12 : Word
  r11 : Word
  r10 : Word
  r9 : Word
  r8 : Word
  rbx : Word
  rcx : Word
  rdx : Word
  rsi : Word
  rdi : Word
  rbp : Word
  ds : Word
  es : Word
  rax : Word
  func : Word
  errcode : Word
  rip : Word
  cs : Word
  rflags : Word
  rsp : Word
  ss : Word
  deriving DecidableEq, Repr

/-- The members in the order of the structure, a word each. -/
def PtRegs.words (p : PtRegs) : List Word :=
  [p.r15, p.r14, p.r13, p.r12, p.r11, p.r10, p.r9, p.r8, p.rbx, p.rcx, p.rdx, p.rsi, p.rdi, p.rbp,
    p.ds, p.es, p.rax, p.func, p.errcode, p.rip, p.cs, p.rflags, p.rsp, p.ss]

end KalinoteOS.Entry
