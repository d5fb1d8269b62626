import KalinoteOS.Scheduler.Schedule
import Mathlib.Algebra.Group.Nat.Defs

/-! # The IDE driver

`disk.c` over its request queue, the scheduler it wakes tasks in, and the drive at its ports.
A call that would follow a null pointer has no result. The drive answers every wait for one
of its status bits. `submitted` and `log` record what happened; the driver never reads them.
-/
namespace KalinoteOS.Disk
open Scheduler
set_option autoImplicit false

def ataReadCmd : Nat := 0x24
def ataWriteCmd : Nat := 0x34
def getIdentifyDiskCmd : Nat := 0xEC

/-- The functions that `end_handler` points to. -/
inductive EndHandler where
  | readHandler
  | writeHandler
  | otherHandler
  deriving DecidableEq, Repr

/-- `count` is a 32-bit unsigned integer. `serial` tells the nodes of a run apart. -/
structure BlockBufferNode where
  count : Nat
  cmd : Nat
  LBA : Nat
  buffer : Nat
  endHandler : EndHandler
  tsk : TaskId
  serial : Nat
  deriving DecidableEq, Repr

/-! ## The drive -/

inductive Port where
  | errFeature
  | sectorCnt
  | sectorLow
  | sectorMid
  | sectorHigh
  | device
  | statusCmd
  deriving DecidableEq, Repr

/-- A task file register keeps its last two values for the 48-bit commands. -/
structure Reg where
  previous : Nat
  current : Nat
  deriving DecidableEq, Repr

def Reg.write (r : Reg) (value : Nat) : Reg := ⟨r.current, value⟩

structure Command where
  cmd : Nat
  LBA : Nat
  sectors : Nat
  deriving DecidableEq, Repr

/-- The drive with its last command: `irqs` interrupts were raised for it and `blocks` sectors
went through the data port. -/
structure Drive where
  sectorCnt : Reg
  sectorLow : Reg
  sectorMid : Reg
  sectorHigh : Reg
  command : Option Command
  irqs : Nat
  blocks : Nat
  deriving DecidableEq, Repr

namespace Drive

/-- The 48-bit address in the registers. -/
def address (d : Drive) : Nat :=
  d.sectorLow.current + 2 ^ 8 * d.sectorMid.current + 2 ^ 16 * d.sectorHigh.current +
    2 ^ 24 * d.sectorLow.previous + 2 ^ 32 * d.sectorMid.previous + 2 ^ 40 * d.sectorHigh.previous

/-- The number of sectors of a command; a count of 0 stands for 65536 of them. -/
def sectors (d : Drive) (cmd : Nat) : Nat :=
  if cmd = ataReadCmd ∨ cmd = ataWriteCmd then
    let count := d.sectorCnt.current + 2 ^ 8 * d.sectorCnt.previous
    if count = 0 then 65536 else count
  else 1

def out (d : Drive) (port : Port) (value : Nat) : Drive :=
  match port with
  | .errFeature | .device => d
  | .sectorCnt => { d with sectorCnt := d.sectorCnt.write value }
  | .sectorLow => { d with sectorLow := d.sectorLow.write value }
  | .sectorMid => { d with sectorMid := d.sectorMid.write value }
  | .sectorHigh => { d with sectorHigh := d.sectorHigh.write value }
  | .statusCmd =>
    { d with command := some ⟨value, d.address, d.sectors value⟩, irqs := 0, blocks := 0 }

/-- The drive owes interrupts to its command. -/
def InFlight (d : Drive) : Prop := ∃ c ∈ d.command, d.irqs < c.sectors

end Drive

/-! ## The driver -/

inductive Direction where
  | insw
  | outsw
  deriving DecidableEq, Repr

inductive Event where
  /-- A command for the node `serial` was written to the command port. -/
  | issue (serial : Nat) (command : Option Command)
  /-- An interrupt while the node `serial` was in use. -/
  | irq (serial : Option Nat)
  /-- Sector `block` of the command went to or from `address`. -/
  | transfer (direction : Direction) (serial block address : Nat)
  /-- `end_request`. -/
  | finish (serial : Nat)
  deriving DecidableEq, Repr

/-- `disk_request`, the scheduler and the drive. -/
structure State where
  waitQueueList : List BlockBufferNode
  inUsing : Option BlockBufferNode
  blockRequestCount : Int
  sched : Schedule
  drive : Drive
  submitted : List BlockBufferNode
  log : List Event

def diskInit (sched : Schedule) (drive : Drive) : State where
  waitQueueList := []
  inUsing := none
  blockRequestCount := 0
  sched := sched
  drive := drive
  submitted := []
  log := []

/-- `make_request`, called by the current task. -/
def makeRequest (s : State) (cmd blocks count buffer : Nat) : BlockBufferNode where
  count := count % 2 ^ 32
  cmd := cmd % 2 ^ 8
  LBA := blocks
  buffer := buffer
  endHandler :=
    if cmd = ataReadCmd then .readHandler
    else if cmd = ataWriteCmd then .writeHandler
    else .otherHandler
  tsk := s.sched.nowTask
  serial := s.submitted.length

def addRequest (s : State) (node : BlockBufferNode) : State :=
  { s with
    waitQueueList := s.waitQueueList ++ [node]
    blockRequestCount := s.blockRequestCount + 1
    submitted := s.submitted ++ [node] }

/-- The port writes of a 48-bit command: the high bytes first, then the low ones. -/
def extWrites (node : BlockBufferNode) : List (Port × Nat) :=
  [(.device, 0x40),
   (.errFeature, 0),
   (.sectorCnt, (node.count >>> 8) % 256),
   (.sectorLow, (node.LBA >>> 24) % 256),
   (.sectorMid, (node.LBA >>> 32) % 256),
   (.sectorHigh, (node.LBA >>> 40) % 256),
   (.errFeature, 0),
   (.sectorCnt, node.count % 256),
   (.sectorLow, node.LBA % 256),
   (.sectorMid, (node.LBA >>> 8) % 256),
   (.sectorHigh, (node.LBA >>> 16) % 256),
   (.statusCmd, node.cmd)]

/-- The port writes of `GET_IDENTIFY_DISK_CMD`. -/
def identifyWrites (node : BlockBufferNode) : List (Port × Nat) :=
  [(.device, 0xe0),
   (.errFeature, 0),
   (.sectorCnt, node.count % 256),
   (.sectorLow, node.LBA % 256),
   (.sectorMid, (node.LBA >>> 8) % 256),
   (.sectorHigh, (node.LBA >>> 16) % 256),
   (.statusCmd, node.cmd)]

def outAll (d : Drive) (writes : List (Port × Nat)) : Drive :=
  writes.foldl (fun d w => d.out w.1 w.2) d

/-- The writes of one command, the last of which issues it. -/
def issue (s : State) (node : BlockBufferNode) (writes : List (Port × Nat)) : State :=
  let drive := outAll s.drive writes
  { s with drive := drive, log := s.log ++ [.issue node.serial drive.command] }

/-- `port_insw` or `port_outsw` of 256 words at `node->buffer`. -/
def portTransfer (direction : Direction) (s : State) (node : BlockBufferNode) : State :=
  { s with
    drive := { s.drive with blocks := s.drive.blocks + 1 }
    log := s.log ++ [.transfer direction node.serial s.drive.blocks node.buffer] }

/-- The first waiting node becomes `in_using`. -/
def takeFirst (s : State) (node : BlockBufferNode) (rest : List BlockBufferNode) : State :=
  { s with
    waitQueueList := rest
    inUsing := some node
    blockRequestCount := s.blockRequestCount - 1 }

def cmdOut (s : State) : Option State :=
  match s.waitQueueList with
  | [] => none
  | node :: rest =>
    let s := takeFirst s node rest
    if node.cmd = ataWriteCmd then some (portTransfer .outsw (issue s node (extWrites node)) node)
    else if node.cmd = ataReadCmd then some (issue s node (extWrites node))
    else if node.cmd = getIdentifyDiskCmd then some (issue s node (identifyWrites node))
    else some s

def submit (s : State) (node : BlockBufferNode) : Option State :=
  let s := addRequest s node
  if s.inUsing = none then cmdOut s else some s

/-- `tsk->flags |= NEED_SCHEDULE`. -/
def setNeedSchedule (s : Schedule) (tsk : TaskId) : Schedule :=
  s.modify tsk fun t => { t with flags := t.flags ||| needSchedule }

@[simp] theorem setNeedSchedule_state (s : Schedule) (tsk t : TaskId) :
    (setNeedSchedule s tsk).state t = s.state t :=
  Schedule.modify_tasks_field TaskStruct.state s tsk t
    (fun t => { t with flags := t.flags ||| needSchedule }) rfl

@[simp] theorem setNeedSchedule_vrun (s : Schedule) (tsk t : TaskId) :
    (setNeedSchedule s tsk).vrun t = s.vrun t :=
  Schedule.modify_tasks_field TaskStruct.vrunTime s tsk t
    (fun t => { t with flags := t.flags ||| needSchedule }) rfl

/-- `end_request` up to its last test. -/
def release (s : State) (node : BlockBufferNode) : State :=
  { s with
    sched := setNeedSchedule (wakeUp s.sched node.tsk) node.tsk
    inUsing := none
    log := s.log ++ [.finish node.serial] }

def endRequest (s : State) (node : BlockBufferNode) : Option State :=
  let s := release s node
  if s.blockRequestCount ≠ 0 then cmdOut s else some s

/-- `node->count--`, which wraps below 0. -/
def countDown (node : BlockBufferNode) : BlockBufferNode :=
  { node with count := if node.count = 0 then 2 ^ 32 - 1 else node.count - 1 }

/-- `node->buffer += 512`. -/
def advance (node : BlockBufferNode) : BlockBufferNode := { node with buffer := node.buffer + 512 }

def readHandler (error : Bool) (s : State) (node : BlockBufferNode) : Option State :=
  let s := if error then s else portTransfer .insw s node
  let node := countDown node
  if node.count ≠ 0 then some { s with inUsing := some (advance node) }
  else endRequest { s with inUsing := some node } node

def writeHandler (_error : Bool) (s : State) (node : BlockBufferNode) : Option State :=
  let node := countDown node
  if node.count ≠ 0 then
    let node := advance node
    some (portTransfer .outsw { s with inUsing := some node } node)
  else endRequest { s with inUsing := some node } node

def otherHandler (error : Bool) (s : State) (node : BlockBufferNode) : Option State :=
  endRequest (if error then s else portTransfer .insw s node) node

/-- `disk_handler`; `error` is `DISK_STATUS_ERROR` of the status port. -/
def diskHandler (error : Bool) (s : State) : Option State :=
  match s.inUsing with
  | none => none
  | some node =>
    match node.endHandler with
    | .readHandler => readHandler error s node
    | .writeHandler => writeHandler error s node
    | .otherHandler => otherHandler error s node

/-- The drive raises its interrupt. -/
def raiseIrq (s : State) : State :=
  { s with
    drive := { s.drive with irqs := s.drive.irqs + 1 }
    log := s.log ++ [.irq (s.inUsing.map BlockBufferNode.serial)] }

end KalinoteOS.Disk
