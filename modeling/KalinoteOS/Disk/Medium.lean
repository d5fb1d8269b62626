import KalinoteOS.Lib.BlockStore
import KalinoteOS.Disk.Run

/-! # The sectors and the buffers

What the events of the driver move between the medium of the drive and the memory. `sent` and `history`
record what was submitted and what was seen at the end; nothing reads them.
-/
namespace KalinoteOS.Disk
open Lib
set_option autoImplicit false

/-- 256 words. -/
abbrev Sector := { bytes : List (BitVec 8) // bytes.length = 512 }

/-- The sector that `port_outsw` sends from `address`. -/
def fetch (memory : Nat → BitVec 8) (address : Nat) : Sector :=
  ⟨BlockStore.read memory address 512, BlockStore.length_read _ _ _⟩

/-- `port_insw` of a sector to `address`. -/
def deposit (memory : Nat → BitVec 8) (address : Nat) (sector : Sector) : Nat → BitVec 8 :=
  BlockStore.write memory address sector.1

/-- The sectors in a buffer. -/
def contents (memory : Nat → BitVec 8) (buffer count : Nat) : List Sector :=
  (List.range count).map fun i => fetch memory (buffer + 512 * i)

structure Data where
  medium : Nat → Sector
  memory : Nat → BitVec 8
  /-- The command the drive is working on. -/
  command : Option Command
  /-- What was in the buffer of each node when it was submitted. -/
  sent : List (List Sector)
  /-- The requests that were ended. -/
  history : List (BlockStore.Op Sector)

/-- An ended request: a write of what was sent, or a read of what is in the buffer now. -/
def Data.ended (d : Data) (r : BlockBufferNode) : BlockStore.Op Sector :=
  if r.cmd = ataWriteCmd then .write (r.LBA % 2 ^ 48) (d.sent[r.serial]?.getD [])
  else .read (r.LBA % 2 ^ 48) (contents d.memory r.buffer r.count)

/-- The drive counts the sectors of its command from the address in it. -/
def Data.perform (submitted : List BlockBufferNode) (d : Data) : Event → Data
  | .issue _ command => { d with command := command }
  | .irq _ => d
  | .transfer .outsw _ block address =>
    match d.command with
    | none => d
    | some c => { d with medium := BlockStore.write d.medium (c.LBA + block) [fetch d.memory address] }
  | .transfer .insw _ block address =>
    match d.command with
    | none => d
    | some c => { d with memory := deposit d.memory address (d.medium (c.LBA + block)) }
  | .finish serial =>
    match submitted[serial]? with
    | none => d
    | some r => { d with history := d.history ++ [d.ended r] }

def Data.performAll (submitted : List BlockBufferNode) (d : Data) (events : List Event) : Data :=
  events.foldl (Data.perform submitted) d

/-! ## Buffers -/

/-- The addresses of a buffer. -/
def BlockBufferNode.Owns (r : BlockBufferNode) (a : Nat) : Prop :=
  r.buffer ≤ a ∧ a < r.buffer + 512 * r.count

/-- Two buffers do not meet. -/
def BlockBufferNode.Apart (r q : BlockBufferNode) : Prop :=
  BlockStore.Apart r.buffer (512 * r.count) q.buffer (512 * q.count)

section
variable {memory memory' : Nat → BitVec 8} {address buffer count : Nat}

theorem fetch_val (memory : Nat → BitVec 8) (address : Nat) :
    (fetch memory address).1 = BlockStore.read memory address 512 := by
  rw [fetch]

theorem fetch_congr (h : ∀ a, address ≤ a → a < address + 512 → memory a = memory' a) :
    fetch memory address = fetch memory' address := by
  apply Subtype.ext
  rw [fetch_val, fetch_val]
  exact BlockStore.read_congr h

theorem fetch_deposit (memory : Nat → BitVec 8) (address : Nat) (sector : Sector) :
    fetch (deposit memory address sector) address = sector := by
  have hRead : BlockStore.read (BlockStore.write memory address sector.1) address sector.1.length = sector.1 :=
    BlockStore.read_write
  rw [sector.2] at hRead
  apply Subtype.ext
  rw [fetch_val, deposit, hRead]

theorem deposit_outside {sector : Sector} {a : Nat} (h : a < address ∨ address + 512 ≤ a) :
    deposit memory address sector a = memory a := by
  apply BlockStore.write_outside
  rwa [sector.2]

@[simp] theorem length_contents (memory : Nat → BitVec 8) (buffer count : Nat) :
    (contents memory buffer count).length = count := by
  simp [contents]

theorem contents_succ (memory : Nat → BitVec 8) (buffer count : Nat) :
    contents memory buffer (count + 1) = contents memory buffer count ++
      [fetch memory (buffer + 512 * count)] := by
  simp [contents, List.range_succ]

theorem contents_congr (h : ∀ a, buffer ≤ a → a < buffer + 512 * count → memory a = memory' a) :
    contents memory buffer count = contents memory' buffer count := by
  apply List.map_congr_left
  intro i hi
  have hLt := List.mem_range.mp hi
  exact fetch_congr fun a hLe hAfter => h a (by omega) (by omega)

/-- The next sector of a read. -/
theorem contents_deposit (memory : Nat → BitVec 8) (buffer count : Nat) (sector : Sector) :
    contents (deposit memory (buffer + 512 * count) sector) buffer (count + 1)
      = contents memory buffer count ++ [sector] := by
  have hBefore : contents (deposit memory (buffer + 512 * count) sector) buffer count
      = contents memory buffer count :=
    contents_congr fun a _ hLt => deposit_outside (Or.inl hLt)
  rw [contents_succ, hBefore, fetch_deposit]

end

/-! ## The events of a request -/

section
variable {submitted : List BlockBufferNode} {d : Data} {r : BlockBufferNode} {n : Nat}

theorem Data.performAll_append (submitted : List BlockBufferNode) (d : Data) (front events : List Event) :
    d.performAll submitted (front ++ events) = (d.performAll submitted front).performAll submitted events :=
  List.foldl_append

/-- The first `n` sectors of a write. -/
def written (medium : Nat → Sector) (memory : Nat → BitVec 8) (r : BlockBufferNode) (n : Nat) : Nat → Sector :=
  BlockStore.write medium (r.LBA % 2 ^ 48) (contents memory r.buffer n)

theorem written_zero (medium : Nat → Sector) (memory : Nat → BitVec 8) (r : BlockBufferNode) :
    written medium memory r 0 = medium :=
  BlockStore.write_nil _ _

theorem written_succ (medium : Nat → Sector) (memory : Nat → BitVec 8) (r : BlockBufferNode) (n : Nat) :
    written medium memory r (n + 1)
      = BlockStore.write (written medium memory r n) (r.LBA % 2 ^ 48 + n)
        [fetch memory (r.buffer + 512 * n)] := by
  rw [written, contents_succ, BlockStore.write_snoc, length_contents, BlockStore.write_singleton]
  rfl

theorem start_read (hCmd : r.cmd ≠ ataWriteCmd) :
    d.performAll submitted (startEvents r) = { d with command := some (commandOf r) } := by
  simp [startEvents, hCmd, Data.performAll, Data.perform]

theorem start_write (hCmd : r.cmd = ataWriteCmd) :
    d.performAll submitted (startEvents r) =
      { d with command := some (commandOf r), medium := written d.medium d.memory r 1 } := by
  have hFirst : written d.medium d.memory r 1
      = BlockStore.write d.medium (r.LBA % 2 ^ 48) [fetch d.memory r.buffer] := by
    rw [written_succ, written_zero]
    rfl
  simp [startEvents, hCmd, Data.performAll, Data.perform, sectorAt, commandOf, hFirst]

section
variable (hCommand : d.command = some (commandOf r))
include hCommand

theorem irq_read (hCmd : r.cmd ≠ ataWriteCmd) :
    d.performAll submitted (irqEvents r n) =
      { d with memory := deposit d.memory (r.buffer + 512 * n) (d.medium (r.LBA % 2 ^ 48 + n)) } := by
  simp [irqEvents, hCmd, Data.performAll, Data.perform, sectorAt, hCommand, commandOf]

theorem irq_write (hCmd : r.cmd = ataWriteCmd) (hMore : n + 1 < r.count) :
    d.performAll submitted (irqEvents r n) =
      { d with
        medium := BlockStore.write d.medium (r.LBA % 2 ^ 48 + (n + 1))
          [fetch d.memory (r.buffer + 512 * (n + 1))] } := by
  simp [irqEvents, hCmd, hMore, Data.performAll, Data.perform, sectorAt, hCommand, commandOf]

omit hCommand in
theorem irq_write_last (hCmd : r.cmd = ataWriteCmd) (hLast : n + 1 = r.count) :
    d.performAll submitted (irqEvents r n) = d := by
  simp [irqEvents, hCmd, hLast, Data.performAll, Data.perform]

end

theorem finish_ended (hSubmitted : submitted[r.serial]? = some r) :
    d.performAll submitted [.finish r.serial] = { d with history := d.history ++ [d.ended r] } := by
  simp [Data.performAll, Data.perform, hSubmitted]

end

end KalinoteOS.Disk
