import KalinoteOS.Fat32.LongName
import KalinoteOS.Fat32.Lookup
import KalinoteOS.Fat32.PathWalk
import Mathlib.Data.List.Perm.Subperm

/-! # Mounting and unmounting

The objects that a mounted volume takes from `kmalloc`: those of the superblock and its root, and those
of the walks. `fat32_put_superblock` frees a part of the first only.
-/
namespace KalinoteOS.Fat32
open Lib
set_option autoImplicit false

/-- `struct index_node` with the objects for it and for its private info. -/
structure FatInode where
  object : Nat
  infoObject : Nat
  inode : Inode

/-- What `kmalloc` leaves in an object and around it: the byte at a distance from its start. -/
abbrev Memory := Nat → Int → Byte

/-- What a lookup reads from `name` on; behind the terminator is whatever is there. -/
def Dentry.searchedName {ι : Type} (d : Dentry ι) (memory : Memory) : Name where
  length := d.nameLength
  char := (searchName d.name fun i => memory d.nameObject i).char

/-- `FAT32_lookup` with its objects: the buffer is freed, those of the inode stay. -/
def fatLookup (fsbi : SbInfo) (disk : Disk) (memory : Memory) (fuel : Nat) : LookupOp FatInode :=
  fun parentInode destDentry heap =>
    let (buf, heap) := heap.kmalloc
    match lookup fsbi disk (memory buf) (destDentry.searchedName memory) fuel parentInode.inode.info with
    | none => none
    | some none => some (none, heap.kfree buf)
    | some (some inode) =>
      let (p, heap) := heap.kmalloc
      let (info, heap) := heap.kmalloc
      some (some ⟨p, info, inode⟩, heap.kfree buf)

/-- `struct super_block`, with what is stored in its objects. -/
structure SuperBlock where
  object : Nat
  sbInfoObject : Nat
  sbInfo : SbInfo
  fatFsinfo : Nat
  root : Nat

/-- The inode of the root directory. -/
def rootInode (fsbi : SbInfo) (fbs : BootSector) : Inode where
  fileSize := 0
  blocks := (fsbi.bytesPerCluster + 2 ^ 64 - 1) % 2 ^ 64 / fsbi.bytesPerSector
  attr := fsAttrDir
  info := ⟨fbs.bpbRootClus, 0, 0, 0, 0, 0, 0⟩

/-- `fat32_read_superblock`. -/
def readSuperblock (dpte : PartitionEntry) (fbs : BootSector) (v : Vfs FatInode) : SuperBlock × Vfs FatInode :=
  let (sbp, heap) := v.heap.kmalloc
  let (sbInfoObject, heap) := heap.kmalloc
  let fsbi := readSbInfo dpte fbs
  let (fatFsinfo, heap) := heap.kmalloc
  let (root, heap) := heap.kmalloc
  let (name, heap) := heap.kmalloc
  let (dirInode, heap) := heap.kmalloc
  let (info, heap) := heap.kmalloc
  let d : Dentry FatInode := ⟨[slash], name, 1, some ⟨dirInode, info, rootInode fsbi fbs⟩, root, []⟩
  (⟨sbp, sbInfoObject, fsbi, fatFsinfo, root⟩,
    { v with heap := heap, dentry := Function.update v.dentry root d })

/-- `fat32_put_superblock`. -/
def putSuperblock (sb : SuperBlock) (v : Vfs FatInode) : Option Heap :=
  match (v.dentry sb.root).dirInode with
  | none => none
  | some dirInode =>
    let heap := v.heap.kfree sb.sbInfoObject
    let heap := heap.kfree dirInode.infoObject
    let heap := heap.kfree dirInode.object
    let heap := heap.kfree sb.root
    some (heap.kfree sb.object)

/-- One walk after the other. -/
def runWalks {ι : Type} (lookup : LookupOp ι) (root : Nat) : List (List Byte × BitVec 64) → Vfs ι → Option (Vfs ι)
  | [], v => some v
  | (name, flags) :: walks, v =>
    match pathWalk lookup flags v root name with
    | none => none
    | some (_, v) => runWalks lookup root walks v

/-- A volume is mounted, walked through and unmounted. -/
def mountRun (dpte : PartitionEntry) (fbs : BootSector) (disk : Disk) (memory : Memory) (fuel : Nat)
    (walks : List (List Byte × BitVec 64)) (v : Vfs FatInode) : Option Heap :=
  let (sb, v) := readSuperblock dpte fbs v
  match runWalks (fatLookup sb.sbInfo disk memory fuel) sb.root walks v with
  | none => none
  | some v => putSuperblock sb v

/-- Every object that was taken in between has been freed exactly once in between. -/
def Balanced (heap heap' : Heap) : Prop :=
  ∀ p, heap.taken ≤ p → p < heap'.taken → heap'.freed.count p = heap.freed.count p + 1

/-! ## The account -/

/-- Between the two states `k` objects more were taken than freed. -/
def Owes (heap heap' : Heap) (k : Nat) : Prop :=
  ∃ new, heap'.freed = new ++ heap.freed ∧ heap'.taken = heap.taken + new.length + k

section
variable {heap heap₁ heap₂ : Heap} {k l : Nat}

theorem owes_refl (heap : Heap) : Owes heap heap 0 := ⟨[], rfl, rfl⟩

theorem Owes.trans (h : Owes heap heap₁ k) (h' : Owes heap₁ heap₂ l) : Owes heap heap₂ (k + l) := by
  obtain ⟨new, hFreed, hTaken⟩ := h
  obtain ⟨new', hFreed', hTaken'⟩ := h'
  refine ⟨new' ++ new, ?_, ?_⟩
  · rw [hFreed', hFreed, List.append_assoc]
  · rw [hTaken', hTaken, List.length_append]
    omega

theorem Owes.kmalloc (h : Owes heap heap₁ k) : Owes heap heap₁.kmalloc.2 (k + 1) := by
  obtain ⟨new, hFreed, hTaken⟩ := h
  refine ⟨new, hFreed, ?_⟩
  unfold Heap.kmalloc
  dsimp only
  omega

theorem Owes.kfree (h : Owes heap heap₁ (k + 1)) (p : Nat) : Owes heap (heap₁.kfree p) k := by
  obtain ⟨new, hFreed, hTaken⟩ := h
  refine ⟨p :: new, ?_, ?_⟩
  · unfold Heap.kfree
    rw [hFreed]
    rfl
  · rw [List.length_cons]
    unfold Heap.kfree
    dsimp only
    omega

/-- Who owes an object has not balanced the account. -/
theorem Owes.not_balanced (h : Owes heap heap₁ k) (hPos : 0 < k) : ¬ Balanced heap heap₁ := by
  obtain ⟨new, hFreed, hTaken⟩ := h
  intro hBalanced
  have hAll : List.range' heap.taken (new.length + k) ⊆ new := by
    intro p hp
    obtain ⟨hLow, hHigh⟩ := List.mem_range'_1.mp hp
    have hCount := hBalanced p hLow (by omega)
    rw [hFreed, List.count_append] at hCount
    exact List.count_pos_iff.mp (by omega)
  have hNodup : (List.range' heap.taken (new.length + k)).Nodup := List.nodup_range' 1
  have hLength := (hNodup.subperm hAll).length_le
  rw [List.length_range'] at hLength
  omega

end

section
variable {fsbi : SbInfo} {disk : Disk} {memory : Memory} {fuel : Nat} {v v' : Vfs FatInode}

/-- A lookup keeps the two objects of an inode that it finds. -/
theorem fatLookup_owes {dir : FatInode} {d : Dentry FatInode} {heap heap' : Heap} {found : Option FatInode}
    (h : fatLookup fsbi disk memory fuel dir d heap = some (found, heap')) :
    Owes heap heap' (if found = none then 0 else 2) := by
  unfold fatLookup at h
  dsimp only at h
  split at h
  · cases h
  · cases h
    exact (owes_refl heap).kmalloc.kfree _
  · cases h
    exact (owes_refl heap).kmalloc.kmalloc.kmalloc.kfree _

theorem fatLookup_taken {dir : FatInode} {d : Dentry FatInode} {heap heap' : Heap} {found : Option FatInode}
    (h : fatLookup fsbi disk memory fuel dir d heap = some (found, heap')) : heap.taken ≤ heap'.taken := by
  obtain ⟨new, -, hTaken⟩ := fatLookup_owes h
  omega

/-- The walk keeps four objects of every name that it finds. -/
theorem walkNames_owes {flags : BitVec 64} {parent : Nat} {cs : List (List Byte)} {out : Option Nat}
    (h : walkNames (fatLookup fsbi disk memory fuel) flags v parent cs = some (out, v'))
    (hOld : parent < v.heap.taken) :
    ∃ nodes, v'.linked = nodes ++ v.linked ∧ Owes v.heap v'.heap (4 * nodes.length) := by
  induction cs generalizing v parent with
  | nil =>
    cases h
    exact ⟨[], rfl, owes_refl _⟩
  | cons c cs ih =>
    have hStart : Owes v.heap ⟨v.heap.taken + 2, v.heap.freed⟩ 2 := ⟨[], rfl, rfl⟩
    obtain ⟨dir, heap, -, ⟨hLookup, -, -, rfl⟩ | ⟨inode, v₁, hLookup, -, hLinked, hRest⟩⟩ :=
      walkNames_cases h hOld
    · exact ⟨[], rfl, ((hStart.trans (fatLookup_owes hLookup)).kfree _).kfree _⟩
    · have hOwes := hStart.trans (fatLookup_owes hLookup)
      have hTaken := fatLookup_taken hLookup
      rw [← hLinked.heap] at hOwes hTaken
      dsimp only at hTaken
      obtain ⟨-, rfl⟩ | ⟨-, hRest⟩ := hRest
      · exact ⟨[v.heap.taken], hLinked.linked, hOwes⟩
      · obtain ⟨nodes, hNodes, hOwesRest⟩ := ih hRest (by omega)
        refine ⟨nodes ++ [v.heap.taken], ?_, ?_⟩
        · rw [hNodes, hLinked.linked, List.append_assoc]
          rfl
        · have hBoth := hOwes.trans hOwesRest
          have hCount : 4 * (nodes ++ [v.heap.taken]).length = 2 + 2 + 4 * nodes.length := by
            rw [List.length_append, List.length_singleton]
            omega
          rw [hCount]
          exact hBoth

theorem Owes.taken_le {heap heap' : Heap} {k : Nat} (h : Owes heap heap' k) : heap.taken ≤ heap'.taken := by
  obtain ⟨new, -, hTaken⟩ := h
  omega

theorem runWalks_owes {root : Nat} {walks : List (List Byte × BitVec 64)}
    (h : runWalks (fatLookup fsbi disk memory fuel) root walks v = some v') (hOld : root < v.heap.taken) :
    ∃ nodes, v'.linked = nodes ++ v.linked ∧ Owes v.heap v'.heap (4 * nodes.length) := by
  induction walks generalizing v with
  | nil =>
    cases h
    exact ⟨[], rfl, owes_refl _⟩
  | cons walk walks ih =>
    obtain ⟨name, flags⟩ := walk
    rw [runWalks] at h
    cases hWalk : pathWalk (fatLookup fsbi disk memory fuel) flags v root name with
    | none =>
      rw [hWalk] at h
      cases h
    | some result =>
      obtain ⟨out, v₁⟩ := result
      rw [hWalk] at h
      rw [pathWalk_eq] at hWalk
      obtain ⟨nodes, hNodes, hOwes⟩ := walkNames_owes hWalk hOld
      obtain ⟨more, hMore, hRest⟩ := ih h (Nat.lt_of_lt_of_le hOld hOwes.taken_le)
      refine ⟨more ++ nodes, ?_, ?_⟩
      · rw [hMore, hNodes, List.append_assoc]
      · have hCount : 4 * (more ++ nodes).length = 4 * nodes.length + 4 * more.length := by
          rw [List.length_append]
          omega
        rw [hCount]
        exact hOwes.trans hRest

end

section
variable {dpte : PartitionEntry} {fbs : BootSector} {disk : Disk} {memory : Memory} {fuel : Nat}
  {walks : List (List Byte × BitVec 64)} {v : Vfs FatInode} {heap : Heap}

/-- After unmounting two objects of the mount are left, and four of every name that was found. -/
theorem mountRun_owes (hRun : mountRun dpte fbs disk memory fuel walks v = some heap) :
    ∃ n, Owes v.heap heap (4 * n + 2) := by
  unfold mountRun at hRun
  have hMounted : Owes v.heap (readSuperblock dpte fbs v).2.heap 7 :=
    (owes_refl v.heap).kmalloc.kmalloc.kmalloc.kmalloc.kmalloc.kmalloc.kmalloc
  have hRoot : (readSuperblock dpte fbs v).1.root < (readSuperblock dpte fbs v).2.heap.taken := by
    unfold readSuperblock Heap.kmalloc
    dsimp only
    omega
  generalize readSuperblock dpte fbs v = mounted at *
  obtain ⟨sb, v₁⟩ := mounted
  dsimp only at *
  cases hWalks : runWalks (fatLookup sb.sbInfo disk memory fuel) sb.root walks v₁ with
  | none =>
    rw [hWalks] at hRun
    cases hRun
  | some v₂ =>
    rw [hWalks] at hRun
    obtain ⟨nodes, -, hOwes⟩ := runWalks_owes hWalks hRoot
    have hBefore := hMounted.trans hOwes
    rw [Nat.add_comm] at hBefore
    unfold putSuperblock at hRun
    dsimp only at hRun
    split at hRun
    · cases hRun
    · next dirInode _ =>
      cases hRun
      have hFsbi := Owes.kfree hBefore sb.sbInfoObject
      have hInfo := Owes.kfree hFsbi dirInode.infoObject
      have hInode := Owes.kfree hInfo dirInode.object
      exact ⟨nodes.length, (Owes.kfree hInode sb.root).kfree sb.object⟩

/-- Unmounting never balances the account: `fat_fsinfo` and the name of the root are not freed, nor is
anything that the walks have found. -/
theorem mount_not_balanced (dpte : PartitionEntry) (fbs : BootSector) (disk : Disk) (memory : Memory)
    (fuel : Nat) (walks : List (List Byte × BitVec 64)) (v : Vfs FatInode) (heap : Heap)
    (hRun : mountRun dpte fbs disk memory fuel walks v = some heap) : ¬ Balanced v.heap heap := by
  obtain ⟨n, hOwes⟩ := mountRun_owes hRun
  exact hOwes.not_balanced (Nat.succ_pos _)

end

/-! ## With one walk, and with none -/

def emptyVfs : Vfs FatInode := ⟨⟨0, []⟩, fun _ => ⟨[], 0, 0, none, 0, []⟩, []⟩

/-- `NOTES.TXT`. -/
def notesName : List Byte := [0x4e, 0x4f, 0x54, 0x45, 0x53, 0x2e, 0x54, 0x58, 0x54]

/-- `NOTES.TXT` is alone in the root directory. -/
def notesDisk : Disk := fun a =>
  if 512 * 3104 ≤ a then
    (([0x4e, 0x4f, 0x54, 0x45, 0x53, 0x20, 0x20, 0x20, 0x54, 0x58, 0x54, 0x20, 0, 0, 0, 0, 0, 0, 0, 0, 0, 0, 0, 0,
      0, 0, 3, 0, 16])[a - 512 * 3104]?).getD 0
  else if 512 * 2080 + 8 ≤ a ∧ a < 512 * 2080 + 12 then 0xff
  else 0

theorem mountRun_notes :
    mountRun samplePartition sampleBoot notesDisk (fun _ _ => 0) 2 [(slash :: notesName, 0)] emptyVfs =
      some ⟨12, [0, 3, 5, 6, 1, 9]⟩ := by
  have hParts : components (slash :: notesName) = [notesName] := by decide +kernel
  unfold mountRun
  dsimp only
  rw [runWalks, pathWalk_eq, hParts]
  decide +kernel

/-- The walk to `/NOTES.TXT` leaves four objects. -/
theorem mount_not_balanced_notes : ∃ heap,
    mountRun samplePartition sampleBoot notesDisk (fun _ _ => 0) 2 [(slash :: notesName, 0)] emptyVfs =
      some heap ∧
      heap.taken = heap.freed.length + 6 ∧ ¬ Balanced emptyVfs.heap heap :=
  ⟨_, mountRun_notes, rfl, mount_not_balanced samplePartition sampleBoot notesDisk (fun _ _ => 0) 2
    [(slash :: notesName, 0)] emptyVfs _ mountRun_notes⟩

theorem mountRun_empty :
    mountRun samplePartition sampleBoot (fun _ => 0) (fun _ _ => 0) 0 [] emptyVfs =
      some ⟨7, [0, 3, 5, 6, 1]⟩ := by
  rfl

/-- `fat_fsinfo`, the third object, is left. -/
theorem mount_leaks : ¬ ∀ (dpte : PartitionEntry) (fbs : BootSector) (disk : Disk) (memory : Memory) (fuel : Nat)
    (walks : List (List Byte × BitVec 64)) (v : Vfs FatInode) (heap : Heap), Valid dpte fbs →
    mountRun dpte fbs disk memory fuel walks v = some heap → Balanced v.heap heap := by
  intro h
  have hBalanced := h samplePartition sampleBoot (fun _ => 0) (fun _ _ => 0) 0 [] emptyVfs _ sample_valid
    mountRun_empty
  exact absurd (hBalanced 2 (by decide) (by decide)) (by decide)

end KalinoteOS.Fat32
