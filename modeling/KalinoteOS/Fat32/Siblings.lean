import KalinoteOS.Fat32.Descend

/-! # The children of a directory entry

A walk makes new entries for all of its names and never looks at the ones that are there. So every
entry but the root has one child at most, and the root has one for every walk whose first name was
found.
-/
namespace KalinoteOS.Fat32
open Lib
set_option autoImplicit false

section
variable {ι : Type}

/-- The entries that `subdirs_list` leads to, from the root on. -/
inductive Below (v : Vfs ι) (root : Nat) : Nat → Prop where
  | root : Below v root root
  | child {p q : Nat} (hParent : Below v root p) (hChild : q ∈ (v.dentry p).subdirs) : Below v root q

def childNames (v : Vfs ι) (p : Nat) : List (List Byte) :=
  (v.dentry p).subdirs.map fun q => (v.dentry q).name

/-- The first of the names, when it is found in the root. -/
def firstFound (lookup : LookupOp ι) (v : Vfs ι) (root : Nat) : List (List Byte) → List (List Byte)
  | [] => []
  | c :: _ =>
    match resolveName lookup v root c with
    | some (some _, _) => [c]
    | _ => []

/-- The first names of the walks that found them, one for each walk. -/
def firstNames (lookup : LookupOp ι) (root : Nat) :
    List (List Byte × BitVec 64) → Vfs ι → List (List Byte)
  | [], _ => []
  | (name, flags) :: walks, v =>
    firstFound lookup v root (components name) ++
      match pathWalk lookup flags v root name with
      | none => []
      | some (_, v) => firstNames lookup root walks v

/-- The entries below the root lie among the objects, and only the root branches. -/
structure Tree (v : Vfs ι) (root : Nat) : Prop where
  taken : ∀ p, Below v root p → p < v.heap.taken
  single : ∀ p, Below v root p → p ≠ root → (v.dentry p).subdirs.length ≤ 1

/-- A lookup takes objects that were not taken before. -/
def Grows (lookup : LookupOp ι) : Prop :=
  ∀ dir d heap found heap', lookup dir d heap = some (found, heap') → heap.taken ≤ heap'.taken

/-! ## One name -/

section
variable {v v₁ : Vfs ι} {root parent : Nat} {c : List Byte} {inode : ι} {heap : Heap}

theorem below_heap (v : Vfs ι) (root : Nat) (heap : Heap) (p : Nat) :
    Below { v with heap := heap } root p ↔ Below v root p := by
  constructor
  · intro h
    induction h with
    | root => exact .root
    | child _ hChild ih => exact .child ih hChild
  · intro h
    induction h with
    | root => exact .root
    | child _ hChild ih => exact .child ih hChild

theorem Tree.more (h : Tree v root) {heap : Heap} (hLe : v.heap.taken ≤ heap.taken) :
    Tree { v with heap := heap } root := by
  constructor
  · intro p hp
    rw [below_heap] at hp
    exact Nat.lt_of_lt_of_le (h.taken p hp) hLe
  · intro p hp hNe
    rw [below_heap] at hp
    exact h.single p hp hNe

section
variable (h : Tree v root) (hLinked : Linked v v₁ parent c inode heap) (hParent : Below v root parent)
include h hLinked hParent

omit hParent in
theorem Tree.subdirs_linked {p : Nat} (hp : Below v root p) : (v₁.dentry p).subdirs =
    if p = parent then v.heap.taken :: (v.dentry p).subdirs else (v.dentry p).subdirs := by
  split
  · next hEq => rw [hEq, hLinked.parentEntry]
  · next hNe => rw [hLinked.others p (h.taken p hp) hNe]

omit hParent in
theorem Tree.name_linked {p : Nat} (hp : Below v root p) : (v₁.dentry p).name = (v.dentry p).name := by
  by_cases hEq : p = parent
  · rw [hEq, hLinked.parentEntry]
  · rw [hLinked.others p (h.taken p hp) hEq]

/-- The new entry joins those below the root, as a child of `parent`. -/
theorem Tree.below_linked (p : Nat) : Below v₁ root p ↔ Below v root p ∨ p = v.heap.taken := by
  constructor
  · intro hp
    induction hp with
    | root => exact Or.inl .root
    | @child p q hp hChild ih =>
      obtain hOld | hNew := ih
      · rw [h.subdirs_linked hLinked hOld] at hChild
        split at hChild
        · obtain hNew | hWas := List.mem_cons.mp hChild
          · exact Or.inr hNew
          · exact Or.inl (.child hOld hWas)
        · exact Or.inl (.child hOld hChild)
      · rw [hNew, hLinked.entry] at hChild
        cases hChild
  · have hOld : ∀ q, Below v root q → Below v₁ root q := by
      intro q hq
      induction hq with
      | root => exact .root
      | @child p q hp hChild ih =>
        apply Below.child ih
        rw [h.subdirs_linked hLinked hp]
        split
        · exact List.mem_cons_of_mem _ hChild
        · exact hChild
    rintro (hp | rfl)
    · exact hOld p hp
    · apply Below.child (hOld parent hParent)
      rw [h.subdirs_linked hLinked hParent, if_pos rfl]
      exact List.mem_cons_self

theorem Tree.linked (hTaken : v.heap.taken < heap.taken)
    (hFree : parent = root ∨ (v.dentry parent).subdirs = []) : Tree v₁ root := by
  constructor
  · intro p hp
    rw [hLinked.heap]
    obtain hOld | rfl := (h.below_linked hLinked hParent p).mp hp
    · exact (h.taken p hOld).trans hTaken
    · exact hTaken
  · intro p hp hNe
    obtain hOld | rfl := (h.below_linked hLinked hParent p).mp hp
    · rw [h.subdirs_linked hLinked hOld]
      split
      · next hEq =>
        have hEmpty := hFree.resolve_left fun hRoot => hNe (hEq.trans hRoot)
        rw [hEq, hEmpty]
        exact le_refl _
      · exact h.single p hOld hNe
    · rw [hLinked.entry]
      exact Nat.zero_le 1

omit hParent in
/-- The names below the root stay, and a name found in the root comes in front. -/
theorem Tree.childNames_linked : childNames v₁ root =
    if root = parent then c :: childNames v root else childNames v root := by
  have hOld : (v.dentry root).subdirs.map (fun q => (v₁.dentry q).name) = childNames v root := by
    apply List.map_congr_left
    intro q hq
    exact h.name_linked hLinked (.child .root hq)
  unfold childNames at hOld ⊢
  rw [h.subdirs_linked hLinked .root]
  split
  · rw [List.map_cons, hOld, hLinked.entry]
    rfl
  · exact hOld

end

end

/-! ## Walks -/

section
variable {lookup : LookupOp ι} (hGrows : Grows lookup)
include hGrows

theorem Tree.walkNames {flags : BitVec 64} {v v' : Vfs ι} {root parent : Nat} {cs : List (List Byte)}
    {out : Option Nat} (h : Tree v root) (hParent : Below v root parent)
    (hFree : parent = root ∨ (v.dentry parent).subdirs = [])
    (hWalk : Fat32.walkNames lookup flags v parent cs = some (out, v')) :
    Tree v' root ∧ childNames v' root =
      (if parent = root then firstFound lookup v root cs else []) ++ childNames v root := by
  induction cs generalizing v parent with
  | nil =>
    cases hWalk
    refine ⟨h, ?_⟩
    split
    · rfl
    · rfl
  | cons c cs ih =>
    have hFirst : ∀ found v₁, resolveName lookup v parent c = some (found, v₁) →
        (if parent = root then firstFound lookup v root (c :: cs) else []) =
          if parent = root ∧ found ≠ none then [c] else [] := by
      intro found v₁ hResolve
      by_cases hRoot : parent = root
      · rw [hRoot] at hResolve
        rw [if_pos hRoot, firstFound, hResolve]
        cases found with
        | none => simp
        | some path => simp [hRoot]
      · simp [hRoot]
    obtain ⟨dir, heap, -, ⟨hLookup, hResolve, -, hEnd⟩ |
      ⟨inode, v₁, hLookup, hResolve, hLinked, hRest⟩⟩ :=
      walkNames_cases hWalk (h.taken parent hParent)
    · have hLe := hGrows _ _ _ _ _ hLookup
      dsimp only at hLe
      rw [hFirst _ _ hResolve, if_neg (by simp), hEnd]
      refine ⟨h.more ?_, rfl⟩
      unfold Heap.kfree
      dsimp only
      omega
    · have hLe := hGrows _ _ _ _ _ hLookup
      dsimp only at hLe
      have hTree := h.linked hLinked hParent (by omega) hFree
      have hNames := h.childNames_linked hLinked
      have hStep : childNames v₁ root =
          (if parent = root ∧ (some v.heap.taken : Option Nat) ≠ none then [c] else []) ++
            childNames v root := by
        rw [hNames]
        by_cases hRoot : parent = root
        · simp [hRoot]
        · simp [hRoot, Ne.symm hRoot]
      rw [hFirst _ _ hResolve]
      obtain ⟨-, rfl⟩ | ⟨-, hRest⟩ := hRest
      · exact ⟨hTree, hStep⟩
      · have hNe : v.heap.taken ≠ root := Nat.ne_of_gt (h.taken root .root)
        have hNew : Below v₁ root v.heap.taken :=
          (h.below_linked hLinked hParent _).mpr (Or.inr rfl)
        have hEmpty : (v₁.dentry v.heap.taken).subdirs = [] := by
          rw [hLinked.entry]
          rfl
        obtain ⟨hTree', hNames'⟩ := ih hTree hNew (Or.inr hEmpty) hRest
        rw [if_neg hNe, List.nil_append] at hNames'
        exact ⟨hTree', hNames'.trans hStep⟩

theorem Tree.runWalks {v v' : Vfs ι} {root : Nat} {walks : List (List Byte × BitVec 64)}
    (h : Tree v root) (hRun : Fat32.runWalks lookup root walks v = some v') :
    Tree v' root ∧
      (childNames v' root).Perm (firstNames lookup root walks v ++ childNames v root) := by
  induction walks generalizing v with
  | nil =>
    cases hRun
    exact ⟨h, List.Perm.refl _⟩
  | cons walk walks ih =>
    obtain ⟨name, flags⟩ := walk
    rw [Fat32.runWalks] at hRun
    rw [firstNames]
    cases hWalk : pathWalk lookup flags v root name with
    | none =>
      rw [hWalk] at hRun
      cases hRun
    | some result =>
      obtain ⟨out, v₁⟩ := result
      rw [hWalk] at hRun
      rw [pathWalk_eq] at hWalk
      obtain ⟨hTree, hNames⟩ := h.walkNames hGrows .root (Or.inl rfl) hWalk
      obtain ⟨hTree', hPerm⟩ := ih hTree hRun
      rw [if_pos rfl] at hNames
      rw [hNames] at hPerm
      refine ⟨hTree', hPerm.trans ?_⟩
      rw [← List.append_assoc]
      exact List.perm_append_comm.append_right _

end

end

/-- The mounted root has no children. -/
theorem readSuperblock_tree (dpte : PartitionEntry) (fbs : BootSector) (v : Vfs FatInode) :
    Tree (readSuperblock dpte fbs v).2 (readSuperblock dpte fbs v).1.root ∧
      childNames (readSuperblock dpte fbs v).2 (readSuperblock dpte fbs v).1.root = [] := by
  have hRoot : ((readSuperblock dpte fbs v).2.dentry (readSuperblock dpte fbs v).1.root).subdirs = [] := by
    unfold readSuperblock Heap.kmalloc
    simp
  have hOnly : ∀ p, Below (readSuperblock dpte fbs v).2 (readSuperblock dpte fbs v).1.root p →
      p = (readSuperblock dpte fbs v).1.root := by
    intro p hp
    induction hp with
    | root => rfl
    | child _ hChild ih =>
      rw [ih, hRoot] at hChild
      cases hChild
  refine ⟨⟨fun p hp => ?_, fun p hp hNe => absurd (hOnly p hp) hNe⟩, ?_⟩
  · rw [hOnly p hp]
    unfold readSuperblock Heap.kmalloc
    dsimp only
    omega
  · unfold childNames
    rw [hRoot]
    rfl

/-- After any walks through a mounted volume every entry but the root has one child at most, and the
root has two of the same name exactly when two of the walks found the same first name. -/
theorem children_distinct_iff (dpte : PartitionEntry) (fbs : BootSector) (disk : Disk) (memory : Memory)
    (fuel : Nat) (walks : List (List Byte × BitVec 64)) (v v' : Vfs FatInode)
    (hRun : runWalks (fatLookup (readSuperblock dpte fbs v).1.sbInfo disk memory fuel)
      (readSuperblock dpte fbs v).1.root walks (readSuperblock dpte fbs v).2 = some v') :
    (∀ p, Below v' (readSuperblock dpte fbs v).1.root p → p ≠ (readSuperblock dpte fbs v).1.root →
      (v'.dentry p).subdirs.length ≤ 1) ∧
    ((childNames v' (readSuperblock dpte fbs v).1.root).Nodup ↔
      (firstNames (fatLookup (readSuperblock dpte fbs v).1.sbInfo disk memory fuel)
        (readSuperblock dpte fbs v).1.root walks (readSuperblock dpte fbs v).2).Nodup) := by
  obtain ⟨hMounted, hEmpty⟩ := readSuperblock_tree dpte fbs v
  have hGrows : Grows (fatLookup (readSuperblock dpte fbs v).1.sbInfo disk memory fuel) :=
    fun _ _ _ _ _ hLookup => fatLookup_taken hLookup
  obtain ⟨hTree, hPerm⟩ := hMounted.runWalks hGrows hRun
  rw [hEmpty, List.append_nil] at hPerm
  exact ⟨hTree.single, hPerm.nodup_iff⟩

/-- `A.TXT`, walked to twice. -/
def twoWalks : List (List Byte × BitVec 64) :=
  [([0x2f, 0x41, 0x2e, 0x54, 0x58, 0x54], 0), ([0x2f, 0x41, 0x2e, 0x54, 0x58, 0x54], 0)]

/-- The walks to some names of the root of `nestedDisk`, and the children that they leave. -/
def nestedWalks (walks : List (List Byte × BitVec 64)) : Option (Vfs FatInode) :=
  runWalks (fatLookup (readSuperblock samplePartition sampleBoot emptyVfs).1.sbInfo nestedDisk (fun _ _ => 0) 1)
    (readSuperblock samplePartition sampleBoot emptyVfs).1.root walks
    (readSuperblock samplePartition sampleBoot emptyVfs).2

theorem twoWalks_children : ∃ v', nestedWalks twoWalks = some v' ∧
    childNames v' (readSuperblock samplePartition sampleBoot emptyVfs).1.root =
      [[0x41, 0x2e, 0x54, 0x58, 0x54], [0x41, 0x2e, 0x54, 0x58, 0x54]] := by
  have hNames : (nestedWalks twoWalks).map (fun v' =>
      childNames v' (readSuperblock samplePartition sampleBoot emptyVfs).1.root) =
      some [[0x41, 0x2e, 0x54, 0x58, 0x54], [0x41, 0x2e, 0x54, 0x58, 0x54]] := by
    unfold nestedWalks twoWalks
    simp only [runWalks, pathWalk_eq]
    decide +kernel
  exact Option.map_eq_some_iff.mp hNames

theorem children_not_distinct : ¬ ∀ (dpte : PartitionEntry) (fbs : BootSector) (disk : Disk)
    (memory : Memory) (fuel : Nat) (walks : List (List Byte × BitVec 64)) (v v' : Vfs FatInode),
    Valid dpte fbs →
    runWalks (fatLookup (readSuperblock dpte fbs v).1.sbInfo disk memory fuel)
      (readSuperblock dpte fbs v).1.root walks (readSuperblock dpte fbs v).2 = some v' →
    ∀ p, Below v' (readSuperblock dpte fbs v).1.root p → (childNames v' p).Nodup := by
  intro h
  obtain ⟨v', hRun, hNames⟩ := twoWalks_children
  have hDistinct := h samplePartition sampleBoot nestedDisk (fun _ _ => 0) 1 twoWalks emptyVfs v'
    sample_valid hRun _ .root
  rw [hNames] at hDistinct
  exact absurd hDistinct (by decide)

theorem children_distinct_iff_once : ∃ v', nestedWalks twoWalks.tail = some v' ∧
    (childNames v' (readSuperblock samplePartition sampleBoot emptyVfs).1.root).Nodup := by
  have hSome : (nestedWalks twoWalks.tail).isSome := by
    unfold nestedWalks twoWalks
    simp only [List.tail_cons, runWalks, pathWalk_eq]
    decide +kernel
  obtain ⟨v', hRun⟩ := Option.isSome_iff_exists.mp hSome
  refine ⟨v', hRun, ?_⟩
  apply (children_distinct_iff samplePartition sampleBoot nestedDisk (fun _ _ => 0) 1 twoWalks.tail
    emptyVfs v' hRun).2.mpr
  unfold twoWalks
  simp only [List.tail_cons, firstNames, pathWalk_eq]
  decide +kernel

end KalinoteOS.Fat32
