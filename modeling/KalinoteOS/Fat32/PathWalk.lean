import KalinoteOS.Fat32.Compare
import Mathlib.Logic.Function.Basic
import Mathlib.Data.List.TakeWhile

/-! # `path_walk`

The walk cuts the path into names while it goes along, and makes a directory entry for each. Seen from
outside it is a walk over the list of the components.
-/
namespace KalinoteOS.Fat32
open Lib
set_option autoImplicit false

/-- The objects from `kmalloc`, numbered by its calls, and those that were given to `kfree`. -/
structure Heap where
  taken : Nat
  freed : List Nat
  deriving DecidableEq, Repr

def Heap.kmalloc (h : Heap) : Nat × Heap := (h.taken, { h with taken := h.taken + 1 })
def Heap.kfree (h : Heap) (p : Nat) : Heap := { h with freed := p :: h.freed }

section
variable (ι : Type)

/-- `struct dir_entry`: `name` are the characters of the object `nameObject`, the links of `child_node`
are those of the list `subdirs` of the parent. -/
structure Dentry where
  name : List Byte
  nameObject : Nat
  nameLength : Nat
  dirInode : Option ι
  parent : Nat
  subdirs : List Nat

/-- The directory entries by their objects; `linked` are those that walks have linked to a parent, the
last one first. -/
structure Vfs where
  heap : Heap
  dentry : Nat → Dentry ι
  linked : List Nat

/-- `lookup` of the inode operations: an inode for the new entry, or `NULL`; no value if it does not
return. -/
abbrev LookupOp := ι → Dentry ι → Heap → Option (Option ι × Heap)

end

def slash : Byte := 0x2f

section
variable {ι : Type}

/-- The new entry is complete; its parent gets it at the front of `subdirs_list`. -/
def Vfs.link (v : Vfs ι) (path parent : Nat) (d : Dentry ι) (inode : ι) : Vfs ι :=
  let added := Function.update v.dentry path { d with dirInode := some inode, parent := parent }
  let p := added parent
  { v with
    dentry := Function.update added parent { p with subdirs := path :: p.subdirs }
    linked := path :: v.linked }

/-- What the loop does for one name: the new entry is looked up and linked, or freed again. -/
def resolveName (lookup : LookupOp ι) (v : Vfs ι) (parent : Nat) (name : List Byte) :
    Option (Option Nat × Vfs ι) :=
  match (v.dentry parent).dirInode with
  | none => none
  | some dir =>
    let (path, heap) := v.heap.kmalloc
    let (nameObject, heap) := heap.kmalloc
    let d : Dentry ι := ⟨name, nameObject, name.length, none, 0, []⟩
    match lookup dir d heap with
    | none => none
    | some (none, heap) => some (none, { v with heap := (heap.kfree nameObject).kfree path })
    | some (some inode, heap) => some (some path, Vfs.link { v with heap := heap } path parent d inode)

theorem head_skip {l rest : List Byte} {c : Byte} (h : l.dropWhile (· = slash) = c :: rest) : c ≠ slash := by
  have hHead := List.head_dropWhile_not (· = slash) (l := l) (by rw [h]; exact List.cons_ne_nil _ _)
  simp only [h, List.head_cons] at hHead
  exact of_decide_eq_false hHead

theorem head_scan {l rest : List Byte} {c : Byte} (h : l.dropWhile (· ≠ slash) = c :: rest) : c = slash := by
  have hHead := List.head_dropWhile_not (· ≠ slash) (l := l) (by rw [h]; exact List.cons_ne_nil _ _)
  simp only [h, List.head_cons] at hHead
  exact not_not.mp (of_decide_eq_false hHead)

theorem length_skip {l : List Byte} (h : l.dropWhile (· ≠ slash) ≠ []) :
    ((l.dropWhile (· ≠ slash)).dropWhile (· = slash)).length < l.length := by
  have hLe := (List.dropWhile_suffix (· ≠ slash) (l := l)).length_le
  cases hRest : l.dropWhile (· ≠ slash) with
  | nil => exact absurd hRest h
  | cons c rest =>
    have hSlash := head_scan hRest
    have hMore := (List.dropWhile_suffix (· = slash) (l := rest)).length_le
    rw [hRest, List.length_cons] at hLe
    rw [List.dropWhile_cons_of_pos (by simp [hSlash])]
    omega

/-- A name begins where the slashes end. -/
theorem scan_ne_nil {l : List Byte} (h : l.dropWhile (· = slash) ≠ []) :
    (l.dropWhile (· = slash)).takeWhile (· ≠ slash) ≠ [] := by
  cases hRest : l.dropWhile (· = slash) with
  | nil => exact absurd hRest h
  | cons c rest =>
    rw [List.takeWhile_cons_of_pos (by simp [head_skip hRest])]
    exact List.cons_ne_nil _ _

/-- The loop, from the first character of a name on. -/
def walkLoop (lookup : LookupOp ι) (flags : BitVec 64) (v : Vfs ι) (parent : Nat) (name : List Byte) :
    Option (Option Nat × Vfs ι) :=
  let rest := name.dropWhile (· ≠ slash)
  match resolveName lookup v parent (name.takeWhile (· ≠ slash)) with
  | none => none
  | some (none, v) => some (none, v)
  | some (some path, v) =>
    let last := some (some (if flags &&& 1 ≠ 0 then parent else path), v)
    if _h : rest = [] then last
    else if rest.dropWhile (· = slash) = [] then last
    else walkLoop lookup flags v path (rest.dropWhile (· = slash))
  termination_by name.length
  decreasing_by exact length_skip _h

def pathWalk (lookup : LookupOp ι) (flags : BitVec 64) (v : Vfs ι) (root : Nat) (name : List Byte) :
    Option (Option Nat × Vfs ι) :=
  let name := name.dropWhile (· = slash)
  if name = [] then some (some root, v) else walkLoop lookup flags v root name

/-! ## Components -/

/-- The names between the slashes. -/
def components (name : List Byte) : List (List Byte) := (name.splitOn slash).filter (· ≠ [])

/-- The walk over a list of names. -/
def walkNames (lookup : LookupOp ι) (flags : BitVec 64) (v : Vfs ι) (parent : Nat) :
    List (List Byte) → Option (Option Nat × Vfs ι)
  | [] => some (some parent, v)
  | c :: cs =>
    match resolveName lookup v parent c with
    | none => none
    | some (none, v) => some (none, v)
    | some (some path, v) =>
      if cs = [] then some (some (if flags &&& 1 ≠ 0 then parent else path), v)
      else walkNames lookup flags v path cs

theorem components_skip (l : List Byte) : components (l.dropWhile (· = slash)) = components l := by
  induction l with
  | nil => rfl
  | cons c l ih =>
    by_cases hSlash : c = slash
    · rw [List.dropWhile_cons_of_pos (by simp [hSlash]), ih, hSlash]
      unfold components
      rw [List.splitOn_cons_eq_if_modifyHead, if_pos (by simp)]
      rfl
    · rw [List.dropWhile_cons_of_neg (by simp [hSlash])]

theorem components_cons {l : List Byte} (hName : l.takeWhile (· ≠ slash) ≠ []) :
    components l = l.takeWhile (· ≠ slash) :: components (l.dropWhile (· ≠ slash)) := by
  have hNot : slash ∉ l.takeWhile (· ≠ slash) := by
    intro hIn
    have hOther := List.mem_takeWhile_imp hIn
    exact absurd rfl (of_decide_eq_true hOther)
  have hAll : l.takeWhile (· ≠ slash) ++ l.dropWhile (· ≠ slash) = l := List.takeWhile_append_dropWhile
  cases hRest : l.dropWhile (· ≠ slash) with
  | nil =>
    rw [hRest, List.append_nil] at hAll
    rw [hAll] at hNot hName ⊢
    unfold components
    rw [List.splitOn_eq_singleton hNot]
    simp [hName]
  | cons c rest =>
    have hSplit : components (l.takeWhile (· ≠ slash) ++ slash :: rest) =
        l.takeWhile (· ≠ slash) :: components (slash :: rest) := by
      unfold components
      rw [List.splitOn_append_cons_self_of_not_mem hNot, List.splitOn_cons_eq_if_modifyHead, if_pos (by simp)]
      exact List.filter_cons_of_pos (p := fun name => decide (name ≠ [])) (decide_eq_true hName)
    rw [hRest, head_scan hRest] at hAll
    rw [hAll] at hSplit
    rw [head_scan hRest]
    exact hSplit

theorem components_nil : components [] = [] := rfl

theorem components_ne_nil {l : List Byte} (hNe : l.dropWhile (· = slash) ≠ []) : components l ≠ [] := by
  rw [← components_skip, components_cons (scan_ne_nil hNe)]
  exact List.cons_ne_nil _ _

theorem walkLoop_eq (lookup : LookupOp ι) (flags : BitVec 64) (v : Vfs ι) (parent : Nat) (name : List Byte)
    (hName : name.takeWhile (· ≠ slash) ≠ []) :
    walkLoop lookup flags v parent name = walkNames lookup flags v parent (components name) := by
  induction hLength : name.length using Nat.strongRecOn generalizing v parent name with
  | ind size ih =>
    rw [walkLoop, components_cons hName, walkNames]
    cases hResolve : resolveName lookup v parent (name.takeWhile (· ≠ slash)) with
    | none => rfl
    | some out =>
      obtain ⟨found, v'⟩ := out
      cases found with
      | none => rfl
      | some path =>
        dsimp only
        by_cases hEnd : name.dropWhile (· ≠ slash) = []
        · rw [dif_pos hEnd, hEnd, if_pos components_nil]
        · rw [dif_neg hEnd, ← components_skip (name.dropWhile (· ≠ slash))]
          have hLess := length_skip hEnd
          by_cases hSlashes : (name.dropWhile (· ≠ slash)).dropWhile (· = slash) = []
          · rw [if_pos hSlashes, hSlashes, if_pos components_nil]
          · have hMore := components_ne_nil hSlashes
            rw [← components_skip] at hMore
            rw [if_neg hSlashes, if_neg hMore]
            exact ih _ (by omega) _ _ _ (scan_ne_nil hSlashes) rfl

/-- The walk is the walk over the components. -/
theorem pathWalk_eq (lookup : LookupOp ι) (flags : BitVec 64) (v : Vfs ι) (root : Nat) (name : List Byte) :
    pathWalk lookup flags v root name = walkNames lookup flags v root (components name) := by
  unfold pathWalk
  dsimp only
  by_cases hEmpty : name.dropWhile (· = slash) = []
  · rw [if_pos hEmpty, ← components_skip, hEmpty, components_nil, walkNames]
  · rw [if_neg hEmpty, ← components_skip]
    exact walkLoop_eq lookup flags v root _ (scan_ne_nil hEmpty)

/-! ## One name -/

section
variable {lookup : LookupOp ι} {v v₁ : Vfs ι} {parent : Nat} {c : List Byte} {dir inode : ι} {heap : Heap}

/-- The entry that is looked up. -/
def Vfs.newDentry (v : Vfs ι) (c : List Byte) : Dentry ι := ⟨c, v.heap.taken + 1, c.length, none, 0, []⟩

/-- The name is found: there is a new entry with its inode, in front of its parent's children. -/
structure Linked (v v₁ : Vfs ι) (parent : Nat) (c : List Byte) (inode : ι) (heap : Heap) : Prop where
  heap : v₁.heap = heap
  linked : v₁.linked = v.heap.taken :: v.linked
  entry : v₁.dentry v.heap.taken = { v.newDentry c with dirInode := some inode, parent := parent }
  parentEntry : v₁.dentry parent = { v.dentry parent with subdirs := v.heap.taken :: (v.dentry parent).subdirs }
  others : ∀ a < v.heap.taken, a ≠ parent → v₁.dentry a = v.dentry a

theorem link_linked (hOld : parent < v.heap.taken) :
    Linked v (Vfs.link { v with heap := heap } v.heap.taken parent (v.newDentry c) inode) parent c inode
      heap := by
  have hNe : v.heap.taken ≠ parent := Nat.ne_of_gt hOld
  constructor
  · rfl
  · rfl
  · simp [Vfs.link, hNe]
  · simp [Vfs.link, Ne.symm hNe]
  · intro a ha hNot
    simp [Vfs.link, Nat.ne_of_lt ha, hNot]

theorem resolveName_found (hDir : (v.dentry parent).dirInode = some dir) (hOld : parent < v.heap.taken)
    (hFound : lookup dir (v.newDentry c) ⟨v.heap.taken + 2, v.heap.freed⟩ = some (some inode, heap)) :
    ∃ v₁, resolveName lookup v parent c = some (some v.heap.taken, v₁) ∧ Linked v v₁ parent c inode heap := by
  refine ⟨_, ?_, link_linked hOld⟩
  unfold Vfs.newDentry at hFound
  simp only [resolveName, hDir, Heap.kmalloc, hFound]
  rfl

theorem resolveName_missing (hDir : (v.dentry parent).dirInode = some dir)
    (hMissing : lookup dir (v.newDentry c) ⟨v.heap.taken + 2, v.heap.freed⟩ = some (none, heap)) :
    resolveName lookup v parent c =
      some (none, { v with heap := (heap.kfree (v.heap.taken + 1)).kfree v.heap.taken }) := by
  unfold Vfs.newDentry at hMissing
  simp only [resolveName, hDir, Heap.kmalloc, hMissing]

/-- What the loop can do for one name. -/
theorem resolveName_cases {out : Option Nat} (h : resolveName lookup v parent c = some (out, v₁))
    (hOld : parent < v.heap.taken) :
    ∃ dir heap, (v.dentry parent).dirInode = some dir ∧
      ((lookup dir (v.newDentry c) ⟨v.heap.taken + 2, v.heap.freed⟩ = some (none, heap) ∧ out = none ∧
          v₁ = { v with heap := (heap.kfree (v.heap.taken + 1)).kfree v.heap.taken }) ∨
        ∃ inode, lookup dir (v.newDentry c) ⟨v.heap.taken + 2, v.heap.freed⟩ = some (some inode, heap) ∧
          out = some v.heap.taken ∧ Linked v v₁ parent c inode heap) := by
  cases hDir : (v.dentry parent).dirInode with
  | none => simp [resolveName, hDir] at h
  | some dir =>
    cases hLookup : lookup dir (v.newDentry c) ⟨v.heap.taken + 2, v.heap.freed⟩ with
    | none =>
      unfold Vfs.newDentry at hLookup
      simp [resolveName, hDir, Heap.kmalloc, hLookup] at h
    | some result =>
      obtain ⟨found, heap⟩ := result
      cases found with
      | none =>
        rw [resolveName_missing hDir hLookup] at h
        cases h
        exact ⟨dir, heap, rfl, Or.inl ⟨hLookup, rfl, rfl⟩⟩
      | some inode =>
        obtain ⟨v₂, hResolve, hLinked⟩ := resolveName_found hDir hOld hLookup
        rw [hResolve] at h
        cases h
        exact ⟨dir, heap, rfl, Or.inr ⟨inode, hLookup, rfl, hLinked⟩⟩

theorem walkNames_cases {flags : BitVec 64} {cs : List (List Byte)} {out : Option Nat} {v' : Vfs ι}
    (h : walkNames lookup flags v parent (c :: cs) = some (out, v')) (hOld : parent < v.heap.taken) :
    ∃ dir heap, (v.dentry parent).dirInode = some dir ∧
      ((lookup dir (v.newDentry c) ⟨v.heap.taken + 2, v.heap.freed⟩ = some (none, heap) ∧
          resolveName lookup v parent c = some (none, v') ∧ out = none ∧
          v' = { v with heap := (heap.kfree (v.heap.taken + 1)).kfree v.heap.taken }) ∨
        ∃ inode v₁, lookup dir (v.newDentry c) ⟨v.heap.taken + 2, v.heap.freed⟩ = some (some inode, heap) ∧
          resolveName lookup v parent c = some (some v.heap.taken, v₁) ∧
          Linked v v₁ parent c inode heap ∧
          ((cs = [] ∧ v' = v₁) ∨ cs ≠ [] ∧ walkNames lookup flags v₁ v.heap.taken cs = some (out, v'))) := by
  rw [walkNames] at h
  cases hResolve : resolveName lookup v parent c with
  | none =>
    rw [hResolve] at h
    cases h
  | some result =>
    obtain ⟨found, v₁⟩ := result
    rw [hResolve] at h
    obtain ⟨dir, heap, hDir, ⟨hLookup, rfl, rfl⟩ | ⟨inode, hLookup, rfl, hLinked⟩⟩ :=
      resolveName_cases hResolve hOld
    · cases h
      exact ⟨dir, heap, hDir, Or.inl ⟨hLookup, rfl, rfl, rfl⟩⟩
    · refine ⟨dir, heap, hDir, Or.inr ⟨inode, v₁, hLookup, rfl, hLinked, ?_⟩⟩
      dsimp only at h
      split at h
      · next hLast =>
        cases h
        exact Or.inl ⟨hLast, rfl⟩
      · next hMore => exact Or.inr ⟨hMore, h⟩

end

end

end KalinoteOS.Fat32
