import KalinoteOS.Fat32.PathWalk

/-! # What a walk resolves

For a lookup that is a partial function of directory and name: the walk fails where a component is not
found, and else it leaves a chain of new entries, one for each component.
-/
namespace KalinoteOS.Fat32
set_option autoImplicit false

section
variable {ι : Type}

/-- A lookup that only depends on the directory and the name. -/
def pureLookup (f : ι → List Byte → Option ι) : LookupOp ι := fun dir d heap => some (f dir d.name, heap)

/-- What the names lead to. -/
def reached (f : ι → List Byte → Option ι) (dir : ι) : List (List Byte) → Option ι
  | [] => some dir
  | c :: cs => (f dir c).bind fun inode => reached f inode cs

/-- The entries `nodes` are a chain of children from `parent` on, with these names. -/
inductive ParentChain (f : ι → List Byte → Option ι) (v : Vfs ι) : ι → Nat → List Nat → List (List Byte) →
    Prop where
  | nil (dir : ι) (parent : Nat) : ParentChain f v dir parent [] []
  | cons {dir inode : ι} {parent a : Nat} {nodes : List Nat} {c : List Byte} {cs : List (List Byte)}
      (hParent : (v.dentry a).parent = parent) (hName : (v.dentry a).name = c)
      (hLength : (v.dentry a).nameLength = c.length) (hFound : f dir c = some inode)
      (hInode : (v.dentry a).dirInode = some inode) (hRest : ParentChain f v inode a nodes cs) :
      ParentChain f v dir parent (a :: nodes) (c :: cs)

/-- The same entry, up to its children. -/
structure Kept (d d' : Dentry ι) : Prop where
  name : d'.name = d.name
  nameObject : d'.nameObject = d.nameObject
  nameLength : d'.nameLength = d.nameLength
  dirInode : d'.dirInode = d.dirInode
  parent : d'.parent = d.parent

/-- What a walk that finds all names has done: two new objects for each, the entries linked, and of the
other entries only the children of `root` changed. -/
structure Walked (f : ι → List Byte → Option ι) (dir : ι) (root : Nat) (v v' : Vfs ι) (nodes : List Nat)
    (cs : List (List Byte)) : Prop where
  chain : ParentChain f v' dir root nodes cs
  fresh : ∀ a ∈ nodes, v.heap.taken ≤ a
  increasing : nodes.Pairwise (· < ·)
  taken : v'.heap.taken = v.heap.taken + 2 * nodes.length
  freed : v'.heap.freed = v.heap.freed
  linked : v'.linked = nodes.reverse ++ v.linked
  kept : ∀ a < v.heap.taken, Kept (v.dentry a) (v'.dentry a)
  others : ∀ a < v.heap.taken, a ≠ root → v'.dentry a = v.dentry a

/-- Which of the entries the walk returns: the last, or with bit 0 of the flags the one before it. -/
def target (flags : BitVec 64) (root : Nat) (nodes : List Nat) : Nat :=
  if flags &&& 1 ≠ 0 then (root :: nodes).dropLast.getLastD root else (root :: nodes).getLastD root

/-- Some name is not found in the directory that the names before it lead to. -/
def Fails (f : ι → List Byte → Option ι) (dir : ι) (names : List (List Byte)) : Prop :=
  ∃ cs c cs' d, names = cs ++ c :: cs' ∧ reached f dir cs = some d ∧ f d c = none

section
variable {f : ι → List Byte → Option ι} {v : Vfs ι} {parent : Nat} {dir inode : ι} {c : List Byte}

theorem fails_nil : ¬ Fails f dir [] := by
  rintro ⟨cs, c, cs', d, hEq, -, -⟩
  exact List.cons_ne_nil _ _ (List.append_eq_nil_iff.mp hEq.symm).2

theorem fails_cons {cs : List (List Byte)} (hFound : f dir c = some inode) :
    Fails f dir (c :: cs) ↔ Fails f inode cs := by
  constructor
  · rintro ⟨front, c', back, d, hEq, hReached, hNone⟩
    cases front with
    | nil =>
      cases hEq
      cases hReached
      rw [hFound] at hNone
      cases hNone
    | cons b front =>
      cases hEq
      rw [reached, hFound, Option.bind_some] at hReached
      exact ⟨front, c', back, d, rfl, hReached, hNone⟩
  · rintro ⟨front, c', back, d, rfl, hReached, hNone⟩
    refine ⟨c :: front, c', back, d, rfl, ?_, hNone⟩
    rw [reached, hFound, Option.bind_some]
    exact hReached

theorem target_cons (flags : BitVec 64) {root a : Nat} {nodes : List Nat} :
    target flags root (a :: nodes) =
      if nodes = [] then (if flags &&& 1 ≠ 0 then root else a) else target flags a nodes := by
  unfold target
  cases nodes with
  | nil => simp
  | cons b nodes => simp [List.getLast?_cons]

theorem Walked.cons {v₁ v' : Vfs ι} {nodes : List Nat} {cs : List (List Byte)} (hOld : parent < v.heap.taken)
    (hFound : f dir c = some inode) (hLinked : Linked v v₁ parent c inode ⟨v.heap.taken + 2, v.heap.freed⟩)
    (h : Walked f inode v.heap.taken v₁ v' nodes cs) :
    Walked f dir parent v v' (v.heap.taken :: nodes) (c :: cs) := by
  have hMore : v₁.heap.taken = v.heap.taken + 2 := congrArg Heap.taken hLinked.heap
  have hFresh := h.fresh
  have hTaken := h.taken
  have hNew := h.kept v.heap.taken (by omega)
  rw [hLinked.entry] at hNew
  constructor
  · exact ParentChain.cons hNew.parent hNew.name hNew.nameLength hFound hNew.dirInode h.chain
  · intro a ha
    obtain rfl | hIn := List.mem_cons.mp ha
    · exact Nat.le_refl _
    · have hLe := hFresh a hIn
      omega
  · refine List.pairwise_cons.mpr ⟨fun a ha => ?_, h.increasing⟩
    have hLe := hFresh a ha
    omega
  · rw [List.length_cons]
    omega
  · rw [h.freed, hLinked.heap]
  · rw [h.linked, hLinked.linked, List.reverse_cons, List.append_assoc]
    rfl
  · intro a ha
    have hKept := h.kept a (by omega)
    by_cases hIs : a = parent
    · subst hIs
      rw [hLinked.parentEntry] at hKept
      exact ⟨hKept.name, hKept.nameObject, hKept.nameLength, hKept.dirInode, hKept.parent⟩
    · rw [hLinked.others a ha hIs] at hKept
      exact hKept
  · intro a ha hNot
    rw [h.others a (by omega) (by omega), hLinked.others a ha hNot]

theorem Walked.nodes_nil {v' : Vfs ι} {nodes : List Nat} {cs : List (List Byte)}
    (h : Walked f dir parent v v' nodes cs) : nodes = [] ↔ cs = [] := by
  have hChain := h.chain
  cases hChain with
  | nil => exact ⟨fun _ => rfl, fun _ => rfl⟩
  | cons => exact ⟨nofun, nofun⟩

theorem walkNames_spec (flags : BitVec 64) {cs : List (List Byte)}
    (hDir : (v.dentry parent).dirInode = some dir) (hOld : parent < v.heap.taken) :
    ∃ out v', walkNames (pureLookup f) flags v parent cs = some (out, v') ∧ (out = none ↔ Fails f dir cs) ∧
      ∀ found, out = some found → ∃ nodes, Walked f dir parent v v' nodes cs ∧
        found = target flags parent nodes := by
  induction cs generalizing v parent dir with
  | nil =>
    refine ⟨_, _, rfl, ⟨fun hEq => absurd hEq (Option.some_ne_none _), fun h => absurd h fails_nil⟩, ?_⟩
    rintro found ⟨rfl⟩
    refine ⟨[], ⟨ParentChain.nil _ _, fun a ha => absurd ha List.not_mem_nil, List.Pairwise.nil, rfl, rfl, rfl,
      ?_, fun _ _ _ => rfl⟩, ?_⟩
    · intro a _
      exact ⟨rfl, rfl, rfl, rfl, rfl⟩
    · simp [target]
  | cons c cs ih =>
    cases hFound : f dir c with
    | none =>
      have hMissing : pureLookup f dir (v.newDentry c) ⟨v.heap.taken + 2, v.heap.freed⟩ =
          some (none, ⟨v.heap.taken + 2, v.heap.freed⟩) := by
        rw [← hFound]
        rfl
      rw [walkNames, resolveName_missing hDir hMissing]
      exact ⟨_, _, rfl, ⟨fun _ => ⟨[], c, cs, dir, rfl, rfl, hFound⟩, fun _ => rfl⟩,
        fun found hEq => absurd hEq.symm (Option.some_ne_none found)⟩
    | some inode =>
      have hLookup : pureLookup f dir (v.newDentry c) ⟨v.heap.taken + 2, v.heap.freed⟩ =
          some (some inode, ⟨v.heap.taken + 2, v.heap.freed⟩) := by
        rw [← hFound]
        rfl
      obtain ⟨v₁, hResolve, hLinked⟩ := resolveName_found hDir hOld hLookup
      have hDir' : (v₁.dentry v.heap.taken).dirInode = some inode := by rw [hLinked.entry]
      have hOld' : v.heap.taken < v₁.heap.taken := by
        rw [hLinked.heap]
        exact Nat.lt_add_of_pos_right (by decide)
      obtain ⟨out, v', hRun, hOut, hAll⟩ := ih hDir' hOld'
      rw [walkNames, hResolve, fails_cons hFound]
      dsimp only
      by_cases hEmpty : cs = []
      · subst hEmpty
        cases hRun
        obtain ⟨nodes, hWalked, -⟩ := hAll _ rfl
        rw [if_pos rfl]
        refine ⟨_, _, rfl, ⟨fun hEq => absurd hEq (Option.some_ne_none _), fun h => absurd h fails_nil⟩, ?_⟩
        rintro found ⟨rfl⟩
        refine ⟨_, hWalked.cons hOld hFound hLinked, ?_⟩
        rw [target_cons, if_pos (hWalked.nodes_nil.mpr rfl)]
      · rw [if_neg hEmpty]
        refine ⟨out, v', hRun, hOut, fun found hEq => ?_⟩
        obtain ⟨nodes, hWalked, hTarget⟩ := hAll found hEq
        refine ⟨_, hWalked.cons hOld hFound hLinked, ?_⟩
        rw [target_cons, if_neg fun hNil => hEmpty (hWalked.nodes_nil.mp hNil)]
        exact hTarget

end

/-- The walk resolves the components of the path one after the other. -/
theorem pathWalk_resolves (f : ι → List Byte → Option ι) (v : Vfs ι) (root : Nat) (dir : ι) (flags : BitVec 64)
    (name : List Byte) (hRoot : (v.dentry root).dirInode = some dir) (hOld : root < v.heap.taken) :
    ∃ out v', pathWalk (pureLookup f) flags v root name = some (out, v') ∧
      (out = none ↔ Fails f dir (components name)) ∧
      ∀ found, out = some found →
        ∃ nodes, Walked f dir root v v' nodes (components name) ∧ found = target flags root nodes := by
  rw [pathWalk_eq]
  exact walkNames_spec flags hRoot hOld

end

/-! ## A walk with repeated slashes -/

/-- A root directory that is its own parent. -/
def sampleVfs : Vfs Nat := ⟨⟨2, []⟩, fun _ => ⟨[slash], 1, 1, some 0, 0, []⟩, []⟩

/-- `//a//b/`, with the parent asked for. -/
theorem pathWalk_resolves_slashes :
    ∃ out v', pathWalk (pureLookup fun dir _ => some (dir + 1)) 1 sampleVfs 0
        [slash, slash, 0x61, slash, slash, 0x62, slash] = some (out, v') ∧
      (out = none ↔ Fails (fun dir _ => some (dir + 1)) 0
        (components [slash, slash, 0x61, slash, slash, 0x62, slash])) ∧
      ∀ found, out = some found →
        ∃ nodes, Walked (fun dir _ => some (dir + 1)) 0 0 sampleVfs v' nodes
          (components [slash, slash, 0x61, slash, slash, 0x62, slash]) ∧ found = target 1 0 nodes :=
  pathWalk_resolves (fun dir _ => some (dir + 1)) sampleVfs 0 0 1
    [slash, slash, 0x61, slash, slash, 0x62, slash] rfl (by decide)

end KalinoteOS.Fat32
