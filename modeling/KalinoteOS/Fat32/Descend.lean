import KalinoteOS.Fat32.Mount
import KalinoteOS.Fat32.Searched

/-! # Which entries a walk descends into

Neither the walk nor the lookup asks whether an inode is that of a directory. A walk goes through a
regular file exactly when the contents of one can be taken for directory entries.
-/
namespace KalinoteOS.Fat32
open Lib
set_option autoImplicit false

/-- A name between slashes. -/
structure IsName (c : List Byte) : Prop where
  nonempty : c ≠ []
  noSlash : slash ∉ c
  noEnd : (0 : Byte) ∉ c

/-- The lookup of the name in `dir` can return `i`. -/
def Finds (fsbi : SbInfo) (disk : Disk) (dir : Inode) (N : List Byte) (i : Inode) : Prop :=
  ∃ around behind fuel, lookup fsbi disk around (searchName N behind) fuel dir.info = some (some i)

/-- The inodes that directories lead to. -/
inductive Reaches (fsbi : SbInfo) (disk : Disk) (root : Inode) : Inode → Prop where
  | root : Reaches fsbi disk root root
  | step {dir i : Inode} {N : List Byte} (hDir : Reaches fsbi disk root dir) (hIs : dir.attr = fsAttrDir)
      (hName : IsName N) (hFinds : Finds fsbi disk dir N i) : Reaches fsbi disk root i

/-- In no cluster of the FAT chain of the inode is, read as a directory, a live entry that matches the name. -/
def Opaque (fsbi : SbInfo) (disk : Disk) (i : Inode) (N : List Byte) : Prop :=
  ∀ (around : Int → Byte) (behind : Nat → Byte) (k c : Nat),
    chain (followFAT fsbi disk) (i.info.firstCluster % 2 ^ 32) k = some c → ∀ e < fsbi.entries,
      Live (clusterBuffer fsbi disk around c) e →
        ¬ Matches (searchName N behind) (clusterBuffer fsbi disk around c) e

/-- The contents of the regular files do not look like directory entries. -/
def FilesOpaque (dpte : PartitionEntry) (fbs : BootSector) (disk : Disk) : Prop :=
  ∀ i, Reaches (readSbInfo dpte fbs) disk (rootInode (readSbInfo dpte fbs) fbs) i → i.attr ≠ fsAttrDir →
    ∀ N, IsName N → Opaque (readSbInfo dpte fbs) disk i N

/-- Of the entries that the walk has linked all but the last have the inode of a directory. -/
def Descends (v v' : Vfs FatInode) : Prop :=
  ∃ nodes, v'.linked = nodes ++ v.linked ∧
    ∀ a ∈ nodes.tail, ∃ node, (v'.dentry a).dirInode = some node ∧ node.inode.attr = fsAttrDir

/-- The walks from the root of the mounted volume that return an entry descend into directories only. -/
def DirectoriesOnly (dpte : PartitionEntry) (fbs : BootSector) (disk : Disk) : Prop :=
  ∀ (memory : Memory) (fuel : Nat) (v v' : Vfs FatInode) (root found : Nat) (node : FatInode)
    (flags : BitVec 64) (name : List Byte), (0 : Byte) ∉ name → root < v.heap.taken →
    (v.dentry root).dirInode = some node → node.inode = rootInode (readSbInfo dpte fbs) fbs →
    pathWalk (fatLookup (readSbInfo dpte fbs) disk memory fuel) flags v root name = some (some found, v') →
    Descends v v'

section
variable {fsbi : SbInfo} {disk : Disk}

/-! ## Names and paths -/

theorem mem_splitOn {l c : List Byte} (h : c ∈ l.splitOn slash) : slash ∉ c ∧ ∀ x ∈ c, x ∈ l := by
  induction l generalizing c with
  | nil =>
    rw [List.splitOn_eq_singleton (by simp), List.mem_singleton] at h
    subst h
    exact ⟨by simp, nofun⟩
  | cons b l ih =>
    rw [List.splitOn_cons_eq_if_modifyHead] at h
    by_cases hSlash : b = slash
    · rw [if_pos (by simp [hSlash])] at h
      obtain rfl | hIn := List.mem_cons.mp h
      · exact ⟨by simp, nofun⟩
      · exact ⟨(ih hIn).1, fun x hx => List.mem_cons_of_mem _ ((ih hIn).2 x hx)⟩
    · rw [if_neg (by simp [hSlash])] at h
      cases hSplit : l.splitOn slash with
      | nil => exact absurd hSplit (List.splitOn_ne_nil slash l)
      | cons first rest =>
        rw [hSplit, List.modifyHead_cons] at h
        rw [hSplit] at ih
        obtain rfl | hIn := List.mem_cons.mp h
        · obtain ⟨hNot, hAll⟩ := ih List.mem_cons_self
          refine ⟨fun hIn => ?_, fun x hx => ?_⟩
          · obtain hEq | hLater := List.mem_cons.mp hIn
            · exact hSlash hEq.symm
            · exact hNot hLater
          · obtain rfl | hLater := List.mem_cons.mp hx
            · exact List.mem_cons_self
            · exact List.mem_cons_of_mem _ (hAll x hLater)
        · obtain ⟨hNot, hAll⟩ := ih (List.mem_cons_of_mem _ hIn)
          exact ⟨hNot, fun x hx => List.mem_cons_of_mem _ (hAll x hx)⟩

theorem isName_of_mem {name c : List Byte} (hEnd : (0 : Byte) ∉ name) (hc : c ∈ components name) : IsName c := by
  obtain ⟨hSplit, hNe⟩ := List.mem_filter.mp hc
  obtain ⟨hNot, hAll⟩ := mem_splitOn hSplit
  exact ⟨of_decide_eq_true hNe, hNot, fun hIn => hEnd (hAll _ hIn)⟩

/-- The path of some names. -/
def pathOf (names : List (List Byte)) : List Byte := names.flatMap (slash :: ·)

theorem components_slash (l : List Byte) : components (slash :: l) = components l := by
  unfold components
  rw [List.splitOn_cons_eq_if_modifyHead, if_pos (by simp)]
  rfl

theorem scan_pathOf (names : List (List Byte)) :
    (pathOf names).takeWhile (· ≠ slash) = [] ∧ (pathOf names).dropWhile (· ≠ slash) = pathOf names := by
  cases names with
  | nil => exact ⟨rfl, rfl⟩
  | cons c names =>
    have hPath : pathOf (c :: names) = slash :: (c ++ pathOf names) := rfl
    rw [hPath]
    exact ⟨List.takeWhile_cons_of_neg (by simp), List.dropWhile_cons_of_neg (by simp)⟩

theorem components_pathOf {names : List (List Byte)} (h : ∀ c ∈ names, IsName c) :
    components (pathOf names) = names := by
  induction names with
  | nil => rfl
  | cons c names ih =>
    have hName := h c List.mem_cons_self
    have hPath : pathOf (c :: names) = slash :: (c ++ pathOf names) := rfl
    have hChars : ∀ x ∈ c, decide (x ≠ slash) = true := by
      intro x hx
      exact decide_eq_true fun hEq => hName.noSlash (hEq ▸ hx)
    obtain ⟨hTake, hDrop⟩ := scan_pathOf names
    have hFirst : (c ++ pathOf names).takeWhile (· ≠ slash) = c := by
      rw [List.takeWhile_append_of_pos hChars, hTake, List.append_nil]
    have hRest : (c ++ pathOf names).dropWhile (· ≠ slash) = pathOf names := by
      rw [List.dropWhile_append_of_pos hChars, hDrop]
    have hNe : (c ++ pathOf names).takeWhile (· ≠ slash) ≠ [] := by
      rw [hFirst]
      exact hName.nonempty
    rw [hPath, components_slash, components_cons hNe, hFirst, hRest,
      ih fun d hd => h d (List.mem_cons_of_mem _ hd)]

theorem noEnd_pathOf {names : List (List Byte)} (h : ∀ c ∈ names, IsName c) : (0 : Byte) ∉ pathOf names := by
  intro hIn
  obtain ⟨c, hc, hZero⟩ := List.mem_flatMap.mp hIn
  obtain hSlash | hLater := List.mem_cons.mp hZero
  · exact absurd hSlash (by decide)
  · exact (h c hc).noEnd hLater

/-! ## What a lookup finds -/

variable {memory memory' : Memory} {fuel fuel' : Nat}

theorem finds_of_fatLookup {dir : FatInode} {d : Dentry FatInode} {heap heap' : Heap} {node : FatInode}
    (hLength : d.nameLength = d.name.length)
    (h : fatLookup fsbi disk memory fuel dir d heap = some (some node, heap')) :
    Finds fsbi disk dir.inode d.name node.inode := by
  unfold fatLookup at h
  dsimp only at h
  have hName : d.searchedName memory = searchName d.name fun i => memory d.nameObject i := by
    unfold Dentry.searchedName
    rw [hLength]
    rfl
  rw [hName] at h
  split at h
  · cases h
  · cases h
  · next inode hLookup =>
    cases h
    exact ⟨_, _, _, hLookup⟩

/-- A lookup that returns does not depend on later objects, nor on the bound for its clusters. -/
theorem fatLookup_mono {dir : FatInode} {d : Dentry FatInode} {heap : Heap} {r : Option FatInode × Heap}
    (hMemory : ∀ o ≤ heap.taken, memory' o = memory o) (hName : d.nameObject ≤ heap.taken) (hLe : fuel ≤ fuel')
    (h : fatLookup fsbi disk memory fuel dir d heap = some r) :
    fatLookup fsbi disk memory' fuel' dir d heap = some r := by
  have hSame : d.searchedName memory' = d.searchedName memory := by
    unfold Dentry.searchedName
    rw [hMemory _ hName]
  unfold fatLookup at h ⊢
  dsimp only [Heap.kmalloc] at h ⊢
  rw [hSame, hMemory _ (Nat.le_refl _)]
  cases hLookup : lookup fsbi disk (memory heap.taken) (d.searchedName memory) fuel dir.inode.info with
  | none =>
    rw [hLookup] at h
    cases h
  | some found =>
    rw [hLookup] at h
    rw [lookup_mono hLe hLookup]
    exact h

theorem lookup_found_iff {around : Int → Byte} {name : Name} {finode : InodeInfo} :
    (∃ j, lookup fsbi disk around name fuel finode = some (some j)) ↔
      ∃ place, (search fsbi disk around name fuel finode).result = some (some place) := by
  constructor
  · rintro ⟨j, hLookup⟩
    obtain ⟨place, hPlace, -⟩ := (lookup_some_iff _ _ _ _ _ _ _).mp hLookup
    exact ⟨place, hPlace⟩
  · rintro ⟨place, hPlace⟩
    exact ⟨_, (lookup_some_iff _ _ _ _ _ _ _).mpr ⟨place, hPlace, rfl⟩⟩

/-- The inode is opaque to a name that no lookup finds. -/
theorem opaque_iff {i : Inode} {N : List Byte} : Opaque fsbi disk i N ↔ ∀ j, ¬ Finds fsbi disk i N j := by
  constructor
  · rintro hOpaque j ⟨around, behind, fuel, hLookup⟩
    obtain ⟨place, hPlace⟩ := lookup_found_iff.mp ⟨j, hLookup⟩
    obtain ⟨k, c, hk, e, he, hLive, hMatches⟩ := lookupLoop_finds.mp ⟨fuel, place, hPlace⟩
    exact hOpaque around behind k c hk e he hLive hMatches
  · intro hNone around behind k c hk e he hLive hMatches
    obtain ⟨fuel, place, hPlace⟩ := lookupLoop_finds.mpr ⟨k, c, hk, e, he, hLive, hMatches⟩
    obtain ⟨j, hj⟩ := lookup_found_iff.mpr ⟨place, hPlace⟩
    exact hNone j ⟨around, behind, fuel, hj⟩

/-! ## The inodes stay -/

theorem Linked.dirInode {ι : Type} {v v₁ : Vfs ι} {parent : Nat} {c : List Byte} {inode : ι} {heap : Heap}
    (h : Linked v v₁ parent c inode heap) {a : Nat} (ha : a < v.heap.taken) :
    (v₁.dentry a).dirInode = (v.dentry a).dirInode := by
  by_cases hIs : a = parent
  · rw [hIs, h.parentEntry]
  · rw [h.others a ha hIs]

theorem walkNames_dirInode {flags : BitVec 64} {v v' : Vfs FatInode} {parent : Nat} {cs : List (List Byte)}
    {out : Option Nat} (h : walkNames (fatLookup fsbi disk memory fuel) flags v parent cs = some (out, v'))
    (hOld : parent < v.heap.taken) {a : Nat} (ha : a < v.heap.taken) :
    (v'.dentry a).dirInode = (v.dentry a).dirInode := by
  induction cs generalizing v parent with
  | nil =>
    cases h
    rfl
  | cons c cs ih =>
    obtain ⟨dir, heap, -, ⟨-, -, -, rfl⟩ | ⟨inode, v₁, hLookup, -, hLinked, hRest⟩⟩ :=
      walkNames_cases h hOld
    · rfl
    · have hTaken := fatLookup_taken hLookup
      rw [← hLinked.heap] at hTaken
      dsimp only at hTaken
      obtain ⟨-, rfl⟩ | ⟨-, hRest⟩ := hRest
      · exact hLinked.dirInode ha
      · rw [ih hRest (by omega) (by omega), hLinked.dirInode ha]

/-! ## Walks on an opaque volume -/

/-- A walk that finds its first name. -/
theorem walkNames_first {flags : BitVec 64} {v v' : Vfs FatInode} {parent found : Nat} {c : List Byte}
    {cs : List (List Byte)} {node : FatInode}
    (h : walkNames (fatLookup fsbi disk memory fuel) flags v parent (c :: cs) = some (some found, v'))
    (hNode : (v.dentry parent).dirInode = some node) (hOld : parent < v.heap.taken) :
    ∃ next v₁ heap, Finds fsbi disk node.inode c next.inode ∧ Linked v v₁ parent c next heap ∧
      v.heap.taken < v₁.heap.taken ∧
      ((cs = [] ∧ v' = v₁) ∨
        walkNames (fatLookup fsbi disk memory fuel) flags v₁ v.heap.taken cs = some (some found, v')) := by
  obtain ⟨dir, heap, hDir, ⟨-, -, hNone, -⟩ | ⟨next, v₁, hLookup, -, hLinked, hRest⟩⟩ :=
    walkNames_cases h hOld
  · cases hNone
  · have hTaken := fatLookup_taken hLookup
    rw [← hLinked.heap] at hTaken
    rw [hNode] at hDir
    cases hDir
    dsimp only at hTaken
    exact ⟨next, v₁, heap, finds_of_fatLookup rfl hLookup, hLinked, by omega,
      hRest.imp_right And.right⟩

theorem walkNames_descends {root : Inode} {flags : BitVec 64} {v v' : Vfs FatInode} {parent found : Nat}
    {cs : List (List Byte)} {node : FatInode}
    (hOpaque : ∀ i, Reaches fsbi disk root i → i.attr ≠ fsAttrDir → ∀ N, IsName N → Opaque fsbi disk i N)
    (h : walkNames (fatLookup fsbi disk memory fuel) flags v parent cs = some (some found, v'))
    (hNode : (v.dentry parent).dirInode = some node) (hOld : parent < v.heap.taken)
    (hReaches : Reaches fsbi disk root node.inode) (hIs : node.inode.attr = fsAttrDir)
    (hNames : ∀ c ∈ cs, IsName c) : Descends v v' := by
  induction cs generalizing v parent node with
  | nil =>
    cases h
    exact ⟨[], rfl, nofun⟩
  | cons c cs ih =>
    obtain ⟨next, v₁, heap, hFinds, hLinked, hTaken, ⟨rfl, rfl⟩ | hRest⟩ := walkNames_first h hNode hOld
    · exact ⟨[v.heap.taken], hLinked.linked, nofun⟩
    · have hNext : (v₁.dentry v.heap.taken).dirInode = some next := by rw [hLinked.entry]
      have hReached := Reaches.step hReaches hIs (hNames c List.mem_cons_self) hFinds
      have hLater : ∀ d ∈ cs, IsName d := fun d hd => hNames d (List.mem_cons_of_mem _ hd)
      have hKept := walkNames_dirInode hRest hTaken hTaken
      -- what the walk goes on from is a directory, as something is found in it
      have hDirectory : cs = [] ∨ next.inode.attr = fsAttrDir := by
        cases cs with
        | nil => exact Or.inl rfl
        | cons d cs =>
          right
          by_contra hFile
          obtain ⟨_, _, _, hInFile, -⟩ := walkNames_first hRest hNext hTaken
          exact opaque_iff.mp (hOpaque _ hReached hFile d (hLater d List.mem_cons_self)) _ hInFile
      obtain rfl | hDirectory := hDirectory
      · cases hRest
        exact ⟨[v.heap.taken], hLinked.linked, nofun⟩
      · obtain ⟨nodes, hNodes, hTail⟩ := ih hRest hNext hTaken hReached hDirectory hLater
        refine ⟨nodes ++ [v.heap.taken], ?_, fun a ha => ?_⟩
        · rw [hNodes, hLinked.linked, List.append_assoc]
          rfl
        · cases nodes with
          | nil => cases ha
          | cons first nodes =>
            obtain hIn | hLast := List.mem_append.mp ha
            · exact hTail a hIn
            · rw [List.mem_singleton.mp hLast]
              exact ⟨next, hKept.trans hNext, hDirectory⟩

/-! ## A walk to an entry in a file -/

/-- All the names are found, one after the other. -/
inductive Resolves {ι : Type} (lookup : LookupOp ι) (v : Vfs ι) (parent : Nat) : List (List Byte) → Vfs ι →
    Nat → Prop where
  | nil : Resolves lookup v parent [] v parent
  | snoc {cs : List (List Byte)} {c : List Byte} {v₁ v₂ : Vfs ι} {p path : Nat}
      (h : Resolves lookup v parent cs v₁ p)
      (hNext : resolveName lookup v₁ p c = some (some path, v₂)) :
      Resolves lookup v parent (cs ++ [c]) v₂ path

theorem Resolves.walk {ι : Type} {lookup : LookupOp ι} {v v₁ : Vfs ι} {parent p : Nat} {cs : List (List Byte)}
    (flags : BitVec 64) (h : Resolves lookup v parent cs v₁ p) (c : List Byte) (rest : List (List Byte)) :
    walkNames lookup flags v parent (cs ++ c :: rest) = walkNames lookup flags v₁ p (c :: rest) := by
  induction h generalizing c rest with
  | nil => rfl
  | snoc h hNext ih =>
    rw [List.append_assoc]
    refine (ih _ (c :: rest)).trans ?_
    rw [walkNames, hNext]
    exact if_neg (List.cons_ne_nil _ _)

/-- The objects of the names are older than the state that is reached. -/
theorem Resolves.taken {v v₁ : Vfs FatInode} {parent p : Nat} {cs : List (List Byte)}
    (h : Resolves (fatLookup fsbi disk memory fuel) v parent cs v₁ p) (hOld : parent < v.heap.taken) :
    p < v₁.heap.taken := by
  induction h with
  | nil => exact hOld
  | snoc h hNext ih =>
    obtain ⟨dir, heap, -, ⟨-, hNone, -⟩ | ⟨inode, hLookup, hPath, hLinked⟩⟩ := resolveName_cases hNext ih
    · cases hNone
    · have hTaken := fatLookup_taken hLookup
      rw [← hLinked.heap] at hTaken
      cases hPath
      dsimp only at hTaken
      omega

theorem resolveName_mono {v v₁ : Vfs FatInode} {p path : Nat} {c : List Byte} (hOld : p < v.heap.taken)
    (hMemory : ∀ o < v₁.heap.taken, memory' o = memory o) (hLe : fuel ≤ fuel')
    (h : resolveName (fatLookup fsbi disk memory fuel) v p c = some (some path, v₁)) :
    resolveName (fatLookup fsbi disk memory' fuel') v p c = some (some path, v₁) := by
  obtain ⟨dir, heap, hDir, ⟨-, hNone, -⟩ | ⟨inode, hLookup, hPath, hLinked⟩⟩ := resolveName_cases h hOld
  · cases hNone
  · have hOwes := fatLookup_owes hLookup
    obtain ⟨new, hFreed, hTaken⟩ := hOwes
    rw [← hLinked.heap] at hTaken
    rw [if_neg (Option.some_ne_none inode)] at hTaken
    dsimp only at hTaken
    have hLookup' : fatLookup fsbi disk memory' fuel' dir (v.newDentry c) ⟨v.heap.taken + 2, v.heap.freed⟩ =
        some (some inode, heap) := by
      refine fatLookup_mono (fun o ho => hMemory o ?_) (Nat.le_succ _) hLe hLookup
      dsimp only at ho
      omega
    unfold resolveName at h ⊢
    rw [hDir] at h ⊢
    dsimp only [Heap.kmalloc] at h ⊢
    unfold Vfs.newDentry at hLookup hLookup'
    rw [hLookup] at h
    rw [hLookup']
    exact h

theorem Resolves.mono {v v₁ : Vfs FatInode} {parent p : Nat} {cs : List (List Byte)}
    (h : Resolves (fatLookup fsbi disk memory fuel) v parent cs v₁ p) (hOld : parent < v.heap.taken)
    (hMemory : ∀ o < v₁.heap.taken, memory' o = memory o) (hLe : fuel ≤ fuel') :
    Resolves (fatLookup fsbi disk memory' fuel') v parent cs v₁ p := by
  induction h with
  | nil => exact Resolves.nil
  | snoc h hNext ih =>
    have hLast := h.taken hOld
    refine Resolves.snoc (ih fun o ho => hMemory o ?_) (resolveName_mono hLast hMemory hLe hNext)
    obtain ⟨dir, heap, -, ⟨-, hNone, -⟩ | ⟨inode, hLookup, hPath, hLinked⟩⟩ := resolveName_cases hNext hLast
    · cases hNone
    · have hTaken := fatLookup_taken hLookup
      rw [← hLinked.heap] at hTaken
      dsimp only at hTaken
      omega

/-- The memory in which the next lookup finds what it can find. -/
def withLookup (memory : Memory) (taken : Nat) (around : Int → Byte) (behind : Nat → Byte) : Memory := fun o =>
  if o = taken + 1 then fun x => behind x.toNat else if o = taken + 2 then around else memory o

theorem Resolves.extend {v v₁ : Vfs FatInode} {parent p : Nat} {cs : List (List Byte)} {node : FatInode}
    {N : List Byte} {i : Inode} (h : Resolves (fatLookup fsbi disk memory fuel) v parent cs v₁ p)
    (hOld : parent < v.heap.taken) (hNode : (v₁.dentry p).dirInode = some node)
    (hFinds : Finds fsbi disk node.inode N i) :
    ∃ memory' fuel' v₂ next heap, Resolves (fatLookup fsbi disk memory' fuel') v parent (cs ++ [N]) v₂
      v₁.heap.taken ∧
      Linked v₁ v₂ p N next heap ∧ next.inode = i := by
  obtain ⟨around, behind, more, hLookup⟩ := hFinds
  have hLast := h.taken hOld
  generalize hMemory' : withLookup memory v₁.heap.taken around behind = memory'
  have hBefore : ∀ o < v₁.heap.taken, memory' o = memory o := by
    intro o ho
    rw [← hMemory', withLookup, if_neg (by omega), if_neg (by omega)]
  have hBuffer : memory' (v₁.heap.taken + 2) = around := by
    rw [← hMemory', withLookup, if_neg (by omega), if_pos rfl]
  have hName : (v₁.newDentry N).searchedName memory' = searchName N behind := by
    have hObject : memory' (v₁.newDentry N).nameObject = fun x => behind x.toNat := by
      rw [← hMemory', withLookup]
      exact if_pos rfl
    unfold Dentry.searchedName
    rw [hObject]
    rfl
  have hSome : fatLookup fsbi disk memory' (max fuel more) node (v₁.newDentry N)
    ⟨v₁.heap.taken + 2, v₁.heap.freed⟩ =
      some (some ⟨v₁.heap.taken + 3, v₁.heap.taken + 4, i⟩,
        ⟨v₁.heap.taken + 5, (v₁.heap.taken + 2) :: v₁.heap.freed⟩) := by
    unfold fatLookup
    dsimp only [Heap.kmalloc, Heap.kfree]
    rw [hName, hBuffer, lookup_mono (Nat.le_max_right fuel more) hLookup]
  obtain ⟨v₂, hResolve, hLinked⟩ := resolveName_found hNode hLast hSome
  exact ⟨memory', max fuel more, v₂, _, _,
    (h.mono hOld hBefore (Nat.le_max_left fuel more)).snoc hResolve, hLinked, rfl⟩

theorem Resolves.last {ι : Type} {lookup : LookupOp ι} {v v₁ : Vfs ι} {parent p : Nat} {cs : List (List Byte)}
    (flags : BitVec 64) (h : Resolves lookup v parent cs v₁ p) (hNe : cs ≠ []) :
    ∃ found, walkNames lookup flags v parent cs = some (some found, v₁) := by
  cases h with
  | nil => exact absurd rfl hNe
  | snoc h hNext =>
    rw [h.walk flags, walkNames, hNext]
    exact ⟨_, if_pos rfl⟩

/-- Only the root of the volume is there. -/
def rootVfs (root : Inode) : Vfs FatInode := ⟨⟨1, []⟩, fun _ => ⟨[slash], 0, 1, some ⟨0, 0, root⟩, 0, []⟩, []⟩

/-- The names lead from the root to the inode, whose entry is the last one that is linked. -/
structure Route (fsbi : SbInfo) (disk : Disk) (root i : Inode) (memory : Memory) (fuel : Nat)
    (names : List (List Byte)) (v : Vfs FatInode) (p : Nat) : Prop where
  isName : ∀ c ∈ names, IsName c
  resolves : Resolves (fatLookup fsbi disk memory fuel) (rootVfs root) 0 names v p
  node : ∃ node, (v.dentry p).dirInode = some node ∧ node.inode = i
  last : names = [] ∧ i = root ∨ ∃ before, v.linked = p :: before

theorem Route.extend {root i j : Inode} {names : List (List Byte)} {v : Vfs FatInode} {p : Nat} {N : List Byte}
    (h : Route fsbi disk root i memory fuel names v p) (hName : IsName N) (hFinds : Finds fsbi disk i N j) :
    ∃ memory' fuel' v₂, Route fsbi disk root j memory' fuel' (names ++ [N]) v₂ v.heap.taken ∧
      v₂.linked = v.heap.taken :: v.linked ∧ (v₂.dentry p).dirInode = (v.dentry p).dirInode := by
  obtain ⟨node, hNode, rfl⟩ := h.node
  have hOld : 0 < (rootVfs root).heap.taken := Nat.one_pos
  obtain ⟨memory', fuel', v₂, next, heap, hResolves, hLinked, rfl⟩ := h.resolves.extend hOld hNode hFinds
  refine ⟨memory', fuel', v₂, ⟨fun c hc => ?_, hResolves, ⟨next, ?_, rfl⟩, Or.inr ⟨v.linked, hLinked.linked⟩⟩,
    hLinked.linked, hLinked.dirInode (h.resolves.taken hOld)⟩
  · obtain hIn | hLast := List.mem_append.mp hc
    · exact h.isName c hIn
    · rw [List.mem_singleton.mp hLast]
      exact hName
  · rw [hLinked.entry]

theorem route_of_reaches {root i : Inode} (h : Reaches fsbi disk root i) :
    ∃ memory fuel names v p, Route fsbi disk root i memory fuel names v p := by
  induction h with
  | root =>
    exact ⟨fun _ _ => 0, 0, [], rootVfs root, 0, nofun, Resolves.nil, ⟨⟨0, 0, root⟩, rfl, rfl⟩, Or.inl ⟨rfl, rfl⟩⟩
  | step hDir hIs hName hFinds ih =>
    obtain ⟨memory, fuel, names, v, p, hRoute⟩ := ih
    obtain ⟨memory', fuel', v₂, hRoute', -, -⟩ := hRoute.extend hName hFinds
    exact ⟨memory', fuel', _, v₂, _, hRoute'⟩

end

section
variable {dpte : PartitionEntry} {fbs : BootSector} {disk : Disk}

/-- A path through a file in which something is found. -/
theorem not_directoriesOnly {i j : Inode} {N : List Byte}
    (hReaches : Reaches (readSbInfo dpte fbs) disk (rootInode (readSbInfo dpte fbs) fbs) i)
    (hFile : i.attr ≠ fsAttrDir) (hName : IsName N) (hFinds : Finds (readSbInfo dpte fbs) disk i N j) :
    ¬ DirectoriesOnly dpte fbs disk := by
  obtain ⟨memory, fuel, names, v, p, hRoute⟩ := route_of_reaches hReaches
  obtain ⟨memory', fuel', v₂, hRoute', hLinked, hKept⟩ := hRoute.extend hName hFinds
  obtain ⟨found, hWalk⟩ := hRoute'.resolves.last 0 (by simp)
  intro hOnly
  have hNames := components_pathOf hRoute'.isName
  rw [← hNames, ← pathWalk_eq] at hWalk
  obtain ⟨nodes, hNodes, hTail⟩ := hOnly memory' fuel' _ v₂ 0 found _ 0 _ (noEnd_pathOf hRoute'.isName)
    Nat.one_pos rfl rfl hWalk
  have hAll : nodes = v.heap.taken :: v.linked := by
    rw [← hLinked, hNodes]
    exact (List.append_nil nodes).symm
  obtain ⟨-, rfl⟩ | ⟨before, hLast⟩ := hRoute.last
  · exact hFile rfl
  · have hIn : p ∈ nodes.tail := by
      rw [hAll, hLast]
      exact List.mem_cons_self
    obtain ⟨node, hNode, hDirectory⟩ := hTail p hIn
    obtain ⟨node', hNode', rfl⟩ := hRoute.node
    rw [hKept, hNode'] at hNode
    cases hNode
    exact hFile hDirectory

/-- The walks of a volume descend into directories only if and only if no regular file of it has contents
that look like directory entries. -/
theorem directoriesOnly_iff (dpte : PartitionEntry) (fbs : BootSector) (disk : Disk) :
    DirectoriesOnly dpte fbs disk ↔ FilesOpaque dpte fbs disk := by
  constructor
  · intro hOnly i hReaches hFile N hName
    refine opaque_iff.mpr fun j hFinds => ?_
    exact not_directoriesOnly hReaches hFile hName hFinds hOnly
  · intro hOpaque memory fuel v v' root found node flags name hEnd hOld hNode hRoot hWalk
    rw [pathWalk_eq] at hWalk
    refine walkNames_descends hOpaque hWalk hNode hOld ?_ ?_ fun c hc => isName_of_mem hEnd hc
    · rw [hRoot]
      exact Reaches.root
    · rw [hRoot]
      rfl

end

/-! ## A file with an entry in it -/

/-- The entry of an archive file `name` with the first cluster `c`. -/
def fileBytes (name : List Byte) (c : Byte) : List Byte :=
  name ++ [0x20, 0, 0, 0, 0, 0, 0, 0, 0, 0, 0, 0, 0, 0, 0, c, 0, 16, 0, 0, 0]

/-- `A.TXT`, and `B.TXT`. -/
def nameA : List Byte := [0x41, 0x20, 0x20, 0x20, 0x20, 0x20, 0x20, 0x20, 0x54, 0x58, 0x54]
def nameB : List Byte := [0x42, 0x20, 0x20, 0x20, 0x20, 0x20, 0x20, 0x20, 0x54, 0x58, 0x54]

/-- The root directory has the file `A.TXT` in cluster 3, which begins like an entry for `B.TXT`. -/
def nestedDisk : Disk := fun a =>
  if 512 * 3105 ≤ a then ((fileBytes nameB 4)[a - 512 * 3105]?).getD 0
  else if 512 * 3104 ≤ a then ((fileBytes nameA 3)[a - 512 * 3104]?).getD 0
  else 0

def fileInode (c : Nat) : Inode := ⟨16, 1, fsAttrFile, ⟨c, c - 1, 0, 0, 0, 0, 0⟩⟩

/-- `/A.TXT/B.TXT` is found. -/
theorem file_descended : ¬ ∀ (dpte : PartitionEntry) (fbs : BootSector) (disk : Disk), Valid dpte fbs →
    DirectoriesOnly dpte fbs disk := by
  intro h
  have hRoot : Finds (readSbInfo samplePartition sampleBoot) nestedDisk
      (rootInode (readSbInfo samplePartition sampleBoot) sampleBoot) [0x41, 0x2e, 0x54, 0x58, 0x54]
      (fileInode 3) :=
    ⟨fun _ => 0, fun _ => 0, 1, by decide +kernel⟩
  have hFile : Finds (readSbInfo samplePartition sampleBoot) nestedDisk (fileInode 3)
      [0x42, 0x2e, 0x54, 0x58, 0x54] (fileInode 4) := ⟨fun _ => 0, fun _ => 0, 1, by decide +kernel⟩
  have hNameA : IsName [0x41, 0x2e, 0x54, 0x58, 0x54] := ⟨by decide, by decide, by decide⟩
  have hNameB : IsName [0x42, 0x2e, 0x54, 0x58, 0x54] := ⟨by decide, by decide, by decide⟩
  exact not_directoriesOnly (Reaches.step Reaches.root rfl hNameA hRoot) (by decide) hNameB hFile
    (h samplePartition sampleBoot nestedDisk sample_valid)

end KalinoteOS.Fat32
