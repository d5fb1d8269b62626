import KalinoteOS.Lib.Bytes
import KalinoteOS.Lib.Linked
import Mathlib.Data.Finset.Erase
import Mathlib.Data.Finset.Insert
import Mathlib.Data.Set.Function

/-! # The registered file systems

The objects hang on the built-in `filesystem`, the newest next to it. To its callers the list is a
finite map from names to objects.
-/
namespace KalinoteOS.FileSystem
open Lib (Bytes Linked)
set_option autoImplicit false

/-- The bytes from `a` on are the string `s` and its NUL. -/
def HasString (m : Bytes) : Nat → List (BitVec 8) → Prop
  | a, [] => m a = 0#8
  | a, c :: s => m a = c ∧ c ≠ 0#8 ∧ HasString m (a + 1) s

/-- A pointer to a string. -/
structure CString (m : Bytes) where
  address : Nat
  chars : List (BitVec 8)
  holds : HasString m address chars

/-- `di` and `si` are the registers that `scasb` and `lodsb` count up. -/
def strcmpLoop (m : Bytes) : Nat → Nat → Nat → Option Int
  | 0, _, _ => none
  | fuel + 1, di, si =>
    let al := m si
    if al ≠ m di then
      some (if al.slt (m di) then 1 else -1)
    else if al ≠ 0#8 then
      strcmpLoop m fuel (di + 1) (si + 1)
    else
      some 0

def strcmp (m : Bytes) (fuel FirstPart SecondPart : Nat) : Option Int :=
  strcmpLoop m fuel FirstPart SecondPart

/-- `struct file_system_type`; `readSuperblock` is the address of the function. -/
structure FileSystemType (m : Bytes) (Ptr : Type) where
  name : CString m
  readSuperblock : Nat
  next : Option Ptr

abbrev Heap (m : Bytes) (Ptr : Type) := Ptr → FileSystemType m Ptr

/-- The call of a `read_superblock` with its arguments. -/
structure SuperblockCall where
  readSuperblock : Nat
  DPTE : Nat
  buf : Nat
  deriving DecidableEq, Repr

section
variable {m : Bytes} {Ptr : Type}

def Heap.next (h : Heap m Ptr) (p : Ptr) : Option Ptr := (h p).next

def Heap.nameOf (h : Heap m Ptr) (p : Ptr) : List (BitVec 8) := (h p).name.chars

/-- `for (p = start; p; p = p->next) if (test(p))`, up to the first `p` that passes. -/
def scan (h : Heap m Ptr) (test : Ptr → Option Bool) : Nat → Option Ptr → Option (Option Ptr)
  | 0, _ => none
  | _ + 1, none => some none
  | fuel + 1, some p => do
    if ← test p then
      some (some p)
    else
      scan h test fuel (h p).next

def mountFs (filesystem : Ptr) (fuel : Nat) (h : Heap m Ptr) (name : CString m) (DPTE buf : Nat) :
    Option (Option SuperblockCall) := do
  let test := fun p => (strcmp m fuel (h p).name.address name.address).map fun r => decide (r = 0)
  let found ← scan h test fuel (some filesystem)
  return found.map fun p => ⟨(h p).readSuperblock, DPTE, buf⟩

variable [DecidableEq Ptr]

def Heap.setNext (h : Heap m Ptr) (p : Ptr) (q : Option Ptr) : Heap m Ptr :=
  Function.update h p { h p with next := q }

def registerFilesystem (filesystem : Ptr) (fuel : Nat) (h : Heap m Ptr) (fs : Ptr) :
    Option (Nat × Heap m Ptr) := do
  let test := fun p => (strcmp m fuel (h fs).name.address (h p).name.address).map fun r => decide (r = 0)
  match ← scan h test fuel (some filesystem) with
  | some _ => return (0, h)
  | none =>
    let h := h.setNext fs (h filesystem).next
    return (1, h.setNext filesystem (some fs))

/-- The loop of `unregister_filesystem`, from `p` on. -/
def unregisterLoop (h : Heap m Ptr) (fs : Ptr) : Nat → Ptr → Option (Nat × Heap m Ptr)
  | 0, _ => none
  | fuel + 1, p =>
    match (h p).next with
    | none => some (0, h)
    | some q =>
      if q = fs then
        some (1, (h.setNext p (h q).next).setNext fs none)
      else
        unregisterLoop h fs fuel q

def unregisterFilesystem (filesystem : Ptr) (fuel : Nat) (h : Heap m Ptr) (fs : Ptr) :
    Option (Nat × Heap m Ptr) :=
  unregisterLoop h fs fuel filesystem

end

/-! ## The comparison of two strings -/

section
variable {m : Bytes} {a b fuel : Nat} {s t : List (BitVec 8)}

theorem strcmpLoop_spec (hs : HasString m a s) (ht : HasString m b t) (hFuel : min s.length t.length < fuel) :
    ∃ r, strcmpLoop m fuel a b = some r ∧ (r = 0 ↔ s = t) := by
  obtain ⟨fuel, rfl⟩ := Nat.exists_eq_add_one_of_ne_zero (Nat.ne_of_gt (Nat.zero_lt_of_lt hFuel))
  induction s generalizing a b t fuel with
  | nil =>
    have ha : m a = 0#8 := hs
    cases t with
    | nil =>
      have hb : m b = 0#8 := ht
      refine ⟨0, ?_, by simp⟩
      simp [strcmpLoop, ha, hb]
    | cons d t =>
      obtain ⟨hb, hd, -⟩ := ht
      refine ⟨if d.slt 0#8 then 1 else -1, ?_, ?_⟩
      · simp [strcmpLoop, ha, hb, hd]
      · split <;> simp
  | cons c s ih =>
    obtain ⟨ha, hc, hs⟩ := hs
    cases t with
    | nil =>
      have hb : m b = 0#8 := ht
      refine ⟨if (0#8).slt c then 1 else -1, ?_, ?_⟩
      · simp [strcmpLoop, ha, hb, Ne.symm hc]
      · split <;> simp
    | cons d t =>
      obtain ⟨hb, hd, ht⟩ := ht
      obtain rfl | hNe := eq_or_ne d c
      · have hLess : min s.length t.length < fuel := by
          simp only [List.length_cons] at hFuel
          omega
        obtain ⟨fuel, rfl⟩ := Nat.exists_eq_add_one_of_ne_zero (Nat.ne_of_gt (Nat.zero_lt_of_lt hLess))
        obtain ⟨r, hRun, hZero⟩ := ih hs ht fuel hLess
        refine ⟨r, ?_, hZero.trans (by simp)⟩
        simpa [strcmpLoop, ha, hb, hc] using hRun
      · refine ⟨if d.slt c then 1 else -1, ?_, ?_⟩
        · simp [strcmpLoop, ha, hb, hNe]
        · have hDiffer : c :: s ≠ d :: t := fun hEq => hNe (List.cons.inj hEq).1.symm
          split <;> simp [hDiffer]

/-- `!strcmp(a, b)` tells whether the strings are equal. -/
theorem strcmp_test (a b : CString m) (hFuel : min a.chars.length b.chars.length < fuel) :
    ((strcmp m fuel a.address b.address).map fun r => decide (r = 0)) =
      some (decide (a.chars = b.chars)) := by
  obtain ⟨r, hRun, hZero⟩ := strcmpLoop_spec a.holds b.holds hFuel
  rw [strcmp, hRun, Option.map_some, decide_eq_decide.mpr hZero]

end

/-! ## The loops over the list -/

section
variable {m : Bytes} {Ptr : Type} {h : Heap m Ptr}

theorem scan_spec {test : Ptr → Option Bool} {P : Ptr → Prop} [DecidablePred P] {p : Option Ptr}
    {cells : List Ptr} (hCells : Linked h.next p cells none)
    (hTest : ∀ q ∈ cells, test q = some (decide (P q))) {fuel : Nat} (hFuel : cells.length < fuel) :
    scan h test fuel p = some (cells.find? fun q => decide (P q)) := by
  induction cells generalizing p fuel with
  | nil =>
    obtain ⟨fuel, rfl⟩ := Nat.exists_eq_add_one_of_ne_zero (Nat.ne_of_gt hFuel)
    cases hCells
    rfl
  | cons q cells ih =>
    obtain ⟨fuel, rfl⟩ := Nat.exists_eq_add_one_of_ne_zero (Nat.ne_of_gt (Nat.zero_lt_of_lt hFuel))
    obtain ⟨rfl, hRest⟩ := hCells
    rw [scan, hTest q List.mem_cons_self, Option.bind_eq_bind, Option.bind_some]
    by_cases hq : P q
    · simp [hq]
    · rw [List.find?_cons_of_neg (by simpa using hq), ← ih hRest
        (fun r hr => hTest r (List.mem_cons_of_mem q hr)) (Nat.lt_of_succ_lt_succ hFuel)]
      simp [hq, Heap.next]

variable [DecidableEq Ptr]

theorem Heap.next_setNext (h : Heap m Ptr) (p : Ptr) (q : Option Ptr) :
    (h.setNext p q).next = Function.update h.next p q := by
  funext r
  by_cases hr : r = p
  · simp [Heap.next, Heap.setNext, hr]
  · simp [Heap.next, Heap.setNext, hr]

theorem Heap.name_setNext (h : Heap m Ptr) (p r : Ptr) (q : Option Ptr) :
    (h.setNext p q r).name = (h r).name := by
  by_cases hr : r = p
  · simp [Heap.setNext, hr]
  · simp [Heap.setNext, hr]

theorem unregisterLoop_miss {a fs : Ptr} {cells : List Ptr}
    (hCells : Linked h.next (some a) (a :: cells) none) (hNot : fs ∉ cells) {fuel : Nat}
    (hFuel : cells.length < fuel) : unregisterLoop h fs fuel a = some (0, h) := by
  induction cells generalizing a fuel with
  | nil =>
    obtain ⟨fuel, rfl⟩ := Nat.exists_eq_add_one_of_ne_zero (Nat.ne_of_gt hFuel)
    have hEnd : (h a).next = none := hCells.2
    rw [unregisterLoop, hEnd]
  | cons q cells ih =>
    obtain ⟨fuel, rfl⟩ := Nat.exists_eq_add_one_of_ne_zero (Nat.ne_of_gt (Nat.zero_lt_of_lt hFuel))
    have hNext : (h a).next = some q := hCells.2.1
    have hNe : q ≠ fs := fun hEq => hNot (hEq ▸ List.mem_cons_self)
    simp only [unregisterLoop, hNext, hNe, if_false]
    refine ih ⟨rfl, hCells.2.2⟩ (fun hIn => hNot (List.mem_cons_of_mem q hIn)) ?_
    exact Nat.lt_of_succ_lt_succ hFuel

theorem unregisterLoop_hit {a b fs : Ptr} {front back : List Ptr}
    (hCells : Linked h.next (some a) (front ++ [b] ++ fs :: back) none)
    (hNot : fs ∉ front ++ [b]) {fuel : Nat} (hFuel : front.length < fuel) :
    unregisterLoop h fs fuel a = some (1, (h.setNext b (h fs).next).setNext fs none) := by
  induction front generalizing a fuel with
  | nil =>
    obtain ⟨fuel, rfl⟩ := Nat.exists_eq_add_one_of_ne_zero (Nat.ne_of_gt hFuel)
    obtain ⟨hStart, hNext, -⟩ := hCells
    cases hStart
    have hNext : (h b).next = some fs := hNext
    rw [unregisterLoop, hNext]
    exact if_pos rfl
  | cons c front ih =>
    obtain ⟨fuel, rfl⟩ := Nat.exists_eq_add_one_of_ne_zero (Nat.ne_of_gt (Nat.zero_lt_of_lt hFuel))
    obtain ⟨hStart, hRest⟩ := hCells
    cases hStart
    obtain ⟨q, hNext, hHead⟩ : ∃ q, h.next c = some q ∧ q ∈ front ++ [b] := by
      cases front with
      | nil => exact ⟨b, hRest.1, List.mem_singleton_self b⟩
      | cons q front => exact ⟨q, hRest.1, List.mem_cons_self⟩
    have hNe : q ≠ fs := by
      rintro rfl
      exact hNot (List.mem_cons_of_mem c hHead)
    have hNext' : (h c).next = some q := hNext
    simp only [unregisterLoop, hNext', hNe, if_false]
    refine ih ?_ (fun hIn => hNot (List.mem_cons_of_mem c hIn)) (Nat.lt_of_succ_lt_succ hFuel)
    rw [← hNext]
    exact hRest

end

/-! ## The finite map -/

/-- Names determine the objects of the registry, and the built-in one is always there. -/
structure Registry {Ptr : Type} (nameOf : Ptr → List (BitVec 8)) (filesystem : Ptr) where
  listed : Finset Ptr
  builtIn : filesystem ∈ listed
  distinct : Set.InjOn nameOf listed

inductive Call (m : Bytes) (Ptr : Type)
  | mount (name : CString m) (DPTE buf : Nat)
  | register (fs : Ptr)
  | unregister (fs : Ptr)

inductive Result
  | superblock (call : Option SuperblockCall)
  | status (value : Nat)
  deriving DecidableEq, Repr

structure Served (m : Bytes) (Ptr : Type) where
  call : Call m Ptr
  before : Heap m Ptr
  result : Result
  after : Heap m Ptr

section
variable {m : Bytes} {Ptr : Type} [DecidableEq Ptr] {nameOf : Ptr → List (BitVec 8)} {filesystem : Ptr}

def perform (filesystem : Ptr) (fuel : Nat) (h : Heap m Ptr) : Call m Ptr → Option (Result × Heap m Ptr)
  | .mount name DPTE buf =>
    (mountFs filesystem fuel h name DPTE buf).map fun c => (.superblock c, h)
  | .register fs => (registerFilesystem filesystem fuel h fs).map fun r => (.status r.1, r.2)
  | .unregister fs => (unregisterFilesystem filesystem fuel h fs).map fun r => (.status r.1, r.2)

/-- The calls one after the other, with what each of them found, returned and left. -/
def serve (filesystem : Ptr) (fuel : Nat) : Heap m Ptr → List (Call m Ptr) → Option (List (Served m Ptr))
  | _, [] => some []
  | h, c :: calls => do
    let (r, h') ← perform filesystem fuel h c
    let log ← serve filesystem fuel h' calls
    return ⟨c, h, r, h'⟩ :: log

namespace Registry

def initial (nameOf : Ptr → List (BitVec 8)) (filesystem : Ptr) : Registry nameOf filesystem where
  listed := {filesystem}
  builtIn := Finset.mem_singleton_self filesystem
  distinct := by
    rw [Finset.coe_singleton]
    exact Set.injOn_singleton nameOf filesystem

theorem distinct_insert (S : Registry nameOf filesystem) {fs : Ptr}
    (h : ¬∃ p ∈ S.listed, nameOf p = nameOf fs) : Set.InjOn nameOf ↑(insert fs S.listed) := by
  have hNew : fs ∉ S.listed := fun hIn => h ⟨fs, hIn, rfl⟩
  rw [Finset.coe_insert, Set.injOn_insert hNew]
  exact ⟨S.distinct, fun ⟨p, hp, hEq⟩ => h ⟨p, hp, hEq⟩⟩

/-- An object goes in unless its name is taken. -/
def register (S : Registry nameOf filesystem) (fs : Ptr) : Registry nameOf filesystem :=
  if h : ∃ p ∈ S.listed, nameOf p = nameOf fs then S
  else {
    listed := insert fs S.listed
    builtIn := Finset.mem_insert_of_mem S.builtIn
    distinct := S.distinct_insert h }

def unregister (S : Registry nameOf filesystem) (fs : Ptr) : Registry nameOf filesystem :=
  if h : fs = filesystem then S
  else {
    listed := S.listed.erase fs
    builtIn := Finset.mem_erase.mpr ⟨Ne.symm h, S.builtIn⟩
    distinct := S.distinct.mono (Finset.erase_subset fs S.listed) }

def step (S : Registry nameOf filesystem) : Call m Ptr → Registry nameOf filesystem
  | .mount _ _ _ => S
  | .register fs => S.register fs
  | .unregister fs => S.unregister fs

theorem register_taken {S : Registry nameOf filesystem} {fs : Ptr}
    (h : ∃ p ∈ S.listed, nameOf p = nameOf fs) : S.register fs = S := dif_pos h

theorem listed_register {S : Registry nameOf filesystem} {fs : Ptr}
    (h : ¬∃ p ∈ S.listed, nameOf p = nameOf fs) : (S.register fs).listed = insert fs S.listed := by
  rw [register, dif_neg h]

theorem unregister_builtIn (S : Registry nameOf filesystem) : S.unregister filesystem = S :=
  dif_pos rfl

theorem listed_unregister {S : Registry nameOf filesystem} {fs : Ptr} (h : fs ≠ filesystem) :
    (S.unregister fs).listed = S.listed.erase fs := by
  rw [unregister, dif_neg h]

end Registry

/-- The list of `h` ends in a null pointer, and its objects are those of the registry. -/
structure Lists (h : Heap m Ptr) (S : Registry nameOf filesystem) (cells : List Ptr) : Prop where
  linked : Linked h.next (some filesystem) (filesystem :: cells) none
  nodup : (filesystem :: cells).Nodup
  mem : ∀ p, p ∈ filesystem :: cells ↔ p ∈ S.listed
  names : h.nameOf = nameOf

/-- A call answers out of the registry, and one that fails has changed nothing. -/
def Answers (S : Registry nameOf filesystem) (e : Served m Ptr) : Prop :=
  match e.call, e.result with
  | .mount name DPTE buf, .superblock c =>
    e.after = e.before ∧
      (∀ p ∈ S.listed, nameOf p = name.chars → c = some ⟨(e.before p).readSuperblock, DPTE, buf⟩) ∧
      ((∀ p ∈ S.listed, nameOf p ≠ name.chars) → c = none)
  | .register fs, .status r =>
    (r = 1 ∧ ∀ p ∈ S.listed, nameOf p ≠ nameOf fs) ∨
      (r = 0 ∧ (∃ p ∈ S.listed, nameOf p = nameOf fs) ∧ e.after = e.before)
  | .unregister fs, .status r =>
    (r = 1 ∧ fs ∈ S.listed ∧ fs ≠ filesystem) ∨
      (r = 0 ∧ ¬(fs ∈ S.listed ∧ fs ≠ filesystem) ∧ e.after = e.before)
  | _, _ => False

/-- The log of a run is one of the registry. -/
def Follows : Registry nameOf filesystem → List (Served m Ptr) → Prop
  | _, [] => True
  | S, e :: log =>
    Answers S e ∧ (∃ cells, Lists e.after (S.step e.call) cells) ∧ Follows (S.step e.call) log

end

/-! ## One call -/

section
variable {m : Bytes} {Ptr : Type} {nameOf : Ptr → List (BitVec 8)} {filesystem : Ptr} {h : Heap m Ptr}
  {S : Registry nameOf filesystem} {cells : List Ptr}

theorem Lists.chars (hL : Lists h S cells) (p : Ptr) : (h p).name.chars = nameOf p :=
  congrFun hL.names p

theorem mountFs_spec (hL : Lists h S cells) (name : CString m) (DPTE buf : Nat) :
    ∃ c, (∀ fuel, cells.length + name.chars.length + 1 < fuel →
        mountFs filesystem fuel h name DPTE buf = some c) ∧
      (∀ p ∈ S.listed, nameOf p = name.chars → c = some ⟨(h p).readSuperblock, DPTE, buf⟩) ∧
      ((∀ p ∈ S.listed, nameOf p ≠ name.chars) → c = none) := by
  refine ⟨((filesystem :: cells).find? fun q => decide ((h q).name.chars = name.chars)).map
    fun p => ⟨(h p).readSuperblock, DPTE, buf⟩, fun fuel hFuel => ?_, ?_, ?_⟩
  · have hTest : ∀ q ∈ filesystem :: cells, ((strcmp m fuel (h q).name.address name.address).map
        fun r => decide (r = 0)) = some (decide ((h q).name.chars = name.chars)) := by
      intro q _
      exact strcmp_test (h q).name name (by omega)
    have hEnough : (filesystem :: cells).length < fuel := by
      rw [List.length_cons]
      omega
    have hScan := scan_spec hL.linked hTest hEnough
    rw [mountFs, hScan, Option.bind_eq_bind, Option.bind_some]
    rfl
  · intro p hp hName
    have hSome : ((filesystem :: cells).find? fun q =>
        decide ((h q).name.chars = name.chars)).isSome := by
      refine List.find?_isSome.mpr ⟨p, (hL.mem p).mpr hp, decide_eq_true ?_⟩
      rw [hL.chars, hName]
    obtain ⟨q, hq⟩ := Option.isSome_iff_exists.mp hSome
    have hIn : q ∈ S.listed := (hL.mem q).mp (List.mem_of_find?_eq_some hq)
    have hChars : nameOf q = name.chars := by
      rw [← hL.chars]
      simpa using List.find?_some hq
    obtain rfl : q = p := S.distinct hIn hp (hChars.trans hName.symm)
    rw [hq, Option.map_some]
  · intro hNone
    have hFind : ((filesystem :: cells).find? fun q =>
        decide ((h q).name.chars = name.chars)) = none := by
      rw [List.find?_eq_none]
      intro q hq hEq
      refine hNone q ((hL.mem q).mp hq) ?_
      rw [← hL.chars]
      exact of_decide_eq_true hEq
    rw [hFind, Option.map_none]

/-- The loop of `register_filesystem` finds the object that has the name. -/
theorem register_scan (hL : Lists h S cells) (fs : Ptr) {fuel : Nat}
    (hFuel : cells.length + (nameOf fs).length + 1 < fuel) :
    ∃ found, scan h (fun p => (strcmp m fuel (h fs).name.address (h p).name.address).map
        fun r => decide (r = 0)) fuel (some filesystem) = some found ∧
      (found = none ↔ ¬∃ p ∈ S.listed, nameOf p = nameOf fs) := by
  rw [← hL.chars] at hFuel
  have hTest : ∀ q ∈ filesystem :: cells,
      ((strcmp m fuel (h fs).name.address (h q).name.address).map fun r => decide (r = 0)) =
        some (decide ((h fs).name.chars = (h q).name.chars)) := by
    intro q _
    exact strcmp_test (h fs).name (h q).name (by omega)
  refine ⟨_, scan_spec hL.linked hTest (by rw [List.length_cons]; omega), ?_⟩
  rw [List.find?_eq_none]
  constructor
  · rintro hNone ⟨p, hp, hEq⟩
    refine hNone p ((hL.mem p).mpr hp) (decide_eq_true ?_)
    rw [hL.chars, hL.chars, hEq]
  · intro hNone p hp hEq
    refine hNone ⟨p, (hL.mem p).mp hp, ?_⟩
    rw [← hL.chars, ← hL.chars]
    exact (of_decide_eq_true hEq).symm

theorem lists_initial {h₀ : Heap m Ptr} (hStart : h₀.next filesystem = none) :
    Lists h₀ (Registry.initial h₀.nameOf filesystem) [] := by
  refine ⟨⟨rfl, hStart⟩, List.nodup_singleton filesystem, fun p => ?_, rfl⟩
  rw [List.mem_singleton, Registry.initial, Finset.mem_singleton]

variable [DecidableEq Ptr]

theorem Heap.nameOf_setNext (h : Heap m Ptr) (p : Ptr) (q : Option Ptr) :
    (h.setNext p q).nameOf = h.nameOf := by
  funext r
  rw [Heap.nameOf, Heap.name_setNext, Heap.nameOf]

/-- A new object is linked in next to the built-in one. -/
theorem Lists.link (hL : Lists h S cells) {fs : Ptr} (hFresh : ¬∃ p ∈ S.listed, nameOf p = nameOf fs) :
    Lists ((h.setNext fs (h filesystem).next).setNext filesystem (some fs)) (S.register fs)
      (fs :: cells) := by
  have hNew : fs ∉ filesystem :: cells := fun hIn => hFresh ⟨fs, (hL.mem fs).mp hIn, rfl⟩
  have hNe : fs ≠ filesystem := List.ne_of_not_mem_cons hNew
  constructor
  · rw [Heap.next_setNext, Heap.next_setNext, Function.update_comm hNe]
    have hHead : Linked h.next (some filesystem) ([] ++ [filesystem] ++ cells) none := hL.linked
    exact hHead.insert_behind hL.nodup hNew
  · exact (List.Perm.swap fs filesystem cells).nodup_iff.mpr (List.nodup_cons.mpr ⟨hNew, hL.nodup⟩)
  · intro p
    rw [Registry.listed_register hFresh, Finset.mem_insert, ← hL.mem]
    simp only [List.mem_cons]
    tauto
  · rw [Heap.nameOf_setNext, Heap.nameOf_setNext, hL.names]

theorem Lists.cut {b fs : Ptr} {front back : List Ptr}
    (hL : Lists h S cells) (hSplit : filesystem :: cells = front ++ [b] ++ fs :: back)
    (hNe : fs ≠ filesystem) :
    ∃ cells', Lists ((h.setNext b (h fs).next).setNext fs none) (S.unregister fs) cells' := by
  obtain ⟨cells', hCells'⟩ : ∃ cells', filesystem :: cells' = front ++ [b] ++ back := by
    cases front with
    | nil => exact ⟨back, by rw [(List.cons.inj hSplit).1]; rfl⟩
    | cons c front => exact ⟨front ++ [b] ++ back, by rw [(List.cons.inj hSplit).1]; rfl⟩
  have hNodup := hL.nodup
  have hLinked := hL.linked
  rw [hSplit] at hNodup hLinked
  have hPerm : (front ++ [b] ++ fs :: back).Perm (fs :: (front ++ [b] ++ back)) := List.perm_middle
  obtain ⟨hOut, hRest⟩ := List.nodup_cons.mp (hPerm.nodup_iff.mp hNodup)
  refine ⟨cells', ?_, ?_, ?_, ?_⟩
  · rw [hCells', Heap.next_setNext, Heap.next_setNext]
    exact (hLinked.remove_behind hNodup).update_other hOut none
  · rw [hCells']
    exact hRest
  · intro p
    rw [hCells', Registry.listed_unregister hNe, Finset.mem_erase, ← hL.mem, hSplit, hPerm.mem_iff,
      List.mem_cons]
    constructor
    · intro hp
      exact ⟨fun hEq => hOut (hEq ▸ hp), Or.inr hp⟩
    · rintro ⟨hNot, hEq | hp⟩
      · exact absurd hEq hNot
      · exact hp
  · rw [Heap.nameOf_setNext, Heap.nameOf_setNext, hL.names]

theorem register_step (hL : Lists h S cells) (fs : Ptr) :
    ∃ r h' cells', (∀ fuel, cells.length + (nameOf fs).length + 1 < fuel →
        registerFilesystem filesystem fuel h fs = some (r, h')) ∧
      Lists h' (S.register fs) cells' ∧
      ((r = 1 ∧ ∀ p ∈ S.listed, nameOf p ≠ nameOf fs) ∨
        (r = 0 ∧ (∃ p ∈ S.listed, nameOf p = nameOf fs) ∧ h' = h)) := by
  by_cases hTaken : ∃ p ∈ S.listed, nameOf p = nameOf fs
  · refine ⟨0, h, cells, fun fuel hFuel => ?_, ?_, Or.inr ⟨rfl, hTaken, rfl⟩⟩
    · obtain ⟨found, hScan, hNone⟩ := register_scan hL fs hFuel
      cases found with
      | none => exact absurd hTaken (hNone.mp rfl)
      | some q =>
        rw [registerFilesystem, hScan, Option.bind_eq_bind, Option.bind_some]
        rfl
    · rw [Registry.register_taken hTaken]
      exact hL
  · refine ⟨1, _, fs :: cells, fun fuel hFuel => ?_, hL.link hTaken, Or.inl ⟨rfl, ?_⟩⟩
    · obtain ⟨found, hScan, hNone⟩ := register_scan hL fs hFuel
      rw [registerFilesystem, hScan, hNone.mpr hTaken, Option.bind_eq_bind, Option.bind_some]
      rfl
    · exact fun p hp hEq => hTaken ⟨p, hp, hEq⟩

theorem unregister_step (hL : Lists h S cells) (fs : Ptr) :
    ∃ r h' cells', (∀ fuel, cells.length < fuel →
        unregisterFilesystem filesystem fuel h fs = some (r, h')) ∧
      Lists h' (S.unregister fs) cells' ∧
      ((r = 1 ∧ fs ∈ S.listed ∧ fs ≠ filesystem) ∨
        (r = 0 ∧ ¬(fs ∈ S.listed ∧ fs ≠ filesystem) ∧ h' = h)) := by
  by_cases hIn : fs ∈ cells
  · obtain ⟨front, back, hCells⟩ := List.append_of_mem hIn
    have hNe : fs ≠ filesystem := by
      rintro rfl
      exact (List.nodup_cons.mp hL.nodup).1 hIn
    obtain ⟨init, b, hInit⟩ := (List.eq_nil_or_concat' (filesystem :: front)).resolve_left
      (List.cons_ne_nil filesystem front)
    have hSplit : filesystem :: cells = init ++ [b] ++ fs :: back := by
      rw [hCells, ← List.cons_append, hInit]
    have hNodup := hL.nodup
    have hLinked := hL.linked
    rw [hSplit] at hNodup hLinked
    have hNot : fs ∉ init ++ [b] := by
      intro hFront
      exact (List.disjoint_of_nodup_append hNodup) hFront List.mem_cons_self
    have hLength : init.length ≤ cells.length := by
      have hAll := congrArg List.length hSplit
      simp only [List.length_append, List.length_cons, List.length_nil] at hAll
      omega
    obtain ⟨cells', hCut⟩ := hL.cut hSplit hNe
    refine ⟨1, _, cells', fun fuel hFuel => ?_, hCut, Or.inl ⟨rfl, ?_, hNe⟩⟩
    · exact unregisterLoop_hit hLinked hNot (Nat.lt_of_le_of_lt hLength hFuel)
    · exact (hL.mem fs).mp (List.mem_cons_of_mem filesystem hIn)
  · have hOut : ¬(fs ∈ S.listed ∧ fs ≠ filesystem) := by
      rintro ⟨hListed, hNe⟩
      exact hIn ((List.mem_cons.mp ((hL.mem fs).mpr hListed)).resolve_left hNe)
    refine ⟨0, h, cells, fun fuel hFuel => unregisterLoop_miss hL.linked hIn hFuel, ?_,
      Or.inr ⟨rfl, hOut, rfl⟩⟩
    by_cases hEq : fs = filesystem
    · rw [hEq, Registry.unregister_builtIn]
      exact hL
    · refine ⟨hL.linked, hL.nodup, fun p => ?_, hL.names⟩
      have hListed : fs ∉ S.listed := fun hp => hOut ⟨hp, hEq⟩
      rw [Registry.listed_unregister hEq, Finset.erase_eq_of_notMem hListed]
      exact hL.mem p

/-- Any call answers out of the registry and leaves the next one. -/
theorem perform_step (hL : Lists h S cells) (c : Call m Ptr) :
    ∃ r h' cells', Lists h' (S.step c) cells' ∧ Answers S ⟨c, h, r, h'⟩ ∧
      ∃ n, ∀ fuel, n ≤ fuel → perform filesystem fuel h c = some (r, h') := by
  cases c with
  | mount name DPTE buf =>
    obtain ⟨call, hRun, hFound, hNone⟩ := mountFs_spec hL name DPTE buf
    refine ⟨.superblock call, h, cells, hL, ⟨rfl, hFound, hNone⟩,
      cells.length + name.chars.length + 2, fun fuel hFuel => ?_⟩
    rw [perform, hRun fuel hFuel, Option.map_some]
  | register fs =>
    obtain ⟨r, h', cells', hRun, hL', hAnswer⟩ := register_step hL fs
    refine ⟨.status r, h', cells', hL', hAnswer, cells.length + (nameOf fs).length + 2,
      fun fuel hFuel => ?_⟩
    rw [perform, hRun fuel hFuel, Option.map_some]
  | unregister fs =>
    obtain ⟨r, h', cells', hRun, hL', hAnswer⟩ := unregister_step hL fs
    refine ⟨.status r, h', cells', hL', hAnswer, cells.length + 1, fun fuel hFuel => ?_⟩
    rw [perform, hRun fuel hFuel, Option.map_some]

theorem serve_follows (hL : Lists h S cells) (calls : List (Call m Ptr)) :
    ∃ n, ∀ fuel, n ≤ fuel → ∃ log, serve filesystem fuel h calls = some log ∧
      log.map Served.call = calls ∧ Follows S log := by
  induction calls generalizing h S cells with
  | nil => exact ⟨0, fun _ _ => ⟨[], rfl, rfl, trivial⟩⟩
  | cons c calls ih =>
    obtain ⟨r, h', cells', hL', hAnswer, n₁, hPerform⟩ := perform_step hL c
    obtain ⟨n₂, hServe⟩ := ih hL'
    refine ⟨max n₁ n₂, fun fuel hFuel => ?_⟩
    obtain ⟨hFuel₁, hFuel₂⟩ := max_le_iff.mp hFuel
    obtain ⟨log, hLog, hCalls, hFollows⟩ := hServe fuel hFuel₂
    refine ⟨⟨c, h, r, h'⟩ :: log, ?_, ?_, hAnswer, ⟨cells', hL'⟩, hFollows⟩
    · rw [serve, hPerform fuel hFuel₁, Option.bind_eq_bind, Option.bind_some]
      simp only [hLog, Option.bind_eq_bind, Option.bind_some, Option.pure_def]
    · rw [List.map_cons, hCalls]

/-- Whatever is called in whatever order, the list is the registry. -/
theorem registry_is_finite_map {h₀ : Heap m Ptr} (hStart : h₀.next filesystem = none)
    (calls : List (Call m Ptr)) :
    ∃ n, ∀ fuel, n ≤ fuel → ∃ log, serve filesystem fuel h₀ calls = some log ∧
      log.map Served.call = calls ∧ Follows (Registry.initial h₀.nameOf filesystem) log :=
  serve_follows (lists_initial hStart) calls

end

/-- The strings `fs` and `fat`. -/
def twoNames : Bytes := fun a => ([0x66, 0x73, 0, 0x66, 0x61, 0x74, 0] : List (BitVec 8)).getD a 0

def nameFs : CString twoNames := ⟨0, [0x66, 0x73], rfl, by decide, rfl, by decide, rfl⟩
def nameFat : CString twoNames := ⟨3, [0x66, 0x61, 0x74], rfl, by decide, rfl, by decide, rfl, by decide, rfl⟩

/-- Two objects of one name, which have stale links, and the built-in one. -/
def threeObjects : Heap twoNames Nat :=
  fun p => if p = 0 then ⟨nameFs, 0, none⟩ else ⟨nameFat, 0x1000 * p, some 0⟩

def twiceAndBack : List (Call twoNames Nat) :=
  [.register 1, .register 1, .register 2, .mount nameFat 7 8, .unregister 2, .unregister 1, .register 2]

theorem registry_is_finite_map_threeObjects :
    ∃ n, ∀ fuel, n ≤ fuel → ∃ log, serve 0 fuel threeObjects twiceAndBack = some log ∧
      log.map Served.call = twiceAndBack ∧ Follows (Registry.initial threeObjects.nameOf 0) log :=
  registry_is_finite_map rfl twiceAndBack

example : (serve 0 6 threeObjects twiceAndBack).map (fun log => log.map Served.result) =
    some [.status 1, .status 0, .status 0, .superblock (some ⟨0x1000, 7, 8⟩), .status 0, .status 1,
      .status 1] := by decide

end KalinoteOS.FileSystem
