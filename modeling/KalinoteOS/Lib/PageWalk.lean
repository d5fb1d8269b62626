import Mathlib.Data.BitVec
import Mathlib.Data.List.Basic

/-! # Four-level address translation

Physical memory is seen as frames of 512 entries. A walk takes one slot of each level, the highest first. Of
an entry it looks at the bits Present, User and Page Size and at the frame; reserved bits are not checked.
-/
namespace KalinoteOS.Lib
set_option autoImplicit false

abbrev Slot := Fin 512

/-- The entries of every frame. -/
abbrev PhysMem := Nat → Slot → BitVec 64

def PhysMem.store (m : PhysMem) (g : Nat) (i : Slot) (e : BitVec 64) : PhysMem :=
  fun f j => if f = g ∧ j = i then e else m f j

namespace PageWalk

def present (e : BitVec 64) : Bool := e.getLsbD 0

def userBit (e : BitVec 64) : Bool := e.getLsbD 2

/-- Page Size, or something else in the tables of the last level. -/
def large (e : BitVec 64) : Bool := e.getLsbD 7

def frame (e : BitVec 64) : Nat := e.toNat / 2 ^ 12 % 2 ^ 40

/-- A page of `512 ^ level` frames from `frame` on. -/
structure Page where
  frame : Nat
  level : Nat
  user : Bool
  deriving DecidableEq, Repr

variable (m : PhysMem)

/-- The walk on the slots that are left, from the table `f`; `user` is what the entries so far allow. No page
is as large as what an entry of the first level covers. -/
def walk : List Slot → Nat → Bool → Option Page
  | [], f, user => some ⟨f, 0, user⟩
  | i :: is, f, user =>
    if present (m f i) = false then none
    else if large (m f i) = true ∧ is ≠ [] then
      if is.length < 3 then
        some ⟨frame (m f i) / 512 ^ is.length * 512 ^ is.length, is.length, user && userBit (m f i)⟩
      else none
    else walk is (frame (m f i)) (user && userBit (m f i))

/-- The entry leads to a table. -/
def Leads (e : BitVec 64) : Prop := present e = true ∧ large e = false

instance (e : BitVec 64) : Decidable (Leads e) := inferInstanceAs (Decidable (_ ∧ _))

/-- The table that the slots lead to. -/
def tableAt : List Slot → Nat → Option Nat
  | [], f => some f
  | i :: is, f => if Leads (m f i) then tableAt is (frame (m f i)) else none

/-- The table has no present entry. -/
def Blank (f : Nat) : Prop := ∀ i, present (m f i) = false

/-- The low nine bits. -/
def slotOf (n : Nat) : Slot := ⟨n % 512, Nat.mod_lt _ (by decide)⟩

def slot (v : BitVec 64) (level : Nat) : Slot := slotOf (v.toNat / 2 ^ (12 + 9 * level))

def slots (v : BitVec 64) : List Slot := [slot v 3, slot v 2, slot v 1, slot v 0]

/-- Bits 47 to 63 are all the same. -/
def Canonical (v : BitVec 64) : Prop := v.toNat < 2 ^ 47 ∨ 2 ^ 64 - 2 ^ 47 ≤ v.toNat

instance (v : BitVec 64) : Decidable (Canonical v) := inferInstanceAs (Decidable (_ ∨ _))

/-- The page of a virtual address. -/
def translation (root : Nat) (v : BitVec 64) : Option Page :=
  if Canonical v then walk m (slots v) root true else none

/-- The physical address in a page. -/
def Page.address (p : Page) (v : BitVec 64) : Nat := p.frame * 2 ^ 12 + v.toNat % (2 ^ 12 * 512 ^ p.level)

variable {m}

theorem slot_val (v : BitVec 64) (level : Nat) : (slot v level : Nat) = v.toNat / 2 ^ (12 + 9 * level) % 512 :=
  rfl

/-! ## One entry -/

theorem store_self (g : Nat) (i : Slot) (e : BitVec 64) : m.store g i e g i = e := if_pos ⟨rfl, rfl⟩

theorem store_ne {g f : Nat} {i j : Slot} (e : BitVec 64) (h : ¬(f = g ∧ j = i)) : m.store g i e f j = m f j :=
  if_neg h

theorem store_frame_ne {g f : Nat} {i : Slot} (e : BitVec 64) (h : f ≠ g) (j : Slot) :
    m.store g i e f j = m f j :=
  store_ne e fun hEq => h hEq.1

section
variable {f : Nat} {i : Slot} {is : List Slot} {user : Bool}

theorem walk_absent (h : present (m f i) = false) : walk m (i :: is) f user = none := if_pos h

theorem walk_large (h : present (m f i) = true) (hLarge : large (m f i) = true) (hNe : is ≠ [])
    (hLength : is.length < 3) :
    walk m (i :: is) f user =
      some ⟨frame (m f i) / 512 ^ is.length * 512 ^ is.length, is.length, user && userBit (m f i)⟩ := by
  rw [walk, if_neg (by rw [h]; decide), if_pos ⟨hLarge, hNe⟩, if_pos hLength]

theorem walk_next (h : present (m f i) = true) (hNext : ¬(large (m f i) = true ∧ is ≠ [])) :
    walk m (i :: is) f user = walk m is (frame (m f i)) (user && userBit (m f i)) := by
  rw [walk, if_neg (by rw [h]; decide), if_neg hNext]

theorem walk_link (h : Leads (m f i)) : walk m (i :: is) f user = walk m is (frame (m f i))
    (user && userBit (m f i)) :=
  walk_next h.1 fun hLarge => by rw [h.2] at hLarge; exact absurd hLarge.1 (by decide)

theorem tableAt_link (h : Leads (m f i)) : tableAt m (i :: is) f = tableAt m is (frame (m f i)) := if_pos h

theorem tableAt_none (h : ¬Leads (m f i)) : tableAt m (i :: is) f = none := if_neg h

theorem zero_absent : present 0 = false := rfl

theorem zero_not_leads : ¬Leads 0 := fun h => absurd h.1 (by decide)

end

/-! ## Paths -/

theorem tableAt_append (is js : List Slot) (f : Nat) :
    tableAt m (is ++ js) f = (tableAt m is f).bind (tableAt m js) := by
  induction is generalizing f with
  | nil => rfl
  | cons i is ih =>
    by_cases h : Leads (m f i)
    · rw [List.cons_append, tableAt_link h, tableAt_link h]
      exact ih (frame (m f i))
    · rw [List.cons_append, tableAt_none h, tableAt_none h]
      rfl

theorem walk_append {is : List Slot} {f g : Nat} (h : tableAt m is f = some g) (js : List Slot) (user : Bool) :
    ∃ user', walk m (is ++ js) f user = walk m js g user' := by
  induction is generalizing f user with
  | nil =>
    cases h
    exact ⟨user, rfl⟩
  | cons i is ih =>
    by_cases hLeads : Leads (m f i)
    · rw [tableAt_link hLeads] at h
      rw [List.cons_append, walk_link hLeads]
      exact ih h _
    · rw [tableAt_none hLeads] at h
      cases h

/-- A walk that does not read the slot goes on as before. -/
theorem walk_store_cases (g : Nat) (i : Slot) (e : BitVec 64) (is : List Slot) (f : Nat) (user : Bool) :
    walk (m.store g i e) is f user = walk m is f user ∨ ∃ js ks, is = js ++ i :: ks ∧
      tableAt m js f = some g := by
  induction is generalizing f user with
  | nil => exact Or.inl rfl
  | cons j is ih =>
    by_cases hHit : f = g ∧ j = i
    · obtain ⟨rfl, rfl⟩ := hHit
      exact Or.inr ⟨[], is, rfl, rfl⟩
    have hSame : m.store g i e f j = m f j := store_ne e hHit
    unfold walk
    rw [hSame]
    by_cases hPresent : present (m f j) = false
    · rw [if_pos hPresent, if_pos hPresent]
      exact Or.inl rfl
    rw [if_neg hPresent, if_neg hPresent]
    by_cases hLarge : large (m f j) = true ∧ is ≠ []
    · rw [if_pos hLarge, if_pos hLarge]
      exact Or.inl rfl
    rw [if_neg hLarge, if_neg hLarge]
    obtain hEq | ⟨js, ks, hSplit, hTable⟩ := ih (frame (m f j)) (user && userBit (m f j))
    · exact Or.inl hEq
    · have hNe : is ≠ [] := by
        rw [hSplit]
        exact List.append_ne_nil_of_right_ne_nil _ (List.cons_ne_nil _ _)
      have hLeads : Leads (m f j) := ⟨Bool.of_not_eq_false hPresent, Bool.of_not_eq_true fun h => hLarge ⟨h, hNe⟩⟩
      refine Or.inr ⟨j :: js, ks, congrArg (j :: ·) hSplit, ?_⟩
      rw [tableAt_link hLeads]
      exact hTable

theorem tableAt_store_eq {g : Nat} {i : Slot} {e : BitVec 64} {is : List Slot} {f : Nat}
    (h : ∀ js ks, is = js ++ i :: ks → tableAt m js f ≠ some g) : tableAt (m.store g i e) is f =
      tableAt m is f := by
  induction is generalizing f with
  | nil => rfl
  | cons j is ih =>
    have hSame : m.store g i e f j = m f j := by
      apply store_ne
      rintro ⟨rfl, rfl⟩
      exact h [] is rfl rfl
    unfold tableAt
    rw [hSame]
    by_cases hLeads : Leads (m f j)
    · rw [if_pos hLeads, if_pos hLeads]
      apply ih
      intro js ks hSplit hTable
      exact h (j :: js) ks (congrArg (j :: ·) hSplit) ((tableAt_link hLeads).trans hTable)
    · rw [if_neg hLeads, if_neg hLeads]

/-- A table that is reached after a store was reached before it, or is reached through the new entry. -/
theorem tableAt_store_cases {g : Nat} {i : Slot} {e : BitVec 64} {is : List Slot} {f h : Nat}
    (hTable : tableAt (m.store g i e) is f = some h) : tableAt m is f = some h ∨
      ∃ js ks, is = js ++ i :: ks ∧ tableAt m js f = some g ∧ Leads e ∧
        tableAt (m.store g i e) ks (frame e) = some h := by
  induction is generalizing f with
  | nil => exact Or.inl hTable
  | cons j is ih =>
    by_cases hLeads : Leads (m.store g i e f j)
    · rw [tableAt_link hLeads] at hTable
      by_cases hHit : f = g ∧ j = i
      · obtain ⟨rfl, rfl⟩ := hHit
        rw [store_self] at hTable hLeads
        exact Or.inr ⟨[], is, rfl, rfl, hLeads, hTable⟩
      · rw [store_ne e hHit] at hTable hLeads
        rw [tableAt_link hLeads]
        obtain hOld | ⟨js, ks, hSplit, hBefore, hNew, hRest⟩ := ih hTable
        · exact Or.inl hOld
        · refine Or.inr ⟨j :: js, ks, congrArg (j :: ·) hSplit, ?_, hNew, hRest⟩
          rw [tableAt_link hLeads]
          exact hBefore
    · rw [tableAt_none hLeads] at hTable
      cases hTable

theorem tableAt_agree {m m' : PhysMem} {is : List Slot} {f : Nat}
    (h : ∀ js, js.length < is.length → ∀ g, tableAt m' js f = some g → ∀ i, m g i = m' g i) :
    tableAt m is f = tableAt m' is f := by
  induction is generalizing f with
  | nil => rfl
  | cons i is ih =>
    have hSame : m f i = m' f i := h [] (Nat.succ_pos _) f rfl i
    unfold tableAt
    rw [hSame]
    by_cases hLeads : Leads (m' f i)
    · rw [if_pos hLeads, if_pos hLeads]
      apply ih
      intro js hjs g hg
      apply h (i :: js) (Nat.succ_lt_succ hjs) g
      rw [tableAt_link hLeads]
      exact hg
    · rw [if_neg hLeads, if_neg hLeads]

/-- Memories with the same tables on the way have the same walks. -/
theorem walk_agree {m m' : PhysMem} {is : List Slot} {f : Nat} {user : Bool}
    (h : ∀ js, js.length < is.length → ∀ g, tableAt m' js f = some g → ∀ i, m g i = m' g i) :
    walk m is f user = walk m' is f user := by
  induction is generalizing f user with
  | nil => rfl
  | cons i is ih =>
    have hSame : m f i = m' f i := h [] (Nat.succ_pos _) f rfl i
    unfold walk
    rw [hSame]
    by_cases hPresent : present (m' f i) = false
    · rw [if_pos hPresent, if_pos hPresent]
    rw [if_neg hPresent, if_neg hPresent]
    by_cases hLarge : large (m' f i) = true ∧ is ≠ []
    · rw [if_pos hLarge, if_pos hLarge]
    rw [if_neg hLarge, if_neg hLarge]
    apply ih
    intro js hjs g hg
    have hNe : is ≠ [] := by
      rintro rfl
      exact absurd hjs (Nat.not_lt_zero _)
    have hLeads : Leads (m' f i) :=
      ⟨Bool.of_not_eq_false hPresent, Bool.of_not_eq_true fun hBit => hLarge ⟨hBit, hNe⟩⟩
    apply h (i :: js) (Nat.succ_lt_succ hjs) g
    rw [tableAt_link hLeads]
    exact hg

theorem not_leads_of_absent {e : BitVec 64} (h : present e = false) : ¬Leads e := fun hLeads => by
  rw [hLeads.1] at h
  cases h

theorem tableAt_empty {f g : Nat} (hEmpty : Blank m f) {is : List Slot}
    (h : tableAt m is f = some g) : is = [] ∧ g = f := by
  cases is with
  | nil =>
    cases h
    exact ⟨rfl, rfl⟩
  | cons i is =>
    rw [tableAt_none (not_leads_of_absent (hEmpty i))] at h
    cases h

theorem walk_empty {f : Nat} (hEmpty : Blank m f) {is : List Slot} (hNe : is ≠ []) (user : Bool) :
    walk m is f user = none := by
  cases is with
  | nil => exact absurd rfl hNe
  | cons i is => exact walk_absent (hEmpty i)

/-! ## Tables with one path -/

/-- As a table `g` is reached by the path only. -/
def Owned (m : PhysMem) (root : Nat) (path : List Slot) (g : Nat) : Prop :=
  ∀ is, is.length ≤ 3 → tableAt m is root = some g → is = path

section
variable {root g : Nat} {path : List Slot} (hTable : tableAt m path root = some g) (hOwned : Owned m root path g)

include hOwned in
/-- A store into the table changes no path that does not go through the slot. -/
theorem Owned.tableAt_store {i : Slot} {e : BitVec 64} {is : List Slot} (hLength : is.length ≤ 4)
    (h : ¬path ++ [i] <+: is) : tableAt (m.store g i e) is root = tableAt m is root := by
  apply tableAt_store_eq
  intro js ks hSplit hBefore
  have hShort : js.length ≤ 3 := by
    rw [hSplit, List.length_append, List.length_cons] at hLength
    omega
  refine h ⟨ks, ?_⟩
  rw [hSplit, hOwned js hShort hBefore, List.append_assoc]
  rfl

include hOwned in
theorem Owned.walk_store {i : Slot} {e : BitVec 64} {is : List Slot} (hLength : is.length ≤ 4)
    (h : ¬path ++ [i] <+: is) (user : Bool) : walk (m.store g i e) is root user = walk m is root user := by
  obtain hEq | ⟨js, ks, hSplit, hBefore⟩ := walk_store_cases g i e is root user
  · exact hEq
  · have hShort : js.length ≤ 3 := by
      rw [hSplit, List.length_append, List.length_cons] at hLength
      omega
    refine absurd ⟨ks, ?_⟩ h
    rw [hSplit, hOwned js hShort hBefore, List.append_assoc]
    rfl

include hTable hOwned in
theorem Owned.table_store (hPath : path.length ≤ 3) (i : Slot) (e : BitVec 64) :
    tableAt (m.store g i e) path root = some g := by
  refine (hOwned.tableAt_store (Nat.le_succ_of_le hPath) fun h => ?_).trans hTable
  have hLonger := h.length_le
  rw [List.length_append, List.length_singleton] at hLonger
  omega

include hTable hOwned in
theorem Owned.walk_store_large (hPath : path.length ≤ 3) (i : Slot) {e : BitVec 64} (hPresent : present e = true)
    (hLarge : large e = true) {ks : List Slot} (hNe : ks ≠ []) (hLength : ks.length < 3) (user : Bool) :
    ∃ user', walk (m.store g i e) (path ++ i :: ks) root user =
      some ⟨frame e / 512 ^ ks.length * 512 ^ ks.length, ks.length, user' && userBit e⟩ := by
  obtain ⟨user', hWalk⟩ := walk_append (hOwned.table_store hTable hPath i e) (i :: ks) user
  refine ⟨user', hWalk.trans ?_⟩
  have hSelf := store_self (m := m) g i e
  have hEntry : walk (m.store g i e) (i :: ks) g user' = _ :=
    walk_large (by rw [hSelf, hPresent]) (by rw [hSelf, hLarge]) hNe hLength
  rwa [hSelf] at hEntry

/-- An entry that leads to no table makes no new path. -/
theorem tableAt_store_large {i : Slot} {e : BitVec 64} (hLarge : large e = true) {is : List Slot} {f h : Nat}
    (hTable : tableAt (m.store g i e) is f = some h) : tableAt m is f = some h := by
  obtain hOld | ⟨js, ks, -, -, hLeads, -⟩ := tableAt_store_cases hTable
  · exact hOld
  · rw [hLeads.2] at hLarge
    cases hLarge

section
variable {i : Slot} {e : BitVec 64} (hAbsent : present (m g i) = false) (hLeads : Leads e)
  (hEmpty : Blank m (frame e)) (hNe : frame e ≠ g)

include hEmpty hNe in
theorem empty_store : Blank (m.store g i e) (frame e) := by
  intro j
  rw [store_frame_ne e hNe]
  exact hEmpty j

include hTable hOwned hAbsent hLeads hEmpty hNe in
/-- An empty table behind an absent entry maps nothing. -/
theorem Owned.walk_store_empty (hPath : path.length ≤ 2) {is : List Slot} (hLength : is.length = 4)
    (user : Bool) :
    walk (m.store g i e) is root user = walk m is root user := by
  by_cases hHit : path ++ [i] <+: is
  · obtain ⟨ks, rfl⟩ := hHit
    have hMore : ks ≠ [] := by
      rintro rfl
      rw [List.append_nil, List.length_append, List.length_singleton] at hLength
      omega
    rw [List.append_assoc, List.singleton_append]
    obtain ⟨user₁, hNew⟩ := walk_append (hOwned.table_store hTable (Nat.le_succ_of_le hPath) i e) (i :: ks) user
    obtain ⟨user₂, hOld⟩ := walk_append hTable (i :: ks) user
    have hSelf := store_self (m := m) g i e
    rw [hNew, hOld, walk_absent hAbsent, walk_link (by rw [hSelf]; exact hLeads), hSelf]
    exact walk_empty (empty_store hEmpty hNe) hMore _
  · exact hOwned.walk_store (Nat.le_of_eq hLength) hHit user

include hOwned hEmpty hNe in
/-- The new table is the only one that is reached since. -/
theorem Owned.tableAt_store_empty {is : List Slot} (hLength : is.length ≤ 3) {h : Nat}
    (hAfter : tableAt (m.store g i e) is root = some h) :
    tableAt m is root = some h ∨ is = path ++ [i] ∧ h = frame e := by
  obtain hOld | ⟨js, ks, hSplit, hBefore, -, hRest⟩ := tableAt_store_cases hAfter
  · exact Or.inl hOld
  · have hShort : js.length ≤ 3 := by
      rw [hSplit, List.length_append, List.length_cons] at hLength
      omega
    obtain ⟨rfl, rfl⟩ := tableAt_empty (empty_store hEmpty hNe) hRest
    refine Or.inr ⟨?_, rfl⟩
    rw [hSplit, hOwned js hShort hBefore]

include hTable hOwned hLeads in
theorem Owned.table_new (hPath : path.length ≤ 3) : tableAt (m.store g i e) (path ++ [i]) root =
    some (frame e) := by
  have hSelf := store_self (m := m) g i e
  rw [tableAt_append, hOwned.table_store hTable hPath i e]
  change tableAt (m.store g i e) [i] g = some (frame e)
  rw [tableAt_link (by rw [hSelf]; exact hLeads), hSelf]
  rfl

end

end

end PageWalk
end KalinoteOS.Lib
