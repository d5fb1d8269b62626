import KalinoteOS.Lib.PageWalk

/-! # User access

A user reaches a page when the bit User is set in each entry on the way to it.
-/
namespace KalinoteOS.Lib.PageWalk
set_option autoImplicit false

/-- The page of a virtual address, for the user. -/
def userPage (m : PhysMem) (root : Nat) (v : BitVec 64) : Option Page := (translation m root v).filter Page.user

/-- The word that a user finds at a virtual address. -/
def userView (m : PhysMem) (root : Nat) (v : BitVec 64) : Option (BitVec 64) :=
  (userPage m root v).map fun p => m (p.address v / 2 ^ 12) (slotOf (p.address v / 8))

def userEntry (e : BitVec 64) : Bool := present e && userBit e

section
variable (m : PhysMem)

/-- The walk of a user. -/
def userWalk : List Slot → Nat → Option Page
  | [], f => some ⟨f, 0, true⟩
  | i :: is, f =>
    if userEntry (m f i) = false then none
    else if large (m f i) = true ∧ is ≠ [] then
      if is.length < 3 then some ⟨frame (m f i) / 512 ^ is.length * 512 ^ is.length, is.length, true⟩ else none
    else userWalk is (frame (m f i))

/-- The table that the slots lead a user to. -/
def userTable : List Slot → Nat → Option Nat
  | [], f => some f
  | i :: is, f => if userEntry (m f i) = true ∧ large (m f i) = false then userTable is (frame (m f i)) else none

/-- An entry `n` levels above the pages of 4KB gives the user a page. The tables in `touched` are counted as
giving one, whatever they hold. -/
def Gives (touched : Nat → Prop) : Nat → BitVec 64 → Prop
  | 0, e => userEntry e = true
  | n + 1, e => userEntry e = true ∧ (large e = true ∨ touched (frame e) ∨ ∃ j, Gives touched n (m (frame e) j))

end

variable {m m' : PhysMem}

/-! ## The walk -/

theorem walk_kernel (is : List Slot) (f : Nat) : (walk m is f false).filter Page.user = none := by
  induction is generalizing f with
  | nil => rfl
  | cons i is ih =>
    unfold walk
    rw [Bool.false_and]
    by_cases hPresent : present (m f i) = false
    · rw [if_pos hPresent]
      rfl
    rw [if_neg hPresent]
    by_cases hLarge : large (m f i) = true ∧ is ≠ []
    · rw [if_pos hLarge]
      by_cases hLength : is.length < 3
      · rw [if_pos hLength]
        rfl
      · rw [if_neg hLength]
        rfl
    · rw [if_neg hLarge]
      exact ih (frame (m f i))

theorem userWalk_eq (is : List Slot) (f : Nat) : userWalk m is f = (walk m is f true).filter Page.user := by
  induction is generalizing f with
  | nil => rfl
  | cons i is ih =>
    unfold userWalk walk userEntry
    rw [Bool.true_and]
    cases hPresent : present (m f i) with
    | false => rfl
    | true =>
      rw [Bool.true_and, if_neg (by decide : ¬true = false)]
      by_cases hLarge : large (m f i) = true ∧ is ≠ []
      · rw [if_pos hLarge, if_pos hLarge]
        by_cases hLength : is.length < 3
        · rw [if_pos hLength, if_pos hLength]
          cases userBit (m f i) <;> rfl
        · rw [if_neg hLength, if_neg hLength, ite_self]
          rfl
      · rw [if_neg hLarge, if_neg hLarge]
        cases userBit (m f i) with
        | false => exact (walk_kernel is _).symm
        | true => exact ih _

theorem userPage_eq {root : Nat} {v : BitVec 64} (h : Canonical v) :
    userPage m root v = userWalk m (slots v) root := by
  unfold userPage translation
  rw [if_pos h, userWalk_eq]

theorem userPage_none {root : Nat} {v : BitVec 64} (h : ¬Canonical v) : userPage m root v = none := by
  unfold userPage translation
  rw [if_neg h]
  rfl

section
variable {f : Nat} {i : Slot} {is : List Slot}

theorem userWalk_absent (h : userEntry (m f i) = false) : userWalk m (i :: is) f = none := if_pos h

theorem userWalk_large (h : userEntry (m f i) = true) (hLarge : large (m f i) = true) (hNe : is ≠ [])
    (hLength : is.length < 3) :
    userWalk m (i :: is) f =
      some ⟨frame (m f i) / 512 ^ is.length * 512 ^ is.length, is.length, true⟩ := by
  rw [userWalk, if_neg (by rw [h]; decide), if_pos ⟨hLarge, hNe⟩, if_pos hLength]

theorem userWalk_next (h : userEntry (m f i) = true) (hNext : ¬(large (m f i) = true ∧ is ≠ [])) :
    userWalk m (i :: is) f = userWalk m is (frame (m f i)) := by
  rw [userWalk, if_neg (by rw [h]; decide), if_neg hNext]

end

/-! ## Paths -/

theorem userTable_append (is js : List Slot) (f : Nat) :
    userTable m (is ++ js) f = (userTable m is f).bind (userTable m js) := by
  induction is generalizing f with
  | nil => rfl
  | cons i is ih =>
    rw [List.cons_append, userTable, userTable]
    by_cases h : userEntry (m f i) = true ∧ large (m f i) = false
    · rw [if_pos h, if_pos h]
      exact ih (frame (m f i))
    · rw [if_neg h, if_neg h]
      rfl

theorem userTable_tableAt {is : List Slot} {f g : Nat} (h : userTable m is f = some g) :
    tableAt m is f = some g := by
  induction is generalizing f with
  | nil => exact h
  | cons i is ih =>
    rw [userTable] at h
    by_cases hUser : userEntry (m f i) = true ∧ large (m f i) = false
    · rw [if_pos hUser] at h
      rw [tableAt_link ⟨(Bool.and_eq_true_iff.mp hUser.1).1, hUser.2⟩]
      exact ih h
    · rw [if_neg hUser] at h
      cases h

/-- A user reaches whatever is behind a table on the way. -/
theorem userTable_walk {is : List Slot} {f g : Nat} (h : userTable m is f = some g) :
    userWalk m is f = some ⟨g, 0, true⟩ := by
  induction is generalizing f with
  | nil =>
    cases h
    rfl
  | cons i is ih =>
    rw [userTable] at h
    by_cases hUser : userEntry (m f i) = true ∧ large (m f i) = false
    · rw [if_pos hUser] at h
      rw [userWalk_next hUser.1 fun hLarge => Bool.false_ne_true (hUser.2.symm.trans hLarge.1)]
      exact ih h
    · rw [if_neg hUser] at h
      cases h

/-- From a table that leads back to itself paths of any length start. -/
theorem userTable_cycle {p : List Slot} {f : Nat} (hNe : p ≠ []) (h : userTable m p f = some f) (n : Nat) :
    ∃ q g, q.length = n ∧ userTable m q f = some g := by
  have hLong : ∀ k, ∃ q, k ≤ q.length ∧ userTable m q f = some f := by
    intro k
    induction k with
    | zero => exact ⟨[], Nat.le_refl 0, rfl⟩
    | succ k ih =>
      obtain ⟨q, hLength, hq⟩ := ih
      refine ⟨p ++ q, ?_, ?_⟩
      · have hPos := List.length_pos_of_ne_nil hNe
        rw [List.length_append]
        omega
      · rw [userTable_append, h]
        exact hq
  obtain ⟨q, hLength, hq⟩ := hLong n
  rw [← List.take_append_drop n q, userTable_append] at hq
  obtain ⟨g, hg, -⟩ := Option.bind_eq_some_iff.mp hq
  exact ⟨q.take n, g, List.length_take_of_le hLength, hg⟩

/-- A walk in another memory is as before, or comes first to an entry that has changed. -/
theorem userWalk_changed (is : List Slot) (f : Nat) : userWalk m' is f = userWalk m is f ∨
    ∃ js i ks g, is = js ++ i :: ks ∧ userTable m js f = some g ∧ m' g i ≠ m g i := by
  induction is generalizing f with
  | nil => exact Or.inl rfl
  | cons j is ih =>
    by_cases hSame : m' f j = m f j
    · unfold userWalk
      rw [hSame]
      by_cases hUser : userEntry (m f j) = false
      · rw [if_pos hUser, if_pos hUser]
        exact Or.inl rfl
      rw [if_neg hUser, if_neg hUser]
      by_cases hLarge : large (m f j) = true ∧ is ≠ []
      · rw [if_pos hLarge, if_pos hLarge]
        exact Or.inl rfl
      rw [if_neg hLarge, if_neg hLarge]
      obtain hEq | ⟨js, i, ks, g, hSplit, hTable, hNew⟩ := ih (frame (m f j))
      · exact Or.inl hEq
      · have hNe : is ≠ [] := by
          rw [hSplit]
          exact List.append_ne_nil_of_right_ne_nil _ (List.cons_ne_nil _ _)
        have hLink : userEntry (m f j) = true ∧ large (m f j) = false :=
          ⟨Bool.of_not_eq_false hUser, Bool.of_not_eq_true fun h => hLarge ⟨h, hNe⟩⟩
        refine Or.inr ⟨j :: js, i, ks, g, congrArg (j :: ·) hSplit, ?_, hNew⟩
        rw [userTable, if_pos hLink]
        exact hTable
    · exact Or.inr ⟨[], j, is, f, rfl, rfl, hSame⟩

/-! ## What an entry gives -/

theorem gives_iff {n : Nat} (hn : n ≤ 2) (f : Nat) (i : Slot) : Gives m (fun _ => False) n (m f i) ↔
    ∃ js, js.length = n ∧ userWalk m (i :: js) f ≠ none := by
  induction n generalizing f i with
  | zero =>
    constructor
    · intro h
      refine ⟨[], rfl, ?_⟩
      rw [userWalk_next h fun hLarge => hLarge.2 rfl]
      exact Option.some_ne_none _
    · rintro ⟨js, -, hWalk⟩
      exact Bool.of_not_eq_false fun h => hWalk (userWalk_absent h)
  | succ n ih =>
    constructor
    · rintro ⟨hUser, hRest⟩
      by_cases hLarge : large (m f i) = true
      · have hNe : List.replicate (n + 1) (0 : Slot) ≠ [] := List.cons_ne_nil _ _
        have hLength : (List.replicate (n + 1) (0 : Slot)).length < 3 := by
          rw [List.length_replicate]
          omega
        refine ⟨List.replicate (n + 1) 0, List.length_replicate, ?_⟩
        rw [userWalk_large hUser hLarge hNe hLength]
        exact Option.some_ne_none _
      · obtain hContra | hFalse | ⟨j, hNext⟩ := hRest
        · exact absurd hContra hLarge
        · exact hFalse.elim
        · obtain ⟨js, hLength, hWalk⟩ := (ih (Nat.le_of_succ_le hn) _ j).mp hNext
          refine ⟨j :: js, congrArg (· + 1) hLength, ?_⟩
          rwa [userWalk_next hUser fun h => hLarge h.1]
    · rintro ⟨js, hLength, hWalk⟩
      have hUser : userEntry (m f i) = true := Bool.of_not_eq_false fun h => hWalk (userWalk_absent h)
      refine ⟨hUser, ?_⟩
      by_cases hLarge : large (m f i) = true
      · exact Or.inl hLarge
      · obtain ⟨j, js, rfl⟩ := List.exists_cons_of_length_eq_add_one hLength
        rw [userWalk_next hUser fun h => hLarge h.1] at hWalk
        exact Or.inr (Or.inr ⟨j, (ih (Nat.le_of_succ_le hn) _ j).mpr ⟨js, Nat.succ.inj hLength, hWalk⟩⟩)

/-- What an entry gives in a memory that differs only in tables which now give a page. -/
theorem gives_touched {touched : Nat → Prop} (hSame : ∀ f, ¬touched f → ∀ i, m' f i = m f i)
    (hTouched : ∀ f, touched f → ∀ n ≤ 1, ∃ i, Gives m' (fun _ => False) n (m' f i)) {n : Nat} (hn : n ≤ 2)
    (e : BitVec 64) : Gives m' (fun _ => False) n e ↔ Gives m touched n e := by
  induction n generalizing e with
  | zero => exact Iff.rfl
  | succ n ih =>
    refine and_congr_right fun _ => or_congr_right ?_
    by_cases hHit : touched (frame e)
    · exact iff_of_true (Or.inr (hTouched _ hHit n (by omega))) (Or.inl hHit)
    · rw [or_iff_right hHit, or_iff_right not_false]
      refine exists_congr fun j => ?_
      rw [hSame _ hHit j]
      exact ih (Nat.le_of_succ_le hn) _

end KalinoteOS.Lib.PageWalk
