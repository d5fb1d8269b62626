import KalinoteOS.Lib.DoublyLinked
import Mathlib.Data.Set.Pairwise.Basic

/-! # The linked lists of the kernel

Every list is a ring, and an entry belongs to one ring at most. What an operation does to the ring
of its entry is stated next to what it leaves alone.
-/
namespace KalinoteOS
set_option autoImplicit false

open Lib.Links (Ring Frame)

universe u

section
variable {α : Type u} [DecidableEq α]

def listInit (l : Lib.Links α) (list : α) : Option (Lib.Links α) := do
  let l ← l.setPrev list list
  l.setNext list list

def listAddToBehind (l : Lib.Links α) (entry new : α) : Option (Lib.Links α) := l.addBehind entry new

def listAddToBefore (l : Lib.Links α) (entry new : α) : Option (Lib.Links α) := l.addBefore entry new

def listDel (l : Lib.Links α) (entry : α) : Option (Lib.Links α) := l.del entry

def listIsEmpty (l : Lib.Links α) (entry : α) : Option Nat :=
  (l.isEmpty entry).map fun b => if b then 1 else 0

end

namespace LinkedList

section
variable {α : Type u}

/-- The rings of a heap. -/
structure Rings (l : Lib.Links α) (rings : Set (List α)) : Prop where
  ring : ∀ r ∈ rings, Ring l r
  disjoint : rings.Pairwise List.Disjoint

/-- `new` stands in the place of the ring `old`, and nothing else has changed. -/
structure Replaced (l l' : Lib.Links α) (rings : Set (List α)) (old new : List α) : Prop where
  wellFormed : Rings l' (insert new (rings \ {old}))
  others : ∀ r ∈ rings, r ≠ old → ∀ x ∈ r, l' x = l x
  outside : ∀ x, x ∉ old → x ∉ new → l' x = l x

variable {l l' : Lib.Links α} {rings : Set (List α)} {old new changed : List α}

theorem Rings.add (h : Rings l rings) (hRing : Ring l new) (hApart : ∀ r ∈ rings, r.Disjoint new) :
    Rings l (insert new rings) := by
  constructor
  · rintro r (rfl | hr)
    · exact hRing
    · exact h.ring r hr
  · rw [Set.pairwise_insert]
    exact ⟨h.disjoint, fun r hr _ => ⟨List.disjoint_symm (hApart r hr), hApart r hr⟩⟩

/-- The nodes of the new ring come from the old one or from outside of all rings. -/
theorem Rings.replaced (h : Rings l rings) (hOld : old ∈ rings) (hRing : Ring l' new)
    (hFrame : Frame l l' new) (hNew : ∀ x ∈ new, x ∉ old → ∀ r ∈ rings, x ∉ r) :
    Replaced l l' rings old new := by
  have hApart : ∀ r ∈ rings, r ≠ old → r.Disjoint new := by
    intro r hr hNe x hx hIn
    by_cases hXOld : x ∈ old
    · exact h.disjoint hr hOld hNe hx hXOld
    · exact hNew x hIn hXOld r hr hx
  have hSame : ∀ r ∈ rings, r ≠ old → ∀ x ∈ r, l' x = l x := by
    intro r hr hNe x hx
    exact hFrame.same x (hApart r hr hNe hx)
  have hRest : Rings l' (rings \ {old}) := by
    constructor
    · exact fun r hr => (h.ring r hr.1).congr (hSame r hr.1 hr.2)
    · exact h.disjoint.mono Set.sdiff_subset
  exact ⟨hRest.add hRing fun r hr => hApart r hr.1 hr.2, hSame, fun x _ hx => hFrame.same x hx⟩

end

section
variable {α : Type u} [DecidableEq α] {l : Lib.Links α} {rings : Set (List α)} {before after : List α}
  {entry new : α}

/-- A new list is a ring of its own. -/
theorem listInit_spec (h : Rings l rings) (hAlloc : (l new).isSome) (hOut : ∀ r ∈ rings, new ∉ r) :
    ∃ l', listInit l new = some l' ∧ Rings l' (insert [new] rings) ∧ ∀ x, x ≠ new → l' x = l x := by
  obtain ⟨n, hn⟩ := Option.isSome_iff_exists.mp hAlloc
  obtain ⟨l₁, hSet₁, hFrame₁, hNext₁, hPrev₁⟩ := Lib.Links.setPrev_spec hn new
  obtain ⟨n₁, hn₁⟩ := hFrame₁.some hn
  obtain ⟨l₂, hSet₂, hFrame₂, hPrev₂, hNext₂⟩ := Lib.Links.setNext_spec hn₁ new
  have hSame : ∀ x, x ≠ new → l₂ x = l x := by
    intro x hx
    exact (hFrame₁.trans hFrame₂).same x (by simpa using hx)
  have hSingle : Ring l₂ [new] := by
    refine ⟨List.nodup_singleton new, ?_⟩
    refine List.isChain_cons_cons.mpr ⟨⟨?_, ?_⟩, List.isChain_singleton new⟩
    · rw [hNext₂, Function.update_self]
    · rw [hPrev₂, hPrev₁, Function.update_self]
  have hRings : Rings l₂ rings := by
    refine ⟨fun r hr => (h.ring r hr).congr fun x hx => hSame x ?_, h.disjoint⟩
    rintro rfl
    exact hOut r hr hx
  refine ⟨l₂, ?_, hRings.add hSingle fun r hr => List.disjoint_singleton.mpr (hOut r hr), hSame⟩
  rw [listInit, hSet₁]
  exact hSet₂

theorem listAddToBehind_spec (h : Rings l rings) (hEntry : before ++ entry :: after ∈ rings)
    (hAlloc : (l new).isSome) (hOut : ∀ r ∈ rings, new ∉ r) :
    ∃ l', listAddToBehind l entry new = some l' ∧
      Replaced l l' rings (before ++ entry :: after) (before ++ entry :: new :: after) := by
  obtain ⟨n, hn⟩ := Option.isSome_iff_exists.mp hAlloc
  have hFront : Ring l (entry :: (after ++ before)) := (h.ring _ hEntry).rotate
  have hNotIn : new ∉ entry :: (after ++ before) := by
    intro hIn
    exact hOut _ hEntry (List.perm_append_comm.mem_iff.mp hIn)
  obtain ⟨l', hAdd, hRing, hFrame⟩ := Lib.Links.addBehind_spec hFront hn hNotIn
  have hTurned : Ring l' ((entry :: new :: after) ++ before) := hRing
  refine ⟨l', hAdd, h.replaced hEntry hTurned.rotate (hFrame.mono ?_) ?_⟩
  · exact fun x hx => List.perm_append_comm.mem_iff.mp hx
  · intro x hx hNot
    simp only [List.mem_append, List.mem_cons] at hx hNot
    obtain rfl : x = new := by tauto
    exact hOut

theorem listAddToBefore_spec (h : Rings l rings) (hEntry : before ++ entry :: after ∈ rings)
    (hAlloc : (l new).isSome) (hOut : ∀ r ∈ rings, new ∉ r) :
    ∃ l', listAddToBefore l entry new = some l' ∧
      Replaced l l' rings (before ++ entry :: after) (before ++ new :: entry :: after) := by
  obtain ⟨n, hn⟩ := Option.isSome_iff_exists.mp hAlloc
  have hFront : Ring l (entry :: (after ++ before)) := (h.ring _ hEntry).rotate
  have hNotIn : new ∉ entry :: (after ++ before) := by
    intro hIn
    exact hOut _ hEntry (List.perm_append_comm.mem_iff.mp hIn)
  obtain ⟨l', hAdd, hRing, hFrame⟩ := Lib.Links.addBefore_spec hFront hn hNotIn
  have hTurned : Ring l' ((new :: entry :: after) ++ before) := hRing
  refine ⟨l', hAdd, h.replaced hEntry hTurned.rotate (hFrame.mono ?_) ?_⟩
  · exact fun x hx => List.perm_append_comm.mem_iff.mp hx
  · intro x hx hNot
    simp only [List.mem_append, List.mem_cons] at hx hNot
    obtain rfl : x = new := by tauto
    exact hOut

theorem listDel_spec (h : Rings l rings) (hEntry : before ++ entry :: after ∈ rings)
    (hOthers : before ++ after ≠ []) :
    ∃ l', listDel l entry = some l' ∧
      Replaced l l' rings (before ++ entry :: after) (before ++ after) ∧ l' entry = l entry := by
  have hFront : Ring l (entry :: (after ++ before)) := (h.ring _ hEntry).rotate
  have hRest : after ++ before ≠ [] := by
    intro hNil
    obtain ⟨rfl, rfl⟩ := List.append_eq_nil_iff.mp hNil
    exact hOthers rfl
  obtain ⟨l', hDel, hRing, hFrame⟩ := Lib.Links.del_spec hFront hRest
  refine ⟨l', hDel, h.replaced hEntry hRing.rotate (hFrame.mono ?_) ?_, ?_⟩
  · exact fun x hx => List.perm_append_comm.mem_iff.mp hx
  · intro x hx hNot
    refine absurd ?_ hNot
    simp only [List.mem_append, List.mem_cons] at hx ⊢
    tauto
  · exact hFrame.same entry (List.nodup_cons.mp hFront.nodup).1

theorem listIsEmpty_spec (h : Rings l rings) (hEntry : before ++ entry :: after ∈ rings) :
    listIsEmpty l entry = some (if (before ++ entry :: after).length = 1 then 1 else 0) := by
  have hFront : Ring l (entry :: (after ++ before)) := (h.ring _ hEntry).rotate
  have hLength : (before ++ entry :: after).length = 1 ↔ after ++ before = [] := by
    simp only [List.length_append, List.length_cons, ← List.length_eq_zero_iff]
    omega
  rw [listIsEmpty, Lib.Links.isEmpty_spec hFront]
  simp only [Option.map_some, decide_eq_true_eq, hLength]

/-- The operations on the list of an entry are those on a cyclic sequence. -/
theorem list_operations (h : Rings l rings) (hEntry : before ++ entry :: after ∈ rings) :
    (∀ new, (l new).isSome → (∀ r ∈ rings, new ∉ r) →
      (∃ l', listAddToBehind l entry new = some l' ∧
        Replaced l l' rings (before ++ entry :: after) (before ++ entry :: new :: after)) ∧
      ∃ l', listAddToBefore l entry new = some l' ∧
        Replaced l l' rings (before ++ entry :: after) (before ++ new :: entry :: after)) ∧
    (2 ≤ (before ++ entry :: after).length → ∃ l', listDel l entry = some l' ∧
      Replaced l l' rings (before ++ entry :: after) (before ++ after)) ∧
    listIsEmpty l entry = some (if (before ++ entry :: after).length = 1 then 1 else 0) := by
  refine ⟨fun new hAlloc hOut => ⟨?_, ?_⟩, fun hLength => ?_, listIsEmpty_spec h hEntry⟩
  · exact listAddToBehind_spec h hEntry hAlloc hOut
  · exact listAddToBefore_spec h hEntry hAlloc hOut
  · have hOthers : before ++ after ≠ [] := by
      intro hNil
      obtain ⟨rfl, rfl⟩ := List.append_eq_nil_iff.mp hNil
      simp at hLength
    obtain ⟨l', hDel, hReplaced, -⟩ := listDel_spec h hEntry hOthers
    exact ⟨l', hDel, hReplaced⟩

end

/-- A pair, a single node, and a node in no list. -/
def pairAndSingle : Lib.Links Nat
  | 1 => some ⟨2, 2⟩
  | 2 => some ⟨1, 1⟩
  | 3 => some ⟨3, 3⟩
  | 4 => some ⟨0, 0⟩
  | _ => none

theorem rings_pairAndSingle : Rings pairAndSingle {[1, 2], [3]} := by
  constructor
  · rintro r (rfl | rfl)
    · refine ⟨by decide, List.isChain_cons_cons.mpr ⟨⟨rfl, rfl⟩, ?_⟩⟩
      exact List.isChain_cons_cons.mpr ⟨⟨rfl, rfl⟩, List.isChain_singleton 1⟩
    · exact ⟨by decide, List.isChain_cons_cons.mpr ⟨⟨rfl, rfl⟩, List.isChain_singleton 3⟩⟩
  · rw [Set.pairwise_pair]
    exact fun _ => ⟨by simp, by simp⟩

theorem list_operations_pairAndSingle :
    (∃ l', listAddToBehind pairAndSingle 2 4 = some l' ∧
      Replaced pairAndSingle l' {[1, 2], [3]} [1, 2] [1, 2, 4]) ∧
    (∃ l', listAddToBefore pairAndSingle 2 4 = some l' ∧
      Replaced pairAndSingle l' {[1, 2], [3]} [1, 2] [1, 4, 2]) ∧
    (∃ l', listDel pairAndSingle 2 = some l' ∧
      Replaced pairAndSingle l' {[1, 2], [3]} [1, 2] [1]) ∧
    listIsEmpty pairAndSingle 2 = some 0 := by
  obtain ⟨hAdd, hDel, hEmpty⟩ := @list_operations Nat _ pairAndSingle _ [1] [] 2
    rings_pairAndSingle (Or.inl rfl)
  obtain ⟨hBehind, hBefore⟩ := hAdd 4 rfl (by rintro r (rfl | rfl) <;> decide)
  exact ⟨hBehind, hBefore, hDel (by decide), hEmpty⟩

end LinkedList

end KalinoteOS
