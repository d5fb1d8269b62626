import Mathlib.Data.List.Chain
import Mathlib.Data.List.Nodup
import Mathlib.Data.List.Infix

/-! # Circular doubly linked lists in a heap

A node that is not allocated has no links; whoever reads or writes one gets `none`. A ring is the
list of its nodes, from any of them on.
-/
namespace KalinoteOS.Lib
set_option autoImplicit false

universe u

structure Link (α : Type u) where
  prev : α
  next : α
  deriving DecidableEq, Repr

abbrev Links (α : Type u) := α → Option (Link α)

namespace Links

section
variable {α : Type u} [DecidableEq α]

def setPrev (l : Links α) (a b : α) : Option (Links α) :=
  (l a).map fun n => Function.update l a (some { n with prev := b })

def setNext (l : Links α) (a b : α) : Option (Links α) :=
  (l a).map fun n => Function.update l a (some { n with next := b })

/-- A node that is linked to itself only. -/
def init (l : Links α) (a : α) : Links α := Function.update l a (some ⟨a, a⟩)

def free (l : Links α) (a : α) : Links α := Function.update l a none

/-- `new` goes in behind `entry`. -/
def addBehind (l : Links α) (entry new : α) : Option (Links α) := do
  let e ← l entry
  let l ← l.setNext new e.next
  let l ← l.setPrev new entry
  let n ← l new
  let l ← l.setPrev n.next new
  l.setNext entry new

/-- `new` goes in before `entry`. -/
def addBefore (l : Links α) (entry new : α) : Option (Links α) := do
  let l ← l.setNext new entry
  let e ← l entry
  let l ← l.setNext e.prev new
  let e ← l entry
  let l ← l.setPrev new e.prev
  l.setPrev entry new

def del (l : Links α) (entry : α) : Option (Links α) := do
  let e ← l entry
  let l ← l.setPrev e.next e.prev
  let e ← l entry
  l.setNext e.prev e.next

def isEmpty (l : Links α) (entry : α) : Option Bool :=
  (l entry).map fun n => decide (entry = n.next ∧ n.prev = entry)

end

section
variable {α : Type u}

def next (l : Links α) (entry : α) : Option α := (l entry).map Link.next

def prev (l : Links α) (entry : α) : Option α := (l entry).map Link.prev

/-- `l'` has the nodes of `l`, and outside of `changed` their links. -/
structure Frame (l l' : Links α) (changed : List α) : Prop where
  alloc : ∀ x, (l' x).isSome = (l x).isSome
  same : ∀ x, x ∉ changed → l' x = l x

/-- `b` stands behind `a`. -/
structure Joined (l : Links α) (a b : α) : Prop where
  next : l.next a = some b
  prev : l.prev b = some a

/-- The nodes `cells` are linked in this order, the last one to the first. -/
def Ring (l : Links α) : List α → Prop
  | [] => False
  | a :: rest => (a :: rest).Nodup ∧ (a :: rest ++ [a]).IsChain (Joined l)

variable {l l' : Links α} {a b : α} {rest cells : List α}

theorem Frame.trans {l₁ l₂ l₃ : Links α} {xs ys : List α} (h : Frame l₁ l₂ xs) (h' : Frame l₂ l₃ ys) :
    Frame l₁ l₃ (xs ++ ys) := by
  constructor
  · exact fun x => (h'.alloc x).trans (h.alloc x)
  · intro x hx
    rw [List.mem_append, not_or] at hx
    exact (h'.same x hx.2).trans (h.same x hx.1)

theorem Frame.mono {xs ys : List α} (h : Frame l l' xs) (hSub : xs ⊆ ys) : Frame l l' ys :=
  ⟨h.alloc, fun x hx => h.same x fun hIn => hx (hSub hIn)⟩

theorem Frame.some {xs : List α} (h : Frame l l' xs) {n : Link α} (hn : l a = some n) :
    ∃ n', l' a = some n' := by
  have hSome := h.alloc a
  rw [hn] at hSome
  exact Option.isSome_iff_exists.mp hSome

theorem next_eq {n : Link α} (h : l a = some n) : l.next a = some n.next := congrArg (Option.map _) h

theorem prev_eq {n : Link α} (h : l a = some n) : l.prev a = some n.prev := congrArg (Option.map _) h

theorem Joined.left {b : α} (h : Joined l a b) : ∃ n, l a = some n ∧ n.next = b :=
  Option.map_eq_some_iff.mp h.next

theorem Joined.right {b : α} (h : Joined l a b) : ∃ n, l b = some n ∧ n.prev = a :=
  Option.map_eq_some_iff.mp h.prev

/-- A chain keeps its links as long as no node but the last changes its successor, and no node but
the first its predecessor. -/
theorem chain_congr {xs : List α} (h : xs.IsChain (Joined l))
    (hNext : ∀ x ∈ xs.dropLast, l'.next x = l.next x) (hPrev : ∀ x ∈ xs.tail, l'.prev x = l.prev x) :
    xs.IsChain (Joined l') := by
  induction xs with
  | nil => exact List.isChain_nil
  | cons x xs ih =>
    cases xs with
    | nil => exact List.isChain_singleton x
    | cons y xs =>
      obtain ⟨hJoined, hRest⟩ := List.isChain_cons_cons.mp h
      rw [List.dropLast_cons_cons] at hNext
      refine List.isChain_cons_cons.mpr ⟨⟨?_, ?_⟩, ih hRest ?_ ?_⟩
      · rw [hNext x List.mem_cons_self]
        exact hJoined.next
      · rw [hPrev y List.mem_cons_self]
        exact hJoined.prev
      · exact fun z hz => hNext z (List.mem_cons_of_mem _ hz)
      · exact fun z hz => hPrev z (List.mem_cons_of_mem _ hz)

theorem Ring.nodup (h : Ring l cells) : cells.Nodup := by
  cases cells with
  | nil => exact h.elim
  | cons a rest => exact h.1

theorem Ring.congr (h : Ring l cells) (hSame : ∀ x ∈ cells, l' x = l x) : Ring l' cells := by
  cases cells with
  | nil => exact h
  | cons a rest =>
    have hMem : ∀ x ∈ a :: rest ++ [a], x ∈ a :: rest := by
      intro x hx
      obtain hIn | hLast := List.mem_append.mp hx
      · exact hIn
      · exact List.mem_singleton.mp hLast ▸ List.mem_cons_self
    refine ⟨h.1, chain_congr h.2 (fun x hx => ?_) fun x hx => ?_⟩
    · exact congrArg (Option.map _) (hSame x (hMem x (List.mem_of_mem_dropLast hx)))
    · exact congrArg (Option.map _) (hSame x (hMem x (List.mem_of_mem_tail hx)))

theorem Ring.rotate_one (h : Ring l (a :: rest)) : Ring l (rest ++ [a]) := by
  cases rest with
  | nil => exact h
  | cons b rest =>
    obtain ⟨hNodup, hChain⟩ := h
    obtain ⟨hJoined, hRest⟩ := List.isChain_cons_cons.mp hChain
    refine ⟨?_, ?_⟩
    · exact (List.perm_append_singleton a (b :: rest)).nodup_iff.mpr hNodup
    · refine hRest.append (List.isChain_singleton b) ?_
      intro x hx y hy
      have hLast : (b :: rest ++ [a]).getLast? = some x := hx
      rw [List.getLast?_concat] at hLast
      cases hLast
      cases hy
      exact hJoined

/-- The ring may be read from any of its nodes on. -/
theorem Ring.rotate {xs ys : List α} (h : Ring l (xs ++ ys)) : Ring l (ys ++ xs) := by
  induction xs generalizing ys with
  | nil =>
    rw [List.append_nil]
    exact h
  | cons x xs ih =>
    have hOne : Ring l (xs ++ (ys ++ [x])) := by
      rw [← List.append_assoc]
      exact h.rotate_one
    have hBack := ih hOne
    rw [List.append_assoc] at hBack
    exact hBack

/-- The first node, and the nodes on both of its sides. -/
theorem Ring.ends (h : Ring l (a :: rest)) :
    ∃ n, l a = some n ∧ (rest ++ [a]).head? = some n.next ∧ (a :: rest).getLast? = some n.prev := by
  obtain ⟨-, hChain⟩ := h
  have hLast : (a :: rest).IsChain (Joined l) ∧ _ ∧ _ := List.isChain_append.mp hChain
  obtain ⟨-, -, hBack⟩ := hLast
  obtain ⟨z, hz⟩ := Option.isSome_iff_exists.mp
    (List.getLast?_isSome.mpr (List.cons_ne_nil a rest))
  obtain ⟨n, hn, hPrev⟩ := (hBack z hz a rfl).right
  refine ⟨n, hn, ?_, ?_⟩
  · have hFront : Joined l a ((rest ++ [a]).head (by simp)) := by
      cases rest with
      | nil => exact (List.isChain_cons_cons.mp hChain).1
      | cons b rest => exact (List.isChain_cons_cons.mp hChain).1
    obtain ⟨n', hn', hNext⟩ := hFront.left
    rw [hn] at hn'
    cases hn'
    rw [hNext]
    exact List.head?_eq_some_head _
  · rw [hz, hPrev]

end

/-! ## The operations -/

section
variable {α : Type u} [DecidableEq α] {l : Links α} {a b : α} {rest : List α}

theorem frame_update {n n' : Link α} (h : l a = some n) :
    Frame l (Function.update l a (some n')) [a] := by
  constructor
  · intro x
    by_cases hEq : x = a
    · rw [hEq, Function.update_self, h]
      rfl
    · rw [Function.update_of_ne hEq]
  · intro x hx
    exact Function.update_of_ne (List.ne_of_not_mem_cons hx) _ _

theorem setPrev_spec {n : Link α} (h : l a = some n) (b : α) :
    ∃ l', l.setPrev a b = some l' ∧ Frame l l' [a] ∧ l'.next = l.next ∧
      l'.prev = Function.update l.prev a (some b) := by
  refine ⟨_, congrArg (Option.map _) h, frame_update h, ?_, ?_⟩
  · funext x
    by_cases hEq : x = a
    · simp [next, hEq, h]
    · simp [next, hEq]
  · funext x
    by_cases hEq : x = a
    · simp [prev, hEq]
    · simp [prev, hEq]

theorem setNext_spec {n : Link α} (h : l a = some n) (b : α) :
    ∃ l', l.setNext a b = some l' ∧ Frame l l' [a] ∧ l'.prev = l.prev ∧
      l'.next = Function.update l.next a (some b) := by
  refine ⟨_, congrArg (Option.map _) h, frame_update h, ?_, ?_⟩
  · funext x
    by_cases hEq : x = a
    · simp [prev, hEq, h]
    · simp [prev, hEq]
  · funext x
    by_cases hEq : x = a
    · simp [next, hEq]
    · simp [next, hEq]

theorem ring_init (l : Links α) (a : α) : Ring (l.init a) [a] := by
  refine ⟨List.nodup_singleton a, ?_⟩
  refine List.isChain_cons_cons.mpr ⟨⟨?_, ?_⟩, List.isChain_singleton a⟩
  · simp [next, init]
  · simp [prev, init]

theorem isEmpty_spec (h : Ring l (a :: rest)) : l.isEmpty a = some (decide (rest = [])) := by
  obtain ⟨n, hn, hHead, hLast⟩ := h.ends
  have hEmpty : l.isEmpty a = some (decide (a = n.next ∧ n.prev = a)) := congrArg (Option.map _) hn
  rw [hEmpty, Option.some_inj, decide_eq_decide]
  constructor
  · rintro ⟨hNext, -⟩
    cases rest with
    | nil => rfl
    | cons b rest =>
      cases hHead
      exact absurd (hNext ▸ List.mem_cons_self) (List.nodup_cons.mp h.nodup).1
  · rintro rfl
    cases hHead
    exact ⟨rfl, (Option.some.inj hLast).symm⟩

/-- `b` stands between `a` and the node behind it when these three have their new links: both
insertions end in this heap. -/
theorem Ring.splice {l' : Links α} {x : α} {tl : List α} (h : Ring l (a :: rest))
    (hSplit : rest ++ [a] = x :: tl) (hNew : b ∉ a :: rest)
    (hNext : l'.next = Function.update (Function.update l.next b (some x)) a (some b))
    (hPrev : l'.prev = Function.update (Function.update l.prev b (some a)) x (some b)) :
    Ring l' (a :: b :: rest) := by
  have hNodup : (x :: tl).Nodup := by
    rw [← hSplit]
    exact (List.perm_append_singleton a rest).nodup_iff.mpr h.nodup
  have hMem : ∀ y ∈ x :: tl, y ∈ a :: rest := by
    intro y hy
    rw [← hSplit] at hy
    exact (List.perm_append_singleton a rest).mem_iff.mp hy
  have hBA : b ≠ a := List.ne_of_not_mem_cons hNew
  have hBX : b ≠ x := fun hEq => hNew (hMem b (hEq ▸ List.mem_cons_self))
  have hChain : (x :: tl).IsChain (Joined l) := by
    rw [← hSplit]
    exact h.2.tail
  refine ⟨(List.Perm.swap b a rest).nodup_iff.mpr (List.nodup_cons.mpr ⟨hNew, h.nodup⟩), ?_⟩
  rw [List.cons_append, List.cons_append, hSplit]
  refine List.isChain_cons_cons.mpr ⟨⟨?_, ?_⟩, List.isChain_cons_cons.mpr ⟨⟨?_, ?_⟩, ?_⟩⟩
  · rw [hNext, Function.update_self]
  · rw [hPrev, Function.update_of_ne hBX, Function.update_self]
  · rw [hNext, Function.update_of_ne hBA, Function.update_self]
  · rw [hPrev, Function.update_self]
  · refine chain_congr hChain (fun y hy => ?_) fun y hy => ?_
    · rw [← hSplit, List.dropLast_concat] at hy
      have hYA : y ≠ a := fun hEq => (List.nodup_cons.mp h.nodup).1 (hEq ▸ hy)
      have hYB : y ≠ b := fun hEq => hNew (hEq ▸ List.mem_cons_of_mem a hy)
      rw [hNext, Function.update_of_ne hYA, Function.update_of_ne hYB]
    · have hYX : y ≠ x := fun hEq => (List.nodup_cons.mp hNodup).1 (hEq ▸ hy)
      have hYB : y ≠ b := fun hEq => hNew (hEq ▸ hMem y (List.mem_cons_of_mem x hy))
      rw [hPrev, Function.update_of_ne hYX, Function.update_of_ne hYB]

theorem addBehind_spec (h : Ring l (a :: rest)) {n : Link α} (hn : l b = some n)
    (hNew : b ∉ a :: rest) :
    ∃ l', l.addBehind a b = some l' ∧ Ring l' (a :: b :: rest) ∧ Frame l l' (a :: b :: rest) := by
  obtain ⟨e, he, hHead, -⟩ := h.ends
  obtain ⟨x, tl, hSplit⟩ := List.exists_cons_of_ne_nil (List.append_ne_nil_of_right_ne_nil rest
    (List.cons_ne_nil a []))
  have hNext : e.next = x := by
    rw [hSplit] at hHead
    exact (Option.some.inj hHead).symm
  obtain ⟨nx, hX⟩ : ∃ nx, l x = some nx := by
    have hJoined : Joined l a x := by
      have hAll := h.2
      rw [List.cons_append, hSplit] at hAll
      exact (List.isChain_cons_cons.mp hAll).1
    obtain ⟨nx, hX, -⟩ := hJoined.right
    exact ⟨nx, hX⟩
  obtain ⟨l₁, hSet₁, hFrame₁, hPrev₁, hNext₁⟩ := setNext_spec hn x
  obtain ⟨n₁, hn₁⟩ := hFrame₁.some hn
  obtain ⟨l₂, hSet₂, hFrame₂, hNext₂, hPrev₂⟩ := setPrev_spec hn₁ a
  obtain ⟨n₂, hn₂⟩ := hFrame₂.some hn₁
  have hNew₂ : n₂.next = x := by
    refine Option.some.inj ((next_eq hn₂).symm.trans ?_)
    rw [hNext₂, hNext₁, Function.update_self]
  obtain ⟨n₃, hn₃⟩ := (hFrame₁.trans hFrame₂).some hX
  obtain ⟨l₃, hSet₃, hFrame₃, hNext₃, hPrev₃⟩ := setPrev_spec hn₃ b
  obtain ⟨n₄, hn₄⟩ := ((hFrame₁.trans hFrame₂).trans hFrame₃).some he
  obtain ⟨l₄, hSet₄, hFrame₄, hPrev₄, hNext₄⟩ := setNext_spec hn₄ b
  refine ⟨l₄, ?_, h.splice hSplit hNew ?_ ?_, ?_⟩
  · simp only [addBehind, he, hNext, hSet₁, hSet₂, hn₂, hNew₂, hSet₃, Option.bind_eq_bind,
      Option.bind_some]
    exact hSet₄
  · rw [hNext₄, hNext₃, hNext₂, hNext₁]
  · rw [hPrev₄, hPrev₃, hPrev₂, hPrev₁]
  · refine (((hFrame₁.trans hFrame₂).trans hFrame₃).trans hFrame₄).mono ?_
    have hIn : x ∈ a :: rest := by
      refine (List.perm_append_singleton a rest).mem_iff.mp ?_
      rw [hSplit]
      exact List.mem_cons_self
    intro y hy
    simp only [List.mem_append, List.mem_singleton] at hy
    simp only [List.mem_cons] at hIn ⊢
    obtain ((rfl | rfl) | rfl) | rfl := hy
    · exact Or.inr (Or.inl rfl)
    · exact Or.inr (Or.inl rfl)
    · obtain hEq | hIn := hIn
      · exact Or.inl hEq
      · exact Or.inr (Or.inr hIn)
    · exact Or.inl rfl

/-- A node goes in before the first one, which is behind the last. -/
theorem addBefore_spec (h : Ring l (a :: rest)) {n : Link α} (hn : l b = some n)
    (hNew : b ∉ a :: rest) :
    ∃ l', l.addBefore a b = some l' ∧ Ring l' (b :: a :: rest) ∧ Frame l l' (b :: a :: rest) := by
  obtain ⟨e, he, -, hLast⟩ := h.ends
  obtain ⟨front, z, hSplit⟩ := (List.eq_nil_or_concat' (a :: rest)).resolve_left
    (List.cons_ne_nil a rest)
  have hE : l.prev a = some z := by
    rw [hSplit, List.getLast?_concat] at hLast
    rw [prev_eq he, hLast]
  have hBack : Ring l (z :: front) := by
    rw [hSplit] at h
    exact h.rotate
  have hOut : b ∉ z :: front := by
    rw [hSplit] at hNew
    exact fun hIn => hNew ((List.perm_append_singleton z front).mem_iff.mpr hIn)
  obtain ⟨nz, hz, -, -⟩ := hBack.ends
  -- The predecessor of `a` is read twice: neither write in between changes it.
  obtain ⟨l₁, hSet₁, hFrame₁, hPrev₁, hNext₁⟩ := setNext_spec hn a
  obtain ⟨e₁, he₁⟩ := hFrame₁.some he
  have hZ₁ : e₁.prev = z := Option.some.inj ((prev_eq he₁).symm.trans (by rw [hPrev₁, hE]))
  obtain ⟨nz₁, hz₁⟩ := hFrame₁.some hz
  obtain ⟨l₂, hSet₂, hFrame₂, hPrev₂, hNext₂⟩ := setNext_spec hz₁ b
  obtain ⟨e₂, he₂⟩ := hFrame₂.some he₁
  have hZ₂ : e₂.prev = z := Option.some.inj ((prev_eq he₂).symm.trans (by rw [hPrev₂, hPrev₁, hE]))
  obtain ⟨n₂, hn₂⟩ := (hFrame₁.trans hFrame₂).some hn
  obtain ⟨l₃, hSet₃, hFrame₃, hNext₃, hPrev₃⟩ := setPrev_spec hn₂ z
  obtain ⟨e₃, he₃⟩ := hFrame₃.some he₂
  obtain ⟨l₄, hSet₄, hFrame₄, hNext₄, hPrev₄⟩ := setPrev_spec he₃ b
  have hRing : Ring l₄ (z :: b :: front) := by
    refine hBack.splice hSplit.symm hOut ?_ ?_
    · rw [hNext₄, hNext₃, hNext₂, hNext₁]
    · rw [hPrev₄, hPrev₃, hPrev₂, hPrev₁]
  refine ⟨l₄, ?_, ?_, ?_⟩
  · simp only [addBefore, hSet₁, he₁, hZ₁, hSet₂, he₂, hZ₂, hSet₃, Option.bind_eq_bind,
      Option.bind_some]
    exact hSet₄
  · rw [hSplit]
    have hTurn : Ring l₄ ([z] ++ (b :: front)) := hRing
    exact hTurn.rotate
  · refine (((hFrame₁.trans hFrame₂).trans hFrame₃).trans hFrame₄).mono ?_
    have hIn : z ∈ a :: rest := by
      rw [hSplit]
      exact List.mem_append_right front (List.mem_singleton_self z)
    intro y hy
    simp only [List.mem_append, List.mem_singleton] at hy
    obtain ((rfl | rfl) | rfl) | rfl := hy
    · exact List.mem_cons_self
    · exact List.mem_cons_of_mem b hIn
    · exact List.mem_cons_self
    · exact List.mem_cons_of_mem b List.mem_cons_self

/-- The first node leaves a ring of two at least. -/
theorem del_spec (h : Ring l (a :: rest)) (hRest : rest ≠ []) :
    ∃ l', l.del a = some l' ∧ Ring l' rest ∧ Frame l l' rest := by
  obtain ⟨e, he, hHead, hLast⟩ := h.ends
  obtain ⟨hNodup, hChain⟩ := h
  obtain ⟨front, z, rfl⟩ := (List.eq_nil_or_concat' rest).resolve_left hRest
  obtain ⟨b, tl, hSplit⟩ := List.exists_cons_of_ne_nil hRest
  have hNext : e.next = b := by
    rw [hSplit] at hHead
    exact (Option.some.inj hHead).symm
  have hPrev : e.prev = z := by
    rw [← List.cons_append, List.getLast?_concat] at hLast
    exact (Option.some.inj hLast).symm
  obtain ⟨hNotIn, hNodup⟩ := List.nodup_cons.mp hNodup
  have hCells : (front ++ [z]).IsChain (Joined l) := hChain.tail.left_of_append
  have hZ : Joined l z a := by
    rw [List.cons_append, List.append_assoc] at hChain
    exact (List.isChain_cons_cons.mp hChain.tail.right_of_append).1
  have hB : Joined l a b := by
    rw [hSplit] at hChain
    exact (List.isChain_cons_cons.mp hChain).1
  obtain ⟨nb, hnb, -⟩ := hB.right
  obtain ⟨nz, hnz, -⟩ := hZ.left
  have hAB : a ≠ b := by
    rintro rfl
    rw [hSplit] at hNotIn
    exact hNotIn List.mem_cons_self
  obtain ⟨l₁, hSet₁, hFrame₁, hNext₁, hPrev₁⟩ := setPrev_spec hnb z
  have hA : l₁ a = some e := by
    rw [hFrame₁.same a (by simpa using hAB), he]
  obtain ⟨n₁, hn₁⟩ := hFrame₁.some hnz
  obtain ⟨l₂, hSet₂, hFrame₂, hPrev₂, hNext₂⟩ := setNext_spec hn₁ b
  have hNextAll : l₂.next = Function.update l.next z (some b) := by rw [hNext₂, hNext₁]
  have hPrevAll : l₂.prev = Function.update l.prev b (some z) := by rw [hPrev₂, hPrev₁]
  have hKept : (front ++ [z]).IsChain (Joined l₂) := by
    refine chain_congr hCells (fun y hy => ?_) fun y hy => ?_
    · rw [List.dropLast_concat] at hy
      have hYZ : y ≠ z := by
        rintro rfl
        exact (List.nodup_append.mp hNodup).2.2 y hy y (List.mem_singleton_self y) rfl
      rw [hNextAll, Function.update_of_ne hYZ]
    · rw [hSplit] at hy hNodup
      have hYB : y ≠ b := fun hEq => (List.nodup_cons.mp hNodup).1 (hEq ▸ hy)
      rw [hPrevAll, Function.update_of_ne hYB]
  refine ⟨l₂, ?_, ?_, ?_⟩
  · simp only [del, he, hNext, hPrev, hSet₁, hA, Option.bind_eq_bind, Option.bind_some]
    exact hSet₂
  · have hClosed : (front ++ [z] ++ [b]).IsChain (Joined l₂) := by
      refine hKept.append (List.isChain_singleton b) ?_
      intro x hx y hy
      rw [List.getLast?_concat] at hx
      cases hx
      cases hy
      exact ⟨by rw [hNextAll, Function.update_self], by rw [hPrevAll, Function.update_self]⟩
    rw [hSplit] at hNodup hClosed ⊢
    exact ⟨hNodup, hClosed⟩
  · refine (hFrame₁.trans hFrame₂).mono ?_
    intro y hy
    simp only [List.mem_append, List.mem_singleton] at hy
    obtain rfl | rfl := hy
    · rw [hSplit]
      exact List.mem_cons_self
    · exact List.mem_append_right front (List.mem_singleton_self y)

theorem Ring.insert (h : Ring l (a :: rest)) (hNew : b ∉ a :: rest) :
    ∃ l', (l.init b).addBehind a b = some l' ∧ Ring l' (a :: b :: rest) := by
  have hInit : Ring (l.init b) (a :: rest) := by
    refine h.congr fun x hx => ?_
    have hNe : x ≠ b := by
      rintro rfl
      exact hNew hx
    simp [init, hNe]
  obtain ⟨l', hAdd, hRing, -⟩ := addBehind_spec hInit (Function.update_self b _ _) hNew
  exact ⟨l', hAdd, hRing⟩

theorem Ring.remove {before after : List α} (h : Ring l (before ++ b :: after))
    (hOthers : before ++ after ≠ []) :
    ∃ l', l.del b = some l' ∧ Ring (l'.free b) (before ++ after) := by
  have hFront : Ring l (b :: (after ++ before)) := h.rotate
  have hNotIn := (List.nodup_cons.mp hFront.nodup).1
  have hRest : after ++ before ≠ [] := by
    intro hNil
    obtain ⟨rfl, rfl⟩ := List.append_eq_nil_iff.mp hNil
    exact hOthers rfl
  obtain ⟨l', hDel, hRing, -⟩ := del_spec hFront hRest
  refine ⟨l', hDel, Ring.rotate (hRing.congr fun x hx => ?_)⟩
  have hNe : x ≠ b := by
    rintro rfl
    exact hNotIn hx
  simp [free, hNe]

end

end Links

end KalinoteOS.Lib
