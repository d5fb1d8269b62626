import KalinoteOS.Memory.KmallocFail
import KalinoteOS.Memory.PageRef

/-! # `kmalloc` over the page allocator

The pages of the slabs of `kmalloc` come from `alloc_pages` and get a reference by `page_init`; they
go back through `page_clean` and `free_pages`.
-/
namespace KalinoteOS.Memory
open Lib Pages
set_option autoImplicit false

/-- `kmalloc_cache_size` and `memory_management_struct`. `moves` records the pages of `kmalloc`; the
code never reads it. -/
structure Storage where
  heap : Kmalloc.State
  m : Management
  moves : List Move

namespace Storage

/-- What `alloc_pages` returns inside a call of `kmalloc`: so many pages were taken since `held`. -/
def supply (m : Management) (held : List Nat) : Kmalloc.AllocPages := fun now =>
  (allocPages (replay m (List.replicate (now.length - held.length) .take)) zoneNormal 1).1

def moved (w : Storage) (heap : Kmalloc.State) (moves : List Move) : Storage :=
  ⟨heap, replay w.m moves, w.moves ++ moves⟩

/-- `kmalloc`, which calls itself once at most; `none` when it follows a null pointer. -/
def kmalloc (size : Nat) (w : Storage) : Option (Option Nat × Storage) :=
  (Kmalloc.kmalloc (supply w.m w.heap.held) 2 size w.heap).map fun (address, heap) =>
    (address, w.moved heap (List.replicate (heap.held.length - w.heap.held.length) .take))

def kfree (address : Nat) (w : Storage) : Option Storage :=
  (Kmalloc.kfree 2 address w.heap).map fun (_, heap) =>
    w.moved heap ((w.heap.held.diff heap.held).map .give)

end Storage

/-! ## Runs -/

/-- The storage, the objects and the pages that its users have. -/
structure Users where
  storage : Storage
  live : List Kmalloc.Obj
  owned : List Nat

namespace Users

inductive Action where
  | kmalloc (size : Nat)
  | kfree (address : Nat)
  | allocPages (zoneSelect number : Int)
  | pageInit (page : Nat) (flags : BitVec 64)
  | pageClean (page : Nat)
  | freePages (page number : Nat)

/-- The calls of any user, in any order. No block runs over the end of a bitmap of `words` words. -/
inductive Step (words : Nat) (u : Users) : Action → Users → Prop
  | kmalloc {size : Nat} {p : Option Nat} {w : Storage} (le : size ≤ 1048576)
      (call : u.storage.kmalloc size = some (p, w)) :
      Step words u (.kmalloc size) ⟨w, (p.map fun a => (⟨a, size⟩ : Kmalloc.Obj)).toList ++ u.live, u.owned⟩
  | kfree {o : Kmalloc.Obj} {w : Storage} (live : o ∈ u.live)
      (call : u.storage.kfree o.address = some w) :
      Step words u (.kfree o.address) ⟨w, u.live.erase o, u.owned⟩
  | allocPages {zoneSelect number : Int} {page : Nat} {m : Management}
      (call : Pages.allocPages u.storage.m zoneSelect number = (some page, m))
      (inside : page + number.toNat ≤ 64 * words) :
      Step words u (.allocPages zoneSelect number)
        ⟨{ u.storage with m := m }, u.live, block page number.toNat ++ u.owned⟩
  | pageInit {page : Nat} (flags : BitVec 64) (owned : page ∈ u.owned) :
      Step words u (.pageInit page flags)
        { u with storage := { u.storage with m := Boot.pageInit u.storage.m page flags } }
  | pageClean {page : Nat} (owned : page ∈ u.owned) :
      Step words u (.pageClean page)
        { u with storage := { u.storage with m := Pages.pageClean u.storage.m page } }
  | freePages {page number : Nat} {rest : List Nat} (pos : 1 ≤ number) (most : number ≤ 63)
      (owned : u.owned.Perm (block page number ++ rest)) :
      Step words u (.freePages page number)
        ⟨{ u.storage with m := Pages.freePages u.storage.m (some page) number }, u.live, rest⟩

/-- After boot: the pages taken so far are in use, the others are free, or in no zone. -/
structure Initial (words : Nat) (u : Users) : Prop where
  heap : ∃ e, Kmalloc.SlabInit u.storage.heap e
  pages : PagesInv words u.storage.m u.storage.heap.held
  live : u.live = []
  owned : u.owned = []

end Users

/-! ## The invariant -/

/-- `live` and `owned` are the objects and the pages of the users. -/
structure StorageInv (words : Nat) (w : Storage) (live : List Kmalloc.Obj) (owned : List Nat) :
    Prop where
  heap : Kmalloc.Inv w.heap (live ++ Kmalloc.internal w.heap)
  pages : PagesInv words w.m (w.heap.held ++ owned)

section
variable {words : Nat} {m : Management} {held owned : List Nat}

/-- The pages that `kmalloc` gets in a row are pages that nobody has. -/
theorem supply_handed (h : PagesInv words m (held ++ owned)) {pages : List Nat}
    (hPages : Kmalloc.Handed (Storage.supply m held) held pages) :
    PagesInv words (replay m (List.replicate pages.length .take)) (pages ++ held ++ owned) := by
  induction pages with
  | nil => exact h
  | cons p pages ih =>
    obtain ⟨hPage, hRest⟩ := hPages
    unfold Storage.supply at hPage
    rw [List.length_append, Nat.add_sub_cancel] at hPage
    rw [List.length_cons, replay_take_succ]
    exact (ih hRest).takeNormal hPage

theorem supply_supplies (h : PagesInv words m (held ++ owned)) :
    Kmalloc.Supplies (Storage.supply m held) held := by
  rintro p pages hPages
  have hAll := (supply_handed h hPages).nodup
  rw [List.append_assoc, List.cons_append, List.nodup_cons, ← List.append_assoc] at hAll
  exact fun hMem => hAll.1 (List.mem_append_left _ hMem)

end

/-! ## The calls -/

/-- Apart from the pages that `kmalloc` took and gave back the page allocator is as it was. -/
def Follows (w w' : Storage) : Prop :=
  ∃ moves, w'.moves = w.moves ++ moves ∧ w'.m = replay w.m moves

theorem Follows.refl (w : Storage) : Follows w w := ⟨[], (List.append_nil _).symm, rfl⟩

theorem Follows.trans {w w' w'' : Storage} (h : Follows w w') (h' : Follows w' w'') :
    Follows w w'' := by
  obtain ⟨xs, hMoves, hReplay⟩ := h
  obtain ⟨ys, hMoves', hReplay'⟩ := h'
  refine ⟨xs ++ ys, ?_, ?_⟩
  · rw [hMoves', hMoves, List.append_assoc]
  · rw [hReplay', hReplay, replay_append]

def Gives (w w' : Storage) : Prop :=
  ∃ pages : List Nat, w'.moves = w.moves ++ pages.map .give ∧ w'.m = replay w.m (pages.map .give)

theorem Gives.follows {w w' : Storage} (h : Gives w w') : Follows w w' := by
  obtain ⟨pages, hMoves, hReplay⟩ := h
  exact ⟨_, hMoves, hReplay⟩

theorem Gives.trans {w w' w'' : Storage} (h : Gives w w') (h' : Gives w' w'') : Gives w w'' := by
  obtain ⟨xs, hMoves, hReplay⟩ := h
  obtain ⟨ys, hMoves', hReplay'⟩ := h'
  refine ⟨xs ++ ys, ?_, ?_⟩
  · rw [hMoves', hMoves, List.append_assoc, List.map_append]
  · rw [hReplay', hReplay, List.map_append, replay_append]

section
variable {words : Nat} {w : Storage} {live : List Kmalloc.Obj} {owned : List Nat}
  (h : StorageInv words w live owned)
include h

/-- `kmalloc` returns `NULL` and changes nothing, or a new object, or follows a null pointer. -/
theorem StorageInv.kmalloc {size : Nat} (hLe : size ≤ 1048576) :
    w.kmalloc size = none ∨ w.kmalloc size = some (none, w) ∨
      ∃ a w', w.kmalloc size = some (some a, w') ∧ StorageInv words w' (⟨a, size⟩ :: live) owned ∧
        Follows w w' := by
  have hSupply := supply_supplies h.pages
  rcases Kmalloc.kmalloc_cases h.heap (List.Perm.refl _) hSupply hLe 0 with
    ⟨-, hCall⟩ | ⟨-, hCall | ⟨a, t, objs, hCall, hInv, hPerm⟩⟩
  · left
    unfold Storage.kmalloc
    rw [hCall]
    rfl
  · right
    left
    unfold Storage.kmalloc Storage.moved
    rw [hCall, Option.map_some]
    dsimp only
    rw [Nat.sub_self, List.replicate_zero, List.append_nil]
    rfl
  · right
    right
    refine ⟨a, w.moved t (List.replicate (t.held.length - w.heap.held.length) .take), ?_,
      ⟨hInv.perm hPerm, ?_⟩, _, rfl, rfl⟩
    · unfold Storage.kmalloc
      rw [hCall]
      rfl
    · obtain ⟨pages, hHeld, hPages⟩ := Kmalloc.kmalloc_grows 2 hCall
      have hTaken := supply_handed h.pages hPages
      unfold Storage.moved
      dsimp only
      rw [hHeld, List.length_append, Nat.add_sub_cancel]
      exact hTaken

theorem StorageInv.kfree {o : Kmalloc.Obj} (ho : o ∈ live) :
    ∃ w', w.kfree o.address = some w' ∧ StorageInv words w' (live.erase o) owned ∧ Gives w w' := by
  obtain ⟨t, objs, _, _, _, _, hCall, hInv, hPerm, -⟩ :=
    Kmalloc.kfree_spec h.heap (List.Perm.refl _) ho 0
  have hSub := Kmalloc.kfree_shrinks 2 hCall
  refine ⟨w.moved t ((w.heap.held.diff t.held).map .give), ?_, ⟨hInv.perm hPerm, ?_⟩, _, rfl, rfl⟩
  · unfold Storage.kfree
    rw [hCall]
    rfl
  · have hSplit : (w.heap.held.diff t.held ++ (t.held ++ owned)).Perm (w.heap.held ++ owned) := by
      rw [← List.append_assoc]
      apply List.Perm.append_right
      exact List.perm_append_comm.trans (List.subperm_append_diff_self_of_count_le
        (fun p _ => hSub.count_le p))
    exact (h.pages.perm hSplit.symm).gives

theorem StorageInv.kmalloc_null {size : Nat} (hLe : size ≤ 1048576) {w' : Storage}
    (hCall : w.kmalloc size = some (none, w')) : w' = w := by
  obtain hNone | hNull | ⟨a, w₁, hSome, -⟩ := h.kmalloc hLe
  · cases hCall.symm.trans hNone
  · exact (Prod.mk.inj (Option.some.inj (hCall.symm.trans hNull))).2
  · cases (Prod.mk.inj (Option.some.inj (hCall.symm.trans hSome))).1

theorem StorageInv.kmalloc_some {size : Nat} (hLe : size ≤ 1048576) {a : Nat} {w' : Storage}
    (hCall : w.kmalloc size = some (some a, w')) :
    StorageInv words w' (⟨a, size⟩ :: live) owned ∧ Follows w w' := by
  obtain hNone | hNull | ⟨b, w₁, hSome, hInv, hFollows⟩ := h.kmalloc hLe
  · cases hCall.symm.trans hNone
  · cases (Prod.mk.inj (Option.some.inj (hCall.symm.trans hNull))).1
  · obtain ⟨hAddress, rfl⟩ := Prod.mk.inj (Option.some.inj (hCall.symm.trans hSome))
    obtain rfl := Option.some.inj hAddress
    exact ⟨hInv, hFollows⟩

theorem StorageInv.kfree_some {o : Kmalloc.Obj} (ho : o ∈ live) {w' : Storage}
    (hCall : w.kfree o.address = some w') : StorageInv words w' (live.erase o) owned ∧ Gives w w' := by
  obtain ⟨w₁, hSome, hInv, hGives⟩ := h.kfree ho
  obtain rfl := Option.some.inj (hCall.symm.trans hSome)
  exact ⟨hInv, hGives⟩

end

/-! ## Every run -/

namespace Users

section
open Boot

/-- What `init_memory` and `slab_init` leave. -/
def booted (d : Descriptor) (e820 : List E820) : Users where
  storage :=
    { heap :=
        { caches := kmallocCache (initMemory d e820).endOfStruct
          held := 0 :: takenPages (initMemory d e820).endOfStruct }
      m := (slabInit (initMemory d e820)).toManagement
      moves := [] }
  live := []
  owned := []

theorem booted_initial (d : Descriptor) (e820 : List E820) (hTable : Table e820)
    (hBrk : pageOffset ≤ d.endBrk)
    (hFirst : FirstZone e820 (takenPages (initMemory d e820).endOfStruct)) :
    Initial ((slabInit (initMemory d e820)).bitsLength / 8) (booted d e820) := by
  obtain ⟨stop, hHead, -⟩ := id hFirst
  have hSome : zoneBounds e820 ≠ [] := List.ne_nil_of_mem (List.mem_of_mem_head? hHead)
  have hEnd := Kmalloc.endOfStruct_of_boot d hTable hBrk hSome
  exact ⟨⟨_, hEnd, fun _ _ => rfl, fun _ hp => hp⟩, boot_pagesInv d e820 hTable hBrk hFirst,
    rfl, rfl⟩

end

theorem Initial.inv {words : Nat} {u : Users} (h : Initial words u) :
    StorageInv words u.storage u.live u.owned := by
  obtain ⟨⟨e, hSlab⟩, hPages, hLive, hOwned⟩ := h
  constructor
  · rw [hLive, hSlab.no_internal]
    exact hSlab.inv
  · rw [hOwned, List.append_nil]
    exact hPages

theorem step_inv {words : Nat} {u t : Users} {a : Action} (h : StorageInv words u.storage u.live u.owned)
    (hStep : Step words u a t) : StorageInv words t.storage t.live t.owned := by
  cases hStep with
  | @kmalloc size p w le call =>
    cases p with
    | none =>
      obtain rfl := h.kmalloc_null le call
      exact h
    | some a => exact (h.kmalloc_some le call).1
  | kfree live call => exact (h.kfree_some live call).1
  | @allocPages _ number page m call inside =>
    obtain ⟨_, _, attr, i, -, -, hNew, hClear, -⟩ := allocPages_some call
    refine ⟨h.heap, ?_⟩
    have hTaken := (h.pages.takePages i attr inside hClear).1
    rw [← hNew] at hTaken
    exact hTaken.perm (List.perm_append_comm_assoc _ _ _)
  | @pageInit page flags owned =>
    exact ⟨h.heap, h.pages.marks (List.mem_append_right _ owned) (pageInit_marks _ page flags)⟩
  | @pageClean page owned =>
    exact ⟨h.heap, h.pages.marks (List.mem_append_right _ owned) (pageClean_marks _ page)⟩
  | @freePages page number rest pos most owned =>
    refine ⟨h.heap, ?_⟩
    have hValid : ¬ (64 ≤ (number : Int) ∨ (number : Int) ≤ 0) := by omega
    have hSplit : PagesInv words u.storage.m (block page number ++ (u.storage.heap.held ++ rest)) :=
      h.pages.perm ((owned.append_left _).trans (List.perm_append_comm_assoc _ _ _))
    unfold Pages.freePages
    dsimp only
    rw [if_neg hValid, Int.toNat_natCast]
    exact hSplit.freeLoop

theorem reach_inv {words : Nat} {u : Users} (hReach : Reach (Initial words) (Step words) u) :
    StorageInv words u.storage u.live u.owned :=
  Reach.invariant (P := fun u => StorageInv words u.storage u.live u.owned) (fun _ h => h.inv)
    (fun _ _ _ h hStep => step_inv h hStep) hReach

end Users

end KalinoteOS.Memory
