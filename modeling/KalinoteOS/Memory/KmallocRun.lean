import KalinoteOS.Lib.Run
import KalinoteOS.Memory.SlabCache
import KalinoteOS.Memory.KmallocNested
import Mathlib.Algebra.Order.Group.Nat

/-! # Runs of `kmalloc` and `kfree`

From what `slab_init` leaves, and with an `alloc_pages` that does not fail.
-/
namespace KalinoteOS.Memory.Kmalloc
open Lib Boot Pages
set_option autoImplicit false

/-- The allocator, and the objects its callers have. -/
structure Heap where
  state : State
  live : List Obj

inductive Action where
  | kmalloc (size : Nat)
  | kfree (address : Nat)
  deriving DecidableEq, Repr

/-- A call is over when it needs no more than `depth` calls inside each other. -/
inductive Step (h : Heap) : Action → Heap → Prop
  | kmalloc {allocPages : AllocPages} {size depth : Nat} {p : Option Nat} {t : State}
      (total : NeverFails allocPages) (le : size ≤ 1048576) (deep : 2 ≤ depth)
      (call : Kmalloc.kmalloc allocPages depth size h.state = some (p, t)) :
      Step h (.kmalloc size) ⟨t, (p.map fun a => (⟨a, size⟩ : Obj)).toList ++ h.live⟩
  | kfree {o : Obj} {depth ret : Nat} {t : State} (live : o ∈ h.live) (deep : 2 ≤ depth)
      (call : Kmalloc.kfree depth o.address h.state = some (ret, t)) :
      Step h (.kfree o.address) ⟨t, h.live.erase o⟩

/-- `slab_init` found `end_of_struct` at `e`; the pages taken at boot are not handed out again. -/
structure SlabInit (s : State) (e : Nat) : Prop where
  endOfStruct : EndOfStruct e
  caches : ∀ k < 16, s.caches k = kmallocCache e k
  held : ∀ p ∈ 0 :: takenPages e, p ∈ s.held

def Initial (h : Heap) : Prop := (∃ e, SlabInit h.state e) ∧ h.live = []

/-- The objects of the callers and those that `kmalloc_create` took. -/
def objects (h : Heap) : List Obj := h.live ++ internal h.state

/-! ## After boot -/

/-- What `init_memory` leaves behind is what `slab_init` needs. -/
theorem endOfStruct_of_boot (d : Descriptor) {e820 : List E820} (hTable : Table e820)
    (hBrk : pageOffset ≤ d.endBrk) (hSome : zoneBounds e820 ≠ []) :
    EndOfStruct (initMemory d e820).endOfStruct := by
  rw [initMemory_endOfStruct]
  exact (buildTables_placed d hTable hBrk).endOfStruct_spec (List.length_pos_of_ne_nil hSome)
    hTable.zones_le

theorem firstSlab_fresh (e k : Nat) : Fresh (page2M / kmallocSize k) (firstSlab (slabsEnd e k)
    (kmallocSize k) (poolPage (slabsEnd e 16) k) (poolAddress (slabsEnd e 16) k)) :=
  ⟨rfl, rfl, rfl, rfl, rfl⟩

theorem kmallocCache_inv {e k : Nat} (h : EndOfStruct e) : ClassInv k (kmallocCache e k) := by
  have hFresh := firstSlab_fresh e k
  constructor
  · rfl
  · refine ⟨rfl, List.nodup_singleton _, List.nodup_singleton _, fun t ht => ?_⟩
    cases List.mem_singleton.mp ht
    exact ⟨h.poolAddress_eq k, Nat.mul_div_le _ _, hFresh.counted⟩
  · intro t ht
    cases List.mem_singleton.mp ht
    exact hFresh.fine (if_pos rfl).symm fun hNe => absurd rfl hNe
  · exact (add_zero _).symm
  · rfl

theorem SlabInit.inv {s : State} {e : Nat} (h : SlabInit s e) : Inv s [] := by
  have hEnd := h.endOfStruct
  have hPage : ∀ k < 16, ∀ sl ∈ (s.caches k).ring,
      sl.page = frame (virtToPhy (slabsEnd e 16)) + 1 + k := by
    intro k hk sl hsl
    rw [h.caches k hk] at hsl
    cases List.mem_singleton.mp hsl
    exact hEnd.poolPage_eq k
  have hPool : ∀ k < 16, frame (virtToPhy (s.caches k).cachePool) ≤
      frame (virtToPhy (slabsEnd e 16)) := by
    intro k hk
    rw [h.caches k hk]
    exact Nat.div_le_div_right (Nat.sub_le_sub_right (slabsEnd_mono hEnd.aligned hk.le) _)
  have hHeld : ∀ p, p ≤ frame (virtToPhy (slabsEnd e 16)) + 16 → p ∈ s.held := by
    intro p hp
    apply h.held
    rw [hEnd.takenPages_eq, List.mem_cons, List.mem_range'_1]
    omega
  constructor
  · intro k hk
    rw [h.caches k hk]
    exact kmallocCache_inv hEnd
  · intro k hk
    rw [h.caches k hk]
    exact List.countP_le_length
  · intro k hk sl hsl
    rw [hPage k hk sl hsl]
    exact hHeld _ (by omega)
  · intro k hk k' hk' hNe sl hsl t ht
    rw [hPage k hk sl hsl, hPage k' hk' t ht]
    omega
  · intro k hk
    rw [h.caches k hk]
    exact hEnd.virtual.trans (slabsEnd_mono hEnd.aligned (Nat.zero_le k))
  · intro k hk
    exact hHeld _ ((hPool k hk).trans (Nat.le_add_right _ _))
  · intro k hk k' hk' sl hsl
    have hLow := hPool k hk
    rw [hPage k' hk' sl hsl]
    omega
  · intro k hk a
    rw [h.caches k hk]
    constructor
    · rintro ⟨t, ht, hHolds⟩
      cases List.mem_singleton.mp ht
      exact absurd hHolds ((firstSlab_fresh e k).holds_nothing _ a)
    · rintro ⟨o, ho, -⟩
      cases ho
  · intro o ho
    cases ho
  · exact List.nodup_nil

theorem SlabInit.no_internal {s : State} {e : Nat} (h : SlabInit s e) : internal s = [] := by
  apply List.flatMap_eq_nil_iff.mpr
  intro k hk
  rw [h.caches k (by have hRange := List.mem_range'_1.mp hk; omega)]
  rfl

/-! ## Every run -/

theorem Inv.perm {s : State} {objs objs' : List Obj} (h : Inv s objs) (hPerm : objs.Perm objs') :
    Inv s objs' :=
  { h with
    objects := fun k hk a => (h.objects k hk a).trans
      (exists_congr fun _ => and_congr_left fun _ => hPerm.mem_iff)
    sizes := fun o ho => h.sizes o (hPerm.mem_iff.mpr ho)
    nodup := (hPerm.map _).nodup_iff.mp h.nodup }

theorem Initial.inv {h : Heap} (hInit : Initial h) : Inv h.state (objects h) := by
  obtain ⟨⟨e, hSlab⟩, hLive⟩ := hInit
  unfold objects
  rw [hLive, hSlab.no_internal]
  exact hSlab.inv

theorem step_inv {h t : Heap} {a : Action} (hInv : Inv h.state (objects h)) (hStep : Step h a t) :
    Inv t.state (objects t) := by
  cases hStep with
  | @kmalloc allocPages size depth p u total le deep call =>
    obtain ⟨n, rfl⟩ := Nat.exists_eq_add_of_le' deep
    obtain ⟨b, v, objs', hCall, hNext, hPerm⟩ := kmalloc_spec hInv (List.Perm.refl _) total le n
    rw [call] at hCall
    obtain ⟨rfl, rfl⟩ := Prod.mk.inj (Option.some.inj hCall)
    exact hNext.perm hPerm
  | @kfree o depth ret u live deep call =>
    obtain ⟨n, rfl⟩ := Nat.exists_eq_add_of_le' deep
    obtain ⟨v, objs', _, _, _, _, hCall, hNext, hPerm, -⟩ :=
      kfree_spec hInv (List.Perm.refl _) live n
    rw [call] at hCall
    obtain ⟨rfl, rfl⟩ := Prod.mk.inj (Option.some.inj hCall)
    exact hNext.perm hPerm

theorem reach_inv {h : Heap} (hReach : Reach Initial Step h) : Inv h.state (objects h) :=
  Reach.invariant (P := fun h => Inv h.state (objects h)) (fun _ hInit => hInit.inv)
    (fun _ _ _ hInv hStep => step_inv hInv hStep) hReach

/-! ## Objects do not overlap -/

/-- The size of the objects that a call asking for `o.size` gets. -/
def classSize (o : Obj) : Nat :=
  match index o.size with
  | some k => kmallocSize k
  | none => 0

/-- `a` does not touch the `length` bytes from `start` on. -/
def Clears (o : Obj) (start length : Nat) : Prop :=
  o.address + classSize o ≤ start ∨ start + length ≤ o.address

/-- `kfree` of `o` leads to `t`: one slot is cleared, and an empty slab leaves its ring. -/
structure Frees (h : Heap) (o : Obj) (t : State) (k pos : Nat) (sl : Slab) (j : Nat) : Prop where
  at_slot : At h.state o k pos sl j
  marked : ∀ r, (sl.give j).isUsed r = (sl.isUsed r && decide (r ≠ j))
  ring : (t.caches k).ring = (h.state.caches k).ring.set pos (sl.give j) ∨
    (sl.give j).usingCount = 0 ∧ sl.header ≠ (h.state.caches k).cachePool ∧
      (t.caches k).ring = (h.state.caches k).ring.eraseIdx pos
  remaining : ∀ q < 16, ∀ a, RingHolds (t.caches q).ring (t.caches q).size a ↔
    ∃ u ∈ objects ⟨t, h.live.erase o⟩, u.address = a ∧ index u.size = some q

structure Safe (h : Heap) : Prop where
  sizes : ∀ o ∈ objects h, o.size ≤ classSize o
  apart : (objects h).Pairwise fun a b => Clears a b.address (classSize b)
  within : ∀ o ∈ objects h, ∃ k < 16, index o.size = some k ∧ ∃ sl ∈ (h.state.caches k).ring,
    sl.vaddress ≤ o.address ∧ o.address + classSize o ≤ sl.vaddress + page2M
  /-- Headers and bitmaps inside a page. -/
  untouched : ∀ o ∈ objects h, ∀ k < 5, ∀ sl ∈ (h.state.caches k).ring,
    sl.header ≠ (h.state.caches k).cachePool →
      Clears o sl.header sizeofSlab ∧ Clears o sl.colorMapAt sl.colorLength
  kmalloc : ∀ allocPages, NeverFails allocPages → ∀ size ≤ 1048576, ∀ depth, 2 ≤ depth →
    ∃ a t, Kmalloc.kmalloc allocPages depth size h.state = some (some a, t)
  kfree : ∀ o ∈ h.live, ∀ depth, 2 ≤ depth → ∃ t k pos sl j,
    Kmalloc.kfree depth o.address h.state = some (1, t) ∧ Frees h o t k pos sl j

theorem At.classSize_eq {s : State} {o : Obj} {k pos j : Nat} {sl : Slab} (h : At s o k pos sl j) :
    classSize o = kmallocSize k := by
  unfold classSize
  rw [h.index]

section
variable {s : State} {objs : List Obj}

theorem Inv.at (h : Inv s objs) {o : Obj} (ho : o ∈ objs) :
    ∃ (k pos : Nat) (sl : Slab) (j : Nat), At s o k pos sl j := by
  obtain ⟨k, pos, sl, j, hk, hIndex, hAt, hLt, hUsed, hAddress⟩ := h.find ho
  exact ⟨k, pos, sl, j, hk, hIndex, hAt, hLt, hUsed, hAddress⟩

theorem At.within {o : Obj} {k pos j : Nat} {sl : Slab} (hAt : At s o k pos sl j) (h : Inv s objs) :
    sl.vaddress ≤ o.address ∧ o.address + classSize o ≤ sl.vaddress + page2M := by
  have hClass := h.classes k hAt.lt
  have hHolds : sl.Holds (s.caches k).size o.address := ⟨j, hAt.slot, hAt.isUsed, hAt.address⟩
  rw [hAt.classSize_eq, ← hClass.size]
  exact hHolds.within (hClass.ring.slabs sl hAt.mem)

theorem Inv.slabs_apart (h : Inv s objs) {k k' : Nat} (hk : k < 16) (hk' : k' < 16) {sl t : Slab}
    (hsl : sl ∈ (s.caches k).ring) (ht : t ∈ (s.caches k').ring) (hNe : ¬ (k = k' ∧ sl = t)) :
    sl.vaddress + page2M ≤ t.vaddress ∨ t.vaddress + page2M ≤ sl.vaddress := by
  have hPage : sl.page ≠ t.page := by
    intro hEq
    apply hNe
    apply h.same_slab hk hk' hsl ht
    rw [((h.classes k hk).ring.slabs sl hsl).address, ((h.classes k' hk').ring.slabs t ht).address, hEq]
  rw [((h.classes k hk).ring.slabs sl hsl).address, ((h.classes k' hk').ring.slabs t ht).address]
  exact page_apart hPage

/-- The slabs of a size have a slot for each of its objects. -/
theorem Inv.length_le (h : Inv s objs) {k : Nat} (hk : k < 16) :
    (objs.filter fun o => index o.size = some k).length ≤ ((s.caches k).ring.map Slab.colorCount).sum := by
  have hNodup : ((objs.filter fun o => index o.size = some k).map Obj.address).Nodup :=
    h.nodup.sublist (List.filter_sublist.map _)
  have hIn : (objs.filter fun o => index o.size = some k).map Obj.address ⊆
      (s.caches k).ring.flatMap fun sl => (List.range sl.colorCount).map (sl.object (s.caches k).size) := by
    intro a ha
    obtain ⟨o, ho, rfl⟩ := List.mem_map.mp ha
    obtain ⟨hObj, hIndex⟩ := List.mem_filter.mp ho
    obtain ⟨sl, hsl, j, hLt, -, hAddress⟩ :=
      (h.objects k hk o.address).mpr ⟨o, hObj, rfl, of_decide_eq_true hIndex⟩
    exact List.mem_flatMap.mpr ⟨sl, hsl, List.mem_map.mpr ⟨j, List.mem_range.mpr hLt, hAddress.symm⟩⟩
  have hLength := (hNodup.subperm hIn).length_le
  simpa [List.length_flatMap, Function.comp_def] using hLength


theorem Inv.objects_apart (h : Inv s objs) {a b : Obj} (ha : a ∈ objs) (hb : b ∈ objs) (hNe : a ≠ b) :
    Clears a b.address (classSize b) := by
  obtain ⟨k, pos, sl, i, hAt⟩ := h.at ha
  obtain ⟨k', pos', t, j, hAt'⟩ := h.at hb
  have hWithin := hAt.within h
  have hWithin' := hAt'.within h
  unfold Clears
  by_cases hSame : k = k' ∧ sl = t
  · obtain ⟨rfl, rfl⟩ := hSame
    have hIndex : i ≠ j := by
      rintro rfl
      exact hNe (List.inj_on_of_nodup_map h.nodup ha hb (hAt.address.trans hAt'.address.symm))
    rw [hAt.classSize_eq, hAt'.classSize_eq, hAt.address, hAt'.address, ← (h.classes k hAt.lt).size]
    exact object_apart sl _ hIndex
  · have hApart := h.slabs_apart hAt.lt hAt'.lt hAt.mem hAt'.mem hSame
    omega

/-- Header and bitmap fill the end of the page, behind all objects. -/
theorem Inv.objects_clear (h : Inv s objs) {o : Obj} (ho : o ∈ objs) {k : Nat} (hk : k < 5) {t : Slab}
    (ht : t ∈ (s.caches k).ring) (hNotPool : t.header ≠ (s.caches k).cachePool) :
    Clears o t.header sizeofSlab ∧ Clears o t.colorMapAt t.colorLength := by
  have hk16 : k < 16 := hk.trans (by decide)
  have hFine := (h.classes k hk16).slabs t ht
  obtain ⟨hHeader, hMap⟩ := hFine.place hNotPool hk
  have hCount := hFine.count
  rw [if_neg hNotPool] at hCount
  have hRoom := created_room k hk
  have hMapRoom := map_room k hk
  have hLength := hFine.length
  rw [hCount] at hLength
  obtain ⟨q, pos, sl, j, hAt⟩ := h.at ho
  have hWithin := hAt.within h
  have hEnd : o.address + classSize o ≤ t.header ∨ t.vaddress + page2M ≤ o.address := by
    by_cases hSame : q = k ∧ sl = t
    · obtain ⟨rfl, rfl⟩ := hSame
      left
      have hMul : kmallocSize q * (j + 1) ≤ kmallocSize q * createdCount q :=
        Nat.mul_le_mul_left _ (hCount ▸ hAt.slot)
      have hAddress := hAt.address
      unfold Slab.object at hAddress
      rw [(h.classes q hk16).size] at hAddress
      rw [hAt.classSize_eq]
      rw [Nat.mul_add, Nat.mul_one] at hMul
      omega
    · have hApart := h.slabs_apart hAt.lt hk16 hAt.mem ht hSame
      omega
  unfold Clears
  omega

end

theorem isUsed_give {sl : Slab} {j : Nat} (hUsed : sl.isUsed j = true) (r : Nat) :
    (sl.give j).isUsed r = (sl.isUsed r && decide (r ≠ j)) := Cache.isUsed_given hUsed r

/-- Objects that are live at the same time do not overlap, and `kfree` takes back exactly one. -/
theorem objects_safe (h : Heap) (hReach : Reach Initial Step h) : Safe h := by
  have hInv := reach_inv hReach
  constructor
  · intro o ho
    obtain ⟨k, pos, sl, j, hAt⟩ := hInv.at ho
    rw [hAt.classSize_eq]
    exact (index_some hAt.index).2
  · apply hInv.nodup_objs.pairwise_of_forall_ne
    intro a ha b hb hNe
    exact hInv.objects_apart ha hb hNe
  · intro o ho
    obtain ⟨k, pos, sl, j, hAt⟩ := hInv.at ho
    exact ⟨k, hAt.lt, hAt.index, sl, hAt.mem, hAt.within hInv⟩
  · intro o ho k hk sl hsl hNotPool
    exact hInv.objects_clear ho hk hsl hNotPool
  · intro allocPages hTotal size hLe depth hDeep
    obtain ⟨n, rfl⟩ := Nat.exists_eq_add_of_le' hDeep
    obtain ⟨a, t, _, hCall, -⟩ := kmalloc_spec hInv (List.Perm.refl _) hTotal hLe n
    exact ⟨a, t, hCall⟩
  · intro o ho depth hDeep
    obtain ⟨n, rfl⟩ := Nat.exists_eq_add_of_le' hDeep
    obtain ⟨t, objs', k, pos, sl, j, hCall, hNext, hPerm, hAt, hRing⟩ :=
      kfree_spec hInv (List.Perm.refl _) ho n
    refine ⟨t, k, pos, sl, j, hCall, hAt, isUsed_give hAt.isUsed, ?_, (hNext.perm hPerm).objects⟩
    obtain hKept | ⟨hZero, hNotPool, hDropped⟩ := hRing
    · left
      rw [hKept]
      rfl
    · right
      refine ⟨hZero, hNotPool, ?_⟩
      rw [hDropped]
      exact List.eraseIdx_set_eq

/-! ## A run -/

/-- An `alloc_pages` that goes on behind all pages it handed out. -/
def nextPage : AllocPages := fun held => some (held.sum + 1)

theorem nextPage_total : NeverFails nextPage := by
  intro held
  refine ⟨held.sum + 1, rfl, fun hMem => ?_⟩
  have hLe := List.le_sum_of_mem hMem
  omega

section
variable {h : Heap}

theorem exists_kmalloc (hReach : Reach Initial Step h) (sizes : List Nat) (hLe : ∀ size ∈ sizes, size ≤ 1048576) :
    ∃ t, Reach Initial Step t ∧ t.live.map Obj.size = sizes.reverse ++ h.live.map Obj.size := by
  induction sizes generalizing h with
  | nil => exact ⟨h, hReach, rfl⟩
  | cons size sizes ih =>
    obtain ⟨a, t, _, hCall, -⟩ := kmalloc_spec (reach_inv hReach) (List.Perm.refl _) nextPage_total
      (hLe size List.mem_cons_self) 0
    have hStep : Step h (.kmalloc size) ⟨t, ⟨a, size⟩ :: h.live⟩ :=
      Step.kmalloc nextPage_total (hLe size List.mem_cons_self) (le_refl 2) hCall
    obtain ⟨u, hReachU, hSizes⟩ := ih (hReach.next hStep) fun n hn => hLe n (List.mem_cons_of_mem _ hn)
    refine ⟨u, hReachU, ?_⟩
    rw [hSizes, List.reverse_cons, List.append_assoc]
    rfl

theorem exists_kfree (hReach : Reach Initial Step h) (freed rest : List Obj) (hLive : h.live = freed ++ rest) :
    ∃ actions t, Run Step h actions t ∧ t.live = rest := by
  induction freed generalizing h with
  | nil => exact ⟨[], h, .nil h, hLive⟩
  | cons o freed ih =>
    have ho : o ∈ h.live := by
      rw [hLive]
      exact List.mem_cons_self
    obtain ⟨t, _, _, _, _, _, hCall, -⟩ := kfree_spec (reach_inv hReach) (List.Perm.refl _) ho 0
    have hStep : Step h (.kfree o.address) ⟨t, h.live.erase o⟩ := .kfree ho (le_refl 2) hCall
    have hErased : h.live.erase o = freed ++ rest := by
      rw [hLive, List.cons_append, List.erase_cons_head]
    obtain ⟨actions, u, hRun, hRest⟩ := ih (hReach.next hStep) hErased
    exact ⟨_ :: actions, u, .cons hStep hRun, hRest⟩

end

/-- What a machine with RAM from 1MB to 64MB boots into. -/
def bootHeap : Heap where
  state :=
    { caches := kmallocCache (initMemory freshDescriptor [⟨0x100000, 0x3f00000, 1⟩]).endOfStruct
      held := 0 :: takenPages (initMemory freshDescriptor [⟨0x100000, 0x3f00000, 1⟩]).endOfStruct }
  live := []

theorem bootHeap_endOfStruct :
    EndOfStruct (initMemory freshDescriptor [⟨0x100000, 0x3f00000, 1⟩]).endOfStruct := by
  apply endOfStruct_of_boot
  · constructor
    · decide
    · decide
    · exact List.pairwise_singleton _ _
    · exact List.pairwise_singleton _ _
    · decide
  · exact Nat.le_add_right _ _
  · decide

theorem bootHeap_initial : Initial bootHeap :=
  ⟨⟨_, bootHeap_endOfStruct, fun _ _ => rfl, fun _ hp => hp⟩, rfl⟩

/-- After boot: five objects of 1MB and one of 2KB, and then the objects of 1MB are freed. -/
theorem bootHeap_run : ∃ h actions t, Reach Initial Step h ∧ Run Step h actions t ∧
    h.live.map Obj.size = List.replicate 5 1048576 ++ [2048] ∧ t.live.map Obj.size = [2048] ∧
    3 ≤ (h.state.caches 15).ring.length := by
  obtain ⟨h, hReach, hSizes⟩ := exists_kmalloc (.start bootHeap_initial) (2048 :: List.replicate 5 1048576)
    (by decide)
  change h.live.map Obj.size = List.replicate 5 1048576 ++ [2048] at hSizes
  obtain ⟨freed, rest, hLive, hFreed, hRest⟩ := List.map_eq_append_iff.mp hSizes
  obtain ⟨actions, t, hRun, hLiveT⟩ := exists_kfree hReach freed rest hLive
  have hInv := reach_inv hReach
  refine ⟨h, actions, t, hReach, hRun, hSizes, hLiveT ▸ hRest, ?_⟩
  have hRoom := hInv.length_le (k := 15) (by decide)
  have hTwo : ∀ n ∈ (h.state.caches 15).ring.map Slab.colorCount, n = 2 := by
    intro n hn
    obtain ⟨sl, hsl, rfl⟩ := List.mem_map.mp hn
    rw [((hInv.classes 15 (by decide)).slabs sl hsl).count]
    split
    · rfl
    · rfl
  have hSum : _ = ((h.state.caches 15).ring.map Slab.colorCount).length * 2 := List.sum_eq_card_nsmul _ 2 hTwo
  rw [List.length_map] at hSum
  have hFive : 5 ≤ ((objects h).filter fun o => index o.size = some 15).length := by
    unfold objects
    rw [List.filter_append, List.length_append, hLive, List.filter_append, List.length_append]
    have hAll : freed.filter (fun o => index o.size = some 15) = freed := by
      refine List.filter_eq_self.mpr fun o ho => decide_eq_true ?_
      have hSize : o.size ∈ List.replicate 5 1048576 := hFreed ▸ List.mem_map_of_mem ho
      rw [List.eq_of_mem_replicate hSize]
      decide +kernel
    have hLength := congrArg List.length hFreed
    rw [List.length_map, List.length_replicate] at hLength
    rw [hAll]
    omega
  omega

/-- Five objects of 1MB, in three slabs or more, and one of 2KB. -/
theorem objects_safe_boot : ∃ h, h.live.length = 6 ∧ 3 ≤ (h.state.caches 15).ring.length ∧ Safe h := by
  obtain ⟨h, _, _, hReach, -, hSizes, -, hThree⟩ := bootHeap_run
  have hLength := congrArg List.length hSizes
  rw [List.length_map] at hLength
  exact ⟨h, hLength, hThree, objects_safe h hReach⟩

end KalinoteOS.Memory.Kmalloc
