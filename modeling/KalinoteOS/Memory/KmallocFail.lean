import KalinoteOS.Memory.KmallocCounters

/-! # `kmalloc` when the pages run out

`alloc_pages` may return `NULL` from any call on. `kmalloc_create` tests its own page, but not
what its two calls of `kmalloc` return.
-/
namespace KalinoteOS.Memory.Kmalloc
open Lib Boot Pages
set_option autoImplicit false

/-- `pages` were handed out one after the other, the last one first. -/
def Handed (allocPages : AllocPages) (held : List Nat) : List Nat → Prop
  | [] => True
  | p :: pages => allocPages (pages ++ held) = some p ∧ Handed allocPages held pages

/-- No page is handed out twice; any call may return `NULL`. -/
def Supplies (allocPages : AllocPages) (held : List Nat) : Prop :=
  ∀ p pages, Handed allocPages held (p :: pages) → p ∉ pages ++ held

/-- The pages handed out once an object is taken of a size with `free` free objects. -/
def pagesFor (allocPages : AllocPages) (free : Int) (held : List Nat) : Option (List Nat) :=
  if free ≠ 0 then some held else (allocPages held).map (· :: held)

/-- The free objects of a small size once one is taken. -/
def freeAfter (i : Nat) (free : Int) : Int := if free ≠ 0 then free - 1 else createdCount i - 1

/-- The size of the header of a slab. -/
def headerIndex : Nat := 2

/-- The free objects of size `m` once a header is taken. -/
def freeForMap (s : State) (m : Nat) : Int :=
  if m = headerIndex then freeAfter m (s.caches m).totalFree else (s.caches m).totalFree

/-- Behind the page of a slab of size `i` there are pages for its header and its bitmap, or they
need none. -/
def Backed (allocPages : AllocPages) (s : State) (i : Nat) : Prop :=
  ∀ p m, allocPages s.held = some p → index (colorLengthOf (page2M / kmallocSize i)) = some m →
    ∃ held, pagesFor allocPages (s.caches headerIndex).totalFree (p :: s.held) = some held ∧
      pagesFor allocPages (freeForMap s m) held ≠ none

/-- What `kmalloc` takes for itself is there: the size is one of the small ones, has a free object,
or its next slab is backed. -/
def MetadataLeft (allocPages : AllocPages) (s : State) (size : Nat) : Prop :=
  ∀ i, index size = some i → 5 ≤ i → (s.caches i).totalFree = 0 → Backed allocPages s i

/-- No null pointer is followed, and `NULL` is returned only over an unchanged state. -/
def FailsCleanly (s : State) (result : Option (Option Nat × State)) : Prop :=
  ∃ p t, result = some (p, t) ∧ (p = none → t = s)

/-! ## Pages handed out -/

section
variable {allocPages : AllocPages} {held xs ys : List Nat}

theorem Handed.append (hx : Handed allocPages held xs) (hy : Handed allocPages (xs ++ held) ys) :
    Handed allocPages held (ys ++ xs) := by
  induction ys with
  | nil => exact hx
  | cons p ys ih =>
    obtain ⟨hPage, hRest⟩ := hy
    refine ⟨?_, ih hRest⟩
    change allocPages (ys ++ xs ++ held) = some p
    rw [List.append_assoc]
    exact hPage

theorem Supplies.of_handed (h : Supplies allocPages held) (hx : Handed allocPages held xs) :
    Supplies allocPages (xs ++ held) := by
  intro p ys hy
  have hAll : Handed allocPages held ((p :: ys) ++ xs) := hx.append hy
  have hNew := h p (ys ++ xs) hAll
  rwa [List.append_assoc] at hNew

theorem Supplies.new (h : Supplies allocPages held) {p : Nat} (hPage : allocPages held = some p) :
    p ∉ held := h p [] ⟨hPage, trivial⟩

theorem Supplies.next (h : Supplies allocPages held) {p : Nat} (hPage : allocPages held = some p) :
    Supplies allocPages (p :: held) := by
  have hOne : Handed allocPages held [p] := ⟨hPage, trivial⟩
  exact h.of_handed hOne

theorem NeverFails.supplies (h : NeverFails allocPages) (held : List Nat) :
    Supplies allocPages held := by
  rintro p pages ⟨hPage, -⟩
  obtain ⟨q, hEq, hNew⟩ := h (pages ++ held)
  obtain rfl : p = q := Option.some.inj (hPage.symm.trans hEq)
  exact hNew

theorem Supplies.pagesFor (h : Supplies allocPages held) {free : Int} {held' : List Nat}
    (hPages : pagesFor allocPages free held = some held') : Supplies allocPages held' := by
  unfold Kmalloc.pagesFor at hPages
  split at hPages
  · exact Option.some.inj hPages ▸ h
  · obtain ⟨p, hPage, rfl⟩ := Option.map_eq_some_iff.mp hPages
    exact h.next hPage

end

section
variable {s : State} {objs live : List Obj} {allocPages : AllocPages}

/-! ## One call -/

/-- A small size fails only for want of a page, and leaves everything as it was. -/
theorem kmalloc_small_cases (h : Inv s objs) (hSupply : Supplies allocPages s.held) {size i : Nat}
    (hIndex : index size = some i) (hi : i < 5) (depth : Nat) :
    (pagesFor allocPages (s.caches i).totalFree s.held = none ∧
      kmalloc allocPages (depth + 1) size s = some (none, s)) ∨
    ∃ a t, pagesFor allocPages (s.caches i).totalFree s.held = some t.held ∧
      kmalloc allocPages (depth + 1) size s = some (some a, t) ∧ Inv t (⟨a, size⟩ :: objs) ∧
      Touches s t i ∧ (t.caches i).totalFree = freeAfter i (s.caches i).totalFree := by
  have hLe := small_le hIndex hi
  have hi16 := (index_some hIndex).1
  unfold pagesFor freeAfter
  by_cases hFree : (s.caches i).totalFree ≠ 0
  · right
    obtain ⟨a, pos, sl, j, hAt, hCall, hInv⟩ := kmalloc_search h hIndex hLe hFree depth
    refine ⟨a, s.setCache i (takeAt (s.caches i) pos sl j), if_pos hFree, hCall, hInv,
      takeAt_touches hi16 hAt, ?_⟩
    rw [if_pos hFree, setCache_self]
    rfl
  · rw [if_neg hFree, if_neg hFree]
    cases hPage : allocPages s.held with
    | none =>
      left
      refine ⟨rfl, ?_⟩
      rw [kmalloc_eq h hIndex hLe, if_neg hFree]
      unfold kmallocCreate
      rw [hPage]
    | some p =>
      right
      obtain ⟨a, t, hCall, hInv, hTouches, hHeld, hCount⟩ :=
        kmalloc_small_new h hIndex hi hLe (not_not.mp hFree) hPage (hSupply.new hPage) depth
      exact ⟨a, t, congrArg some hHeld.symm, hCall, hInv, hTouches, hCount⟩

theorem kmallocCreate_null {size : Nat} (hNone : allocPages s.held = none)
    (kmalloc : Nat → State → Option (Option Nat × State)) :
    kmallocCreate allocPages kmalloc size s = some (none, s) := by
  unfold kmallocCreate
  rw [hNone]

theorem Touches.free_other {t : State} {i m : Nat} (h : Touches s t i) (hNe : m ≠ i) :
    (t.caches m).totalFree = (s.caches m).totalFree := by
  rw [h.others m hNe]

/-- The free objects of the bitmap's size, before and after the header was taken. -/
theorem freeForMap_eq {t : State} (hTouches : Touches s t headerIndex)
    (hFree : (t.caches headerIndex).totalFree =
      freeAfter headerIndex (s.caches headerIndex).totalFree) (m : Nat) :
    (t.caches m).totalFree = freeForMap s m := by
  unfold freeForMap
  by_cases hEq : m = headerIndex
  · rw [if_pos hEq, hEq]
    exact hFree
  · rw [if_neg hEq]
    exact hTouches.free_other hEq

/-- With its own page, a large size gets its slab exactly if the slab is backed. -/
theorem kmallocCreate_cases (h : Inv s objs) (hSupply : Supplies allocPages s.held) {i p : Nat}
    (hi : i < 16) (hLarge : 5 ≤ i) (hPage : allocPages s.held = some p) (depth : Nat) :
    (¬ Backed allocPages s i ∧
      kmallocCreate allocPages (kmalloc allocPages (depth + 1)) (s.caches i).size s = none) ∨
    ∃ header colorMap t, Backed allocPages s i ∧
      kmallocCreate allocPages (kmalloc allocPages (depth + 1)) (s.caches i).size s =
        some (some (slabOutside (kmallocSize i) p header colorMap), t) ∧
      Inv t (⟨colorMap, colorLengthOf (page2M / kmallocSize i)⟩ :: ⟨header, sizeofSlab⟩ :: objs) ∧
      Unowned t p ∧ ∀ k, 5 ≤ k → t.caches k = s.caches k := by
  obtain ⟨m, hm, hIndexM⟩ := index_colorLength i hi hLarge
  rw [kmallocCreate_large h hi hLarge hPage]
  rcases kmalloc_small_cases (h.alloc p) (hSupply.next hPage) index_sizeofSlab (by decide) depth with
    ⟨hNull, hCall⟩ | ⟨header, t, hHeld, hCall, hInvT, hTouchT, hFreeT⟩
  · left
    rw [hCall]
    refine ⟨fun hBacked => ?_, rfl⟩
    obtain ⟨held, hHeader, -⟩ := hBacked p m hPage hIndexM
    exact absurd (hNull.symm.trans hHeader) (by simp)
  · have hSupplyT := (hSupply.next hPage).pagesFor hHeld
    have hFree : (t.caches m).totalFree = freeForMap s m :=
      freeForMap_eq (s := { s with held := p :: s.held }) hTouchT hFreeT m
    rw [hCall]
    dsimp only
    rcases kmalloc_small_cases hInvT hSupplyT hIndexM hm depth with
      ⟨hNull, hCallM⟩ | ⟨colorMap, u, hHeldU, hCallM, hInvU, hTouchU, -⟩
    · left
      rw [hCallM]
      refine ⟨fun hBacked => ?_, rfl⟩
      obtain ⟨held, hHeader, hMap⟩ := hBacked p m hPage hIndexM
      obtain rfl : t.held = held := Option.some.inj (hHeld.symm.trans hHeader)
      rw [hFree] at hNull
      exact hMap hNull
    · right
      rw [hCallM]
      refine ⟨header, colorMap, u, ?_, rfl, hInvU, ?_, ?_⟩
      · intro q m' hPageQ hIndexQ
        obtain rfl : p = q := Option.some.inj (hPage.symm.trans hPageQ)
        obtain rfl : m = m' := Option.some.inj (hIndexM.symm.trans hIndexQ)
        refine ⟨t.held, hHeld, ?_⟩
        rw [← hFree, hHeldU]
        exact Option.some_ne_none _
      · exact hTouchU.unowned p (hTouchT.unowned p (h.unowned_new (hSupply.new hPage)))
      · intro k hk
        have hNeHeader : k ≠ headerIndex := by
          unfold headerIndex
          omega
        rw [hTouchU.others k (by omega), hTouchT.others k hNeHeader]

/-- A call follows a null pointer, returns `NULL` over an unchanged state, or returns a new object. -/
theorem kmalloc_cases (h : Inv s objs) (hPerm : objs.Perm (live ++ internal s))
    (hSupply : Supplies allocPages s.held) {size : Nat} (hLe : size ≤ 1048576) (depth : Nat) :
    (¬ MetadataLeft allocPages s size ∧ kmalloc allocPages (depth + 2) size s = none) ∨
    MetadataLeft allocPages s size ∧ (kmalloc allocPages (depth + 2) size s = some (none, s) ∨
      ∃ a t objs', kmalloc allocPages (depth + 2) size s = some (some a, t) ∧ Inv t objs' ∧
        objs'.Perm (⟨a, size⟩ :: live ++ internal t)) := by
  obtain ⟨i, hIndex⟩ := index_total hLe
  have hOnly : ∀ {k}, index size = some k → k = i := fun hk => Option.some.inj (hk.symm.trans hIndex)
  by_cases hFree : (s.caches i).totalFree ≠ 0
  · right
    refine ⟨fun k hk _ hFull => absurd (hOnly hk ▸ hFull) hFree, Or.inr ?_⟩
    obtain ⟨a, pos, sl, j, hAt, hCall, hInv⟩ := kmalloc_search h hIndex hLe hFree (depth + 1)
    refine ⟨a, _, _, hCall, hInv, hPerm.cons _ |>.trans ?_⟩
    rw [internal_setCache (backing_takeAt hAt j)]
    exact List.Perm.refl _
  · have hFull : (s.caches i).totalFree = 0 := not_not.mp hFree
    by_cases hSmall : i < 5
    · right
      refine ⟨fun k hk hLarge => absurd (hOnly hk ▸ hSmall) (not_lt.mpr hLarge), ?_⟩
      rcases kmalloc_small_cases h hSupply hIndex hSmall (depth + 1) with
        ⟨-, hCall⟩ | ⟨a, t, -, hCall, hInv, hTouches, -⟩
      · exact Or.inl hCall
      · refine Or.inr ⟨a, t, _, hCall, hInv, hPerm.cons _ |>.trans ?_⟩
        rw [internal_congr fun k hk => hTouches.others k (by omega)]
        exact List.Perm.refl _
    · have hLarge : 5 ≤ i := not_lt.mp hSmall
      have hEq : kmalloc allocPages (depth + 2) size s = _ := kmalloc_eq h hIndex hLe (depth + 1)
      rw [if_neg hFree] at hEq
      cases hPage : allocPages s.held with
      | none =>
        right
        refine ⟨fun k _ _ _ p m hSome => absurd (hPage.symm.trans hSome) (by simp), Or.inl ?_⟩
        rw [hEq, kmallocCreate_null hPage]
      | some p =>
        rcases kmallocCreate_cases h hSupply (index_some hIndex).1 hLarge hPage depth with
          ⟨hBacked, hCreate⟩ | ⟨header, colorMap, t, hBacked, hCreate, hInvT, hUnowned, hLater⟩
        · left
          refine ⟨fun hLeft => hBacked (hLeft i hIndex hLarge hFull), ?_⟩
          rw [hEq, hCreate]
        · right
          refine ⟨fun k hk _ _ => hOnly hk ▸ hBacked, Or.inr ?_⟩
          exact kmalloc_large_of_create h hPerm hIndex hLe hLarge hFull hCreate hInvT hUnowned hLater

end

/-! ## The pages of a call -/

/-- `t` holds what `s` held, and behind that pages that were handed out in a row. -/
def Grows (allocPages : AllocPages) (s t : State) : Prop :=
  ∃ pages, t.held = pages ++ s.held ∧ Handed allocPages s.held pages

theorem Grows.refl (allocPages : AllocPages) (s : State) : Grows allocPages s s := ⟨[], rfl, trivial⟩

theorem Grows.trans {allocPages : AllocPages} {s t u : State} (h : Grows allocPages s t)
    (h' : Grows allocPages t u) : Grows allocPages s u := by
  obtain ⟨xs, hHeld, hx⟩ := h
  obtain ⟨ys, hHeld', hy⟩ := h'
  rw [hHeld] at hy
  exact ⟨ys ++ xs, by rw [hHeld', hHeld, List.append_assoc], hx.append hy⟩

theorem takeSlot_held {s t : State} {i pos : Nat} {r : Option Nat}
    (h : takeSlot s i pos = some (r, t)) : t.held = s.held := by
  unfold takeSlot at h
  obtain ⟨sl, -, hEq⟩ := Option.map_eq_some_iff.mp h
  split at hEq
  · exact (Prod.mk.inj hEq).2 ▸ rfl
  · exact (Prod.mk.inj hEq).2 ▸ rfl

theorem kmallocCreate_grows {allocPages : AllocPages}
    {kmalloc : Nat → State → Option (Option Nat × State)}
    (hCall : ∀ {size s r t}, kmalloc size s = some (r, t) → Grows allocPages s t) {size : Nat}
    {s t : State} {r : Option Slab} (h : kmallocCreate allocPages kmalloc size s = some (r, t)) :
    Grows allocPages s t := by
  unfold kmallocCreate at h
  split at h
  · cases h
    exact Grows.refl allocPages s
  · next p hPage =>
    have hTaken : Grows allocPages s { s with held := p :: s.held } := ⟨[p], rfl, hPage, trivial⟩
    dsimp only at h
    split at h
    · cases h
      exact hTaken
    · split at h
      · split at h
        · next hHeader =>
          split at h
          · next hMap =>
            cases h
            exact (hTaken.trans (hCall hHeader)).trans (hCall hMap)
          · cases h
        · cases h
      · cases h
        have hGiven : (State.freePage { s with held := p :: s.held } p).held = s.held :=
          List.erase_cons_head _ _
        exact ⟨[], hGiven, trivial⟩

theorem kmalloc_grows {allocPages : AllocPages} (depth : Nat) {size : Nat} {s t : State}
    {r : Option Nat} (h : kmalloc allocPages depth size s = some (r, t)) : Grows allocPages s t := by
  induction depth generalizing size s t r with
  | zero => cases h
  | succ depth ih =>
    rw [kmalloc] at h
    split at h
    · cases h
      exact Grows.refl allocPages s
    · obtain ⟨i, -, h⟩ := Option.bind_eq_some_iff.mp h
      split at h
      · obtain ⟨pos, -, h⟩ := Option.bind_eq_some_iff.mp h
        exact ⟨[], takeSlot_held h, trivial⟩
      · split at h
        · next hCreate =>
          obtain ⟨pages, hHeld, hPages⟩ := kmallocCreate_grows ih hCreate
          exact ⟨pages, (takeSlot_held h).trans hHeld, hPages⟩
        · next hCreate =>
          cases h
          exact kmallocCreate_grows ih hCreate
        · cases h

theorem kfree_shrinks (depth : Nat) {address r : Nat} {s t : State}
    (h : kfree depth address s = some (r, t)) : t.held.Sublist s.held := by
  induction depth generalizing address s t r with
  | zero => cases h
  | succ depth ih =>
    rw [kfree] at h
    obtain ⟨owner, -, h⟩ := Option.bind_eq_some_iff.mp h
    split at h
    · cases h
      exact List.Sublist.refl _
    · obtain ⟨sl, -, h⟩ := Option.bind_eq_some_iff.mp h
      dsimp only at h
      split at h
      · obtain ⟨u, hGive, hEq⟩ := Option.map_eq_some_iff.mp h
        cases hEq
        unfold giveBack at hGive
        dsimp only at hGive
        split at hGive
        · cases hGive
          exact List.erase_sublist
        · obtain ⟨⟨r₁, s₁⟩, hMap, hGive⟩ := Option.bind_eq_some_iff.mp hGive
          obtain ⟨⟨r₂, s₂⟩, hHeader, hEq⟩ := Option.map_eq_some_iff.mp hGive
          cases hEq
          have hFirst := ih hMap
          exact ((ih hHeader).trans List.erase_sublist).trans hFirst
      · cases h
        exact List.Sublist.refl _

/-! ## Every run -/

/-- As `Step`, but any call of `alloc_pages` may fail. -/
inductive FallibleStep (h : Heap) : Action → Heap → Prop
  | kmalloc {allocPages : AllocPages} {size depth : Nat} {p : Option Nat} {t : State}
      (supplies : Supplies allocPages h.state.held) (le : size ≤ 1048576) (deep : 2 ≤ depth)
      (call : Kmalloc.kmalloc allocPages depth size h.state = some (p, t)) :
      FallibleStep h (.kmalloc size) ⟨t, (p.map fun a => (⟨a, size⟩ : Obj)).toList ++ h.live⟩
  | kfree {o : Obj} {depth ret : Nat} {t : State} (live : o ∈ h.live) (deep : 2 ≤ depth)
      (call : Kmalloc.kfree depth o.address h.state = some (ret, t)) :
      FallibleStep h (.kfree o.address) ⟨t, h.live.erase o⟩

theorem fallibleStep_inv {h t : Heap} {a : Action} (hInv : Inv h.state (objects h))
    (hStep : FallibleStep h a t) : Inv t.state (objects t) := by
  cases hStep with
  | @kmalloc allocPages size depth p u supplies le deep call =>
    obtain ⟨n, rfl⟩ := Nat.exists_eq_add_of_le' deep
    rcases kmalloc_cases hInv (List.Perm.refl _) supplies le n with
      ⟨-, hCall⟩ | ⟨-, hCall | ⟨b, v, objs', hCall, hNext, hPerm⟩⟩
    · cases call.symm.trans hCall
    · obtain ⟨rfl, rfl⟩ := Prod.mk.inj (Option.some.inj (call.symm.trans hCall))
      exact hInv
    · obtain ⟨rfl, rfl⟩ := Prod.mk.inj (Option.some.inj (call.symm.trans hCall))
      exact hNext.perm hPerm
  | kfree live deep call => exact step_inv hInv (.kfree live deep call)

theorem reach_fallible {h : Heap} (hReach : Reach Initial FallibleStep h) :
    Inv h.state (objects h) :=
  Reach.invariant (P := fun h => Inv h.state (objects h)) (fun _ hInit => hInit.inv)
    (fun _ _ _ hInv hStep => fallibleStep_inv hInv hStep) hReach

/-- Wherever the pages run out, a call fails cleanly exactly if header and bitmap are to be had. -/
theorem kmalloc_clean_iff (h : Heap) (hReach : Reach Initial FallibleStep h)
    (allocPages : AllocPages) (hSupply : Supplies allocPages h.state.held) (size : Nat)
    (hLe : size ≤ 1048576) (depth : Nat) (hDeep : 2 ≤ depth) :
    FailsCleanly h.state (kmalloc allocPages depth size h.state) ↔
      MetadataLeft allocPages h.state size := by
  obtain ⟨n, rfl⟩ := Nat.exists_eq_add_of_le' hDeep
  rcases kmalloc_cases (reach_fallible hReach) (List.Perm.refl _) hSupply hLe n with
    ⟨hNot, hCall⟩ | ⟨hLeft, hCall | ⟨a, t, _, hCall, -⟩⟩
  · rw [hCall]
    refine iff_of_false ?_ hNot
    rintro ⟨p, t, hSome, -⟩
    cases hSome
  · exact iff_of_true ⟨none, _, hCall, fun _ => rfl⟩ hLeft
  · exact iff_of_true ⟨some a, t, hCall, fun hNone => absurd hNone (Option.some_ne_none a)⟩ hLeft

/-! ## Running out -/

def noPages : AllocPages := fun _ => none

theorem noPages_supplies (held : List Nat) : Supplies noPages held := by
  rintro p pages ⟨hPage, -⟩
  cases hPage

def onePage (held : List Nat) : AllocPages := fun now =>
  if now = held then some (held.sum + 1) else none

theorem onePage_supplies (held : List Nat) : Supplies (onePage held) held := by
  rintro p pages ⟨hPage, -⟩
  obtain ⟨hNow, hEq⟩ := Option.ite_none_right_eq_some.mp hPage
  obtain rfl : held.sum + 1 = p := Option.some.inj hEq
  rw [hNow]
  intro hMem
  have hLe := List.le_sum_of_mem hMem
  omega

theorem onePage_next (held : List Nat) (p : Nat) : onePage held (p :: held) = none := by
  refine if_neg fun hEq => ?_
  have hLength := congrArg List.length hEq
  rw [List.length_cons] at hLength
  omega

theorem ClassInv.totalFree_nonneg {k : Nat} {c : SlabCache} (h : ClassInv k c) :
    0 ≤ c.totalFree := by
  rw [h.totalFree]
  apply List.sum_nonneg
  intro n hn
  obtain ⟨sl, hsl, rfl⟩ := List.mem_map.mp hn
  exact h.free_nonneg hsl

theorem index_kmallocSize : ∀ k < 16, index (kmallocSize k) = some k := by decide +kernel

theorem kmallocSize_le : ∀ k < 16, kmallocSize k ≤ 1048576 := by decide +kernel

/-- A size with free objects gives one of them, whatever `alloc_pages` would do. -/
theorem kmalloc_one {s : State} {objs : List Obj} (h : Inv s objs) {size k : Nat}
    (hIndex : index size = some k) (hLe : size ≤ 1048576) (hSome : (s.caches k).totalFree ≠ 0)
    (allocPages : AllocPages) :
    ∃ a t, kmalloc allocPages 2 size s = some (some a, t) ∧
      (t.caches k).totalFree = (s.caches k).totalFree - 1 ∧
      (∀ q, q ≠ k → t.caches q = s.caches q) ∧ t.held = s.held := by
  obtain ⟨a, pos, sl, j, -, hCall, -⟩ := kmalloc_search h hIndex hLe hSome 1
  refine ⟨a, _, hCall, ?_, fun q hq => setCache_other _ _ hq, rfl⟩
  rw [setCache_self]
  rfl

/-- Its objects can all be taken, one by one and without a page. -/
theorem exhaust {k : Nat} (hk : k < 16) (n : Nat) {h : Heap}
    (hReach : Reach Initial FallibleStep h) (hFree : (h.state.caches k).totalFree = n) :
    ∃ t, Reach Initial FallibleStep t ∧ (t.state.caches k).totalFree = 0 ∧
      ∀ q, q ≠ k → t.state.caches q = h.state.caches q := by
  induction n generalizing h with
  | zero => exact ⟨h, hReach, hFree, fun _ _ => rfl⟩
  | succ n ih =>
    have hSome : (h.state.caches k).totalFree ≠ 0 := by omega
    obtain ⟨a, u, hCall, hLess, hSame, -⟩ :=
      kmalloc_one (reach_fallible hReach) (index_kmallocSize k hk) (kmallocSize_le k hk) hSome noPages
    have hNext := hReach.next
      (.kmalloc (noPages_supplies _) (kmallocSize_le k hk) (le_refl 2) hCall)
    have hFreeU : (u.caches k).totalFree = n := by omega
    obtain ⟨t, hReachT, hZero, hOthers⟩ := ih hNext hFreeU
    exact ⟨t, hReachT, hZero, fun q hq => (hOthers q hq).trans (hSame q hq)⟩

theorem exhausted {k : Nat} (hk : k < 16) {h : Heap} (hReach : Reach Initial FallibleStep h) :
    ∃ t, Reach Initial FallibleStep t ∧ (t.state.caches k).totalFree = 0 ∧
      ∀ q, q ≠ k → t.state.caches q = h.state.caches q :=
  exhaust hk _ hReach (Int.toNat_of_nonneg
    ((reach_fallible hReach).classes k hk).totalFree_nonneg).symm

/-- 1MB when no object of 1MB and none of 128 bytes is free, and one page is left: it becomes the
page of the slab, and the header is a null pointer. -/
theorem header_missing : ∃ h allocPages, Reach Initial FallibleStep h ∧
    Supplies allocPages h.state.held ∧
    ¬ FailsCleanly h.state (kmalloc allocPages 2 1048576 h.state) := by
  obtain ⟨h₁, hReach₁, hLarge, -⟩ := exhausted (k := 15) (by decide) (.start bootHeap_initial)
  obtain ⟨h, hReach, hHeader, hOthers⟩ := exhausted (k := headerIndex) (by decide) hReach₁
  have hFull : (h.state.caches 15).totalFree = 0 := by
    rw [hOthers 15 (by decide)]
    exact hLarge
  have hNot : ¬ MetadataLeft (onePage h.state.held) h.state 1048576 := by
    intro hLeft
    have hPage : onePage h.state.held h.state.held = some (h.state.held.sum + 1) := if_pos rfl
    obtain ⟨m, -, hIndexM⟩ := index_colorLength 15 (by decide) (by decide)
    obtain ⟨held, hHeld, -⟩ := hLeft 15 (by decide +kernel) (by decide) hFull _ m hPage hIndexM
    unfold pagesFor at hHeld
    rw [hHeader, onePage_next] at hHeld
    cases hHeld
  refine ⟨h, _, hReach, onePage_supplies _, ?_⟩
  rcases kmalloc_cases (reach_fallible hReach) (List.Perm.refl _) (onePage_supplies h.state.held)
    (le_refl 1048576) 0 with ⟨-, hCall⟩ | ⟨hLeft, -⟩
  · rintro ⟨p, t, hSome, -⟩
    cases hSome.symm.trans hCall
  · exact absurd hLeft hNot

/-- 1MB when all objects of 1MB are out and no page is left: `NULL`, and nothing has changed. -/
theorem kmalloc_clean_iff_boot : ∃ h, Reach Initial FallibleStep h ∧
    (∃ t, kmalloc noPages 2 1048576 h.state = some (none, t)) ∧
    FailsCleanly h.state (kmalloc noPages 2 1048576 h.state) := by
  obtain ⟨h, hReach, hFull, -⟩ := exhausted (k := 15) (by decide) (.start bootHeap_initial)
  refine ⟨h, hReach, ?_, ?_⟩
  · rw [kmalloc_eq (reach_fallible hReach) (i := 15) (by decide +kernel) (le_refl _), if_neg (not_not.mpr hFull)]
    exact ⟨h.state, rfl⟩
  · apply (kmalloc_clean_iff h hReach noPages (noPages_supplies _) 1048576 (le_refl _) 2 (le_refl 2)).mpr
    intro i _ _ _ p _ hPage
    cases hPage

end KalinoteOS.Memory.Kmalloc
