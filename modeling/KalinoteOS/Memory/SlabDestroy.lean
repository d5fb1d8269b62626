import KalinoteOS.Lib.DoublyLinked
import KalinoteOS.Memory.SlabCache
import Mathlib.Data.Set.Basic

/-! # `slab_destroy`

A slab cache with the links of its slabs in memory, and with what it holds of the storage that
`kmalloc` and `alloc_pages` gave out. A struct that was freed has no links and no members.
-/
namespace KalinoteOS.Memory.Cache
open Lib
set_option autoImplicit false

/-- What `kfree` and `free_pages` are called with. -/
inductive Object where
  | kobject (address : Nat)
  | page (page : Nat)
  deriving DecidableEq, Repr

/-! ## The links -/

/-- What `slab_malloc` does to the links: a new slab goes in behind the pool, and out again if it
has no object. -/
def slabMallocLinks (c : SlabCache) (g : Grants) (l : Links Nat) : Option (Links Nat) :=
  if c.totalFree = 0 then
    match g.header, g.page, g.colorMap with
    | some header, some page, some colorMap =>
      let tmp := newSlab c.size header page colorMap
      ((l.init header).addBehind c.cachePool header).bind fun l =>
        match tmp.colorMap.scan tmp.colorCount tmp.colorCount 0 with
        | some _ => some l
        | none => (l.del header).map fun l => l.free header
    | _, _, _ => some l
  else some l

/-- What `slab_free` does to the links once it stands at the slab with the address. -/
def freeAtLinks (c : SlabCache) (s : Slab) (address : Nat) (l : Links Nat) : Option (Links Nat) :=
  let s := s.give ((address - s.vaddress) / c.size)
  if s.usingCount = 0 ∧ ((s.colorCount * 3 / 2 : Nat) : Int) ≤ c.totalFree + 1 then
    (l.del s.header).map fun l => l.free s.header
  else some l

def slabFreeLinks (fuel : Nat) (c : SlabCache) (address : Nat) (l : Links Nat) :
    Option (Links Nat) :=
  c.poolPos.bind fun first =>
    (ringLoop c.ring first (ownerVisit address) fuel first).bind fun found =>
      match found with
      | none => some l
      | some (pos, _) => (c.ring[pos]?).bind fun s => freeAtLinks c s address l

/-! ## The walk of `slab_destroy` -/

/-- The `struct Slab` at an address, as long as it is not freed. -/
def slabAt (c : SlabCache) (l : Links Nat) (a : Nat) : Option Slab :=
  if (l a).isSome then c.ring.find? fun s => s.header = a else none

/-- `kfree` of the bitmap, `free_pages`, and `kfree` of the structure. -/
def Slab.objects (s : Slab) : List Object :=
  [.kobject s.colorMapAt, .page s.page, .kobject s.header]

/-- The loop and the slab behind it: what is freed, in this order, and the links left. -/
def destroyLoop (c : SlabCache) : Nat → Nat → Links Nat → Option (List Object × Links Nat)
  | 0, _, _ => none
  | fuel + 1, slabP, l =>
    (l.isEmpty slabP).bind fun empty =>
      if empty then (slabAt c l slabP).map fun s => (Slab.objects s, l.free slabP)
      else
        (l.next slabP).bind fun next => (l.del slabP).bind fun l =>
          (slabAt c l slabP).bind fun s =>
            (destroyLoop c fuel next (l.free slabP)).map fun r => (Slab.objects s ++ r.1, r.2)

/-- `slab_destroy` of the `struct Slab_cache` at `slabCache`. -/
def slabDestroy (fuel slabCache : Nat) (c : SlabCache) (l : Links Nat) :
    Option (Nat × List Object × Links Nat) :=
  if c.totalUsing ≠ 0 then some (0, [], l)
  else (destroyLoop c fuel c.cachePool l).map fun r => (1, r.1 ++ [.kobject slabCache], r.2)

/-! ## Runs -/

/-- A cache and its live objects, the address of its structure, the links, its constructor, and the
storage that others hold. -/
structure World where
  state : State
  slabCache : Nat
  links : Links Nat
  constructor : Option (Nat → Nat → Nat)
  others : Set Object

def heldBy (slabCache : Nat) (c : SlabCache) : List Object :=
  .kobject slabCache :: c.ring.flatMap Slab.objects

/-- What `slab_malloc` returns for the object at `address`. -/
def World.construct (w : World) (arg : Nat) (address : Option Nat) : Option Nat :=
  match w.constructor with
  | some constructor => address.map fun a => constructor a arg
  | none => address

def Grants.objects (g : Grants) : List Object :=
  g.colorMap.toList.map .kobject ++ g.page.toList.map .page ++ g.header.toList.map .kobject

/-- All three calls succeed, with storage that nobody holds. -/
structure Fresh (w : World) (g : Grants) : Prop where
  granted : g.header.isSome ∧ g.page.isSome ∧ g.colorMap.isSome
  nodup : g.objects.Nodup
  unheld : ∀ o ∈ g.objects, o ∉ heldBy w.slabCache w.state.cache
  apart : ∀ o ∈ g.objects, o ∉ w.others

inductive Call where
  | slabMalloc (g : Grants) (arg : Nat) (ret : Option Nat)
  | slabFree (address : Nat)
  | other

inductive WorldStep (w : World) : Call → World → Prop
  | slabMalloc {g : Grants} {arg fuel : Nat} {address : Option Nat} {cache : SlabCache}
      {links : Links Nat} (fresh : Fresh w g)
      (call : slabMalloc fuel w.state.cache g = some (address, cache))
      (linked : slabMallocLinks w.state.cache g w.links = some links) :
      WorldStep w (.slabMalloc g arg (w.construct arg address))
        { w with state := ⟨cache, address.toList ++ w.state.live⟩, links := links }
  | slabFree {address fuel ret : Nat} {cache : SlabCache} {links : Links Nat}
      (live : address ∈ w.state.live)
      (call : slabFree fuel w.state.cache address = some (ret, cache))
      (linked : slabFreeLinks fuel w.state.cache address w.links = some links) :
      WorldStep w (.slabFree address)
        { w with state := ⟨cache, w.state.live.erase address⟩, links := links }
  /-- Other owners get and free storage, and link nodes of their own. -/
  | other {links : Links Nat} {others : Set Object}
      (same : ∀ s ∈ w.state.cache.ring, links s.header = w.links s.header)
      (apart : ∀ o ∈ heldBy w.slabCache w.state.cache, o ∉ others) :
      WorldStep w .other { w with links := links, others := others }

/-- After a successful `slab_create`. -/
def Created (size : Nat) (w : World) : Prop :=
  ∃ (g : Grants) (links : Links Nat), slabCreate size (some w.slabCache) g = some w.state.cache ∧
    w.state.live = [] ∧ (∀ header, g.header = some header → w.links = links.init header) ∧
    (heldBy w.slabCache w.state.cache).Nodup ∧
    ∀ o ∈ heldBy w.slabCache w.state.cache, o ∉ w.others

/-! ## The invariant -/

/-- The objects are bigger than a page: none is ever given out. -/
structure Oversize (s : State) : Prop where
  count : page2M / s.cache.size = 0
  pool : (s.cache.ring.map Slab.header).head? = some s.cache.cachePool
  totalFree : s.cache.totalFree = 0
  totalUsing : s.cache.totalUsing = 0
  live : s.live = []

structure WorldInv (w : World) : Prop where
  state : Inv w.state ∨ Oversize w.state
  links : w.links.Ring (w.state.cache.ring.map Slab.header)
  held : (heldBy w.slabCache w.state.cache).Nodup
  apart : ∀ o ∈ heldBy w.slabCache w.state.cache, o ∉ w.others

section
variable {w : World} {c : SlabCache}

theorem WorldInv.pool (h : WorldInv w) :
    (w.state.cache.ring.map Slab.header).head? = some w.state.cache.cachePool := by
  obtain hInv | hOver := h.state
  · exact hInv.ring.pool
  · exact hOver.pool

theorem WorldInv.totalUsing (h : WorldInv w) :
    w.state.cache.totalUsing = w.state.live.length := by
  obtain hInv | hOver := h.state
  · exact hInv.totalUsing
  · rw [hOver.totalUsing, hOver.live]
    rfl

theorem exists_pool {ring : List Slab} {pool : Nat} (h : (ring.map Slab.header).head? = some pool) :
    ∃ p rest, ring = p :: rest ∧ p.header = pool := by
  cases ring with
  | nil => cases h
  | cons p rest => exact ⟨p, rest, rfl, Option.some.inj h⟩

/-! ## `slab_malloc` -/

theorem map_takeAt {β : Type} (f : Slab → β) (hTake : ∀ s j, f (s.take j) = f s) {pos j : Nat} {s : Slab}
    (hAt : c.ring[pos]? = some s) : (takeAt c pos s j).2.ring.map f = c.ring.map f := by
  obtain ⟨before, after, hRing, rfl⟩ := exists_split hAt
  unfold takeAt
  dsimp only
  rw [hRing, set_split, List.map_append, List.map_append, List.map_cons, List.map_cons, hTake]

theorem map_mallocSearch {β : Type} (f : Slab → β) (hTake : ∀ s j, f (s.take j) = f s) {fuel : Nat}
    {address : Option Nat} {cache : SlabCache} (hCall : mallocSearch fuel c = some (address, cache)) :
    cache.ring.map f = c.ring.map f := by
  obtain ⟨first, -, hRest⟩ := Option.bind_eq_some_iff.mp hCall
  obtain ⟨found, -, hFound⟩ := Option.bind_eq_some_iff.mp hRest
  cases found with
  | none =>
    obtain ⟨-, rfl⟩ := Prod.mk.inj (Option.some.inj hFound)
    rfl
  | some place =>
    obtain ⟨s, hAt, hTaken⟩ := Option.map_eq_some_iff.mp hFound
    have hCache : (takeAt c place.1 s place.2).2 = cache := congrArg Prod.snd hTaken
    rw [← hCache]
    exact map_takeAt f hTake hAt

theorem heldBy_cons {slabCache : Nat} {p : Slab} {rest : List Slab} (hRing : c.ring = p :: rest) :
    heldBy slabCache c = .kobject slabCache :: (Slab.objects p ++ rest.flatMap Slab.objects) := by
  unfold heldBy
  rw [hRing, List.flatMap_cons]

theorem heldBy_congr (c' : SlabCache) (slabCache : Nat)
    (h : c'.ring.map Slab.objects = c.ring.map Slab.objects) : heldBy slabCache c' = heldBy slabCache c := by
  unfold heldBy
  rw [List.flatMap_def, List.flatMap_def, h]

/-- With every grant made, a call that finds no free object adds the slab of `g`, unless that slab
has no object. -/
theorem mallocNew_cases {p : Slab} {rest : List Slab} (hRing : c.ring = p :: rest)
    (hPool : p.header = c.cachePool) (header page colorMap : Nat) :
    let tmp := newSlab c.size header page colorMap
    (∃ j, tmp.colorMap.scan tmp.colorCount tmp.colorCount 0 = some j ∧
      mallocNew c ⟨some header, some page, some colorMap⟩ =
        some (takeAt { c with ring := p :: tmp :: rest, totalFree := c.totalFree + tmp.colorCount } 1 tmp j)) ∨
    (tmp.colorMap.scan tmp.colorCount tmp.colorCount 0 = none ∧
      mallocNew c ⟨some header, some page, some colorMap⟩ =
        some (none, { c with totalFree := c.totalFree + tmp.colorCount })) := by
  intro tmp
  have hNew : mallocNew c ⟨some header, some page, some colorMap⟩ =
      some (match tmp.colorMap.scan tmp.colorCount tmp.colorCount 0 with
        | some j => takeAt { c with
            ring := c.ring.insertIdx 1 tmp
            totalFree := c.totalFree + tmp.colorCount } 1 tmp j
        | none => (none, { c with totalFree := c.totalFree + tmp.colorCount })) := by
    unfold mallocNew
    dsimp only
    rw [poolPos_of_head hRing hPool]
    rfl
  rw [hNew]
  cases hScan : tmp.colorMap.scan tmp.colorCount tmp.colorCount 0 with
  | some j =>
    left
    refine ⟨j, rfl, ?_⟩
    have hInsert : c.ring.insertIdx 1 tmp = p :: tmp :: rest := by
      rw [hRing]
      rfl
    rw [hInsert]
  | none => exact Or.inr ⟨rfl, rfl⟩

/-- What the slab of `g` costs: its three objects, in front of the others. -/
theorem heldBy_added (c' : SlabCache) (slabCache : Nat) {p tmp : Slab} {rest : List Slab}
    (hRing : c.ring = p :: rest) (hAdded : c'.ring.map Slab.objects = (p :: tmp :: rest).map Slab.objects) :
    (heldBy slabCache c').Perm (Slab.objects tmp ++ heldBy slabCache c) := by
  have hNew : heldBy slabCache c' =
      .kobject slabCache :: (Slab.objects p ++ (Slab.objects tmp ++ rest.flatMap Slab.objects)) := by
    unfold heldBy
    rw [List.flatMap_def, hAdded, ← List.flatMap_def, List.flatMap_cons, List.flatMap_cons]
  rw [hNew, heldBy_cons hRing]
  have hSwap : (Slab.objects p ++ (Slab.objects tmp ++ rest.flatMap Slab.objects)).Perm
      (Slab.objects tmp ++ (Slab.objects p ++ rest.flatMap Slab.objects)) := by
    rw [← List.append_assoc, ← List.append_assoc]
    exact List.perm_append_comm.append_right _
  exact (hSwap.cons _).trans List.perm_middle.symm

theorem mallocLinks_spec {p : Slab} {rest : List Slab} (hRing : c.ring = p :: rest)
    (hPool : p.header = c.cachePool) {l : Links Nat} (hLinks : l.Ring (c.ring.map Slab.header))
    {header : Nat} (hHeader : header ∉ c.ring.map Slab.header) (page colorMap : Nat)
    (hZero : c.totalFree = 0) :
    let tmp := newSlab c.size header page colorMap
    ∃ l', slabMallocLinks c ⟨some header, some page, some colorMap⟩ l = some l' ∧
      ((tmp.colorMap.scan tmp.colorCount tmp.colorCount 0).isSome →
        l'.Ring ((p :: tmp :: rest).map Slab.header)) ∧
      (tmp.colorMap.scan tmp.colorCount tmp.colorCount 0 = none →
        l'.Ring (c.ring.map Slab.header)) := by
  intro tmp
  rw [hRing, List.map_cons] at hLinks hHeader
  obtain ⟨l₁, hAdd, hAdded⟩ := hLinks.insert hHeader
  have hOthers : [p.header] ++ rest.map Slab.header ≠ [] := List.cons_ne_nil _ _
  have hBehind : l₁.Ring ([p.header] ++ header :: rest.map Slab.header) := hAdded
  obtain ⟨l₂, hDel, hDropped⟩ := hBehind.remove hOthers
  have hMalloc : slabMallocLinks c ⟨some header, some page, some colorMap⟩ l =
      match tmp.colorMap.scan tmp.colorCount tmp.colorCount 0 with
      | some _ => some l₁
      | none => some (l₂.free header) := by
    unfold slabMallocLinks
    rw [if_pos hZero]
    dsimp only
    rw [← hPool, hAdd, Option.bind_some, hDel]
    rfl
  rw [hMalloc]
  cases hScan : tmp.colorMap.scan tmp.colorCount tmp.colorCount 0 with
  | some j => exact ⟨l₁, rfl, fun _ => hAdded, fun hNone => by cases hNone⟩
  | none =>
    refine ⟨l₂.free header, rfl, fun hSome => (by cases hSome), fun _ => ?_⟩
    rw [hRing]
    exact hDropped

theorem Fresh.unheld_ring {g : Grants} (h : Fresh w g) : Unheld w.state.cache g := by
  have hIn : ∀ s ∈ w.state.cache.ring, ∀ o ∈ Slab.objects s, o ∈ heldBy w.slabCache w.state.cache :=
    fun s hs o ho => List.mem_cons_of_mem _ (List.mem_flatMap.mpr ⟨s, hs, ho⟩)
  constructor
  · intro header hHeader hMem
    obtain ⟨s, hs, rfl⟩ := List.mem_map.mp hMem
    refine h.unheld (.kobject s.header) ?_ (hIn s hs _ (by simp [Slab.objects]))
    simp [Grants.objects, hHeader]
  · intro page hPage hMem
    obtain ⟨s, hs, rfl⟩ := List.mem_map.mp hMem
    refine h.unheld (.page s.page) ?_ (hIn s hs _ (by simp [Slab.objects]))
    simp [Grants.objects, hPage]

/-- The cache whose objects fit in no page stays as it is. -/
theorem oversize_malloc {s : State} (h : Oversize s) {header page colorMap fuel : Nat} {address : Option Nat}
    {cache : SlabCache}
    (hCall : slabMalloc fuel s.cache ⟨some header, some page, some colorMap⟩ = some (address, cache)) :
    Oversize ⟨cache, address.toList ++ s.live⟩ := by
  obtain ⟨p, rest, hRing, hPool⟩ := exists_pool h.pool
  have hCount : (newSlab s.cache.size header page colorMap).colorCount = 0 := h.count
  unfold slabMalloc at hCall
  rw [if_pos h.totalFree] at hCall
  obtain ⟨j, hScan, -⟩ | ⟨-, hNew⟩ := mallocNew_cases hRing hPool header page colorMap
  · rw [hCount] at hScan
    cases hScan
  · rw [hNew, hCount] at hCall
    obtain ⟨rfl, rfl⟩ := Prod.mk.inj (Option.some.inj hCall)
    refine ⟨h.count, h.pool, ?_, h.totalUsing, h.live⟩
    have hFree := h.totalFree
    dsimp only
    omega

/-- `slab_malloc` reads and writes no freed node, and what it gets the cache holds. -/
theorem slabMalloc_world (h : WorldInv w) {g : Grants} (hFresh : Fresh w g) {fuel : Nat}
    {address : Option Nat} {cache : SlabCache}
    (hCall : slabMalloc fuel w.state.cache g = some (address, cache)) :
    ∃ links, slabMallocLinks w.state.cache g w.links = some links ∧
      WorldInv { w with state := ⟨cache, address.toList ++ w.state.live⟩, links := links } := by
  obtain ⟨p, rest, hRing, hPool⟩ := exists_pool h.pool
  obtain ⟨⟨header, hHeader⟩, ⟨page, hPage⟩, colorMap, hMap⟩ :
      (∃ header, g.header = some header) ∧ (∃ page, g.page = some page) ∧
        ∃ colorMap, g.colorMap = some colorMap :=
    ⟨Option.isSome_iff_exists.mp hFresh.granted.1, Option.isSome_iff_exists.mp hFresh.granted.2.1,
      Option.isSome_iff_exists.mp hFresh.granted.2.2⟩
  have hUnheld := hFresh.unheld_ring
  obtain ⟨gh, gp, gm⟩ := g
  cases hHeader
  cases hPage
  cases hMap
  have hState : Inv ⟨cache, address.toList ++ w.state.live⟩ ∨
      Oversize ⟨cache, address.toList ++ w.state.live⟩ := by
    obtain hInv | hOver := h.state
    · exact Or.inl (slabMalloc_inv hInv hUnheld hCall)
    · exact Or.inr (oversize_malloc hOver hCall)
  by_cases hZero : w.state.cache.totalFree = 0
  · unfold slabMalloc at hCall
    rw [if_pos hZero] at hCall
    obtain ⟨links, hLinked, hSome, hNone⟩ := mallocLinks_spec hRing hPool h.links
      (hUnheld.1 header rfl) page colorMap hZero
    refine ⟨links, hLinked, ?_⟩
    obtain ⟨j, hScan, hNew⟩ | ⟨hScan, hNew⟩ := mallocNew_cases hRing hPool header page colorMap
    · rw [hNew] at hCall
      have hTaken := Option.some.inj hCall
      have hCache : _ = cache := congrArg Prod.snd hTaken
      rw [← hCache] at hState ⊢
      have hPerm := heldBy_added cache w.slabCache hRing
        (hCache ▸ map_takeAt Slab.objects (fun _ _ => rfl) rfl)
      rw [← hCache] at hPerm
      refine ⟨hState, ?_, ?_, ?_⟩
      · dsimp only
        rw [map_takeAt Slab.header (fun _ _ => rfl) rfl]
        exact hSome (by rw [hScan]; rfl)
      · refine hPerm.nodup_iff.mpr (List.nodup_append'.mpr ⟨hFresh.nodup, h.held, ?_⟩)
        intro o ho hOld
        exact hFresh.unheld o ho hOld
      · intro o ho
        obtain hTmp | hOld := List.mem_append.mp (hPerm.mem_iff.mp ho)
        · exact hFresh.apart o hTmp
        · exact h.apart o hOld
    · rw [hNew] at hCall
      obtain ⟨-, rfl⟩ := Prod.mk.inj (Option.some.inj hCall)
      exact ⟨hState, hNone hScan, h.held, h.apart⟩
  · unfold slabMalloc at hCall
    rw [if_neg hZero] at hCall
    refine ⟨w.links, if_neg hZero, hState, ?_, ?_, ?_⟩
    · dsimp only
      rw [map_mallocSearch Slab.header (fun _ _ => rfl) hCall]
      exact h.links
    · dsimp only
      rw [heldBy_congr _ _ (map_mallocSearch Slab.objects (fun _ _ => rfl) hCall)]
      exact h.held
    · dsimp only
      rw [heldBy_congr _ _ (map_mallocSearch Slab.objects (fun _ _ => rfl) hCall)]
      exact h.apart

/-! ## `slab_free` -/

theorem heldBy_removed (c' : SlabCache) (slabCache : Nat) {before after : List Slab} {s : Slab}
    (hRing : c.ring.map Slab.objects = (before ++ s :: after).map Slab.objects)
    (hRemoved : c'.ring = before ++ after) :
    (heldBy slabCache c).Perm (Slab.objects s ++ heldBy slabCache c') := by
  unfold heldBy
  rw [List.flatMap_def, hRing, ← List.flatMap_def, hRemoved]
  have hMiddle : (before ++ s :: after).Perm (s :: (before ++ after)) := List.perm_middle
  exact ((hMiddle.flatMap_right Slab.objects).cons _).trans List.perm_middle.symm

/-- `slab_free` unlinks a slab that is in the ring, and never the pool. -/
theorem slabFree_world (h : WorldInv w) {address fuel ret : Nat} (hLive : address ∈ w.state.live)
    {cache : SlabCache} (hCall : slabFree fuel w.state.cache address = some (ret, cache)) :
    ∃ links, slabFreeLinks fuel w.state.cache address w.links = some links ∧
      WorldInv { w with state := ⟨cache, w.state.live.erase address⟩, links := links } := by
  have hInv : Inv w.state := by
    obtain hInv | hOver := h.state
    · exact hInv
    · rw [hOver.live] at hLive
      cases hLive
  have hState := slabFree_inv hInv hLive hCall
  obtain ⟨first, hFirst, hRest⟩ := Option.bind_eq_some_iff.mp hCall
  obtain ⟨found, hLoop, hFound⟩ := Option.bind_eq_some_iff.mp hRest
  obtain ⟨_, sl, j, hAt, hLt, hUsed, rfl⟩ := hInv.find_live hLive
  obtain ⟨k, hFinds, hAtK⟩ := freeLoop_finds hInv hAt hLt hUsed (Nat.le_max_right fuel _)
  cases hInv.ring.poolPos.symm.trans hFirst
  cases (ringLoop_mono (Nat.le_max_left fuel _) hLoop).symm.trans hFinds
  dsimp only at hFound
  rw [hAtK] at hFound
  obtain ⟨-, rfl⟩ := Prod.mk.inj (Option.some.inj hFound)
  have hLinks : slabFreeLinks fuel w.state.cache (sl.object w.state.cache.size j) w.links =
      freeAtLinks w.state.cache sl (sl.object w.state.cache.size j) w.links := by
    unfold slabFreeLinks
    rw [hInv.ring.poolPos, Option.bind_some, hLoop, Option.bind_some]
    dsimp only
    rw [hAtK, Option.bind_some]
  rw [hLinks]
  obtain ⟨before, after, hRing, rfl⟩ := exists_split hAtK
  have hSet : w.state.cache.ring.set before.length (sl.give j) = before ++ sl.give j :: after := by
    rw [hRing, set_split]
  unfold freeAtLinks
  unfold freeAt at hState ⊢
  rw [object_index sl hInv.size_pos] at hState ⊢
  dsimp only at hState ⊢
  split
  · next hEmpty =>
    have hGiven := given_inv hInv hAtK hLt hUsed
    have hNotPool := (hGiven.empty (List.mem_set (by rw [hRing]; simp) _) hEmpty.1).1
    rw [if_pos hEmpty, hSet, eraseIdx_split] at hState
    rw [hSet, eraseIdx_split]
    have hOthers : before.map Slab.header ++ after.map Slab.header ≠ [] := by
      have hPool := hInv.ring.pool
      rw [hRing] at hPool
      cases before with
      | nil => exact absurd (Option.some.inj hPool) hNotPool
      | cons p before => exact List.cons_ne_nil _ _
    have hOld := h.links
    rw [hRing, List.map_append, List.map_cons] at hOld
    obtain ⟨l', hDel, hDropped⟩ := hOld.remove hOthers
    have hPerm := heldBy_removed { w.state.cache with ring := before ++ after } w.slabCache
      (congrArg (List.map Slab.objects) hRing) rfl
    refine ⟨l'.free sl.header, ?_, Or.inl hState, ?_, ?_, ?_⟩
    · have hHeader : (sl.give j).header = sl.header := rfl
      rw [hHeader, hDel]
      rfl
    · rw [← List.map_append] at hDropped
      exact hDropped
    · exact (List.nodup_append'.mp (hPerm.nodup_iff.mp h.held)).2.1
    · exact fun o ho => h.apart o (hPerm.mem_iff.mpr (List.mem_append_right _ ho))
  · next hKept =>
    rw [if_neg hKept, hSet] at hState
    rw [hSet]
    have hSame : ∀ {β : Type} (f : Slab → β), f (sl.give j) = f sl →
        (before ++ sl.give j :: after).map f = w.state.cache.ring.map f := by
      intro β f hf
      rw [hRing, List.map_append, List.map_append, List.map_cons, List.map_cons, hf]
    have hHeld := heldBy_congr { w.state.cache with ring := before ++ sl.give j :: after }
      w.slabCache (hSame Slab.objects rfl)
    refine ⟨w.links, rfl, Or.inl hState, ?_, ?_, ?_⟩
    · dsimp only
      rw [hSame Slab.header rfl]
      exact h.links
    · exact hHeld.symm ▸ h.held
    · exact fun o ho => h.apart o (hHeld ▸ ho)

/-! ## Whole runs -/

theorem newSlab_oversize {size : Nat} (hSize : ¬ (0 < size ∧ size ≤ page2M)) :
    page2M / sizeofLongAlign size = 0 := by
  rw [Nat.div_eq_zero_iff]
  unfold sizeofLongAlign page2M at *
  omega

theorem Created.inv {size : Nat} (h : Created size w) : WorldInv w := by
  obtain ⟨g, links, hCreate, hLive, hLinks, hHeld, hApart⟩ := h
  have hSlab := hCreate
  unfold slabCreate at hSlab
  split at hSlab
  · next header page colorMap _ hHeader _ _ =>
    have hCache := Option.some.inj hSlab
    have hRing : w.state.cache.ring.map Slab.header = [header] := by
      rw [← hCache]
      rfl
    refine ⟨?_, ?_, hHeld, hApart⟩
    · by_cases hSize : 0 < size ∧ size ≤ page2M
      · exact Or.inl (Initial.inv hSize.1 hSize.2 ⟨_, g, hCreate, hLive⟩)
      · right
        have hCount := newSlab_oversize hSize
        refine ⟨?_, ?_, ?_, ?_, hLive⟩
        · rw [← hCache]
          exact hCount
        · rw [hRing, ← hCache]
          rfl
        · rw [← hCache]
          exact congrArg Int.ofNat hCount
        · rw [← hCache]
    · rw [hRing, hLinks header hHeader]
      exact Links.ring_init links header
  · cases hSlab

theorem worldStep_inv {w' : World} {a : Call} (h : WorldInv w) (hStep : WorldStep w a w') :
    WorldInv w' := by
  cases hStep with
  | slabMalloc fresh call linked =>
    obtain ⟨links, hLinked, hNext⟩ := slabMalloc_world h fresh call
    cases linked.symm.trans hLinked
    exact hNext
  | slabFree live call linked =>
    obtain ⟨links, hLinked, hNext⟩ := slabFree_world h live call
    cases linked.symm.trans hLinked
    exact hNext
  | other same apart =>
    refine ⟨h.state, h.links.congr fun x hx => ?_, h.held, apart⟩
    obtain ⟨s, hs, rfl⟩ := List.mem_map.mp hx
    exact same s hs

/-! ## `slab_destroy` -/

theorem find_header {ring : List Slab} (h : (ring.map Slab.header).Nodup) {s : Slab} (hs : s ∈ ring) :
    ring.find? (fun t => t.header = s.header) = some s := by
  induction ring with
  | nil => cases hs
  | cons t ring ih =>
    rw [List.map_cons, List.nodup_cons] at h
    obtain rfl | hs := List.mem_cons.mp hs
    · exact List.find?_cons_of_pos (decide_eq_true rfl)
    · have hNe : ¬ t.header = s.header := fun hEq => h.1 (hEq ▸ List.mem_map_of_mem hs)
      rw [List.find?_cons_of_neg (by simpa using hNe)]
      exact ih h.2 hs

/-- The walk frees the slabs of the ring in order, and the pages and bitmaps with them. -/
theorem destroyLoop_spec {s : Slab} {rest : List Slab} {l : Links Nat}
    (hRing : l.Ring ((s :: rest).map Slab.header))
    (hFind : ∀ t ∈ s :: rest, c.ring.find? (fun u => u.header = t.header) = some t) :
    ∃ l', (∀ fuel, rest.length < fuel →
        destroyLoop c fuel s.header l = some ((s :: rest).flatMap Slab.objects, l')) ∧
      (∀ x ∈ (s :: rest).map Slab.header, l' x = none) ∧
      ∀ x, x ∉ (s :: rest).map Slab.header → l' x = l x := by
  induction rest generalizing s l with
  | nil =>
    have hEmpty := Links.isEmpty_spec hRing
    obtain ⟨n, hn, -, -⟩ := Links.Ring.ends hRing
    have hSlab : slabAt c l s.header = some s := by
      unfold slabAt
      rw [hn]
      exact hFind s List.mem_cons_self
    refine ⟨l.free s.header, fun fuel hFuel => ?_, ?_, ?_⟩
    · obtain ⟨fuel, rfl⟩ := Nat.exists_eq_add_one.mpr hFuel
      rw [destroyLoop, hEmpty, Option.bind_some, hSlab]
      rfl
    · intro x hx
      cases List.mem_singleton.mp hx
      exact Function.update_self _ _ _
    · intro x hx
      have hNe : x ≠ s.header := by simpa using hx
      simp [Links.free, hNe]
  | cons t rest ih =>
    have hEmpty := Links.isEmpty_spec hRing
    obtain ⟨n, hn, hNext, -⟩ := Links.Ring.ends hRing
    obtain ⟨l₁, hDel, hRest, hFrame⟩ := Links.del_spec hRing (List.cons_ne_nil _ _)
    have hNotIn : s.header ∉ (t :: rest).map Slab.header := (List.nodup_cons.mp hRing.nodup).1
    obtain ⟨n₁, hn₁⟩ := hFrame.some hn
    have hSlab : slabAt c l₁ s.header = some s := by
      unfold slabAt
      rw [hn₁]
      exact hFind s List.mem_cons_self
    have hFreed : (l₁.free s.header).Ring ((t :: rest).map Slab.header) := by
      refine hRest.congr fun x hx => ?_
      have hNe : x ≠ s.header := by
        rintro rfl
        exact hNotIn hx
      simp [Links.free, hNe]
    obtain ⟨l', hLoop, hGone, hSame⟩ := ih hFreed
      (fun u hu => hFind u (List.mem_cons_of_mem _ hu))
    refine ⟨l', fun fuel hFuel => ?_, ?_, ?_⟩
    · obtain ⟨fuel, rfl⟩ := Nat.exists_eq_add_one.mpr (Nat.zero_lt_of_lt hFuel)
      have hStep : l.next s.header = some t.header := (congrArg (Option.map _) hn).trans hNext.symm
      rw [destroyLoop, hEmpty, Option.bind_some, if_neg (by simp), hStep, Option.bind_some, hDel,
        Option.bind_some, hSlab, Option.bind_some, hLoop fuel (Nat.lt_of_succ_lt_succ hFuel)]
      rfl
    · intro x hx
      obtain rfl | hx := List.mem_cons.mp hx
      · rw [hSame s.header hNotIn]
        exact Function.update_self _ _ _
      · exact hGone x hx
    · intro x hx
      rw [List.map_cons, List.mem_cons, not_or] at hx
      rw [hSame x hx.2]
      refine Eq.trans ?_ (hFrame.same x hx.2)
      simp [Links.free, hx.1]

theorem WorldInv.destroy (h : WorldInv w) (hLive : w.state.live = []) :
    ∃ released links, (∀ fuel, w.state.cache.ring.length ≤ fuel →
        slabDestroy fuel w.slabCache w.state.cache w.links = some (1, released, links)) ∧
      released.Perm (heldBy w.slabCache w.state.cache) ∧
      (∀ s ∈ w.state.cache.ring, links s.header = none) ∧
      ∀ x, x ∉ w.state.cache.ring.map Slab.header → links x = w.links x := by
  obtain ⟨p, rest, hRing, hPool⟩ := exists_pool h.pool
  have hUsing : w.state.cache.totalUsing = 0 := by
    rw [h.totalUsing, hLive]
    rfl
  have hLinks := h.links
  rw [hRing] at hLinks
  have hFind : ∀ t ∈ p :: rest, w.state.cache.ring.find? (fun u => u.header = t.header) = some t := by
    intro t ht
    rw [hRing]
    exact find_header hLinks.nodup ht
  obtain ⟨links, hLoop, hGone, hSame⟩ := destroyLoop_spec hLinks hFind
  refine ⟨(p :: rest).flatMap Slab.objects ++ [.kobject w.slabCache], links, ?_, ?_, ?_, ?_⟩
  · intro fuel hFuel
    rw [hRing] at hFuel
    unfold slabDestroy
    rw [if_neg (not_not.mpr hUsing), ← hPool, hLoop fuel hFuel]
    rfl
  · unfold heldBy
    rw [hRing]
    exact List.perm_append_singleton _ _
  · intro s hs
    rw [hRing] at hs
    exact hGone _ (List.mem_map_of_mem hs)
  · rw [hRing]
    exact hSame

end

/-- What `slab_destroy` does in a reachable world. -/
structure Destroys (w : World) : Prop where
  refused : w.state.live ≠ [] →
    ∀ fuel, slabDestroy fuel w.slabCache w.state.cache w.links = some (0, [], w.links)
  released : w.state.live = [] → ∃ released links,
    (∀ fuel, w.state.cache.ring.length ≤ fuel →
      slabDestroy fuel w.slabCache w.state.cache w.links = some (1, released, links)) ∧
    released.Perm (heldBy w.slabCache w.state.cache) ∧ released.Nodup ∧
    (∀ o ∈ released, o ∉ w.others) ∧
    ∀ x, x ∉ w.state.cache.ring.map Slab.header → links x = w.links x

/-- `slab_destroy` refuses as long as an object is live, and otherwise frees exactly what the cache
holds, once. -/
theorem slabDestroy_once (size : Nat) (w : World) (h : Reach (Created size) WorldStep w) :
    Destroys w := by
  have hInv : WorldInv w := Reach.invariant (P := WorldInv) (fun _ hw => hw.inv)
    (fun _ _ _ hw hStep => worldStep_inv hw hStep) h
  constructor
  · intro hLive fuel
    refine if_pos ?_
    rw [hInv.totalUsing]
    have hPos := List.length_pos_iff.mpr hLive
    omega
  · intro hLive
    obtain ⟨released, links, hCall, hPerm, -, hSame⟩ := hInv.destroy hLive
    exact ⟨released, links, hCall, hPerm, hPerm.nodup_iff.mpr hInv.held,
      fun o ho => hInv.apart o (hPerm.mem_iff.mp ho), hSame⟩

/-! ## A run -/

/-- The cache at 0, its links, and nothing that others hold. -/
def alone (p : State × Links Nat) : World := ⟨p.1, 0, p.2, none, ∅⟩

def nextAlone (p : State × Links Nat) : Call → Option (State × Links Nat)
  | .slabMalloc g _ ret =>
    if (g.header.isSome ∧ g.page.isSome ∧ g.colorMap.isSome) ∧ g.objects.Nodup ∧
        ∀ o ∈ g.objects, o ∉ heldBy 0 p.1.cache then
      (slabMalloc p.1.cache.ring.length p.1.cache g).bind fun r =>
        if r.1 = ret then
          (slabMallocLinks p.1.cache g p.2).map fun links => (⟨r.2, ret.toList ++ p.1.live⟩, links)
        else none
    else none
  | .slabFree address =>
    if address ∈ p.1.live then
      (slabFree p.1.cache.ring.length p.1.cache address).bind fun r =>
        (slabFreeLinks p.1.cache.ring.length p.1.cache address p.2).map fun links =>
          (⟨r.2, p.1.live.erase address⟩, links)
    else none
  | .other => none

theorem step_of_nextAlone {p q : State × Links Nat} {call : Call} (h : nextAlone p call = some q) :
    WorldStep (alone p) call (alone q) := by
  cases call with
  | slabMalloc g arg ret =>
    obtain ⟨⟨hGranted, hNodup, hUnheld⟩, hRest⟩ := Option.ite_none_right_eq_some.mp h
    obtain ⟨⟨address, cache⟩, hCall, hRet⟩ := Option.bind_eq_some_iff.mp hRest
    obtain ⟨rfl, hMap⟩ := Option.ite_none_right_eq_some.mp hRet
    obtain ⟨links, hLinks, rfl⟩ := Option.map_eq_some_iff.mp hMap
    have hFresh : Fresh (alone p) g := ⟨hGranted, hNodup, hUnheld, fun _ _ => Set.notMem_empty _⟩
    exact .slabMalloc hFresh hCall hLinks
  | slabFree address =>
    obtain ⟨hLive, hRest⟩ := Option.ite_none_right_eq_some.mp h
    obtain ⟨⟨ret, cache⟩, hCall, hMap⟩ := Option.bind_eq_some_iff.mp hRest
    obtain ⟨links, hLinks, rfl⟩ := Option.map_eq_some_iff.mp hMap
    exact .slabFree (w := alone p) hLive hCall hLinks
  | other => cases h

theorem reach_alone {size : Nat} {p q : State × Links Nat} {calls : List Call}
    (hReach : Reach (Created size) WorldStep (alone p)) (h : runList nextAlone p calls = some q) :
    Reach (Created size) WorldStep (alone q) := by
  induction calls generalizing p with
  | nil =>
    cases h
    exact hReach
  | cons call calls ih =>
    obtain ⟨r, hNext, hRest⟩ := Option.bind_eq_some_iff.mp h
    exact ih (hReach.next (step_of_nextAlone hNext)) hRest

def firstLinks : Links Nat := Links.init (fun _ => none) 64

theorem firstCache_created : Created 1048576 (alone (firstCache, firstLinks)) := by
  refine ⟨grants 0, fun _ => none, rfl, rfl, ?_, by decide, fun _ _ => Set.notMem_empty _⟩
  rintro _ ⟨rfl⟩
  rfl

/-- Three objects of 1MB, in two slabs, that are freed again. -/
def outAndBack : List Call :=
  [.slabMalloc (grants 1) 0 (some (pageAddress 7)), .slabMalloc (grants 1) 0 (some (pageAddress 7 + 1048576)),
    .slabMalloc (grants 1) 0 (some (pageAddress 8)), .slabFree (pageAddress 8), .slabFree (pageAddress 7),
    .slabFree (pageAddress 7 + 1048576)]

/-- The pool, a second slab and the cache are freed: seven objects. -/
theorem slabDestroy_once_twoSlabs : ∃ w : World, Reach (Created 1048576) WorldStep w ∧ w.state.live = [] ∧
    (heldBy w.slabCache w.state.cache).length = 7 ∧ Destroys w := by
  have hSome : (runList nextAlone (firstCache, firstLinks) outAndBack).map (fun p =>
      (p.1.live, (heldBy 0 p.1.cache).length)) = some ([], 7) := by
    decide +kernel
  obtain ⟨p, hp, hEnd⟩ := Option.map_eq_some_iff.mp hSome
  obtain ⟨hLive, hHeld⟩ := Prod.mk.inj hEnd
  have hReach := reach_alone (.start firstCache_created) hp
  exact ⟨alone p, hReach, hLive, hHeld, slabDestroy_once 1048576 (alone p) hReach⟩

end KalinoteOS.Memory.Cache
