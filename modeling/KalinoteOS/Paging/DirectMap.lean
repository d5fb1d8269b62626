import KalinoteOS.Paging.PagetableInit

/-! # The direct map

What `pagetable_init` finds in a table that it hands out stays there, but for the slots that the pages overwrite.
The run does the same as one that finds zeros in those.
-/
namespace KalinoteOS.Paging
open Lib PageWalk
set_option autoImplicit false

/-! ## The order of the tables -/

/-- The paths that the loop follows. -/
def wayList (pages : List Word) : List (List Slot) :=
  pages.flatMap fun p => [[kernelSlot], [kernelSlot, pdptSlot p]]

/-- The paths that tables are handed out for, in this order. -/
def newWays (root : Nat) (pages : List Word) (m : PhysMem) : List (List Slot) :=
  ((wayList pages).filter fun path => tableAt m path root = none).eraseDups

/-- A page gets its entry in the slot, in the `j`-th of these tables. -/
def Overwritten (root : Nat) (pages : List Word) (m : PhysMem) (j : Nat) (i : Slot) : Prop :=
  ∃ p ∈ pages, (newWays root pages m)[j]? = some [kernelSlot, pdptSlot p] ∧ i = pdtSlot p

instance (root : Nat) (pages : List Word) (m : PhysMem) (j : Nat) (i : Slot) :
    Decidable (Overwritten root pages m j i) := inferInstanceAs (Decidable (∃ p ∈ pages, _))

/-- The memory with zero where a page will overwrite what is in a table that is handed out. -/
def withoutOverwritten (tables : Nat → Word) (root : Nat) (pages : List Word) (m : PhysMem) : PhysMem :=
  fun f i =>
  if ∃ j < missing root pages m, f = frame (tables j) ∧ Overwritten root pages m j i then 0 else m f i

section
variable {tables : Nat → Word} {count root k : Nat} {pages todo : List Word} {m m' : PhysMem}

theorem mem_newWays {path : List Slot} :
    path ∈ newWays root pages m ↔ path ∈ ways pages ∧ tableAt m path root = none := by
  unfold newWays
  rw [List.mem_eraseDups, List.mem_filter, decide_eq_true_iff]
  exact and_congr_left fun _ => List.mem_toFinset.symm

theorem nodup_eraseDups {α : Type} [BEq α] [LawfulBEq α] (l : List α) : l.eraseDups.Nodup := by
  induction hLength : l.length using Nat.strong_induction_on generalizing l with
  | h n ih =>
    cases l with
    | nil => exact List.nodup_nil
    | cons a as =>
      rw [List.eraseDups_cons, List.nodup_cons, List.mem_eraseDups]
      have hShort : (as.filter fun b => !b == a).length < n := by
        rw [← hLength]
        exact Nat.lt_succ_of_le (List.length_filter_le _ _)
      exact ⟨by simp, ih _ hShort _ rfl⟩

theorem length_newWays (root : Nat) (pages : List Word) (m : PhysMem) :
    (newWays root pages m).length = missing root pages m := by
  have hNodup : (newWays root pages m).Nodup := nodup_eraseDups _
  rw [← List.toFinset_card_of_nodup hNodup]
  unfold missing
  congr 1
  ext path
  rw [List.mem_toFinset, mem_newWays, Finset.mem_filter]

theorem missing_mono (h : ∀ p ∈ todo, p ∈ pages) : missing root todo m ≤ missing root pages m := by
  refine Finset.card_le_card (Finset.filter_subset_filter _ fun path hPath => ?_)
  obtain ⟨p, hp, hEq⟩ := mem_ways.mp hPath
  exact mem_ways.mpr ⟨p, h p hp, hEq⟩

/-- Handing out the first of the tables leaves the others. -/
theorem newWays_link {path : List Slot} {rest : List (List Slot)}
    (hFirst : ((wayList pages).filter fun q => tableAt m q root = none) = path :: rest)
    (hNew : tableAt m' path root ≠ none)
    (hOthers : ∀ q ∈ ways pages, q ≠ path → tableAt m' q root = tableAt m q root) :
    newWays root pages m = path :: newWays root pages m' := by
  have hFilter : ((wayList pages).filter fun q => tableAt m' q root = none) = rest.filter fun q =>
    !q == path := by
    have hBoth : ((wayList pages).filter fun q => tableAt m' q root = none) =
        ((wayList pages).filter fun q => tableAt m q root = none).filter fun q => !q == path := by
      rw [List.filter_filter]
      refine List.filter_congr fun q hq => ?_
      by_cases hEq : q = path
      · subst hEq
        simp [hNew]
      · simp [hEq, hOthers q (List.mem_toFinset.mpr hq) hEq]
    rw [hBoth, hFirst]
    simp
  unfold newWays
  rw [hFirst, List.eraseDups_cons, hFilter]

theorem newWays_congr (h : ∀ q ∈ ways pages, tableAt m' q root = tableAt m q root) :
    newWays root pages m' = newWays root pages m := by
  unfold newWays
  refine congrArg List.eraseDups (List.filter_congr fun q hq => ?_)
  rw [h q (List.mem_toFinset.mpr hq)]

/-- The first table that is missing for a page. -/
theorem first_way {p : Word} (h : tableAt m [kernelSlot] root = none) :
    ∃ rest, ((wayList (p :: todo)).filter fun q => tableAt m q root = none) = [kernelSlot] :: rest := by
  unfold wayList
  rw [List.flatMap_cons]
  exact ⟨_, List.filter_cons_of_pos (by simp [h])⟩

theorem first_way_pdt {p : Word} (hKernel : tableAt m [kernelSlot] root ≠ none)
    (h : tableAt m [kernelSlot, pdptSlot p] root = none) :
    ∃ rest, ((wayList (p :: todo)).filter fun q => tableAt m q root = none) = [kernelSlot, pdptSlot p] ::
      rest := by
  unfold wayList
  rw [List.flatMap_cons]
  exact ⟨_, (List.filter_cons_of_neg (by simp [hKernel])).trans (List.filter_cons_of_pos (by simp [h]))⟩

/-- A page with both tables needs no other. -/
theorem newWays_done {p : Word} (hKernel : tableAt m [kernelSlot] root ≠ none)
    (hPdt : tableAt m [kernelSlot, pdptSlot p] root ≠ none) :
    newWays root (p :: todo) m = newWays root todo m := by
  unfold newWays wayList
  rw [List.flatMap_cons, List.filter_append]
  simp [hKernel, hPdt]

/-! ## What will be overwritten -/

/-- The table for the entry of `p`: the one that is there, or the one that will be handed out. -/
def Target (tables : Nat → Word) (root : Nat) (todo : List Word) (m : PhysMem) (k : Nat) (p : Word) (f : Nat) :
    Prop :=
  tableAt m [kernelSlot, pdptSlot p] root = some f ∨
    ∃ j, (newWays root todo m)[j]? = some [kernelSlot, pdptSlot p] ∧ f = frame (tables (k + j))

/-- The entries of the pages that are still to come. -/
def Pending (tables : Nat → Word) (root : Nat) (todo : List Word) (s : State) (f : Nat) (i : Slot) : Prop :=
  ∃ p ∈ todo, i = pdtSlot p ∧ Target tables root todo s.memory s.calls p f

theorem pdt_mem_ways {p : Word} (hp : p ∈ pages) : [kernelSlot, pdptSlot p] ∈ ways pages :=
  mem_ways.mpr ⟨p, hp, Or.inr rfl⟩

theorem ways_mono (h : ∀ p ∈ todo, p ∈ pages) {path : List Slot} (hPath : path ∈ ways todo) :
    path ∈ ways pages := by
  obtain ⟨p, hp, hEq⟩ := mem_ways.mp hPath
  exact mem_ways.mpr ⟨p, h p hp, hEq⟩

/-- The loop reads no entry that it will overwrite. -/
theorem Ready.not_target (hReady : Ready tables count root pages m k) (hTodo : ∀ p ∈ todo, p ∈ pages)
    {path : List Slot} (hShort : path.length ≤ 1) {g : Nat} (hg : tableAt m path root = some g) {p : Word}
    (hp : p ∈ todo) : ¬Target tables root todo m k p g := by
  rintro (hThere | ⟨j, hNext, rfl⟩)
  · have hPath := hReady.ownPdt p (hTodo p hp) g hThere path (Nat.le_trans hShort (by decide)) hg
    rw [hPath] at hShort
    exact absurd hShort (by simp)
  · have hLt : j < missing root todo m := by
      rw [← length_newWays]
      exact (List.getElem?_eq_some_iff.mp hNext).1
    have hMore : missing root todo m ≤ missing root pages m := missing_mono hTodo
    have hEnough := hReady.enough
    exact hReady.unused (k + j) (Nat.le_add_right k j) (by omega) path (Nat.le_trans hShort (by decide)) hg

/-- A table that is handed out is the one that was meant for its pages. -/
theorem Supplied.pending {path : List Slot} {s t : State} (h : Supplied tables root pages path s t)
    (hTodo : ∀ p ∈ todo, p ∈ pages)
    (hFirst : tableAt s.memory path root = none →
      ∃ rest, ((wayList todo).filter fun q => tableAt s.memory q root = none) = path :: rest)
    {f : Nat} {i : Slot} (hPending : Pending tables root todo s f i) : Pending tables root todo t f i := by
  obtain rfl | ⟨hNone, hCalls, hNew, hOthers⟩ := h.step
  · exact hPending
  obtain ⟨rest, hRest⟩ := hFirst hNone
  have hOrder := newWays_link hRest h.there fun q hq => hOthers q (ways_mono hTodo hq)
  obtain ⟨p, hp, rfl, hTarget⟩ := hPending
  refine ⟨p, hp, rfl, ?_⟩
  obtain hThere | ⟨j, hNext, rfl⟩ := hTarget
  · have hNe : [kernelSlot, pdptSlot p] ≠ path := by
      intro hEq
      rw [hEq, hNone] at hThere
      cases hThere
    exact Or.inl ((hOthers _ (pdt_mem_ways (hTodo p hp)) hNe).trans hThere)
  · rw [hOrder] at hNext
    cases j with
    | zero =>
      obtain rfl := Option.some.inj hNext
      exact Or.inl hNew
    | succ j =>
      refine Or.inr ⟨j, hNext, ?_⟩
      rw [hCalls, Nat.add_right_comm]
      rfl

/-- An entry that is still pending when that of `p` is written is one of another page. -/
theorem pending_rest {s : State} {p : Word} {g : Nat} {m' : PhysMem}
    (hKernel : tableAt s.memory [kernelSlot] root ≠ none)
    (hTable : tableAt s.memory [kernelSlot, pdptSlot p] root = some g)
    (hSame : ∀ q ∈ ways todo, tableAt m' q root = tableAt s.memory q root) {f : Nat} {i : Slot}
    (hPending : Pending tables root (p :: todo) s f i) (hOther : ¬(f = g ∧ i = pdtSlot p)) :
    Pending tables root todo { s with memory := m' } f i := by
  have hPdt : tableAt s.memory [kernelSlot, pdptSlot p] root ≠ none := by
    rw [hTable]
    exact Option.some_ne_none _
  obtain ⟨q, hq, rfl, hTarget⟩ := hPending
  unfold Target at hTarget
  rw [newWays_done hKernel hPdt] at hTarget
  obtain rfl | hq := List.mem_cons.mp hq
  · obtain hThere | ⟨j, hNext, -⟩ := hTarget
    · exact absurd ⟨Option.some.inj (hThere.symm.trans hTable), rfl⟩ hOther
    · exact absurd (mem_newWays.mp (List.mem_of_getElem? hNext)).2 hPdt
  · refine ⟨q, hq, rfl, ?_⟩
    unfold Target
    dsimp only
    rw [newWays_congr hSame, hSame _ (pdt_mem_ways hq)]
    exact hTarget

end

/-! ## Two runs -/

/-- The states are the same, but for the entries in `D`. -/
structure Alike (D : Nat → Slot → Prop) (s t : State) : Prop where
  calls : s.calls = t.calls
  memory : ∀ f i, ¬D f i → s.memory f i = t.memory f i

section
variable {tables : Nat → Word} {D D' : Nat → Slot → Prop} {s t : State}

theorem Alike.mono (h : Alike D s t) (hD : ∀ f i, D f i → D' f i) : Alike D' s t :=
  ⟨h.calls, fun f i hNot => h.memory f i fun hIn => hNot (hD f i hIn)⟩

/-- An entry that is written is the same afterwards. -/
theorem Alike.store (h : Alike D s t) (g : Nat) (l : Slot) (e : Word) :
    Alike (fun f i => D f i ∧ ¬(f = g ∧ i = l)) { s with memory := s.memory.store g l e }
      { t with memory := t.memory.store g l e } := by
  refine ⟨h.calls, fun f i hNot => ?_⟩
  dsimp only
  by_cases hHere : f = g ∧ i = l
  · obtain ⟨rfl, rfl⟩ := hHere
    rw [store_self, store_self]
  · rw [store_ne e hHere, store_ne e hHere]
    exact h.memory f i fun hIn => hNot ⟨hIn, hHere⟩

theorem Alike.ensureTable (h : Alike D s t) {tmp : Word} {g : Nat} {l : Slot} (hLocate : locate tmp = some (g, l))
    (hRead : ¬D g l) {t' : State} (hRun : ensureTable tables pageKernelGdt tmp t = some t') :
    ∃ s', ensureTable tables pageKernelGdt tmp s = some s' ∧ Alike D s' t' := by
  rw [ensureTable_eq tables hLocate] at hRun ⊢
  rw [h.memory g l hRead, h.calls]
  by_cases hZero : t.memory g l = 0
  · rw [if_pos hZero] at hRun ⊢
    obtain rfl := Option.some.inj hRun
    have hStore := h.store g l (mkEntry (tables t.calls) pageKernelGdt)
    exact ⟨_, rfl, rfl, fun f i hNot => hStore.memory f i fun hIn => hNot hIn.1⟩
  · rw [if_neg hZero] at hRun ⊢
    obtain rfl := Option.some.inj hRun
    exact ⟨s, rfl, h⟩

end

section
variable {tables : Nat → Word} {count : Nat} {cr3 : Word} {pages : List Word} (hSupply : Supply tables count)
  (hCr3 : cr3.toNat < 2 ^ 47)

include hSupply hCr3 in
/-- A round of the inner loop does the same in both runs, and its page is not pending any more. -/
theorem mapPage_alike {s t : State} {p : Word} {todo : List Word}
    (hReady : Ready tables count (frame cr3) pages t.memory t.calls) (hTodo : ∀ q ∈ p :: todo, q ∈ pages)
    (hPage : PageAddress p) (h : Alike (Pending tables (frame cr3) (p :: todo) t) s t) :
    ∃ s' t', mapPage tables cr3 s p = some s' ∧ mapPage tables cr3 t p = some t' ∧
      Ready tables count (frame cr3) pages t'.memory t'.calls ∧
      Alike (Pending tables (frame cr3) todo t') s' t' := by
  have hp := hTodo p List.mem_cons_self
  obtain ⟨t₁, hFirst, hReady₁, -, hLeads₁, hSupplied₁⟩ := ensureTable_pml4 hSupply hCr3 hReady hp hPage
  obtain ⟨t₂, hSecond, hReady₂, -, hKernel, hLeads₂, hLow, hSupplied₂⟩ :=
    ensureTable_pdpt hSupply hReady₁ hp hLeads₁
  have hLocate₁ := locate_pml4 hCr3 hPage
  have hLocate₂ := locate_pdpt (p := p) hReady₁.readable
  have hRoot : ∀ {u : State} {i : Slot}, Ready tables count (frame cr3) pages u.memory u.calls →
      ¬Pending tables (frame cr3) (p :: todo) u (frame cr3) i := by
    rintro u i hU ⟨q, hq, -, hTarget⟩
    exact hU.not_target hTodo (by decide : ([] : List Slot).length ≤ 1) rfl hq hTarget
  have hPdpt : ∀ {u : State} {i : Slot}, Ready tables count (frame cr3) pages u.memory u.calls →
      u.memory (frame cr3) kernelSlot = t₁.memory (frame cr3) kernelSlot →
      ¬Pending tables (frame cr3) (p :: todo) u (frame (t₁.memory (frame cr3) kernelSlot)) i := by
    rintro u i hU hSame ⟨q, hq, -, hTarget⟩
    have hTable : tableAt u.memory [kernelSlot] (frame cr3) =
      some (frame (t₁.memory (frame cr3) kernelSlot)) := by
      rw [← hSame]
      exact tableAt_kernel (by rw [hSame]; exact hLeads₁)
    exact hU.not_target hTodo (by decide : [kernelSlot].length ≤ 1) hTable hq hTarget
  -- the entry of the first table
  obtain ⟨s₁, hRun₁, hAlike⟩ := h.ensureTable hLocate₁ (hRoot hReady) hFirst
  have hAlike₁ : Alike (Pending tables (frame cr3) (p :: todo) t₁) s₁ t₁ :=
    hAlike.mono fun _ _ => hSupplied₁.pending hTodo first_way
  have hEntry₁ := hAlike₁.memory _ _ (hRoot (i := kernelSlot) hReady₁)
  -- the entry of the second
  obtain ⟨s₂, hRun₂, hAlike⟩ := hAlike₁.ensureTable hLocate₂ (hPdpt hReady₁ rfl) hSecond
  have hAlike₂ : Alike (Pending tables (frame cr3) (p :: todo) t₂) s₂ t₂ :=
    hAlike.mono fun _ _ => hSupplied₂.pending hTodo (first_way_pdt hSupplied₁.there)
  have hEntry₂ := hAlike₂.memory _ _ (hPdpt (i := pdptSlot p) hReady₂ hKernel)
  have hTable : tableAt t₂.memory [kernelSlot, pdptSlot p] (frame cr3) =
      some (frame (t₂.memory (frame (t₁.memory (frame cr3) kernelSlot)) (pdptSlot p))) := by
    rw [tableAt_link (by rw [hKernel]; exact hLeads₁), hKernel, tableAt_link hLeads₂]
    rfl
  -- the page
  obtain ⟨hReady₃, hSame⟩ := hReady₂.map_pdt hp hPage (by rw [hKernel]; exact hLeads₁) hTable
  have hKernelTable : tableAt t₂.memory [kernelSlot] (frame cr3) ≠ none := by
    rw [tableAt_kernel (by rw [hKernel]; exact hLeads₁)]
    exact Option.some_ne_none _
  generalize hE : t₂.memory (frame (t₁.memory (frame cr3) kernelSlot)) (pdptSlot p) = e at *
  have hStore : ∀ m, store m (entryPtr e (phyToVirt p) 21) (mkEntry p pageKernelPage) =
      some (m.store (frame e) (pdtSlot p) (mkEntry p pageKernelPage)) := fun m =>
    store_eq (locate_pdt hLow) m _
  refine ⟨_, _, mapPage_eq hRun₁ ?_ hRun₂ ?_ (hStore _),
    mapPage_eq hFirst (load_eq hLocate₁ _) hSecond (by rw [load_eq hLocate₂, hE]) (hStore _), hReady₃, ?_⟩
  · rw [load_eq hLocate₁, hEntry₁]
  · rw [load_eq hLocate₂, hEntry₂]
  · refine (hAlike₂.store _ _ _).mono fun f i hIn => ?_
    exact pending_rest hKernelTable hTable (fun q hq => hSame q (ways_mono (fun r hr => hTodo r (.tail _ hr)) hq))
      hIn.1 hIn.2

include hSupply hCr3 in
/-- What the pages overwrite makes no difference. -/
theorem foldlM_alike {s t : State} {todo : List Word}
    (hReady : Ready tables count (frame cr3) pages t.memory t.calls) (hPages : ∀ p ∈ pages, PageAddress p)
    (hTodo : ∀ p ∈ todo, p ∈ pages) (h : Alike (Pending tables (frame cr3) todo t) s t) :
    todo.foldlM (mapPage tables cr3) s = todo.foldlM (mapPage tables cr3) t := by
  induction todo generalizing s t with
  | nil =>
    obtain ⟨m, k⟩ := s
    obtain ⟨hCalls, hMemory⟩ := h
    obtain rfl : m = t.memory := funext fun f => funext fun i => hMemory f i fun ⟨_, hp, _⟩ =>
      absurd hp List.not_mem_nil
    exact congrArg (fun k => some (State.mk t.memory k)) hCalls
  | cons p todo ih =>
    obtain ⟨s', t', hS, hT, hReady', hAlike⟩ :=
      mapPage_alike hSupply hCr3 hReady hTodo (hPages p (hTodo p List.mem_cons_self)) h
    rw [List.foldlM_cons, List.foldlM_cons, hS, hT]
    exact ih hReady' (fun q hq => hTodo q (List.mem_cons_of_mem _ hq)) hAlike

end

/-! ## Both loops -/

/-- The loops break off before zone `ZONE_UNMAPED_INDEX`. -/
theorem zonesLoop_eq (tables : Nat → Word) (cr3 : Word) {zoneUnmapedIndex i : Nat}
    (h : zoneUnmapedIndex = 0 ∨ i ≤ zoneUnmapedIndex) (zones : List Zone) (s : State) :
    zonesLoop tables cr3 zoneUnmapedIndex i zones s = ((if zoneUnmapedIndex = 0 then zones
      else zones.take (zoneUnmapedIndex - i)).flatMap Zone.pages).foldlM (mapPage tables cr3) s := by
  induction zones generalizing i s with
  | nil => simp [zonesLoop]
  | cons z zones ih =>
    unfold zonesLoop
    by_cases hBreak : zoneUnmapedIndex ≠ 0 ∧ i = zoneUnmapedIndex
    · rw [if_pos hBreak, if_neg hBreak.1, hBreak.2, Nat.sub_self, List.take_zero]
      rfl
    · rw [if_neg hBreak]
      have hNext : zoneUnmapedIndex = 0 ∨ i + 1 ≤ zoneUnmapedIndex := by omega
      have hTake : (if zoneUnmapedIndex = 0 then z :: zones else (z :: zones).take (zoneUnmapedIndex - i)) =
          z :: if zoneUnmapedIndex = 0 then zones else zones.take (zoneUnmapedIndex - (i + 1)) := by
        obtain hNone | hLt := hNext
        · rw [if_pos hNone, if_pos hNone]
        · have hCount : zoneUnmapedIndex - i = zoneUnmapedIndex - (i + 1) + 1 := by omega
          rw [if_neg (by omega), if_neg (by omega), hCount, List.take_succ_cons]
      rw [hTake, List.flatMap_cons, List.foldlM_append]
      exact congrArg (_ >>= ·) (funext fun s => ih hNext s)

theorem directPage_address (v : Word) : (directPage v).address v = (virtToPhy v).toNat := by
  have hOffset : pageOffset.toNat = 0xffff800000000000 := rfl
  have hLt := v.isLt
  unfold directPage Page.address virtToPhy
  dsimp only
  rw [BitVec.toNat_sub, hOffset]
  omega

section
variable {tables : Nat → Word} {root : Nat} {pages : List Word} {m : PhysMem}
  (hReady : Ready tables (missing root pages m) root pages (withoutOverwritten tables root pages m) 0)

include hReady in
theorem without_reached {is : List Slot} (hLength : is.length ≤ 3) {g : Nat}
    (hg : tableAt (withoutOverwritten tables root pages m) is root = some g) (i : Slot) :
    m g i = withoutOverwritten tables root pages m g i := by
  refine (if_neg ?_).symm
  rintro ⟨j, hj, rfl, -⟩
  exact hReady.unused j (Nat.zero_le j) hj is hLength hg

include hReady in
theorem without_translation (v : Word) :
    translation (withoutOverwritten tables root pages m) root v = translation m root v := by
  unfold translation
  split
  · exact (walk_agree fun js hLength g hg i => without_reached hReady (Nat.le_of_lt_succ hLength) hg i).symm
  · rfl

include hReady in
theorem without_alike : Alike (Pending tables root pages ⟨withoutOverwritten tables root pages m, 0⟩) ⟨m, 0⟩
    ⟨withoutOverwritten tables root pages m, 0⟩ := by
  have hOrder : newWays root pages (withoutOverwritten tables root pages m) = newWays root pages m := by
    refine newWays_congr fun q hq => (tableAt_agree fun js hLength g hg i => ?_).symm
    exact without_reached hReady (Nat.le_of_lt
      (Nat.lt_of_lt_of_le hLength (length_of_mem_ways hq) |>.trans (by decide)))
      hg i
  refine ⟨rfl, fun f i hNot => (if_neg ?_).symm⟩
  rintro ⟨j, -, rfl, p, hp, hNext, rfl⟩
  exact hNot ⟨p, hp, rfl, Or.inr ⟨j, by rw [hOrder]; exact hNext, by rw [Nat.zero_add]⟩⟩

end

/-- Each address of the pages is mapped for the kernel, and every other address is as before. What the tables that
are handed out held in the slots of the pages does not matter. -/
theorem pagetableInit_directMap {tables : Nat → Word} {cr3 : Word} (hCr3 : cr3.toNat < 2 ^ 47) {zones : List Zone}
    {zoneUnmapedIndex : Nat} (hPages : ∀ p ∈ mappedPages zones zoneUnmapedIndex, PageAddress p) {m : PhysMem}
    (hSupply : Supply tables (missing (frame cr3) (mappedPages zones zoneUnmapedIndex) m))
    (hReady : Ready tables (missing (frame cr3) (mappedPages zones zoneUnmapedIndex) m) (frame cr3)
      (mappedPages zones zoneUnmapedIndex)
      (withoutOverwritten tables (frame cr3) (mappedPages zones zoneUnmapedIndex) m) 0) :
    ∃ s, pagetableInit tables cr3 zones zoneUnmapedIndex ⟨m, 0⟩ = some s ∧
      (∀ p ∈ mappedPages zones zoneUnmapedIndex, ∀ a : Word, a.toNat / 2 ^ 21 = p.toNat / 2 ^ 21 →
        ∃ page, translation s.memory (frame cr3) (phyToVirt a) = some page ∧ page.level = 1 ∧ page.user = false ∧
          page.address (phyToVirt a) = a.toNat) ∧
      ∀ v, (∀ p ∈ mappedPages zones zoneUnmapedIndex, ¬InPage p v) →
        translation s.memory (frame cr3) v = translation m (frame cr3) v := by
  have hTop : load m (phyToVirt (cr3 &&& ~~~0xfff#64) + 8 * 256) = some (m (frame cr3) kernelSlot) :=
    load_eq (locate_entryPtr hCr3 (256 <<< 39) 3) m
  obtain ⟨e, hSecond⟩ : ∃ e, load m (phyToVirt (m (frame cr3) kernelSlot &&& ~~~0xfff#64)) = some e := by
    have hLow := hReady.readable
    rw [← without_reached hReady (by decide : ([] : List Slot).length ≤ 3) rfl] at hLow
    have hMask := and_not_fff (m (frame cr3) kernelSlot)
    have hPhysical : (virtToPhy (phyToVirt (m (frame cr3) kernelSlot &&& ~~~0xfff#64))).toNat < 2 ^ 47 := by
      rw [virtToPhy_phyToVirt]
      omega
    unfold load locate
    dsimp only
    rw [if_pos hPhysical]
    exact ⟨_, rfl⟩
  obtain ⟨s, hRun, hMap⟩ := foldlM_mapPage
    (s := ⟨withoutOverwritten tables (frame cr3) (mappedPages zones zoneUnmapedIndex) m, 0⟩) hSupply hCr3 hReady
      hPages
    fun _ h => h
  rw [← foldlM_alike hSupply hCr3 hReady hPages (fun _ h => h) (without_alike hReady)] at hRun
  refine ⟨s, ?_, fun p hp a ha => ⟨directPage (phyToVirt a), ?_, rfl, rfl, ?_⟩, fun v hOutside => ?_⟩
  · unfold pagetableInit
    dsimp only
    rw [hTop, Option.bind_eq_bind, Option.bind_some, hSecond, Option.bind_some,
      zonesLoop_eq tables cr3 (Nat.eq_zero_or_pos _ |>.imp_right Nat.le_of_lt)]
    exact hRun
  · have hIn : InPage p (phyToVirt a) := by
      unfold InPage
      rw [virtToPhy_phyToVirt]
      exact ha
    rw [hMap, if_pos ⟨p, hp, hIn⟩]
  · rw [directPage_address, virtToPhy_phyToVirt]
  · rw [hMap, if_neg, without_translation hReady]
    rintro ⟨p, hp, hIn⟩
    exact hOutside p hp hIn

/-- The slots of both pages are in use in the table that is handed out for them. -/
def usedSlots : PhysMem := fun f i => if f =
    3 then (if i = 0 then 0x7003 else if i = 1 then 0x600083 else 0) else 0

theorem usedSlots_missing : missing (frame 0x1000) (mappedPages [⟨[0, 0x200000]⟩] 0) usedSlots = 2 := by
  decide +kernel

theorem usedSlots_without :
    withoutOverwritten (fun j => 0x2000 + 0x1000 * BitVec.ofNat 64 j) (frame 0x1000)
      (mappedPages [⟨[0, 0x200000]⟩] 0) usedSlots = fun _ _ => 0 := by
  have hOrder : newWays (frame 0x1000) (mappedPages [⟨[0, 0x200000]⟩] 0) usedSlots =
      [[kernelSlot], [kernelSlot, pdptSlot 0]] := by decide +kernel
  have hPages : mappedPages [⟨[0, 0x200000]⟩] 0 = [0, 0x200000] := rfl
  have hFirst : Overwritten (frame 0x1000) (mappedPages [⟨[0, 0x200000]⟩] 0) usedSlots 1 0 :=
    ⟨0, by rw [hPages]; exact List.mem_cons_self, by rw [hOrder]; rfl, by decide +kernel⟩
  have hSecond : Overwritten (frame 0x1000) (mappedPages [⟨[0, 0x200000]⟩] 0) usedSlots 1 1 := by
    have hSame : pdptSlot 0 = pdptSlot 0x200000 := by decide +kernel
    refine ⟨0x200000, by rw [hPages]; simp, ?_, by decide +kernel⟩
    rw [hOrder, hSame]
    rfl
  funext f i
  unfold withoutOverwritten
  rw [usedSlots_missing]
  split
  · rfl
  · next hNot =>
    unfold usedSlots
    split
    · next hFrame =>
      have hNe : ∀ l, Overwritten (frame 0x1000) (mappedPages [⟨[0, 0x200000]⟩] 0) usedSlots 1 l → i ≠ l := by
        rintro l hl rfl
        exact hNot ⟨1, by decide, hFrame, hl⟩
      rw [if_neg (hNe 0 hFirst), if_neg (hNe 1 hSecond)]
    · rfl

theorem pagetableInit_directMap_used : ∃ s,
    pagetableInit (fun j => 0x2000 + 0x1000 * BitVec.ofNat 64 j) 0x1000 [⟨[0, 0x200000]⟩] 0 ⟨usedSlots, 0⟩ =
      some s ∧
      (∀ p ∈ mappedPages [⟨[0, 0x200000]⟩] 0, ∀ a : Word, a.toNat / 2 ^ 21 = p.toNat / 2 ^ 21 →
        ∃ page, translation s.memory (frame 0x1000) (phyToVirt a) = some page ∧ page.level = 1 ∧
          page.user = false ∧
          page.address (phyToVirt a) = a.toNat) ∧
      ∀ v, (∀ p ∈ mappedPages [⟨[0, 0x200000]⟩] 0, ¬InPage p v) →
        translation s.memory (frame 0x1000) v = translation usedSlots (frame 0x1000) v := by
  have hEmpty : ∀ {is : List Slot} {g : Nat}, tableAt (fun _ _ => 0) is (frame 0x1000) = some g → is = [] ∧
    g = 1 :=
    tableAt_empty fun _ => rfl
  apply pagetableInit_directMap (by decide)
  · intro p hp
    have hPages : p = 0 ∨ p = 0x200000 := by simpa [mappedPages, mappedZones] using hp
    obtain rfl | rfl := hPages
    · exact ⟨by decide, by decide⟩
    · exact ⟨by decide, by decide⟩
  · rw [usedSlots_missing]
    exact ⟨by decide, by decide, by decide⟩
  · rw [usedSlots_without]
    constructor
    case readable => decide
    case pml4 => exact fun _ => Or.inl rfl
    case pdpt => exact fun _ _ g hg => absurd (hEmpty hg).1 (List.cons_ne_nil _ _)
    case ownRoot => exact fun _ _ _ _ hg => (hEmpty hg).1
    case ownPdpt => exact fun _ _ g hg => absurd (hEmpty hg).1 (List.cons_ne_nil _ _)
    case ownPdt => exact fun _ _ g hg => absurd (hEmpty hg).1 (List.cons_ne_nil _ _)
    case enough =>
      rw [usedSlots_missing]
      decide +kernel
    case unused =>
      rw [usedSlots_missing]
      have hNe : ∀ j < 2, frame (0x2000 + 0x1000 * BitVec.ofNat 64 j) ≠ 1 := by decide
      exact fun j _ hj _ _ hg => hNe j hj (hEmpty hg).2
    case blank => exact fun _ _ _ _ => rfl
    case tested => exact fun _ _ _ => rfl

/-- The table behind the second one was left with a page of its own. -/
theorem pagetableInit_uncleared : ∃ m : PhysMem, ∃ tables : Nat → Word, Supply tables 2 ∧
    Unused tables 2 (frame 0x1000) m 0 ∧
    Blank m (frame 0x1000) ∧ PageAddress 0 ∧ ¬InPage 0 0xffff800000a00000 ∧
    translation m (frame 0x1000) 0xffff800000a00000 = none ∧
    (pagetableInit tables 0x1000 [⟨[0]⟩] 0 ⟨m, 0⟩).map
    (fun s => translation s.memory (frame 0x1000) 0xffff800000a00000) =
      some (some ⟨0, 1, false⟩) := by
  have hBlank : Blank (fun f i => if f = 3 ∧ i = 5 then 0x83 else 0) (frame 0x1000) := fun _ =>
    congrArg present (if_neg fun h => absurd h.1 (by decide))
  refine ⟨fun f i => if f = 3 ∧ i = 5 then 0x83 else 0, fun j => 0x2000 + 0x1000 * BitVec.ofNat 64 j,
    ⟨by decide, by decide, by decide⟩, ?_, ?_,
      ⟨by decide, by decide⟩, by decide, by decide +kernel, by decide +kernel⟩
  · have hNe : ∀ j < 2, frame (0x2000 + 0x1000 * BitVec.ofNat 64 j) ≠ 1 := by decide
    exact fun j _ hj _ _ hg => hNe j hj (tableAt_empty hBlank hg).2
  · exact hBlank

end KalinoteOS.Paging
