import KalinoteOS.Paging.PagetableInit

/-! # The pages of the devices

`frame_buffer_init` and the three functions that map an APIC link tables and enter pages of 2MB that are not
cached. A new table is cleared before it is linked.
-/
namespace KalinoteOS.Paging
open Lib PageWalk
set_option autoImplicit false

/-- `memset` of a table. -/
def clear (m : PhysMem) (f : Nat) : PhysMem := fun g i => if g = f then 0 else m g i

/-- `PAGE_KERNEL_Page | PAGE_PWT | PAGE_PCD` -/
def devicePage : Word := 0x9b

section
variable (tables : Nat → Word)

/-- `if(*tmp == 0)` with a cleared table. -/
def linkTable (attr tmp : Word) (s : State) : Option State := do
  let e ← load s.memory tmp
  if e = 0 then
    let virtual := phyToVirt (tables s.calls)
    let memory ← store (clear s.memory (frame (virtToPhy virtual))) tmp (mkEntry (virtToPhy virtual) attr)
    some ⟨memory, s.calls + 1⟩
  else some s

/-- An entry of the third table, which `tmp` leads to. -/
def setPdt (tmp : Word) (s : State) (phy : Word) : Option State := do
  let e ← load s.memory tmp
  let memory ← store s.memory (entryPtr e (phyToVirt phy) 21) (mkEntry phy devicePage)
  some { s with memory := memory }

/-- What the functions share: `tmp` is the entry of the first table, `start` the device. -/
def mapDevice (tmp start : Word) (pages : List Word) (s : State) : Option State := do
  let s ← linkTable tables pageKernelGdt tmp s
  let e ← load s.memory tmp
  let tmp := entryPtr e (phyToVirt start) 30
  let s ← linkTable tables pageKernelDir tmp s
  pages.foldlM (setPdt tmp) s

variable (cr3 : Word)

/-- The 2MB pages from `phyAddr` on; `bufLength` is `printk_info.buf_length`. -/
def framePages (phyAddr : Word) (bufLength : Nat) : List Word :=
  (List.range ((bufLength + 0x1fffff) / 0x200000)).map fun i => phyAddr + BitVec.ofNat 64 (0x200000 * i)

def frameBufferInit (phyAddr : Word) (bufLength : Nat) (s : State) : Option State :=
  mapDevice tables (entryPtr cr3 (phyToVirt phyAddr) 39) phyAddr (framePages phyAddr bufLength) s

/-- `Global_CR3` is not masked here. -/
def apicPagetableRemap (phAddr : Word) (s : State) : Option State :=
  mapDevice tables (phyToVirt (cr3 + ((phyToVirt phAddr >>> 39) &&& 0x1ff) * 8)) phAddr [phAddr] s

def lapicPagetableRemap (s : State) : Option State := apicPagetableRemap tables cr3 0xfee00000 s

def ioapicPagetableRemap (s : State) : Option State := apicPagetableRemap tables cr3 0xfec00000 s

def apuLapicPagetableRemap (phAddr : Word) (s : State) : Option State := apicPagetableRemap tables cr3 phAddr s

end

inductive Call where
  | frameBuffer (phyAddr : Word) (bufLength : Nat)
  | lapic
  | ioapic
  | apu (phAddr : Word)

def Call.run (tables : Nat → Word) (cr3 : Word) (s : State) : Call → Option State
  | .frameBuffer phyAddr bufLength => frameBufferInit tables cr3 phyAddr bufLength s
  | .lapic => lapicPagetableRemap tables cr3 s
  | .ioapic => ioapicPagetableRemap tables cr3 s
  | .apu phAddr => apuLapicPagetableRemap tables cr3 phAddr s

def Call.start : Call → Word
  | .frameBuffer phyAddr _ => phyAddr
  | .lapic => 0xfee00000
  | .ioapic => 0xfec00000
  | .apu phAddr => phAddr

def Call.pages : Call → List Word
  | .frameBuffer phyAddr bufLength => framePages phyAddr bufLength
  | .lapic => [0xfee00000]
  | .ioapic => [0xfec00000]
  | .apu phAddr => [phAddr]

/-! ## The tables to come -/

section
variable {tables : Nat → Word} {count k : Nat} {m : PhysMem}

/-- A table that is still to be handed out. -/
def Fresh (tables : Nat → Word) (count k f : Nat) : Prop := ∃ j < count, k ≤ j ∧ f = frame (tables j)

instance (tables : Nat → Word) (count k f : Nat) : Decidable (Fresh tables count k f) :=
  inferInstanceAs (Decidable (∃ j < count, _))

/-- The memory with these tables cleared. -/
def cleared (tables : Nat → Word) (count k : Nat) (m : PhysMem) : PhysMem := fun f i =>
  if Fresh tables count k f then 0 else m f i

/-- The tables are fit for the pages as soon as the new ones are cleared. -/
def Prepared (tables : Nat → Word) (count root : Nat) (pages : List Word) (m : PhysMem) (k : Nat) : Prop :=
  Ready tables count root pages (cleared tables count k m) k

theorem cleared_old {f : Nat} (h : ¬Fresh tables count k f) (i : Slot) : cleared tables count k m f i = m f i :=
  if_neg h

theorem cleared_store {g : Nat} (h : ¬Fresh tables count k g) (i : Slot) (e : Word) :
    cleared tables count k (m.store g i e) = (cleared tables count k m).store g i e := by
  funext f j
  by_cases hFresh : Fresh tables count k f
  · have hNe : f ≠ g := by
      rintro rfl
      exact h hFresh
    rw [store_frame_ne e hNe]
    exact (if_pos hFresh).trans (if_pos hFresh).symm
  · rw [cleared_old hFresh]
    unfold PhysMem.store
    rw [cleared_old hFresh]

/-- The table that is cleared when it is handed out was clear already. -/
theorem cleared_clear (hSupply : Supply tables count) (hk : k < count) :
    cleared tables count (k + 1) (clear m (frame (tables k))) = cleared tables count k m := by
  funext f i
  by_cases hHere : f = frame (tables k)
  · subst hHere
    have hOld : ¬Fresh tables count (k + 1) (frame (tables k)) := by
      rintro ⟨j, hj, hAfter, hEq⟩
      exact hSupply.frame_ne hk hj (Nat.ne_of_lt hAfter) hEq
    rw [cleared_old hOld]
    exact (if_pos rfl).trans (if_pos ⟨k, hk, Nat.le_refl k, rfl⟩).symm
  · have hIff : Fresh tables count (k + 1) f ↔ Fresh tables count k f := by
      constructor
      · rintro ⟨j, hj, hAfter, hEq⟩
        exact ⟨j, hj, Nat.le_of_succ_le hAfter, hEq⟩
      · rintro ⟨j, hj, hAfter, hEq⟩
        have hNe : j ≠ k := by
          rintro rfl
          exact hHere hEq
        exact ⟨j, hj, Nat.lt_of_le_of_ne hAfter (Ne.symm hNe), hEq⟩
    unfold cleared clear
    rw [if_neg hHere]
    exact if_congr hIff rfl rfl

theorem Prepared.fresh_unused {root : Nat} {pages : List Word} (h : Prepared tables count root pages m k)
    {is : List Slot}
    (hLength : is.length ≤ 3) {g : Nat} (hg : tableAt (cleared tables count k m) is root = some g) :
    ¬Fresh tables count k g := by
  rintro ⟨j, hj, hAfter, rfl⟩
  exact h.unused j hAfter hj is hLength hg

theorem Prepared.translation {root : Nat} {pages : List Word} (h : Prepared tables count root pages m k)
    (v : Word) :
    PageWalk.translation (cleared tables count k m) root v = PageWalk.translation m root v := by
  unfold PageWalk.translation
  split
  · refine (walk_agree fun js hLength g hg i => ?_).symm
    exact (cleared_old (h.fresh_unused (Nat.le_of_lt_succ hLength) hg) i).symm
  · rfl

end

/-! ## The entry of a page -/

theorem deviceEntry {p : Word} (hp : PageAddress p) : present (mkEntry p devicePage) = true ∧
    large (mkEntry p devicePage) = true ∧ userBit (mkEntry p devicePage) = false ∧
    frame (mkEntry p devicePage) = p.toNat / 2 ^ 12 := by
  have hAligned : p.toNat % 2 ^ 12 = 0 := by
    have h := hp.aligned
    omega
  unfold present large userBit
  rw [getLsbD_mkEntry hAligned (by decide), getLsbD_mkEntry hAligned (by decide),
    getLsbD_mkEntry hAligned (by decide),
    frame_mkEntry hAligned (by decide)]
  refine ⟨by decide, by decide, by decide, ?_⟩
  have hLow := hp.low
  unfold frame
  omega

section
variable {tables : Nat → Word} {count root k : Nat} {pages : List Word} {m : PhysMem} {p : Word} {g : Nat}

/-- An entry in a third table with one path leaves the tables fit. -/
theorem Ready.map_device (hReady : Ready tables count root pages m k) (hp : p ∈ pages)
    (hLeads : Leads (m root kernelSlot))
    (hTable : tableAt m [kernelSlot, pdptSlot p] root = some g) {e : Word} (hLarge : large e = true) (i : Slot) :
    Ready tables count root pages (m.store g i e) k := by
  have hOwned : Owned m root [kernelSlot, pdptSlot p] g := hReady.ownPdt p hp g hTable
  have hTwo : [kernelSlot, pdptSlot p].length ≤ 2 := Nat.le_refl 2
  have hOther : ∀ path : List Slot, path.length ≤ 1 → ∀ h, tableAt m path root = some h → h ≠ g := by
    rintro path hLength h hh rfl
    have hSame := congrArg List.length (hOwned path (Nat.le_trans hLength (by decide)) hh)
    simp only [List.length_cons, List.length_nil] at hSame
    omega
  have hKernel : m.store g i e root kernelSlot = m root kernelSlot :=
    store_frame_ne e (hOther [] (Nat.zero_le 1) root rfl) kernelSlot
  have hBack : ∀ {is : List Slot} {h : Nat}, tableAt (m.store g i e) is root = some h →
    tableAt m is root = some h :=
    fun hAfter => tableAt_store_large hLarge hAfter
  have hKept : ∀ {path : List Slot} {h : Nat}, Owned m root path h → Owned (m.store g i e) root path h :=
    fun hOld is hLength hAfter => hOld is hLength (hBack hAfter)
  have hPdpt : ∀ {h : Nat}, tableAt m [kernelSlot] root = some h → ∀ j, m.store g i e h j = m h j :=
    fun hh j => store_frame_ne e (hOther [kernelSlot] (Nat.le_refl 1) _ hh) j
  constructor
  case readable =>
    rw [hKernel]
    exact hReady.readable
  case pml4 =>
    rw [hKernel]
    exact hReady.pml4
  case pdpt =>
    intro q hq h hh
    rw [hPdpt (hBack hh)]
    exact hReady.pdpt q hq h (hBack hh)
  case ownRoot =>
    intro _ hAgain
    rw [hKernel] at hAgain
    exact absurd hAgain (leads_ne_zero hLeads)
  case ownPdpt =>
    intro q hq h hh hZero
    rw [hPdpt (hBack hh)] at hZero
    exact hKept (hReady.ownPdpt q hq h (hBack hh) hZero)
  case ownPdt => exact fun q hq h hh => hKept (hReady.ownPdt q hq h (hBack hh))
  case enough =>
    have hMissing : missing root pages (m.store g i e) = missing root pages m := by
      refine missing_congr fun path hPath => ?_
      have hLength : path.length ≤ 2 := length_of_mem_ways hPath
      refine hOwned.tableAt_store (Nat.le_trans hLength (by decide)) fun hBefore => ?_
      exact absurd (Nat.le_trans hBefore.length_le hLength) (by simp)
    rw [hMissing]
    exact hReady.enough
  case unused => exact fun j hj hLt is hLength hAfter => hReady.unused j hj hLt is hLength (hBack hAfter)
  case blank => exact fun j hj hLt => hReady.unused.blank hTable hTwo hj hLt _ (hReady.blank j hj hLt)
  case tested =>
    intro hAgain
    rw [hKernel] at hAgain
    exact absurd hAgain (leads_ne_zero hLeads)

/-- The page is mapped, and nothing else is. -/
theorem translation_device (hPage : PageAddress p) (hTable : tableAt m [kernelSlot, pdptSlot p] root = some g)
    (hOwned : Owned m root [kernelSlot, pdptSlot p] g) (v : Word) :
    translation (m.store g (pdtSlot p) (mkEntry p devicePage)) root v =
      if InPage p v then some (directPage v) else translation m root v := by
  obtain ⟨hPresent, hLarge, hUser, hFrame⟩ := deviceEntry hPage
  unfold translation
  by_cases hIn : InPage p v
  · obtain ⟨hCanonical, h₃, h₂, h₁⟩ := (inPage_iff hPage v).mp hIn
    obtain ⟨user, hWalk⟩ := hOwned.walk_store_large hTable (Nat.le_succ 2) (pdtSlot p) hPresent hLarge
      (List.cons_ne_nil (slot v 0) []) (by decide : 1 < 3) true
    have hSlots : slots v = [kernelSlot, pdptSlot p] ++ pdtSlot p :: [slot v 0] := by
      rw [← h₃, ← h₂, ← h₁]
      rfl
    have hSame : p.toNat / 2 ^ 12 / 512 * 512 = (virtToPhy v).toNat / 2 ^ 21 * 512 := by
      have hEq : (virtToPhy v).toNat / 2 ^ 21 = p.toNat / 2 ^ 21 := hIn
      omega
    rw [if_pos hCanonical, if_pos hIn, hSlots, hWalk, hUser, hFrame, Bool.and_false, List.length_singleton,
      Nat.pow_one,
      hSame]
    rfl
  · rw [if_neg hIn]
    by_cases hCanonical : Canonical v
    · rw [if_pos hCanonical, if_pos hCanonical]
      refine hOwned.walk_store (Nat.le_refl (slots v).length) ?_ true
      rintro ⟨ks, hSlots⟩
      obtain ⟨h₃, hSlots⟩ := List.cons.inj hSlots
      obtain ⟨h₂, hSlots⟩ := List.cons.inj hSlots
      obtain ⟨h₁, -⟩ := List.cons.inj hSlots
      exact hIn ((inPage_iff hPage v).mpr ⟨hCanonical, h₃.symm, h₂.symm, h₁.symm⟩)
    · rw [if_neg hCanonical, if_neg hCanonical]

end

/-! ## A table is linked -/

section
variable {tables : Nat → Word} {count root : Nat} {pages : List Word} (hSupply : Supply tables count)

include hSupply in
/-- The call does to the memory what it would do without `memset` if the new tables were clear. -/
theorem linkTable_sim {s t : State} {tmp : Word} {g : Nat} {i : Slot} (hLocate : locate tmp = some (g, i))
    (hOld : ¬Fresh tables count s.calls g) (hEnough : t.calls ≤ count)
    (hEnsure : ensureTable tables pageKernelGdt tmp ⟨cleared tables count s.calls s.memory, s.calls⟩ = some t) :
    ∃ u, linkTable tables pageKernelGdt tmp s = some u ∧ u.calls = t.calls ∧
      cleared tables count u.calls u.memory = t.memory := by
  rw [ensureTable_eq tables hLocate] at hEnsure
  simp only [cleared_old hOld] at hEnsure
  unfold linkTable
  rw [load_eq hLocate, Option.bind_eq_bind, Option.bind_some]
  by_cases hZero : s.memory g i = 0
  · rw [if_pos hZero] at hEnsure ⊢
    obtain rfl := Option.some.inj hEnsure
    dsimp only
    rw [virtToPhy_phyToVirt, store_eq hLocate]
    refine ⟨_, rfl, rfl, ?_⟩
    dsimp only
    have hLater : ¬Fresh tables count (s.calls + 1) g := by
      rintro ⟨j, hj, hAfter, hEq⟩
      exact hOld ⟨j, hj, Nat.le_of_succ_le hAfter, hEq⟩
    rw [cleared_store hLater, cleared_clear hSupply hEnough]
  · rw [if_neg hZero] at hEnsure ⊢
    obtain rfl := Option.some.inj hEnsure
    exact ⟨s, rfl, rfl, rfl⟩

/-- The first two tables are there for the device, and `tmp` is the entry of the second one. -/
structure Linked (tables : Nat → Word) (count root : Nat) (pages : List Word) (start tmp : Word) (g : Nat)
    (s : State) :
    Prop where
  prepared : Prepared tables count root pages s.memory s.calls
  located : locate tmp = some (g, pdptSlot start)
  kernel : Leads (cleared tables count s.calls s.memory root kernelSlot)
  table : tableAt (cleared tables count s.calls s.memory) [kernelSlot] root = some g
  leads : Leads (cleared tables count s.calls s.memory g (pdptSlot start))
  low : (cleared tables count s.calls s.memory g (pdptSlot start)).toNat < 2 ^ 47

theorem Linked.pdt {start tmp : Word} {g : Nat} {s : State} (h : Linked tables count root pages start tmp g s) :
    tableAt (cleared tables count s.calls s.memory) [kernelSlot, pdptSlot start] root =
      some (frame (cleared tables count s.calls s.memory g (pdptSlot start))) := by
  have hAppend := tableAt_append (m := cleared tables count s.calls s.memory) [kernelSlot] [pdptSlot start] root
  rw [h.table] at hAppend
  exact hAppend.trans (tableAt_link h.leads)

/-- A page of the device. -/
theorem Linked.setPdt {start tmp p : Word} {g : Nat} {s : State}
    (h : Linked tables count root pages start tmp g s)
    (hp : p ∈ pages) (hPage : PageAddress p) (hSlot : pdptSlot p = pdptSlot start) :
    ∃ t, setPdt tmp s p = some t ∧ Linked tables count root pages start tmp g t ∧
      ∀ v, translation (cleared tables count t.calls t.memory) root v =
        if InPage p v then some (directPage v) else translation (cleared tables count s.calls s.memory) root
          v := by
  have hPdt := h.pdt
  have hLow := h.low
  have hOld : ¬Fresh tables count s.calls g := h.prepared.fresh_unused (by decide) h.table
  have hEntry := cleared_old (m := s.memory) hOld (pdptSlot start)
  generalize hMemory : cleared tables count s.calls s.memory = m at *
  generalize hLink : m g (pdptSlot start) = e at *
  have hOldPdt : ¬Fresh tables count s.calls (frame e) := by
    have hTwo : [kernelSlot, pdptSlot start].length ≤ 3 := Nat.le_succ 2
    rw [← hMemory] at hPdt
    exact h.prepared.fresh_unused hTwo hPdt
  have hReady : Ready tables count root pages m s.calls := hMemory ▸ h.prepared
  have hKernel : Leads (m root kernelSlot) := hMemory ▸ h.kernel
  have hTable : tableAt m [kernelSlot] root = some g := hMemory ▸ h.table
  have hPdtP : tableAt m [kernelSlot, pdptSlot p] root = some (frame e) := by rw [hSlot, hPdt]
  obtain ⟨-, hLarge, -, -⟩ := deviceEntry hPage
  have hOwned := hReady.ownPdt p hp _ hPdtP
  have hOther : ∀ path : List Slot, path.length ≤ 1 → ∀ f, tableAt m path root = some f → f ≠ frame e := by
    rintro path hLength f hf rfl
    have hSame := congrArg List.length (hOwned path (Nat.le_trans hLength (by decide)) hf)
    simp only [List.length_cons, List.length_nil] at hSame
    omega
  have hStore : cleared tables count s.calls (s.memory.store (frame e) (pdtSlot p) (mkEntry p devicePage)) =
      m.store (frame e) (pdtSlot p) (mkEntry p devicePage) := by
    rw [cleared_store hOldPdt, hMemory]
  have hRoot : m.store (frame e) (pdtSlot p) (mkEntry p devicePage) root kernelSlot = m root kernelSlot :=
    store_frame_ne _ (hOther [] (Nat.zero_le 1) root rfl) _
  have hSecond : m.store (frame e) (pdtSlot p) (mkEntry p devicePage) g (pdptSlot start) = e := by
    rw [store_frame_ne _ (hOther [kernelSlot] (Nat.le_refl 1) g hTable), hLink]
  refine ⟨{ s with memory := s.memory.store (frame e) (pdtSlot p) (mkEntry p devicePage) }, ?_, ?_, fun v => ?_⟩
  · unfold Paging.setPdt
    rw [load_eq h.located, ← hEntry, Option.bind_eq_bind, Option.bind_some, store_eq (locate_pdt hLow),
      Option.bind_eq_bind, Option.bind_some]
  · have hFrame := (tableAt_kernel_iff hKernel).mp hTable
    refine ⟨?_, h.located, ?_, ?_, ?_, ?_⟩
    · unfold Prepared
      rw [hStore]
      exact hReady.map_device hp hKernel hPdtP hLarge _
    · dsimp only
      rw [hStore, hRoot]
      exact hKernel
    · dsimp only
      rw [hStore, tableAt_kernel_iff (by rw [hRoot]; exact hKernel), hRoot]
      exact hFrame
    · dsimp only
      rw [hStore, hSecond]
      exact hLink ▸ hMemory ▸ h.leads
    · dsimp only
      rw [hStore, hSecond]
      exact hLow
  · dsimp only
    rw [hStore]
    exact translation_device hPage hPdtP hOwned v

/-! ## A device -/

/-- The pages of a device: in one gigabyte, so that one third table has them all. -/
structure DevicePages (start : Word) (pages : List Word) : Prop where
  corner : PageAddress start
  page : ∀ p ∈ pages, PageAddress p
  gigabyte : ∀ p ∈ pages, p.toNat / 2 ^ 30 = start.toNat / 2 ^ 30

theorem DevicePages.slot {start : Word} {todo : List Word} (h : DevicePages start todo) {p : Word}
    (hp : p ∈ todo) :
    pdptSlot p = pdptSlot start := by
  have hSame := h.gigabyte p hp
  apply Fin.ext
  rw [pdptSlot, pdptSlot, slot_val, slot_val, toNat_phyToVirt (h.page p hp), toNat_phyToVirt h.corner]
  omega

theorem Linked.setPdts {start tmp : Word} {g : Nat} {s : State} (h : Linked tables count root pages start tmp g s)
    {todo : List Word} (hDevice : DevicePages start todo) (hTodo : ∀ p ∈ todo, p ∈ pages) :
    ∃ t, todo.foldlM (Paging.setPdt tmp) s = some t ∧ Prepared tables count root pages t.memory t.calls ∧
      ∀ v, translation (cleared tables count t.calls t.memory) root v = if ∃ p ∈ todo,
        InPage p v then some (directPage v)
        else translation (cleared tables count s.calls s.memory) root v := by
  induction todo generalizing s with
  | nil => exact ⟨s, rfl, h.prepared, fun v => by simp⟩
  | cons p todo ih =>
    have hp := List.mem_cons_self (a := p) (l := todo)
    obtain ⟨s', hPage, hNext, hMap⟩ := h.setPdt (hTodo p hp) (hDevice.page p hp) (hDevice.slot hp)
    obtain ⟨t, hRest, hPrepared, hWalk⟩ := ih hNext
      ⟨hDevice.corner, fun q hq => hDevice.page q (List.mem_cons_of_mem _ hq),
        fun q hq => hDevice.gigabyte q (List.mem_cons_of_mem _ hq)⟩ fun q hq =>
          hTodo q (List.mem_cons_of_mem _ hq)
    refine ⟨t, ?_, hPrepared, fun v => ?_⟩
    · rw [List.foldlM_cons, hPage]
      exact hRest
    · rw [hWalk v, hMap v]
      by_cases hIn : InPage p v
      · rw [if_pos hIn, ite_self, if_pos ⟨p, List.mem_cons_self, hIn⟩]
      · rw [if_neg hIn]
        refine if_congr ?_ rfl rfl
        rw [List.exists_mem_cons_iff, or_iff_right hIn]

variable {cr3 : Word} (hCr3 : cr3.toNat < 2 ^ 47)

include hSupply hCr3 in
theorem mapDevice_prepared {s : State} (h : Prepared tables count (frame cr3) pages s.memory s.calls)
    {start tmp : Word}
    (hTmp : tmp = entryPtr cr3 (phyToVirt start) 39) (hStart : start ∈ pages) {todo : List Word}
    (hDevice : DevicePages start todo) (hTodo : ∀ p ∈ todo, p ∈ pages) :
    ∃ t, mapDevice tables tmp start todo s = some t ∧ Prepared tables count (frame cr3) pages t.memory t.calls ∧
      ∀ v, translation t.memory (frame cr3) v = if ∃ p ∈ todo, InPage p v then some (directPage v)
        else translation s.memory (frame cr3) v := by
  subst hTmp
  obtain ⟨u₁, hEnsure₁, hReady₁, hSame₁, hLeads₁, -⟩ :=
    ensureTable_pml4 (s := ⟨cleared tables count s.calls s.memory, s.calls⟩) hSupply hCr3 h hStart hDevice.corner
  have hLocate₁ := locate_pml4 hCr3 hDevice.corner
  have hNone : ([] : List Slot).length ≤ 3 := Nat.zero_le 3
  have hOne : [kernelSlot].length ≤ 3 := by decide
  have hRoot : ¬Fresh tables count s.calls (frame cr3) := h.fresh_unused hNone rfl
  obtain ⟨s₁, hLink₁, hCalls₁, hMemory₁⟩ := linkTable_sim hSupply hLocate₁ hRoot
    (Nat.le_trans (Nat.le_add_right _ _) hReady₁.enough) hEnsure₁
  have hPrepared₁ : Prepared tables count (frame cr3) pages s₁.memory s₁.calls := by
    unfold Prepared
    rw [hMemory₁, hCalls₁]
    exact hReady₁
  have hRoot₁ : ¬Fresh tables count s₁.calls (frame cr3) := hPrepared₁.fresh_unused hNone rfl
  have hKernel₁ : s₁.memory (frame cr3) kernelSlot = u₁.memory (frame cr3) kernelSlot := by
    rw [← hMemory₁, cleared_old hRoot₁]
  have hLoad₁ : load s₁.memory (entryPtr cr3 (phyToVirt start) 39) = some (u₁.memory (frame cr3) kernelSlot) := by
    rw [load_eq hLocate₁, hKernel₁]
  obtain ⟨u₂, hEnsure₂, hReady₂, hSame₂, hKernel₂, hLeads₂, hLow₂, -⟩ :=
    ensureTable_pdpt hSupply hReady₁ hStart hLeads₁
  have hLocate₂ : locate (entryPtr (u₁.memory (frame cr3) kernelSlot) (phyToVirt start) 30) =
      some (frame (u₁.memory (frame cr3) kernelSlot), pdptSlot start) := locate_pdpt hReady₁.readable
  have hTable₁ : tableAt (cleared tables count s₁.calls s₁.memory) [kernelSlot] (frame cr3) =
      some (frame (u₁.memory (frame cr3) kernelSlot)) := by
    rw [hMemory₁]
    exact tableAt_kernel hLeads₁
  obtain ⟨s₂, hLink₂, hCalls₂, hMemory₂⟩ := linkTable_sim (s := s₁) hSupply hLocate₂
    (hPrepared₁.fresh_unused hOne hTable₁)
    (Nat.le_trans (Nat.le_add_right _ _) hReady₂.enough) (by rw [hMemory₁, hCalls₁]; exact hEnsure₂)
  have hLinked : Linked tables count (frame cr3) pages start
      (entryPtr (u₁.memory (frame cr3) kernelSlot) (phyToVirt start) 30)
      (frame (u₁.memory (frame cr3) kernelSlot)) s₂ := by
    refine ⟨?_, hLocate₂, ?_, ?_, ?_, ?_⟩
    · unfold Prepared
      rw [hMemory₂, hCalls₂]
      exact hReady₂
    · rw [hMemory₂, hKernel₂]
      exact hLeads₁
    · rw [hMemory₂, tableAt_kernel (by rw [hKernel₂]; exact hLeads₁), hKernel₂]
    · rw [hMemory₂]
      exact hLeads₂
    · rw [hMemory₂]
      exact hLow₂
  obtain ⟨t, hPages, hPrepared, hMap⟩ := hLinked.setPdts hDevice hTodo
  refine ⟨t, ?_, hPrepared, fun v => ?_⟩
  · unfold mapDevice
    rw [hLink₁, Option.bind_eq_bind, Option.bind_some, hLoad₁, Option.bind_eq_bind, Option.bind_some]
    change (linkTable tables pageKernelGdt _ s₁).bind _ = some t
    rw [hLink₂, Option.bind_some]
    exact hPages
  · have hBefore : translation (cleared tables count s₂.calls s₂.memory) (frame cr3) v =
        translation s.memory (frame cr3) v := by
      rw [hMemory₂, (hSame₁.trans hSame₂).translation v]
      exact h.translation v
    rw [← hPrepared.translation v, hMap v, hBefore]

end

/-! ## All devices -/

/-- A device starts with a page of 2MB, and the frame buffer ends in the gigabyte that it starts in. -/
def Call.Fit : Call → Prop
  | .frameBuffer phyAddr bufLength => PageAddress phyAddr ∧ phyAddr.toNat % 2 ^ 30 + bufLength ≤ 2 ^ 30
  | .lapic => True
  | .ioapic => True
  | .apu phAddr => PageAddress phAddr

theorem framePages_fit {phyAddr : Word} (hPage : PageAddress phyAddr) {bufLength : Nat}
    (hEnd : phyAddr.toNat % 2 ^ 30 + bufLength ≤ 2 ^ 30) :
      DevicePages phyAddr (framePages phyAddr bufLength) := by
  have hSum : ∀ i < (bufLength + 0x1fffff) / 0x200000,
      (phyAddr + BitVec.ofNat 64 (0x200000 * i)).toNat = phyAddr.toNat + 0x200000 * i := by
    intro i hi
    have hLow := hPage.low
    rw [BitVec.toNat_add, BitVec.toNat_ofNat]
    omega
  refine ⟨hPage, fun p hp => ?_, fun p hp => ?_⟩
  · obtain ⟨i, hi, rfl⟩ := List.mem_map.mp hp
    have hLow := hPage.low
    have hAligned := hPage.aligned
    have hLt := List.mem_range.mp hi
    constructor
    · rw [hSum i hLt]
      omega
    · rw [hSum i hLt]
      omega
  · obtain ⟨i, hi, rfl⟩ := List.mem_map.mp hp
    have hAligned := hPage.aligned
    have hLt := List.mem_range.mp hi
    rw [hSum i hLt]
    omega

theorem DevicePages.single {p : Word} (h : PageAddress p) : DevicePages p [p] := by
  refine ⟨h, fun q hq => ?_, fun q hq => ?_⟩
  · rw [List.mem_singleton.mp hq]
    exact h
  · rw [List.mem_singleton.mp hq]

theorem Call.Fit.devicePages {c : Call} (h : c.Fit) : DevicePages c.start c.pages := by
  cases c with
  | frameBuffer phyAddr bufLength => exact framePages_fit h.1 h.2
  | lapic => exact DevicePages.single ⟨by decide, by decide⟩
  | ioapic => exact DevicePages.single ⟨by decide, by decide⟩
  | apu phAddr => exact DevicePages.single h

/-- The first table starts at a page, so that it makes no difference whether its address is masked. -/
theorem entryPtr_aligned {cr3 : Word} (hAligned : cr3.toNat % 2 ^ 12 = 0) (v : Word) :
    phyToVirt (cr3 + ((v >>> 39) &&& 0x1ff) * 8) = entryPtr cr3 v 39 := by
  have hMask : cr3 &&& ~~~0xfff#64 = cr3 := by
    apply BitVec.eq_of_toNat_eq
    rw [and_not_fff]
    omega
  unfold entryPtr
  rw [hMask]
  exact add_right_comm _ _ _

theorem Call.run_eq (tables : Nat → Word) {cr3 : Word} (hAligned : cr3.toNat % 2 ^ 12 = 0) (s : State)
    (c : Call) :
    c.run tables cr3 s = mapDevice tables (entryPtr cr3 (phyToVirt c.start) 39) c.start c.pages s := by
  rw [← entryPtr_aligned hAligned]
  cases c with
  | frameBuffer phyAddr bufLength =>
    rw [entryPtr_aligned hAligned]
    rfl
  | lapic => rfl
  | ioapic => rfl
  | apu phAddr => rfl

/-- The pages that the calls map, with those they start with. -/
def devicePages (calls : List Call) : List Word := calls.flatMap fun c => c.start :: c.pages

theorem calls_prepared {tables : Nat → Word} {count : Nat} (hSupply : Supply tables count) {cr3 : Word}
    (hCr3 : cr3.toNat < 2 ^ 47) (hAligned : cr3.toNat % 2 ^ 12 = 0) {pages : List Word} {calls : List Call}
    (hFit : ∀ c ∈ calls, c.Fit) (hAll : ∀ p ∈ devicePages calls, p ∈ pages) {s : State}
    (h : Prepared tables count (frame cr3) pages s.memory s.calls) :
    ∃ t, calls.foldlM (Call.run tables cr3) s = some t ∧ Prepared tables count (frame cr3) pages t.memory
      t.calls ∧
      ∀ v, translation t.memory (frame cr3) v = if ∃ c ∈ calls, ∃ p ∈ c.pages, InPage p v then some (directPage v)
        else translation s.memory (frame cr3) v := by
  induction calls generalizing s with
  | nil => exact ⟨s, rfl, h, fun v => by simp⟩
  | cons c calls ih =>
    have hHere : ∀ p ∈ c.start :: c.pages, p ∈ pages := fun p hp =>
      hAll p (List.mem_flatMap.mpr ⟨c, List.mem_cons_self, hp⟩)
    obtain ⟨s', hCall, hNext, hMap⟩ := mapDevice_prepared hSupply hCr3 h rfl (hHere _ List.mem_cons_self)
      (hFit c List.mem_cons_self).devicePages fun p hp => hHere p (List.mem_cons_of_mem _ hp)
    have hLater : ∀ p ∈ devicePages calls, p ∈ pages := by
      intro p hp
      apply hAll p
      rw [devicePages, List.flatMap_cons]
      exact List.mem_append_right _ hp
    obtain ⟨t, hRest, hPrepared, hWalk⟩ := ih (fun d hd => hFit d (List.mem_cons_of_mem _ hd)) hLater hNext
    refine ⟨t, ?_, hPrepared, fun v => ?_⟩
    · rw [List.foldlM_cons, Call.run_eq tables hAligned, hCall]
      exact hRest
    · rw [hWalk v, hMap v]
      by_cases hIn : ∃ p ∈ c.pages, InPage p v
      · rw [if_pos hIn, ite_self, if_pos ⟨c, List.mem_cons_self, hIn⟩]
      · rw [if_neg hIn]
        refine if_congr ?_ rfl rfl
        rw [List.exists_mem_cons_iff, or_iff_right hIn]

/-- Whatever the new tables were left with, the pages of all devices are mapped, and no other address is
touched. -/
theorem devices_mapped {tables : Nat → Word} {count : Nat} (hSupply : Supply tables count) {cr3 : Word}
    (hCr3 : cr3.toNat < 2 ^ 47) (hAligned : cr3.toNat % 2 ^ 12 = 0) {calls : List Call}
    (hFit : ∀ c ∈ calls, c.Fit) {s : State}
    (h : Prepared tables count (frame cr3) (devicePages calls) s.memory s.calls) :
    ∃ t, calls.foldlM (Call.run tables cr3) s = some t ∧
      ∀ v, translation t.memory (frame cr3) v = if ∃ c ∈ calls, ∃ p ∈ c.pages, InPage p v then some (directPage v)
        else translation s.memory (frame cr3) v := by
  obtain ⟨t, hRun, -, hMap⟩ := calls_prepared hSupply hCr3 hAligned hFit (fun _ hp => hp) h
  exact ⟨t, hRun, hMap⟩

/-- The tables are handed out full of old entries here. -/
theorem devices_mapped_old : ∃ t,
    [Call.frameBuffer 0xe0000000 0x300000, .lapic, .ioapic].foldlM
        (Call.run (fun j => 0x2000 + 0x1000 * BitVec.ofNat 64 j) 0x1000) ⟨fun f _ => if f = 1 then 0 else 0x83,
          0⟩ = some t ∧
      ∀ v, translation t.memory (frame 0x1000) v =
        if ∃ c ∈ [Call.frameBuffer 0xe0000000 0x300000, .lapic, .ioapic], ∃ p ∈ c.pages,
          InPage p v then some (directPage v)
        else translation (fun f _ => if f = 1 then 0 else 0x83) (frame 0x1000) v := by
  have hRoot : ∀ i, cleared (fun j => 0x2000 + 0x1000 * BitVec.ofNat 64 j) 2 0
    (fun f _ => if f = 1 then 0 else 0x83)
      (frame 0x1000) i = 0 := fun i => cleared_old (by decide) i
  have hEmpty : ∀ {is : List Slot} {g : Nat}, tableAt (cleared (fun j => 0x2000 + 0x1000 * BitVec.ofNat 64 j) 2 0
      fun f _ => if f = 1 then 0 else 0x83) is (frame 0x1000) = some g → is = [] ∧ g = 1 :=
    tableAt_empty fun i => congrArg present (hRoot i)
  have hMissing : missing (frame 0x1000) (devicePages [Call.frameBuffer 0xe0000000 0x300000, .lapic, .ioapic])
      (cleared (fun j => 0x2000 + 0x1000 * BitVec.ofNat 64 j) 2 0 fun f _ => if f = 1 then 0 else 0x83) =
        2 := by decide +kernel
  have hSupply : Supply (fun j => 0x2000 + 0x1000 * BitVec.ofNat 64 j) 2 := ⟨by decide, by decide, by decide⟩
  refine devices_mapped hSupply (by decide) (by decide) ?_ ?_
  · intro c hc
    have hCalls : c = .frameBuffer 0xe0000000 0x300000 ∨ c = .lapic ∨ c = .ioapic := by simpa using hc
    obtain rfl | rfl | rfl := hCalls
    · exact ⟨⟨by decide, by decide⟩, by decide⟩
    · trivial
    · trivial
  · constructor
    case readable =>
      rw [hRoot]
      decide
    case pml4 => exact fun _ => Or.inl (hRoot _)
    case pdpt => exact fun _ _ g hg => absurd (hEmpty hg).1 (List.cons_ne_nil _ _)
    case ownRoot => exact fun _ _ _ _ hg => (hEmpty hg).1
    case ownPdpt => exact fun _ _ g hg => absurd (hEmpty hg).1 (List.cons_ne_nil _ _)
    case ownPdt => exact fun _ _ g hg => absurd (hEmpty hg).1 (List.cons_ne_nil _ _)
    case enough => exact Nat.le_of_eq ((Nat.zero_add _).trans hMissing)
    case unused =>
      have hNe : ∀ j < 2, frame (0x2000 + 0x1000 * BitVec.ofNat 64 j) ≠ 1 := by decide
      exact fun j _ hj _ _ hg => hNe j hj (hEmpty hg).2
    case blank => exact fun j _ hj _ => congrArg present (if_pos ⟨j, hj, Nat.zero_le j, rfl⟩)
    case tested => exact fun _ _ _ => if_pos ⟨0, Nat.zero_lt_two, Nat.le_refl 0, rfl⟩

end KalinoteOS.Paging
