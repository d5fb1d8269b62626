import KalinoteOS.Lib.UserAccess
import KalinoteOS.Paging.Access
import KalinoteOS.Scheduler.Schedule

/-! # `do_execve`

The page for the user program, and what of the memory the program can reach.
-/
namespace KalinoteOS.Paging
open Lib PageWalk
set_option autoImplicit false

/-- The registers that are set. -/
structure PtRegs where
  r10 : Word
  r11 : Word
  rax : Word
  ds : Word
  es : Word

/-- `flags` and `addrLimit` are those of `current`. -/
structure ExecState where
  memory : PhysMem
  regs : PtRegs
  flags : Word
  addrLimit : Word

/-- A write of the kernel through the page tables. -/
def storeLinear (m : PhysMem) (root : Nat) (address w : Word) : Option PhysMem :=
  (translation m root address).map fun p => m.store (p.address address / 2 ^ 12)
    (slotOf (p.address address / 8)) w

/-- The quadwords of `memcpy`. There are no bytes left of 1024. -/
def memcpy (root : Nat) : PhysMem → Word → List Word → Option PhysMem
  | m, _, [] => some m
  | m, dest, w :: words => do
    let m ← storeLinear m root dest w
    memcpy root m (dest + 8) words

def addr : Word := 0x800000

/-- `first` and `second` are the tables of the two calls of `kmalloc`, `page` is the page of `alloc_pages`, by
their physical addresses; `code` is read at `user_level_function`. The index is added before `Phy_To_Virt` here,
to the same pointer. -/
def doExecve (cr3 first second page : Word) (code : Fin 128 → Word) (s : ExecState) : Option ExecState := do
  let regs : PtRegs := ⟨0x800000, 0xa00000, 1, 0, 0⟩
  let tmp := entryPtr cr3 addr 39
  let virtual := phyToVirt first
  let memory ← store s.memory tmp (mkEntry (virtToPhy virtual) pageUserGdt)
  let e ← load memory tmp
  let tmp := entryPtr e addr 30
  let virtual := phyToVirt second
  let memory ← store memory tmp (mkEntry (virtToPhy virtual) pageUserDir)
  let e ← load memory tmp
  let tmp := entryPtr e addr 21
  let memory ← store memory tmp (mkEntry page pageUserPage)
  let addrLimit := if s.flags &&& Scheduler.pfKthread = 0 then 0xffff800000000000 else s.addrLimit
  let memory ← memcpy (frame cr3) memory 0x800000 (List.ofFn code)
  some ⟨memory, regs, s.flags, addrLimit⟩

/-! ## What the user reaches -/

/-- The addresses of the page of the program. -/
def InUserPage (v : Word) : Prop := 0x800000 ≤ v.toNat ∧ v.toNat < 0xa00000

instance (v : Word) : Decidable (InUserPage v) := inferInstanceAs (Decidable (_ ∧ _))

/-- The user reaches the page and no other. -/
def ExposesOnly (m : PhysMem) (root : Nat) (page : Word) : Prop :=
  ∀ v, userPage m root v = if InUserPage v then some ⟨frame page, 1, true⟩ else none

/-- The user reaches nothing yet; the two tables and the page are at hand and not in use. -/
structure Start (cr3 first second page : Word) (m : PhysMem) : Prop where
  kernel : ∀ v, userPage m (frame cr3) v = none
  root : cr3.toNat < 2 ^ 47
  aligned : first.toNat % 2 ^ 12 = 0 ∧ second.toNat % 2 ^ 12 = 0 ∧ page.toNat % 2 ^ 21 = 0
  low : first.toNat < 2 ^ 47 ∧ second.toNat < 2 ^ 47 ∧ page.toNat < 2 ^ 47
  different : [frame first, frame second, frame page].Nodup
  unused : ∀ f ∈ [frame first, frame second, frame page], ∀ is, is.length ≤ 3 → tableAt m is (frame cr3) ≠ some f

/-- The memory with the code in its page. -/
def withCode (m : PhysMem) (page : Word) (code : Fin 128 → Word) : PhysMem := fun f i =>
  if h : f = frame page ∧ i.val < 128 then code ⟨i, h.2⟩ else m f i

/-- The tables that get an entry. -/
def Touched (cr3 first second : Word) (f : Nat) : Prop := f = frame cr3 ∨ f = frame first ∨ f = frame second

/-- What the new tables hold in the other slots gives the user no page. -/
def Sealed (cr3 first second page : Word) (code : Fin 128 → Word) (m : PhysMem) : Prop :=
  (∀ i ≠ slotOf 0, ¬Gives (withCode m page code) (Touched cr3 first second) 2 (m (frame first) i)) ∧
    ∀ i ≠ slotOf 4, ¬Gives (withCode m page code) (Touched cr3 first second) 1 (m (frame second) i)

/-! ## The entries -/

def tableEntry (x : Word) : Word := mkEntry x pageUserGdt

def userPageEntry (x : Word) : Word := mkEntry x pageUserPage

section
variable {x : Word}

theorem tableEntry_spec (hAligned : x.toNat % 2 ^ 12 = 0) (hLow : x.toNat < 2 ^ 47) :
    userEntry (tableEntry x) = true ∧ large (tableEntry x) = false ∧ frame (tableEntry x) = frame x ∧
      (tableEntry x).toNat < 2 ^ 47 := by
  have hNat := toNat_mkEntry hAligned (show pageUserGdt.toNat < 2 ^ 12 by decide)
  have hAttr : pageUserGdt.toNat = 7 := rfl
  refine ⟨?_, ?_, frame_mkEntry hAligned (by decide), ?_⟩
  · unfold userEntry present userBit tableEntry
    rw [getLsbD_mkEntry hAligned (by decide), getLsbD_mkEntry hAligned (by decide)]
    decide
  · unfold large tableEntry
    rw [getLsbD_mkEntry hAligned (by decide)]
    decide
  · change (mkEntry x pageUserGdt).toNat < 2 ^ 47
    omega

theorem userPageEntry_spec (hAligned : x.toNat % 2 ^ 21 = 0) :
    userEntry (userPageEntry x) = true ∧ large (userPageEntry x) = true ∧
      frame (userPageEntry x) / 512 ^ 1 * 512 ^ 1 = frame x := by
  have hSmall : x.toNat % 2 ^ 12 = 0 := by omega
  have hFrame : frame (userPageEntry x) = frame x := frame_mkEntry hSmall (by decide)
  refine ⟨?_, ?_, ?_⟩
  · unfold userEntry present userBit userPageEntry
    rw [getLsbD_mkEntry hSmall (by decide), getLsbD_mkEntry hSmall (by decide)]
    decide
  · unfold large userPageEntry
    rw [getLsbD_mkEntry hSmall (by decide)]
    decide
  · rw [hFrame]
    unfold frame
    omega

end

/-! ## The slots of an address -/

theorem exists_slots (a b c d : Slot) : ∃ v : Word, Canonical v ∧ slots v = [a, b, c, d] := by
  have ha := a.isLt
  have hb := b.isLt
  have hc := c.isLt
  have hd := d.isLt
  -- the upper half for the upper slots
  let n : Nat := a * 2 ^ 39 + b * 2 ^ 30 + c * 2 ^ 21 + d * 2 ^ 12 + if a.val < 256 then 0 else 0xffff * 2 ^ 48
  have hn : n = a * 2 ^ 39 + b * 2 ^ 30 + c * 2 ^ 21 + d * 2 ^ 12 + if a.val < 256 then 0 else 0xffff *
    2 ^ 48 := rfl
  have hLt : n < 2 ^ 64 := by
    split at hn <;> omega
  have hNat : (BitVec.ofNat 64 n).toNat = n := by
    rw [BitVec.toNat_ofNat]
    exact Nat.mod_eq_of_lt hLt
  refine ⟨BitVec.ofNat 64 n, ?_, ?_⟩
  · unfold Canonical
    rw [hNat]
    split at hn <;> omega
  · have hSlot : ∀ (level : Nat) (i : Slot), n / 2 ^ (12 + 9 * level) % 512 = i →
      slot (BitVec.ofNat 64 n) level = i := by
      intro level i h
      apply Fin.ext
      rw [← h, slot_val, hNat]
    unfold slots
    rw [hSlot 3 a, hSlot 2 b, hSlot 1 c, hSlot 0 d]
    all_goals split at hn <;> omega

theorem inUserPage_iff {v : Word} (h : Canonical v) :
    InUserPage v ↔ slot v 3 = slotOf 0 ∧ slot v 2 = slotOf 0 ∧ slot v 1 = slotOf 4 := by
  have hLt := v.isLt
  have hZero : (slotOf 0 : Nat) = 0 := rfl
  have hFour : (slotOf 4 : Nat) = 4 := rfl
  unfold Canonical at h
  unfold InUserPage
  rw [Fin.ext_iff, Fin.ext_iff, Fin.ext_iff, slot_val, slot_val, slot_val, hZero, hFour]
  omega

theorem InUserPage.canonical {v : Word} (h : InUserPage v) : Canonical v := Or.inl (by have h := h.2; omega)

/-! ## The run -/

/-- The memory with the three entries. -/
def withTables (cr3 first second page : Word) (m : PhysMem) : PhysMem :=
  ((m.store (frame cr3) (slotOf 0) (tableEntry first)).store (frame first) (slotOf 0) (tableEntry second)).store
    (frame second) (slotOf 4) (userPageEntry page)

/-- The memory after the run. -/
def finalMemory (cr3 first second page : Word) (code : Fin 128 → Word) (m : PhysMem) : PhysMem :=
  withCode (withTables cr3 first second page m) page code

/-- The three entries are there. -/
structure Mapped (cr3 first second page : Word) (m : PhysMem) : Prop where
  pml4 : m (frame cr3) (slotOf 0) = tableEntry first
  pdpt : m (frame first) (slotOf 0) = tableEntry second
  pdt : m (frame second) (slotOf 4) = userPageEntry page

/-- The memory with words of the page from slot `k` on. -/
def withWords (m : PhysMem) (page : Word) (k : Nat) (words : List Word) : PhysMem := fun f i =>
  if f = frame page ∧ k ≤ i then (words[i.val - k]?).getD (m f i) else m f i

theorem withWords_code (m : PhysMem) (page : Word) (code : Fin 128 → Word) :
    withWords m page 0 (List.ofFn code) = withCode m page code := by
  funext f i
  unfold withWords withCode
  rw [List.getElem?_ofFn, Nat.sub_zero]
  by_cases hFrame : f = frame page
  · by_cases hLow : i.val < 128
    · rw [if_pos ⟨hFrame, Nat.zero_le _⟩, dif_pos hLow, dif_pos ⟨hFrame, hLow⟩]
      rfl
    · rw [if_pos ⟨hFrame, Nat.zero_le _⟩, dif_neg hLow, dif_neg fun h => hLow h.2]
      rfl
  · rw [if_neg fun h => hFrame h.1, dif_neg fun h => hFrame h.1]

theorem withWords_cons (m : PhysMem) (page : Word) {k : Nat} (hk : k < 512) (w : Word) (words : List Word) :
    withWords (m.store (frame page) (slotOf k) w) page (k + 1) words = withWords m page k (w :: words) := by
  have hSlot : (slotOf k : Nat) = k := Nat.mod_eq_of_lt hk
  funext f i
  unfold withWords
  by_cases hFrame : f = frame page
  · obtain hLt | hEq | hGt := Nat.lt_trichotomy i k
    · have hNe : i ≠ slotOf k := fun h => by
        rw [h, hSlot] at hLt
        exact Nat.lt_irrefl k hLt
      rw [if_neg fun h => by omega, if_neg fun h => by omega, store_ne w fun h => hNe h.2]
    · have hSame : i = slotOf k := Fin.ext (hEq.trans hSlot.symm)
      rw [if_neg fun h => by omega, if_pos ⟨hFrame, Nat.le_of_eq hEq.symm⟩, hFrame, hSame, store_self, hSlot,
        Nat.sub_self]
      rfl
    · have hNe : i ≠ slotOf k := fun h => by
        rw [h, hSlot] at hGt
        exact Nat.lt_irrefl k hGt
      have hNext : i.val - k = i.val - (k + 1) + 1 := by omega
      rw [if_pos ⟨hFrame, hGt⟩, if_pos ⟨hFrame, Nat.le_of_lt hGt⟩, store_ne w fun h => hNe h.2, hNext,
        List.getElem?_cons_succ]
  · rw [if_neg fun h => hFrame h.1, if_neg fun h => hFrame h.1, store_frame_ne w hFrame]

section
variable {cr3 first second page : Word} {m : PhysMem}

theorem Start.ne (hStart : Start cr3 first second page m) : (frame cr3 ≠ frame first ∧ frame cr3 ≠ frame second ∧
    frame cr3 ≠ frame page) ∧ frame first ≠ frame second ∧ frame first ≠ frame page ∧
      frame second ≠ frame page := by
  have hRoot : ∀ f ∈ [frame first, frame second, frame page], frame cr3 ≠ f := fun f hf hEq =>
    hStart.unused f hf [] (by decide) (congrArg some hEq)
  have hDifferent := hStart.different
  simp only [List.nodup_cons, List.mem_cons, List.not_mem_nil, or_false, not_or] at hDifferent
  obtain ⟨⟨hSecond, hPage⟩, hLast, -⟩ := hDifferent
  exact ⟨⟨hRoot _ (by simp), hRoot _ (by simp), hRoot _ (by simp)⟩, hSecond, hPage, hLast⟩

variable (hStart : Start cr3 first second page m)

include hStart in
theorem Start.mapped : Mapped cr3 first second page (withTables cr3 first second page m) := by
  obtain ⟨⟨hFirst, hSecond, -⟩, hNe, -, -⟩ := hStart.ne
  constructor
  · unfold withTables
    rw [store_frame_ne _ hSecond, store_frame_ne _ hFirst, store_self]
  · unfold withTables
    rw [store_frame_ne _ hNe, store_self]
  · exact store_self _ _ _

include hStart in
theorem Mapped.store_page {m' : PhysMem} (hMapped : Mapped cr3 first second page m') (i : Slot) (w : Word) :
    Mapped cr3 first second page (m'.store (frame page) i w) := by
  obtain ⟨⟨-, -, hRoot⟩, -, hFirst, hSecond⟩ := hStart.ne
  constructor
  · rw [store_frame_ne w hRoot]
    exact hMapped.pml4
  · rw [store_frame_ne w hFirst]
    exact hMapped.pdpt
  · rw [store_frame_ne w hSecond]
    exact hMapped.pdt

section
variable {m' : PhysMem} (hMapped : Mapped cr3 first second page m')

include hStart hMapped in
theorem Mapped.walk_first (is : List Slot) : userWalk m' (slotOf 0 :: is) (frame cr3) = userWalk m' is
    (frame first) := by
  obtain ⟨hUser, hLarge, hFrame, -⟩ := tableEntry_spec hStart.aligned.1 hStart.low.1
  rw [← hMapped.pml4] at hUser hLarge hFrame
  rw [userWalk_next hUser fun h => Bool.false_ne_true (hLarge.symm.trans h.1), hFrame]

include hStart hMapped in
theorem Mapped.walk_second (is : List Slot) : userWalk m' (slotOf 0 :: is) (frame first) = userWalk m' is
    (frame second) := by
  obtain ⟨hUser, hLarge, hFrame, -⟩ := tableEntry_spec hStart.aligned.2.1 hStart.low.2.1
  rw [← hMapped.pdpt] at hUser hLarge hFrame
  rw [userWalk_next hUser fun h => Bool.false_ne_true (hLarge.symm.trans h.1), hFrame]

include hStart hMapped in
theorem Mapped.walk_page (d : Slot) : userWalk m' [slotOf 4, d] (frame second) = some ⟨frame page, 1, true⟩ := by
  obtain ⟨hUser, hLarge, hFrame⟩ := userPageEntry_spec hStart.aligned.2.2
  rw [← hMapped.pdt] at hUser hLarge hFrame
  rw [userWalk_large hUser hLarge (List.cons_ne_nil d []) (by decide : 1 < 3), ← hFrame]
  rfl

end

include hStart in
theorem Mapped.userPage {m' : PhysMem} (hMapped : Mapped cr3 first second page m') {v : Word}
    (hv : InUserPage v) :
    PageWalk.userPage m' (frame cr3) v = some ⟨frame page, 1, true⟩ := by
  obtain ⟨h₃, h₂, h₁⟩ := (inUserPage_iff hv.canonical).mp hv
  rw [userPage_eq hv.canonical, slots, h₃, h₂, h₁, hMapped.walk_first hStart, hMapped.walk_second hStart,
    hMapped.walk_page hStart]

include hStart in
theorem Mapped.storeLinear {m' : PhysMem} (hMapped : Mapped cr3 first second page m') {k : Nat} (hk : k < 512)
    (w : Word) :
    storeLinear m' (frame cr3) (BitVec.ofNat 64 (0x800000 + 8 * k)) w =
      some (m'.store (frame page) (slotOf k) w) := by
  have hNat : (BitVec.ofNat 64 (0x800000 + 8 * k)).toNat = 0x800000 + 8 * k := by
    rw [BitVec.toNat_ofNat]
    omega
  have hIn : InUserPage (BitVec.ofNat 64 (0x800000 + 8 * k)) := by
    unfold InUserPage
    omega
  have hTranslate : translation m' (frame cr3) (BitVec.ofNat 64 (0x800000 + 8 * k)) =
    some ⟨frame page, 1, true⟩ :=
    (Option.filter_eq_some_iff.mp (hMapped.userPage hStart hIn)).1
  have hAddress : Page.address ⟨frame page, 1, true⟩ (BitVec.ofNat 64 (0x800000 + 8 * k)) = frame page *
    2 ^ 12 + 8 * k := by
    unfold Page.address
    rw [hNat]
    dsimp only
    omega
  unfold Paging.storeLinear
  rw [hTranslate, Option.map_some, hAddress]
  have hFrame : (frame page * 2 ^ 12 + 8 * k) / 2 ^ 12 = frame page := by omega
  have hSlot : slotOf ((frame page * 2 ^ 12 + 8 * k) / 8) = slotOf k := by
    apply Fin.ext
    change (frame page * 2 ^ 12 + 8 * k) / 8 % 512 = k % 512
    omega
  rw [hFrame, hSlot]

include hStart in
theorem Mapped.memcpy {m' : PhysMem} (hMapped : Mapped cr3 first second page m') (words : List Word) {k : Nat}
    (hk : k + words.length ≤ 512) :
    memcpy (frame cr3) m' (BitVec.ofNat 64 (0x800000 + 8 * k)) words = some (withWords m' page k words) := by
  induction words generalizing m' k with
  | nil =>
    refine congrArg some (funext fun f => funext fun i => ?_)
    unfold withWords
    exact (ite_self _).symm
  | cons w words ih =>
    rw [List.length_cons] at hk
    have hNext : BitVec.ofNat 64 (0x800000 + 8 * k) + 8 = BitVec.ofNat 64 (0x800000 + 8 * (k + 1)) := by
      rw [Nat.mul_add, ← Nat.add_assoc]
      exact (BitVec.ofNat_add (0x800000 + 8 * k) (8 * 1)).symm
    unfold Paging.memcpy
    rw [hMapped.storeLinear hStart (by omega) w, Option.bind_eq_bind, Option.bind_some, hNext,
      ih (hMapped.store_page hStart (slotOf k) w) (by omega), withWords_cons m' page (by omega) w words]

end

section
variable {cr3 first second page : Word} {code : Fin 128 → Word} {s : ExecState}
  (hStart : Start cr3 first second page s.memory)

include hStart in
theorem doExecve_eq : doExecve cr3 first second page code s =
    some ⟨finalMemory cr3 first second page code s.memory, ⟨0x800000, 0xa00000, 1, 0, 0⟩, s.flags,
      if s.flags &&& Scheduler.pfKthread = 0 then 0xffff800000000000 else s.addrLimit⟩ := by
  obtain ⟨-, -, hFrame₁, hLow₁⟩ := tableEntry_spec hStart.aligned.1 hStart.low.1
  obtain ⟨-, -, hFrame₂, hLow₂⟩ := tableEntry_spec hStart.aligned.2.1 hStart.low.2.1
  have hLocate₀ : locate (entryPtr cr3 addr 39) = some (frame cr3, slotOf 0) := locate_entryPtr hStart.root addr 3
  have hLocate₁ : locate (entryPtr (tableEntry first) addr 30) = some (frame first, slotOf 0) :=
    hFrame₁ ▸ locate_entryPtr hLow₁ addr 2
  have hLocate₂ : locate (entryPtr (tableEntry second) addr 21) = some (frame second, slotOf 4) :=
    hFrame₂ ▸ locate_entryPtr hLow₂ addr 1
  have hFirst : store s.memory (entryPtr cr3 addr 39) (mkEntry (virtToPhy (phyToVirt first)) pageUserGdt) =
      some (s.memory.store (frame cr3) (slotOf 0) (tableEntry first)) := by
    rw [virtToPhy_phyToVirt]
    exact store_eq hLocate₀ s.memory _
  generalize hM₁ : s.memory.store (frame cr3) (slotOf 0) (tableEntry first) = m₁ at hFirst
  have hLoad₁ : load m₁ (entryPtr cr3 addr 39) = some (tableEntry first) := by
    rw [load_eq hLocate₀, ← hM₁, store_self]
  have hSecond : store m₁ (entryPtr (tableEntry first) addr 30)
    (mkEntry (virtToPhy (phyToVirt second)) pageUserDir) =
      some (m₁.store (frame first) (slotOf 0) (tableEntry second)) := by
    rw [virtToPhy_phyToVirt]
    exact store_eq hLocate₁ m₁ _
  generalize hM₂ : m₁.store (frame first) (slotOf 0) (tableEntry second) = m₂ at hSecond
  have hLoad₂ : load m₂ (entryPtr (tableEntry first) addr 30) = some (tableEntry second) := by
    rw [load_eq hLocate₁, ← hM₂, store_self]
  have hPage : store m₂ (entryPtr (tableEntry second) addr 21) (mkEntry page pageUserPage) =
      some (withTables cr3 first second page s.memory) := by
    rw [store_eq hLocate₂, ← hM₂, ← hM₁]
    rfl
  have hCopy : memcpy (frame cr3) (withTables cr3 first second page s.memory) 0x800000 (List.ofFn code) =
      some (finalMemory cr3 first second page code s.memory) := by
    unfold finalMemory
    rw [← withWords_code]
    exact hStart.mapped.memcpy hStart (k := 0) (List.ofFn code) (by rw [List.length_ofFn]; decide)
  unfold doExecve
  dsimp only
  rw [hFirst, Option.bind_eq_bind, Option.bind_some, hLoad₁, Option.bind_eq_bind, Option.bind_some, hSecond,
    Option.bind_some, hLoad₂, Option.bind_some, hPage, Option.bind_some, hCopy, Option.bind_some]

end

/-! ## What has changed -/

section
variable {cr3 first second page : Word} {code : Fin 128 → Word} {m : PhysMem}

theorem finalMemory_ne {f : Nat} (h : f ≠ frame page) (i : Slot) :
    finalMemory cr3 first second page code m f i = withTables cr3 first second page m f i :=
      dif_neg fun hHit => h hHit.1

theorem withTables_untouched {f : Nat} (h : ¬Touched cr3 first second f) (i : Slot) :
    withTables cr3 first second page m f i = m f i := by
  unfold Touched at h
  rw [not_or, not_or] at h
  unfold withTables
  rw [store_frame_ne _ h.2.2, store_frame_ne _ h.2.1, store_frame_ne _ h.1]

theorem finalMemory_untouched {f : Nat} (h : ¬Touched cr3 first second f) (i : Slot) :
    finalMemory cr3 first second page code m f i = withCode m page code f i := by
  unfold finalMemory withCode
  rw [withTables_untouched h]

theorem changed_cases {f : Nat} {i : Slot} (h : finalMemory cr3 first second page code m f i ≠ m f i) :
    f = frame cr3 ∧ i = slotOf 0 ∨ f = frame first ∧ i = slotOf 0 ∨ f = frame second ∧ i = slotOf 4 ∨
      f = frame page := by
  by_contra hNone
  rw [not_or, not_or, not_or] at hNone
  refine h ?_
  rw [finalMemory_ne hNone.2.2.2]
  unfold withTables
  rw [store_ne _ hNone.2.2.1, store_ne _ hNone.2.1, store_ne _ hNone.1]

variable (hStart : Start cr3 first second page m)

include hStart in
theorem Start.final_mapped (code : Fin 128 → Word) :
    Mapped cr3 first second page (finalMemory cr3 first second page code m) := by
  obtain ⟨⟨-, -, hRoot⟩, -, hFirst, hSecond⟩ := hStart.ne
  have hMapped := hStart.mapped
  constructor
  · rw [finalMemory_ne hRoot]
    exact hMapped.pml4
  · rw [finalMemory_ne hFirst]
    exact hMapped.pdpt
  · rw [finalMemory_ne hSecond]
    exact hMapped.pdt

include hStart in
theorem Start.first_same {i : Slot} (h : i ≠ slotOf 0) :
    finalMemory cr3 first second page code m (frame first) i = m (frame first) i := by
  obtain ⟨⟨hRoot, -, -⟩, hSecond, hPage, -⟩ := hStart.ne
  by_contra hChanged
  obtain ⟨hEq, -⟩ | ⟨-, hSlot⟩ | ⟨hEq, -⟩ | hEq := changed_cases hChanged
  · exact hRoot hEq.symm
  · exact h hSlot
  · exact hSecond hEq
  · exact hPage hEq

include hStart in
theorem Start.second_same {i : Slot} (h : i ≠ slotOf 4) :
    finalMemory cr3 first second page code m (frame second) i = m (frame second) i := by
  obtain ⟨⟨-, hRoot, -⟩, hFirst, -, hPage⟩ := hStart.ne
  by_contra hChanged
  obtain ⟨hEq, -⟩ | ⟨hEq, -⟩ | ⟨-, hSlot⟩ | hEq := changed_cases hChanged
  · exact hRoot hEq.symm
  · exact hFirst hEq.symm
  · exact h hSlot
  · exact hPage hEq

include hStart in
/-- Each table with a new entry gives the user a page. -/
theorem Mapped.gives {m' : PhysMem} (hMapped : Mapped cr3 first second page m') {f : Nat}
    (hTouched : Touched cr3 first second f) {n : Nat} (hn : n ≤ 1) : ∃ i,
      Gives m' (fun _ => False) n (m' f i) := by
  obtain ⟨hUser₁, hLarge₁, hFrame₁, -⟩ := tableEntry_spec hStart.aligned.1 hStart.low.1
  obtain ⟨hUser₂, hLarge₂, hFrame₂, -⟩ := tableEntry_spec hStart.aligned.2.1 hStart.low.2.1
  obtain ⟨hUser₃, hLarge₃, -⟩ := userPageEntry_spec hStart.aligned.2.2
  rw [← hMapped.pml4] at hUser₁ hFrame₁
  rw [← hMapped.pdpt] at hUser₂ hFrame₂
  rw [← hMapped.pdt] at hUser₃ hLarge₃
  obtain rfl | rfl := Nat.le_one_iff_eq_zero_or_eq_one.mp hn
  · obtain rfl | rfl | rfl := hTouched
    · exact ⟨slotOf 0, hUser₁⟩
    · exact ⟨slotOf 0, hUser₂⟩
    · exact ⟨slotOf 4, hUser₃⟩
  · obtain rfl | rfl | rfl := hTouched
    · refine ⟨slotOf 0, hUser₁, Or.inr (Or.inr ⟨slotOf 0, ?_⟩)⟩
      rw [hFrame₁]
      exact hUser₂
    · refine ⟨slotOf 0, hUser₂, Or.inr (Or.inr ⟨slotOf 4, ?_⟩)⟩
      rw [hFrame₂]
      exact hUser₃
    · exact ⟨slotOf 4, hUser₃, Or.inl hLarge₃⟩

include hStart in
/-- An entry that was there gives a page after the run. -/
theorem Start.gives_iff {n : Nat} (hn : n ≤ 2) {f : Nat} {i : Slot}
    (hSame : finalMemory cr3 first second page code m f i = m f i) :
    Gives (withCode m page code) (Touched cr3 first second) n (m f i) ↔
      ∃ js, js.length = n ∧ userWalk (finalMemory cr3 first second page code m) (i :: js) f ≠ none := by
  rw [← PageWalk.gives_iff hn, hSame]
  exact (gives_touched (fun _ => finalMemory_untouched)
    (fun _ hTouched _ hLevel => (hStart.final_mapped code).gives hStart hTouched hLevel) hn _).symm

include hStart in
theorem Start.userWalk_none {is : List Slot} (hLength : is.length = 4) : userWalk m is (frame cr3) = none := by
  match is, hLength with
  | [a, b, c, d], _ =>
    obtain ⟨v, hCanonical, hSlots⟩ := exists_slots a b c d
    rw [← hSlots, ← userPage_eq hCanonical]
    exact hStart.kernel v

include hStart in
/-- The other half of the tables gives the user nothing, as before. -/
theorem Start.kernel_none {a : Slot} (ha : a ≠ slotOf 0) {is : List Slot} (hLength : is.length = 3) :
    userWalk (finalMemory cr3 first second page code m) (a :: is) (frame cr3) = none := by
  obtain hSame | ⟨js, i, ks, g, hSplit, hTable, hChanged⟩ := userWalk_changed (m := m) (a :: is) (frame cr3)
  · rw [hSame]
    exact hStart.userWalk_none (congrArg (· + 1) hLength)
  · have hShort : js.length ≤ 3 := by
      have hBoth := congrArg List.length hSplit
      rw [List.length_append, List.length_cons, List.length_cons] at hBoth
      omega
    have hUnused : ∀ f ∈ [frame first, frame second, frame page], g ≠ f := fun f hf hEq =>
      hStart.unused f hf js hShort (hEq ▸ userTable_tableAt hTable)
    obtain ⟨rfl, hSlot⟩ | ⟨hEq, -⟩ | ⟨hEq, -⟩ | hEq := changed_cases hChanged
    · -- the first table would lead back to itself
      have hNe : js ≠ [] := by
        rintro rfl
        exact ha ((List.cons.inj hSplit).1.trans hSlot)
      obtain ⟨q, g, hFour, hq⟩ := userTable_cycle hNe hTable 4
      exact absurd ((userTable_walk hq).symm.trans (hStart.userWalk_none hFour)) (Option.some_ne_none _)
    · exact absurd hEq (hUnused _ (by simp))
    · exact absurd hEq (hUnused _ (by simp))
    · exact absurd hEq (hUnused _ (by simp))

/-- A walk that gives the user a page goes to that of the program. -/
theorem ExposesOnly.slots_eq {m : PhysMem} {root : Nat} (hOnly : ExposesOnly m root page) {a b c d : Slot}
    (hWalk : userWalk m [a, b, c, d] root ≠ none) : b = slotOf 0 ∧ c = slotOf 4 := by
  obtain ⟨v, hCanonical, hSlots⟩ := exists_slots a b c d
  rw [← hSlots, ← userPage_eq hCanonical, hOnly v] at hWalk
  have hIn : InUserPage v := by
    by_contra hNot
    exact hWalk (if_neg hNot)
  obtain ⟨-, h₂, h₁⟩ := (inUserPage_iff hCanonical).mp hIn
  unfold slots at hSlots
  injection hSlots with _ hSlots
  injection hSlots with hb hSlots
  injection hSlots with hc _
  exact ⟨hb ▸ h₂, hc ▸ h₁⟩

include hStart in
theorem Start.sealed (hOnly : ExposesOnly (finalMemory cr3 first second page code m) (frame cr3) page) :
    Sealed cr3 first second page code m := by
  have hMapped := hStart.final_mapped code
  constructor
  · intro i hi hGives
    obtain ⟨js, hLength, hWalk⟩ := (hStart.gives_iff (Nat.le_refl 2) (hStart.first_same hi)).mp hGives
    match js, hLength with
    | [c, d], _ =>
      rw [← hMapped.walk_first hStart] at hWalk
      exact hi (hOnly.slots_eq hWalk).1
  · intro i hi hGives
    obtain ⟨js, hLength, hWalk⟩ := (hStart.gives_iff (Nat.le_succ 1) (hStart.second_same hi)).mp hGives
    match js, hLength with
    | [d], _ =>
      rw [← hMapped.walk_second hStart, ← hMapped.walk_first hStart] at hWalk
      exact hi (hOnly.slots_eq hWalk).2

include hStart in
theorem Start.exposesOnly (hSealed : Sealed cr3 first second page code m) :
    ExposesOnly (finalMemory cr3 first second page code m) (frame cr3) page := by
  have hMapped := hStart.final_mapped code
  obtain ⟨hFirst, hSecond⟩ := hSealed
  intro v
  by_cases hIn : InUserPage v
  · rw [if_pos hIn]
    exact hMapped.userPage hStart hIn
  rw [if_neg hIn]
  by_cases hCanonical : Canonical v
  · rw [inUserPage_iff hCanonical] at hIn
    rw [userPage_eq hCanonical, slots]
    -- along the slots of the page, up to the first that is another
    by_cases h₃ : slot v 3 = slotOf 0
    · rw [h₃, hMapped.walk_first hStart]
      by_cases h₂ : slot v 2 = slotOf 0
      · rw [h₂, hMapped.walk_second hStart]
        have h₁ : slot v 1 ≠ slotOf 4 := fun h => hIn ⟨h₃, h₂, h⟩
        by_contra hWalk
        exact hSecond _ h₁ ((hStart.gives_iff (Nat.le_succ 1) (hStart.second_same h₁)).mpr ⟨_, rfl, hWalk⟩)
      · by_contra hWalk
        exact hFirst _ h₂ ((hStart.gives_iff (Nat.le_refl 2) (hStart.first_same h₂)).mpr ⟨_, rfl, hWalk⟩)
    · exact hStart.kernel_none h₃ rfl
  · exact userPage_none hCanonical

end

theorem Start.of_blank {cr3 first second page : Word} {m : PhysMem} (hBlank : Blank m (frame cr3))
    (hRoot : cr3.toNat < 2 ^ 47)
    (hAligned : first.toNat % 2 ^ 12 = 0 ∧ second.toNat % 2 ^ 12 = 0 ∧ page.toNat % 2 ^ 21 = 0)
    (hLow : first.toNat < 2 ^ 47 ∧ second.toNat < 2 ^ 47 ∧ page.toNat < 2 ^ 47)
    (hDifferent : [frame cr3, frame first, frame second, frame page].Nodup) : Start cr3 first second page m := by
  obtain ⟨hNotMem, hOthers⟩ := List.nodup_cons.mp hDifferent
  refine ⟨fun v => ?_, hRoot, hAligned, hLow, hOthers, fun f hf is _ hTable => ?_⟩
  · unfold userPage translation
    rw [slots, walk_empty hBlank (List.cons_ne_nil _ _), ite_self]
    rfl
  · obtain ⟨-, rfl⟩ := tableAt_empty hBlank hTable
    exact hNotMem hf

/-- The user reaches the page alone exactly when the new tables are sealed. Then no two memories make a difference
to the user outside the page. -/
theorem doExecve_exposes_iff {cr3 first second page : Word} {code : Fin 128 → Word} {s : ExecState}
    (hStart : Start cr3 first second page s.memory) : ∃ t, doExecve cr3 first second page code s = some t ∧
      (ExposesOnly t.memory (frame cr3) page ↔ Sealed cr3 first second page code s.memory) ∧
      (Sealed cr3 first second page code s.memory → ∀ s' t', Start cr3 first second page s'.memory →
        Sealed cr3 first second page code s'.memory → doExecve cr3 first second page code s' = some t' →
        ∀ v, ¬InUserPage v → userView t'.memory (frame cr3) v = userView t.memory (frame cr3) v) := by
  refine ⟨_, doExecve_eq hStart, ⟨hStart.sealed, hStart.exposesOnly⟩,
    fun hSealed s' t' hStart' hSealed' hRun v hOutside => ?_⟩
  rw [doExecve_eq hStart'] at hRun
  obtain rfl := Option.some.inj hRun
  have hFirst := hStart.exposesOnly hSealed v
  have hSecond := hStart'.exposesOnly hSealed' v
  rw [if_neg hOutside] at hFirst hSecond
  unfold userView
  rw [hFirst, hSecond]
  rfl

theorem doExecve_exposes_iff_blank : ∃ t,
    doExecve 0x1000 0x2000 0x3000 0x200000 (fun _ => 0) ⟨fun _ _ => 0, ⟨0, 0, 0, 0, 0⟩, 0, 0⟩ = some t ∧
      (ExposesOnly t.memory (frame 0x1000) 0x200000 ↔
        Sealed 0x1000 0x2000 0x3000 0x200000 (fun _ => 0) fun _ _ => 0) ∧
      (Sealed 0x1000 0x2000 0x3000 0x200000 (fun _ => 0) (fun _ _ => 0) → ∀ s' t',
        Start 0x1000 0x2000 0x3000 0x200000 s'.memory →
        Sealed 0x1000 0x2000 0x3000 0x200000 (fun _ => 0) s'.memory →
        doExecve 0x1000 0x2000 0x3000 0x200000 (fun _ => 0) s' = some t' →
        ∀ v, ¬InUserPage v → userView t'.memory (frame 0x1000) v = userView t.memory (frame 0x1000) v) :=
  doExecve_exposes_iff (Start.of_blank (fun _ => zero_absent) (by decide) (by decide) (by decide) (by decide))

/-- The second table was left with a page at physical address 0. -/
theorem doExecve_leaks : ∃ m : PhysMem, Start 0x1000 0x2000 0x3000 0x200000 m ∧ ¬InUserPage 0xa00000 ∧
    (doExecve 0x1000 0x2000 0x3000 0x200000 (fun _ => 0) ⟨m, ⟨0, 0, 0, 0, 0⟩, 0, 0⟩).map
      (fun t => userPage t.memory (frame 0x1000) 0xa00000) = some (some ⟨0, 1, true⟩) := by
  refine ⟨fun f i => if f = 3 ∧ i = 5 then 0x87 else 0, Start.of_blank (fun _ => ?_) (by decide) (by decide)
    (by decide)
    (by decide), by decide, by decide +kernel⟩
  exact congrArg present (if_neg fun h => absurd h.1 (by decide))

end KalinoteOS.Paging
