import KalinoteOS.Lib.BlockStore
import KalinoteOS.Lib.Bytes

/-! # The memory map between the loader and the kernel

The loader writes the entries that the BIOS reports into a buffer that held kernel sectors
before, and passes neither their number nor an end mark. What it asks the BIOS about the display
comes to lie over the 26th place of the buffer. The kernel reads on until the next entry looks
invalid.
-/
namespace KalinoteOS.Memory
open Lib Lib.Bytes
set_option autoImplicit false

/-- `struct E820`, packed into 20 bytes. -/
structure E820 where
  address : BitVec 64
  length : BitVec 64
  type : BitVec 32
  deriving DecidableEq, Repr

abbrev memoryStructBufferAddr : Nat := 0x7e00

/-- What `int 15h` stores at `es:di`. -/
def writeE820 (m : Bytes) (a : Nat) (e : E820) : Bytes :=
  store (store (store m a 8 e.address.toNat) (a + 8) 8 e.length.toNat) (a + 16) 4 e.type.toNat

def readE820 (m : Bytes) (a : Nat) : E820 :=
  ⟨.ofNat 64 (load m a 8), .ofNat 64 (load m (a + 8) 8), .ofNat 32 (load m (a + 16) 4)⟩

/-- `Label_Get_Mem_Struct`, with the entries that the BIOS still reports; `di` has 16 bits. -/
def getMemStruct (m : Bytes) (di : Nat) : List E820 → Bytes
  | [] => m
  | e :: rest => getMemStruct (writeE820 m di e) ((di + 20) % 2 ^ 16) rest

/-- The block that `int 10h` stores for `ax = 4F00h`: a signature of four bytes, and the version with
its major number, which is 1 or more, in the upper byte. -/
structure VbeInfoBlock where
  block : List (BitVec 8)
  size : 256 ≤ block.length
  major : (block[5]?).getD 0 ≠ 0

abbrev vbeInfoAddr : Nat := 0x8000
abbrev modeInfoAddr : Nat := 0x8200

/-- From `Label_Get_Mem_OK` on: the information about the display and about its modes, each mode in
the place of the one before it. -/
def getSVGAInfo (m : Bytes) (vbe : VbeInfoBlock) (modes : List (List (BitVec 8))) : Bytes :=
  modes.foldl (fun m mode => BlockStore.write m modeInfoAddr mode) (BlockStore.write m vbeInfoAddr vbe.block)

/-- The test of `init_memory` on the next entry. -/
def endsMap (e : E820) : Prop := 4 < e.type.toNat ∨ e.length = 0 ∨ e.type.toNat < 1

instance (e : E820) : Decidable (endsMap e) := inferInstanceAs (Decidable (_ ∨ _ ∨ _))

/-- The first loop of `init_memory`, with `n` rounds left: the entries it copies. -/
def readMap (m : Bytes) : Nat → Nat → List E820
  | 0, _ => []
  | n + 1, p => readE820 m p :: if endsMap (readE820 m (p + 20)) then [] else readMap m n (p + 20)

/-- `e820[0..e820_length]`. -/
def e820Table (m : Bytes) : List E820 := readMap m 32 memoryStructBufferAddr

/-- The kernel's table for what the loader leaves when the BIOS reports `entries`. -/
def handOver (m : Bytes) (entries : List E820) (vbe : VbeInfoBlock) (modes : List (List (BitVec 8))) :
    List E820 :=
  e820Table (getSVGAInfo (getMemStruct m memoryStructBufferAddr entries) vbe modes)

/-- The 20 bytes behind the last entry look invalid already. -/
def EndsBehind (m : Bytes) (entries : List E820) : Prop :=
  endsMap (readE820 m (memoryStructBufferAddr + 20 * entries.length))

/-! ## One entry -/

theorem writeE820_other (m : Bytes) {a x : Nat} (e : E820) (h : x < a ∨ a + 20 ≤ x) :
    writeE820 m a e x = m x := by
  unfold writeE820
  rw [store_other _ _ (by omega), store_other _ _ (by omega), store_other _ _ (by omega)]

theorem readE820_congr {m m' : Bytes} {a : Nat} (h : ∀ x, a ≤ x → x < a + 20 → m x = m' x) :
    readE820 m a = readE820 m' a := by
  have hAddress : load m a 8 = load m' a 8 := load_congr fun x _ _ => h x (by omega) (by omega)
  have hLength : load m (a + 8) 8 = load m' (a + 8) 8 :=
    load_congr fun x _ _ => h x (by omega) (by omega)
  have hType : load m (a + 16) 4 = load m' (a + 16) 4 :=
    load_congr fun x _ _ => h x (by omega) (by omega)
  unfold readE820
  rw [hAddress, hLength, hType]

theorem readE820_writeE820 (m : Bytes) (a : Nat) (e : E820) : readE820 (writeE820 m a e) a = e := by
  have hAddress : load (writeE820 m a e) a 8 = e.address.toNat := by
    unfold writeE820
    rw [load_store_other _ _ (by omega), load_store_other _ _ (by omega), load_store]
    exact Nat.mod_eq_of_lt e.address.isLt
  have hLength : load (writeE820 m a e) (a + 8) 8 = e.length.toNat := by
    unfold writeE820
    rw [load_store_other _ _ (by omega), load_store]
    exact Nat.mod_eq_of_lt e.length.isLt
  have hType : load (writeE820 m a e) (a + 16) 4 = e.type.toNat := by
    unfold writeE820
    rw [load_store]
    exact Nat.mod_eq_of_lt e.type.isLt
  unfold readE820
  rw [hAddress, hLength, hType]
  simp only [BitVec.ofNat_toNat, BitVec.setWidth_eq]

/-! ## The list in memory -/

/-- The entries lie one behind the other from `p` on. -/
def Holds (m : Bytes) : Nat → List E820 → Prop
  | _, [] => True
  | p, e :: rest => readE820 m p = e ∧ Holds m (p + 20) rest

theorem getMemStruct_other (m : Bytes) {di x : Nat} (entries : List E820)
    (hFits : di + 20 * entries.length < 2 ^ 16) (h : x < di ∨ di + 20 * entries.length ≤ x) :
    getMemStruct m di entries x = m x := by
  induction entries generalizing m di with
  | nil => rfl
  | cons e rest ih =>
    rw [List.length_cons] at hFits h
    rw [getMemStruct, Nat.mod_eq_of_lt (by omega), ih _ (by omega) (by omega)]
    exact writeE820_other m e (by omega)

theorem getMemStruct_holds (m : Bytes) {di : Nat} (entries : List E820)
    (hFits : di + 20 * entries.length < 2 ^ 16) : Holds (getMemStruct m di entries) di entries := by
  induction entries generalizing m di with
  | nil => trivial
  | cons e rest ih =>
    rw [List.length_cons] at hFits
    rw [getMemStruct, Nat.mod_eq_of_lt (by omega)]
    constructor
    · refine (readE820_congr fun x _ hHigh => ?_).trans (readE820_writeE820 m di e)
      exact getMemStruct_other _ rest (by omega) (Or.inl hHigh)
    · exact ih _ (by omega)

/-- The kernel stops where the list ends exactly when what lies behind it looks invalid. -/
theorem readMap_eq_iff {m : Bytes} {n p : Nat} {entries : List E820} (hHolds : Holds m p entries)
    (hValid : ∀ e ∈ entries, ¬ endsMap e) (hNonempty : entries ≠ []) (hLt : entries.length < n) :
    readMap m n p = entries ↔ endsMap (readE820 m (p + 20 * entries.length)) := by
  induction entries generalizing n p with
  | nil => exact absurd rfl hNonempty
  | cons e rest ih =>
    obtain ⟨hRead, hRest⟩ := hHolds
    rw [List.length_cons] at hLt
    obtain ⟨n, rfl⟩ : ∃ k, n = k + 1 := ⟨n - 1, by omega⟩
    rw [readMap, hRead, List.cons_inj_right]
    cases rest with
    | nil =>
      obtain ⟨n, rfl⟩ : ∃ k, n = k + 1 := ⟨n - 1, by rw [List.length_nil] at hLt; omega⟩
      rw [List.length_singleton, readMap]
      split
      · next hEnd => exact ⟨fun _ => hEnd, fun _ => rfl⟩
      · next hEnd =>
        exact ⟨fun hCons => absurd hCons (List.cons_ne_nil _ _), fun h => absurd h hEnd⟩
    | cons e' rest =>
      have hNext : ¬ endsMap (readE820 m (p + 20)) := by
        rw [hRest.1]
        exact hValid e' (List.mem_cons_of_mem _ List.mem_cons_self)
      have hLater : p + 20 + 20 * (e' :: rest).length = p + 20 * (e :: e' :: rest).length := by
        simp only [List.length_cons]
        omega
      rw [if_neg hNext, ← hLater]
      exact ih hRest (fun u hu => hValid u (List.mem_cons_of_mem _ hu)) (List.cons_ne_nil _ _)
        (by omega)

theorem Holds.congr {m m' : Bytes} {p : Nat} {entries : List E820} (h : Holds m p entries)
    (hSame : ∀ x, p ≤ x → x < p + 20 * entries.length → m' x = m x) : Holds m' p entries := by
  induction entries generalizing p with
  | nil => trivial
  | cons e rest ih =>
    rw [List.length_cons] at hSame
    obtain ⟨hRead, hRest⟩ := h
    refine ⟨?_, ih hRest fun x hLow hHigh => hSame x (by omega) (by omega)⟩
    exact (readE820_congr fun x hLow hHigh => hSame x hLow (by omega)).trans hRead

/-! ## The blocks about the display -/

section
variable {m : Bytes} {vbe : VbeInfoBlock} {modes : List (List (BitVec 8))}

theorem getSVGAInfo_below {x : Nat} (h : x < modeInfoAddr) :
    getSVGAInfo m vbe modes x = BlockStore.write m vbeInfoAddr vbe.block x := by
  unfold getSVGAInfo
  generalize BlockStore.write m vbeInfoAddr vbe.block = m'
  induction modes generalizing m' with
  | nil => rfl
  | cons mode modes ih => rw [List.foldl_cons, ih, BlockStore.write_outside (Or.inl h)]

theorem getSVGAInfo_other {x : Nat} (h : x < vbeInfoAddr) : getSVGAInfo m vbe modes x = m x := by
  rw [getSVGAInfo_below (by unfold modeInfoAddr; unfold vbeInfoAddr at h; omega),
    BlockStore.write_outside (Or.inl h)]

/-- The version of the display is no type of an entry. -/
theorem endsMap_getSVGAInfo : endsMap (readE820 (getSVGAInfo m vbe modes)
    (memoryStructBufferAddr + 20 * 25)) := by
  have hSize := vbe.size
  have hIn : 5 < vbe.block.length := by omega
  have hByte : getSVGAInfo m vbe modes (vbeInfoAddr + 5) = vbe.block[5] := by
    rw [getSVGAInfo_below (by decide)]
    exact BlockStore.write_inside hIn
  have hMajor : 0 < (vbe.block[5]).toNat := by
    have hNe := vbe.major
    rw [List.getElem?_eq_getElem hIn] at hNe
    exact Nat.pos_of_ne_zero fun hZero => hNe (BitVec.eq_of_toNat_eq hZero)
  have hLoad : load (getSVGAInfo m vbe modes) (vbeInfoAddr + 4) 4 =
      (getSVGAInfo m vbe modes (vbeInfoAddr + 4)).toNat + 256 *
      ((getSVGAInfo m vbe modes (vbeInfoAddr + 5)).toNat +
        256 * load (getSVGAInfo m vbe modes) (vbeInfoAddr + 6) 2) := rfl
  have hBound := load_lt (getSVGAInfo m vbe modes) (vbeInfoAddr + 4) 4
  have hType : (readE820 (getSVGAInfo m vbe modes) (memoryStructBufferAddr + 20 * 25)).type.toNat =
      load (getSVGAInfo m vbe modes) (vbeInfoAddr + 4) 4 := by
    change (BitVec.ofNat 32 (load (getSVGAInfo m vbe modes) (vbeInfoAddr + 4) 4)).toNat = _
    rw [BitVec.toNat_ofNat]
    exact Nat.mod_eq_of_lt hBound
  refine Or.inl ?_
  rw [hType, hLoad, hByte]
  omega

end

/-- The kernel's table is the list of the BIOS exactly when 25 entries were reported, so that the
block about the display ends the map, or the bytes behind them, which nobody writes, look like no
entry. -/
theorem handOver_iff_ends (m : Bytes) (entries : List E820) (vbe : VbeInfoBlock) (modes : List (List (BitVec 8)))
    (hSome : 1 ≤ entries.length) (hFew : entries.length ≤ 25) (hValid : ∀ e ∈ entries, ¬ endsMap e) :
    handOver m entries vbe modes = entries ↔ entries.length = 25 ∨ EndsBehind m entries := by
  have hEnd : memoryStructBufferAddr + 20 * entries.length < vbeInfoAddr := by
    unfold memoryStructBufferAddr vbeInfoAddr
    omega
  have hFits : memoryStructBufferAddr + 20 * entries.length < 2 ^ 16 := Nat.lt_trans hEnd (by decide)
  have hHolds : Holds (getSVGAInfo (getMemStruct m memoryStructBufferAddr entries) vbe modes)
      memoryStructBufferAddr entries :=
    (getMemStruct_holds m entries hFits).congr fun x _ hHigh => getSVGAInfo_other (Nat.lt_trans hHigh hEnd)
  have hNonempty : entries ≠ [] := List.length_pos_iff.mp hSome
  unfold handOver e820Table
  rw [readMap_eq_iff hHolds hValid hNonempty (by omega)]
  by_cases hFull : entries.length = 25
  · rw [hFull]
    exact ⟨fun _ => Or.inl rfl, fun _ => endsMap_getSVGAInfo⟩
  · have hBelow : memoryStructBufferAddr + 20 * entries.length + 20 ≤ vbeInfoAddr := by
      unfold memoryStructBufferAddr vbeInfoAddr
      omega
    have hSame : readE820 (getSVGAInfo (getMemStruct m memoryStructBufferAddr entries) vbe modes)
        (memoryStructBufferAddr + 20 * entries.length) =
        readE820 m (memoryStructBufferAddr + 20 * entries.length) :=
      readE820_congr fun x hLow hHigh =>
        (getSVGAInfo_other (Nat.lt_of_lt_of_le hHigh hBelow)).trans
        (getMemStruct_other m entries hFits (Or.inr hLow))
    rw [hSame, or_iff_right hFull]
    rfl

/-- One entry of RAM. -/
def ramEntry : E820 := ⟨0, 0x9f000, 1⟩

/-- The block of version 3.0. -/
def vbe3 : VbeInfoBlock where
  block := [0x56, 0x45, 0x53, 0x41, 0, 3] ++ List.replicate 250 0
  size := by
    rw [List.length_append, List.length_replicate]
    decide
  major := by decide

/-- The buffer still holds sector bytes that look like an entry behind it. -/
def sectorBytes : Bytes := fun x =>
  if x = memoryStructBufferAddr + 28 ∨ x = memoryStructBufferAddr + 36 then 1 else 0

theorem handOver_adds : ¬ ∀ (m : Bytes) (entries : List E820) (vbe : VbeInfoBlock)
    (modes : List (List (BitVec 8))),
    1 ≤ entries.length → entries.length ≤ 25 → (∀ e ∈ entries, ¬ endsMap e) →
    handOver m entries vbe modes = entries := by
  intro h
  have hSame := h sectorBytes [ramEntry] vbe3 [] (by decide) (by decide) (by decide)
  have hAdded : handOver sectorBytes [ramEntry] vbe3 [] ≠ [ramEntry] := by decide +kernel
  exact hAdded hSame

/-- A buffer of zeros ends the map, and so does the block about the display behind 25 entries, whatever
was in the buffer. -/
theorem handOver_iff_ends_zeros : handOver (fun _ => 0) [ramEntry] vbe3 [] = [ramEntry] ∧
    handOver (fun _ => 1) (List.replicate 25 ramEntry) vbe3 [List.replicate 256 1] = List.replicate 25 ramEntry :=
  ⟨(handOver_iff_ends (fun _ => 0) [ramEntry] vbe3 [] (by decide) (by decide) (by decide)).mpr
      (Or.inr (by unfold EndsBehind; decide +kernel)),
    (handOver_iff_ends (fun _ => 1) (List.replicate 25 ramEntry) vbe3 [List.replicate 256 1] (by decide)
      (by decide)
      (by decide)).mpr (Or.inl rfl)⟩

end KalinoteOS.Memory
