import KalinoteOS.Lib.StringMove

/-! # Copies between user and kernel memory

`copy_from_user` and `copy_to_user` differ in the address that `verify_area` is asked about. Both
return the register that `rep movsb` counts down. The direction flag is clear, as the callers of C
functions have it.
-/
namespace KalinoteOS.UserCopy
open Lib StringMachine
set_option autoImplicit false

/-- The highest user address. -/
def userLimit : Word := 0x00007fffffffffff

def verifyArea (addr size : Word) : Word := if addr + size ≤ userLimit then 1 else 0

/-- The two string instructions; the count of the second is loaded between them. -/
def copyString (s : StringMachine) (source dest size : Word) : StringMachine :=
  let s := repMovs 8 { s with rcx := size / 8, rdi := dest, rsi := source }
  repMovs 1 { s with rcx := size &&& 7 }

/-- What the two functions share: `user` is the address that is verified. -/
def copyUser (s : StringMachine) (user source dest size : Word) : Word × StringMachine :=
  if verifyArea user size = 0 then (0, s)
  else
    let s := copyString s source dest size
    (s.rcx, s)

def copyFromUser (s : StringMachine) (source dest size : Word) : Word × StringMachine :=
  copyUser s source source dest size

def copyToUser (s : StringMachine) (source dest size : Word) : Word × StringMachine :=
  copyUser s dest source dest size

/-- Every byte of the range is at or below the limit; the range does not wrap. -/
def InUser (addr size : Word) : Prop := ∀ i < size.toNat, addr.toNat + i ≤ userLimit.toNat

/-- All bytes are copied and nothing else is touched. -/
structure Copied (s t : StringMachine) (source dest size : Word) : Prop where
  bytes : ∀ i < size.toNat, t.mem (dest + BitVec.ofNat 64 i) = s.mem (source + BitVec.ofNat 64 i)
  others : ∀ a, size ≤ a - dest → t.mem a = s.mem a
  reads : t.reads = s.reads ++ addresses source size.toNat
  writes : t.writes = s.writes ++ addresses dest size.toNat

/-- A copy that is allowed is made and returns its size, any other does nothing and returns 0. -/
structure Outcome (s : StringMachine) (user source dest size : Word) (result : Word × StringMachine) : Prop where
  allowed : InUser user size → result.1 = size ∧ Copied s result.2 source dest size
  refused : ¬InUser user size → result = (0, s)

/-! ## The copy itself -/

section
variable (s : StringMachine) (source dest size : Word)

theorem size_split : 8 * (size / 8).toNat + (size &&& 7).toNat = size.toNat := by
  have hDiv : (size / 8).toNat = size.toNat / 8 := by
    rw [BitVec.toNat_udiv]
    rfl
  have hMask : (7#64).toNat = 2 ^ 3 - 1 := by decide
  have hAnd : (size &&& 7).toNat = size.toNat % 8 := by
    rw [BitVec.toNat_and]
    exact (congrArg (size.toNat &&& ·) hMask).trans (Nat.and_two_pow_sub_one_eq_mod _ 3)
  rw [hDiv, hAnd]
  omega

theorem copyString_rcx : (copyString s source dest size).rcx = 0 := repMovs_rcx 1 _

theorem copyString_reads :
    (copyString s source dest size).reads = s.reads ++ addresses source size.toNat := by
  unfold copyString repMovs
  dsimp only
  rw [rounds_reads, rounds_reads, rounds_rsi, List.append_assoc, ← addresses_add, Nat.one_mul, size_split]

theorem copyString_writes :
    (copyString s source dest size).writes = s.writes ++ addresses dest size.toNat := by
  unfold copyString repMovs
  dsimp only
  rw [rounds_writes, rounds_writes, rounds_rdi, List.append_assoc, ← addresses_add, Nat.one_mul, size_split]

/-- Between ranges that do not overlap the copy is right. -/
theorem copyString_copied (hApart : Apart source dest size.toNat) :
    Copied s (copyString s source dest size) source dest size := by
  have hSize := size.isLt
  have hMoved : Moved s.mem (copyString s source dest size).mem source dest size.toNat := by
    rw [← size_split size] at hApart hSize ⊢
    let first := rounds 8 (size / 8).toNat { s with rcx := size / 8, rdi := dest, rsi := source }
    have hWords : Moved s.mem first.mem source dest (8 * (size / 8).toNat) :=
      rounds_moved rfl rfl (fun i hi j hj => hApart i (by omega) j (by omega)) (by omega)
    have hRest : Moved first.mem (copyString s source dest size).mem _ _ (1 * (size &&& 7).toNat) :=
      rounds_moved (s := { first with rcx := size &&& 7 }) (rounds_rsi 8 _ _) (rounds_rdi 8 _ _)
        (by rw [Nat.one_mul]; exact hApart.skip) (by omega)
    rw [Nat.one_mul] at hRest
    exact hWords.append hRest hApart hSize
  refine ⟨fun i hi => ?_, fun a ha => ?_, copyString_reads s source dest size,
    copyString_writes s source dest size⟩
  · have hOffset : dest + BitVec.ofNat 64 i - dest = BitVec.ofNat 64 i := by abel
    have hSmall : (BitVec.ofNat 64 i).toNat = i := by
      rw [BitVec.toNat_ofNat]
      exact Nat.mod_eq_of_lt (by omega)
    rw [hMoved, hOffset, hSmall, if_pos hi]
  · rw [hMoved, if_neg (Nat.not_lt.mpr ha)]

end

/-! ## Their outcome -/

theorem verifyArea_eq_zero (addr size : Word) : verifyArea addr size = 0 ↔ userLimit < addr + size := by
  unfold verifyArea
  split
  · next hLe => exact iff_of_false (by decide) (BitVec.not_lt.mpr hLe)
  · next hGt => exact iff_of_true rfl (BitVec.not_le.mp hGt)

theorem copyUser_zero (s : StringMachine) (user source dest size : Word) :
    (copyUser s user source dest size).1 = 0 := by
  unfold copyUser
  split
  · rfl
  · exact copyString_rcx s source dest size

theorem copied_empty (s : StringMachine) (user source dest : Word) :
    Copied s (copyUser s user source dest 0).2 source dest 0 := by
  have hEmpty : Apart source dest (0 : Word).toNat := fun i hi => absurd hi (Nat.not_lt_zero i)
  unfold copyUser
  split
  · exact ⟨fun i hi => absurd hi (Nat.not_lt_zero i), fun a _ => rfl, (List.append_nil _).symm,
      (List.append_nil _).symm⟩
  · exact copyString_copied s source dest 0 hEmpty

/-- A copy that is made is seen in the log of the addresses written. -/
theorem copyString_ne (s : StringMachine) (source dest : Word) {size : Word} (hSize : size ≠ 0) :
    copyString s source dest size ≠ s := by
  intro hSame
  have hLog := copyString_writes s source dest size
  rw [hSame, List.self_eq_append_right] at hLog
  unfold addresses at hLog
  rw [List.map_eq_nil_iff, List.range_eq_nil] at hLog
  exact hSize (BitVec.eq_of_toNat_eq hLog)

theorem outcome_iff (s : StringMachine) (user source dest size : Word) :
    Outcome s user source dest size (copyUser s user source dest size) ↔
      size = 0 ∨ ¬InUser user size ∧ userLimit < user + size := by
  constructor
  · intro h
    by_cases hIn : InUser user size
    · -- the copy is made, but its size is not returned
      exact Or.inl ((h.allowed hIn).1.symm.trans (copyUser_zero s user source dest size))
    · have hSize : size ≠ 0 := by
        rintro rfl
        exact hIn fun i hi => absurd hi (Nat.not_lt_zero i)
      refine Or.inr ⟨hIn, (verifyArea_eq_zero user size).mp ?_⟩
      by_contra hPassed
      have hRefused := congrArg Prod.snd (h.refused hIn)
      unfold copyUser at hRefused
      rw [if_neg hPassed] at hRefused
      exact copyString_ne s source dest hSize hRefused
  · rintro (rfl | ⟨hOut, hAbove⟩)
    · refine ⟨fun _ => ⟨copyUser_zero s user source dest 0, copied_empty s user source dest⟩, fun hOut => ?_⟩
      exact absurd (fun i hi => absurd hi (Nat.not_lt_zero i)) hOut
    · refine ⟨fun hIn => absurd hIn hOut, fun _ => ?_⟩
      unfold copyUser
      rw [if_pos ((verifyArea_eq_zero user size).mpr hAbove)]

/-- The two functions do what they should exactly for no bytes at all, and for a range that leaves user
space and whose end, taken modulo 2^64, is above the limit. -/
theorem copies_outcome_iff (s : StringMachine) (source dest size : Word) :
    (Outcome s source source dest size (copyFromUser s source dest size) ↔
      size = 0 ∨ ¬InUser source size ∧ userLimit < source + size) ∧
    (Outcome s dest source dest size (copyToUser s source dest size) ↔
      size = 0 ∨ ¬InUser dest size ∧ userLimit < dest + size) :=
  ⟨outcome_iff s source source dest size, outcome_iff s dest source dest size⟩

/-- Eight bytes from user address 0x1000 to the kernel: 0 is returned, not 8. -/
theorem copyFromUser_returns_zero : ∃ s : StringMachine,
    ¬Outcome s 0x1000 0x1000 0xffff800000200000 8 (copyFromUser s 0x1000 0xffff800000200000 8) := by
  refine ⟨⟨fun _ => 0, 0, 0, 0, [], []⟩, fun h => ?_⟩
  have hIn : InUser 0x1000 8 := by
    unfold InUser
    decide
  exact absurd (h.allowed hIn).1 (by decide)

end KalinoteOS.UserCopy
