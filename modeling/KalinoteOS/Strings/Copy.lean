import KalinoteOS.Lib.CString
import KalinoteOS.Strings.Blocks
import Mathlib.Data.List.GetD

/-! # `strlen`, `strcpy`, `strncpy` and `strcat`

The loops take one character a round; a round of `lodsb` and `stosb` counts both registers up. The count
of `repne scasb` begins as `0xffffffff`.
-/
namespace KalinoteOS.Strings
open Lib StosMachine
set_option autoImplicit false

/-- `repne scasb`: what is left of `rcx`, and `rdi` behind the byte that was found. -/
def repneScasb (m : Memory) (al : BitVec 8) : Nat → Word → Nat × Word
  | 0, rdi => (0, rdi)
  | rcx + 1, rdi => if m rdi = al then (rcx, rdi + 1) else repneScasb m al rcx (rdi + 1)

/-- The result is the `int` in `ecx`. -/
def strlen (m : Memory) (String : Word) : BitVec 32 :=
  ~~~(BitVec.ofNat 32 (repneScasb m 0 0xffffffff String).1) - 1

/-- `1: lodsb; stosb; testb %al, %al; jne 1b`. -/
def strcpyLoop : Nat → Memory → Word → Word → Option Memory
  | 0, _, _, _ => none
  | fuel + 1, m, rsi, rdi =>
    let al := m rsi
    let m := Function.update m rdi al
    if al ≠ 0#8 then strcpyLoop fuel m (rsi + 1) (rdi + 1) else some m

def strcpy (m : Memory) (fuel : Nat) (Dest Src : Word) : Option (Memory × Word) :=
  (strcpyLoop fuel m Src Dest).map fun m => (m, Dest)

def strcat (m : Memory) (fuel : Nat) (Dest Src : Word) : Option (Memory × Word) :=
  let rdi := (repneScasb m 0 0xffffffff Dest).2
  (strcpyLoop fuel m Src (rdi - 1)).map fun m => (m, Dest)

/-- The loop of `strncpy`; behind a NUL `rep stosb` stores `al` until the count is 0. -/
def strncpyLoop : Nat → Memory → Word → Word → Word → Option Memory
  | 0, _, _, _, _ => none
  | fuel + 1, m, rsi, rdi, rcx =>
    let rcx := rcx - 1
    if rcx.msb then some m
    else
      let al := m rsi
      let m := Function.update m rdi al
      if al ≠ 0#8 then strncpyLoop fuel m (rsi + 1) (rdi + 1) rcx
      else some (repStos 1 (al.setWidth 64) ⟨m, rdi + 1, rcx⟩).mem

def strncpy (m : Memory) (fuel : Nat) (Dest Src Count : Word) : Option (Memory × Word) :=
  (strncpyLoop fuel m Src Dest Count).map fun m => (m, Dest)

section
variable {m : Memory} {s t : List (BitVec 8)}

/-! ## Scanning -/

theorem repneScasb_spec {a : Word} (hs : Holds m a s) {rcx : Nat} (hLt : s.length < rcx) :
    repneScasb m 0 rcx a = (rcx - (s.length + 1), a + BitVec.ofNat 64 s.length + 1) := by
  induction s generalizing a rcx with
  | nil =>
    obtain ⟨rcx, rfl⟩ := Nat.exists_eq_add_one_of_ne_zero (Nat.ne_of_gt hLt)
    have hZero : m a = 0 := hs
    rw [repneScasb, if_pos hZero]
    exact congrArg (Prod.mk rcx) (congrArg (· + 1) (offset_zero a).symm)
  | cons c s ih =>
    obtain ⟨hc, hNe, hs⟩ := hs
    rw [List.length_cons] at hLt
    obtain ⟨rcx, rfl⟩ := Nat.exists_eq_add_one_of_ne_zero (Nat.ne_of_gt (Nat.zero_lt_of_lt hLt))
    have hGo : m a ≠ 0 := fun h => hNe (hc.symm.trans h)
    rw [repneScasb, if_neg hGo, ih hs (by omega), offset_succ, List.length_cons]
    congr 1
    omega

theorem strlen_spec {a : Word} (hs : Holds m a s) (hShort : s.length < 0xffffffff) :
    strlen m a = BitVec.ofNat 32 s.length := by
  unfold strlen
  rw [repneScasb_spec hs hShort]
  apply BitVec.eq_of_toNat_eq
  bv_omega

/-! ## Copying -/

theorem strcpyLoop_spec {fuel : Nat} {rsi rdi : Word} (hs : Holds m rsi s)
    (hSafe : ForwardSafe rsi rdi (1 + s.length)) (hFuel : s.length < fuel) :
    ∃ m', strcpyLoop fuel m rsi rdi = some m' ∧
      Wrote m m' rdi (1 + s.length) fun i => m (rsi + BitVec.ofNat 64 i) := by
  obtain ⟨fuel, rfl⟩ := Nat.exists_eq_add_one_of_ne_zero (Nat.ne_of_gt (Nat.zero_lt_of_lt hFuel))
  have hFirst := Wrote.copy m rsi rdi
  have hLength := hs.length_lt
  induction s generalizing m rsi rdi fuel with
  | nil =>
    have hZero : m rsi = 0#8 := hs
    refine ⟨Function.update m rdi (m rsi), ?_, hFirst⟩
    simp [strcpyLoop, hZero]
  | cons c s ih =>
    obtain ⟨hc, hNe, hRest⟩ := hs
    rw [List.length_cons, Nat.add_comm s.length] at hSafe hFuel hLength
    obtain ⟨fuel, rfl⟩ := Nat.exists_eq_add_one_of_ne_zero (n := fuel) (by omega)
    -- the characters that are left are still there after the first one has been stored
    have hKept : Holds (Function.update m rdi (m rsi)) (rsi + 1) s := by
      apply hRest.moved
      intro i hi
      rw [offset_succ, Nat.add_comm i 1]
      exact (hSafe.shorter (Nat.le_refl _)).kept (by omega) hFirst (by omega)
    obtain ⟨m', hRun, hWrote⟩ := ih hKept hSafe.skip fuel (by omega) (Wrote.copy _ _ _) (by omega)
    refine ⟨m', ?_, ?_⟩
    · have hGo : m rsi ≠ 0#8 := fun h => hNe (hc.symm.trans h)
      rw [strcpyLoop, if_pos hGo]
      exact hRun
    · rw [List.length_cons, Nat.add_comm s.length]
      exact hFirst.copy_append hWrote hSafe (by omega)

theorem strcpy_spec {fuel : Nat} {Dest Src : Word} (hs : Holds m Src s)
    (hSafe : ForwardSafe Src Dest (1 + s.length)) (hFuel : s.length < fuel) :
    ∃ m', strcpy m fuel Dest Src = some (m', Dest) ∧
      Wrote m m' Dest (1 + s.length) fun i => m (Src + BitVec.ofNat 64 i) := by
  obtain ⟨m', hRun, hWrote⟩ := strcpyLoop_spec hs hSafe hFuel
  refine ⟨m', ?_, hWrote⟩
  rw [strcpy, hRun]
  rfl

theorem strcat_spec {fuel : Nat} {Dest Src : Word} (ht : Holds m Dest t) (hs : Holds m Src s)
    (hSafe : ForwardSafe Src (Dest + BitVec.ofNat 64 t.length) (1 + s.length)) (hShort : t.length < 0xffffffff)
    (hFuel : s.length < fuel) :
    ∃ m', strcat m fuel Dest Src = some (m', Dest) ∧
      Wrote m m' (Dest + BitVec.ofNat 64 t.length) (1 + s.length) fun i => m (Src + BitVec.ofNat 64 i) := by
  obtain ⟨m', hRun, hWrote⟩ := strcpyLoop_spec hs hSafe hFuel
  refine ⟨m', ?_, hWrote⟩
  have hBack : (Dest + BitVec.ofNat 64 t.length + 1) - 1 = Dest + BitVec.ofNat 64 t.length := by
    exact add_sub_cancel_right _ _
  rw [strcat, repneScasb_spec ht hShort, hBack, hRun]
  rfl

/-- `k` is the number of characters that `strncpy` finds among the `n` bytes from `a` on. -/
structure Found (m : Memory) (a : Word) (n k : Nat) : Prop where
  le : k ≤ n
  chars : ∀ i < k, m (a + BitVec.ofNat 64 i) ≠ 0#8
  stop : k < n → m (a + BitVec.ofNat 64 k) = 0#8

theorem Found.tail {a : Word} {n k : Nat} {m' : Memory} (h : Found m a (n + 1) (k + 1))
    (hSame : ∀ i < n, m' (a + BitVec.ofNat 64 (1 + i)) = m (a + BitVec.ofNat 64 (1 + i))) :
    Found m' (a + 1) n k := by
  obtain ⟨hLe, hChars, hStop⟩ := h
  refine ⟨by omega, fun i hi => ?_, fun hLt => ?_⟩
  · rw [offset_succ, Nat.add_comm, hSame i (by omega), Nat.add_comm]
    exact hChars (i + 1) (by omega)
  · rw [offset_succ, Nat.add_comm, hSame k hLt, Nat.add_comm]
    exact hStop (by omega)

theorem msb_of_lt {rcx : Word} {n : Nat} (h : rcx.toNat = n + 1) (hSmall : n + 1 < 2 ^ 63) :
    (rcx - 1).toNat = n ∧ (rcx - 1).msb = false := by
  have hOne : (1 : Word).toNat = 1 := rfl
  have hValue : (rcx - 1).toNat = n := by
    rw [BitVec.toNat_sub, hOne, h]
    omega
  refine ⟨hValue, ?_⟩
  rw [BitVec.msb_eq_false_iff_two_mul_lt, hValue]
  omega

theorem pad_wrote (m : Memory) (rdi rcx : Word) :
    Wrote m (repStos 1 0 ⟨m, rdi, rcx⟩).mem rdi rcx.toNat fun _ => 0#8 := by
  have hByte : ∀ i < 1, byteOf 0 i = 0#8 := by
    intro i _
    unfold byteOf
    simp
  have hPad := (StosMachine.rounds_wrote hByte (n := rcx.toNat) (by omega) ⟨m, rdi, rcx⟩).1
  rw [Nat.one_mul] at hPad
  exact hPad

/-- One round of `strncpy` at a character, and the last one at a NUL. -/
theorem strncpyLoop_round {fuel : Nat} {rsi rdi rcx : Word} (hMsb : (rcx - 1).msb = false) :
    strncpyLoop (fuel + 1) m rsi rdi rcx =
      if m rsi ≠ 0#8 then
        strncpyLoop fuel (Function.update m rdi (m rsi)) (rsi + 1) (rdi + 1) (rcx - 1)
      else some (repStos 1 0 ⟨Function.update m rdi (m rsi), rdi + 1, rcx - 1⟩).mem := by
  rw [strncpyLoop, hMsb, if_neg Bool.false_ne_true]
  refine ite_congr rfl (fun _ => rfl) fun hNul => ?_
  rw [not_not.mp hNul]
  rfl

theorem strncpyLoop_spec {fuel n k : Nat} {rsi rdi rcx : Word} (hRcx : rcx.toNat = n) (hSmall : n < 2 ^ 63)
    (hFound : Found m rsi n k) (hSafe : ForwardSafe rsi rdi n) (hFuel : k < fuel) :
    ∃ m', strncpyLoop fuel m rsi rdi rcx = some m' ∧
      Wrote m m' rdi n fun i => if i < k then m (rsi + BitVec.ofNat 64 i) else 0#8 := by
  induction n generalizing m rsi rdi rcx k fuel with
  | zero =>
    obtain ⟨fuel, rfl⟩ := Nat.exists_eq_add_one_of_ne_zero (n := fuel) (by omega)
    have hZero : rcx = 0 := BitVec.eq_of_toNat_eq hRcx
    refine ⟨m, ?_, Wrote.refl _ _ _⟩
    rw [hZero]
    rfl
  | succ n ih =>
    obtain ⟨fuel, rfl⟩ := Nat.exists_eq_add_one_of_ne_zero (n := fuel) (by omega)
    obtain ⟨hCount, hMsb⟩ := msb_of_lt hRcx hSmall
    have hFirst := Wrote.copy m rsi rdi
    rw [strncpyLoop_round hMsb]
    rw [Nat.add_comm n] at hSafe ⊢
    cases k with
    | zero =>
      have hNul : m rsi = 0#8 := (congrArg m (offset_zero rsi)).symm.trans (hFound.stop (Nat.succ_pos n))
      rw [if_neg (not_not.mpr hNul)]
      refine ⟨_, rfl, ?_⟩
      have hPad := pad_wrote (Function.update m rdi (m rsi)) (rdi + 1) (rcx - 1)
      rw [hCount] at hPad
      refine Wrote.append (hFirst.congr fun i hi => ?_) hPad (by omega)
      obtain rfl : i = 0 := by omega
      exact (congrArg m (offset_zero rsi)).trans hNul
    | succ k =>
      have hChar : m rsi ≠ 0#8 := fun h =>
        hFound.chars 0 (Nat.succ_pos k) ((congrArg m (offset_zero rsi)).trans h)
      have hKept : ∀ i < n, Function.update m rdi (m rsi) (rsi + BitVec.ofNat 64 (1 + i)) =
          m (rsi + BitVec.ofNat 64 (1 + i)) := fun i hi => hSafe.kept (by omega) hFirst hi
      have hLess : k < fuel := by omega
      obtain ⟨m', hRun, hWrote⟩ := ih hCount (by omega) (hFound.tail hKept) hSafe.skip hLess
      rw [if_pos hChar]
      refine ⟨m', hRun, ?_⟩
      refine Wrote.append (hFirst.congr fun i hi => ?_) (hWrote.congr fun i hi => ?_) (by omega)
      · rw [if_pos (by omega)]
      · rw [offset_succ, Nat.add_comm i 1, hKept i hi]
        exact if_congr (by omega) rfl rfl

theorem strncpy_spec {fuel k : Nat} {Dest Src Count : Word} (hSmall : Count.toNat < 2 ^ 63)
    (hFound : Found m Src Count.toNat k) (hSafe : ForwardSafe Src Dest Count.toNat) (hFuel : k < fuel) :
    ∃ m', strncpy m fuel Dest Src Count = some (m', Dest) ∧
      Wrote m m' Dest Count.toNat fun i => if i < k then m (Src + BitVec.ofNat 64 i) else 0#8 := by
  obtain ⟨m', hRun, hWrote⟩ := strncpyLoop_spec rfl hSmall hFound hSafe hFuel
  refine ⟨m', ?_, hWrote⟩
  rw [strncpy, hRun]
  rfl

/-! ## Whole strings -/

/-- A string that the buffer of `n` bytes at `Dest` does not touch is still there. -/
theorem Holds.frame {m' : Memory} {a Dest : Word} {n k : Nat} {f : Nat → BitVec 8} (hs : Holds m a s)
    (hWrote : Wrote m m' Dest k f) (hk : k ≤ n)
    (hApart : ∀ i ≤ s.length, n ≤ (a + BitVec.ofNat 64 i - Dest).toNat) : Holds m' a s := by
  apply hs.moved
  intro i hi
  exact hWrote.outside (hk.trans (hApart i hi))

theorem forwardSafe_of_apart {a Dest : Word} {j k : Nat}
    (hApart : ∀ i ≤ k, j + k + 1 ≤ (a + BitVec.ofNat 64 i - Dest).toNat) :
    ForwardSafe a (Dest + BitVec.ofNat 64 j) (1 + k) := by
  right
  by_contra hNear
  obtain ⟨d, hd⟩ : ∃ d, d = (Dest + BitVec.ofNat 64 j - a).toNat := ⟨_, rfl⟩
  have hAt := hApart d (by omega)
  have hSame : a + BitVec.ofNat 64 d - Dest = BitVec.ofNat 64 j := by
    rw [hd, BitVec.ofNat_toNat, BitVec.setWidth_eq]
    abel
  rw [hSame, BitVec.toNat_ofNat] at hAt
  have hMod := Nat.mod_le j (2 ^ 64)
  omega

end

section
variable {m : Memory} {s t : List (BitVec 8)} {fuel : Nat}

/-- `strcpy` and then `strcat` into a buffer of its own: it holds both strings, one behind the other, and
nothing outside of it changes. -/
theorem strcpy_strcat {Dest First Second : Word} (hs : Holds m First s) (ht : Holds m Second t)
    (hFirst : ForwardSafe First Dest (1 + s.length))
    (hSecond : ∀ i ≤ t.length, s.length + t.length + 1 ≤ (Second + BitVec.ofNat 64 i - Dest).toNat)
    (hShort : s.length + t.length < 0xffffffff) (hFuel : s.length < fuel ∧ t.length < fuel) :
    ∃ m₁ m₂, strcpy m fuel Dest First = some (m₁, Dest) ∧ strcat m₁ fuel Dest Second = some (m₂, Dest) ∧
      Holds m₂ Dest (s ++ t) ∧ strlen m₂ Dest = BitVec.ofNat 32 (s.length + t.length) ∧
      ∀ x, s.length + t.length < (x - Dest).toNat → m₂ x = m x := by
  obtain ⟨m₁, hCpy, hWrote₁⟩ := strcpy_spec hs hFirst hFuel.1
  have hDest : Holds m₁ Dest s := hWrote₁.holds hs
  have ht₁ : Holds m₁ Second t := Holds.frame ht hWrote₁ (by omega) hSecond
  obtain ⟨m₂, hCat, hWrote₂⟩ := strcat_spec hDest ht₁ (forwardSafe_of_apart hSecond) (by omega) hFuel.2
  have hLength : (s ++ t).length = s.length + t.length := List.length_append
  have hHolds : Holds m₂ Dest (s ++ t) := by
    apply Holds.append
    · intro i hi
      have hBefore : (Dest + BitVec.ofNat 64 i - (Dest + BitVec.ofNat 64 s.length)).toNat = 2 ^ 64 +
        i - s.length := by
        bv_omega
      rw [hWrote₂.outside (by omega)]
      exact hDest.byte hi
    · exact hs.no_nul
    · exact hWrote₂.holds ht₁
  refine ⟨m₁, m₂, hCpy, hCat, hHolds, ?_, fun x hx => ?_⟩
  · rw [strlen_spec hHolds (by omega), hLength]
  · have hBehind : (x - (Dest + BitVec.ofNat 64 s.length)).toNat = (x - Dest).toNat - s.length := by
      have hBound := (x - Dest).isLt
      rw [sub_add_eq_sub_sub, BitVec.toNat_sub, BitVec.toNat_ofNat]
      omega
    rw [hWrote₂.outside (by omega), hWrote₁.outside (by omega)]

/-- `a` at 16 and `b` at 32. -/
def twoStrings : Memory := fun x => if x = 16 then 0x61 else if x = 32 then 0x62 else 0

theorem twoStrings_first : Holds twoStrings 16 [0x61] := ⟨rfl, by decide, rfl⟩

theorem twoStrings_second : Holds twoStrings 32 [0x62] := ⟨rfl, by decide, rfl⟩

theorem strcpy_strcat_twoStrings :
    ∃ m₁ m₂, strcpy twoStrings 2 64 16 = some (m₁, 64) ∧ strcat m₁ 2 64 32 = some (m₂, 64) ∧
      Holds m₂ 64 [0x61, 0x62] := by
  obtain ⟨m₁, m₂, hCpy, hCat, hHolds, -, -⟩ := strcpy_strcat twoStrings_first twoStrings_second
    (.inr (by decide) : ForwardSafe 16 64 2) (by decide) (by decide) ⟨Nat.lt_succ_self 1, Nat.lt_succ_self 1⟩
  exact ⟨m₁, m₂, hCpy, hCat, hHolds⟩

theorem Holds.found {a : Word} (hs : Holds m a s) (n : Nat) : Found m a n (min s.length n) := by
  refine ⟨Nat.min_le_right _ _, fun i hi => hs.byte_ne (by omega), fun hLt => ?_⟩
  have hMin : min s.length n = s.length := by omega
  rw [hMin]
  exact hs.nul

/-- `strncpy` stores `Count` bytes: the string, cut off or filled up with NULs. The copy ends with a NUL just if
the string is shorter than `Count`. -/
theorem strncpy_exact {Dest Src Count : Word} (hs : Holds m Src s) (hSmall : Count.toNat < 2 ^ 63)
    (hSafe : ForwardSafe Src Dest Count.toNat) (hFuel : s.length < fuel) :
    ∃ m', strncpy m fuel Dest Src Count = some (m', Dest) ∧
      Wrote m m' Dest Count.toNat (fun i => s.getD i 0#8) ∧
      (s.length < Count.toNat → Holds m' Dest s) ∧
      (Count.toNat ≤ s.length → ∀ i < Count.toNat, m' (Dest + BitVec.ofNat 64 i) ≠ 0#8) := by
  have hMin := Nat.min_le_left s.length Count.toNat
  obtain ⟨m', hRun, hWrote⟩ := strncpy_spec hSmall (Holds.found hs _) hSafe (Nat.lt_of_le_of_lt hMin hFuel)
  have hExact : Wrote m m' Dest Count.toNat fun i => s.getD i 0#8 := by
    apply hWrote.congr
    intro i hi
    by_cases hIn : i < s.length
    · rw [if_pos (by omega), hs.byte hIn]
      exact (List.getD_eq_getElem _ _ hIn).symm
    · rw [if_neg (by omega)]
      exact (List.getD_eq_default _ _ (by omega)).symm
  refine ⟨m', hRun, hExact, fun hShort => ?_, fun hLong i hi => ?_⟩
  · rw [Holds.iff_bytes]
    refine ⟨fun i hi => ?_, hs.no_nul, ?_⟩
    · rw [hExact.inside (by omega) (by omega)]
      exact List.getD_eq_getElem _ _ hi
    · rw [hExact.inside (by omega) hShort]
      exact List.getD_eq_default _ _ (Nat.le_refl _)
  · have hByte : s.getD i 0#8 = m (Src + BitVec.ofNat 64 i) :=
      (List.getD_eq_getElem _ _ (by omega)).trans (hs.byte (by omega)).symm
    rw [hExact.inside (by omega) hi, hByte]
    exact hs.byte_ne (by omega)

theorem strncpy_exact_twoStrings :
    ∃ m', strncpy twoStrings 2 64 16 4 = some (m', 64) ∧ Holds m' 64 [0x61] := by
  obtain ⟨m', hRun, -, hShort, -⟩ := strncpy_exact twoStrings_first (by decide : (4 : Word).toNat < 2 ^ 63)
    (.inr (by decide) : ForwardSafe 16 64 4) (Nat.lt_succ_self 1)
  exact ⟨m', hRun, hShort (by decide)⟩

end
end KalinoteOS.Strings
