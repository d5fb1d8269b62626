import KalinoteOS.Lib.Region

/-! # `memset` and `memcpy`

Both work on quadwords first and finish with at most one `stosl`, `stosw` and `stosb` (`movsl`, `movsw`
and `movsb`), as the low three bits of the count ask for.
-/
namespace KalinoteOS.Strings
open Lib StringMachine StosMachine
set_option autoImplicit false

/-- `testb $bit, %b3` and the instruction that a zero jumps over. -/
def tail {S : Type} (Count bit : Word) (f : S → S) (s : S) : S :=
  if Count &&& bit = 0 then s else f s

/-- `tmp`. -/
def spread (C : BitVec 8) : Word := C.setWidth 64 * 0x0101010101010101

def memset (m : Memory) (Address : Word) (C : BitVec 8) (Count : Word) : Memory × Word :=
  let tmp := spread C
  let s : StosMachine := repStos 8 tmp ⟨m, Address, Count.sdiv 8⟩
  let s := tail Count 4 (stos 4 tmp) s
  let s := tail Count 2 (stos 2 tmp) s
  let s := tail Count 1 (stos 1 tmp) s
  (s.mem, Address)

def memcpy (m : Memory) (From To Num : Word) : Memory × Word :=
  let s : StringMachine := repMovs 8 ⟨m, From, To, Num.sdiv 8, [], []⟩
  let s := tail Num 4 (movs 4) s
  let s := tail Num 2 (movs 2) s
  let s := tail Num 1 (movs 1) s
  (s.mem, To)

/-! ## The three bits -/

section
variable {Count : Word}

/-- The low bits of the count in front of `bit`, once it has been looked at. -/
def part (Count bit : Word) : Nat := if Count &&& bit = 0 then 0 else bit.toNat

theorem and_bit (Count : Word) {j : Nat} (hj : j < 64) :
    Count &&& BitVec.twoPow 64 j = 0 ↔ Count.toNat / 2 ^ j % 2 = 0 := by
  have hBit : Count.getLsbD j = Count.toNat.testBit j := rfl
  rw [BitVec.and_twoPow, hBit, Nat.testBit_eq_decide_div_mod_eq]
  have hPow : BitVec.twoPow 64 j ≠ 0#64 := by
    intro h
    have hValue := congrArg BitVec.toNat h
    rw [BitVec.toNat_twoPow, Nat.mod_eq_of_lt (Nat.pow_lt_pow_right (by decide) hj)] at hValue
    exact absurd hValue (Nat.ne_of_gt (Nat.two_pow_pos j))
  by_cases hOne : Count.toNat / 2 ^ j % 2 = 1
  · simp only [hOne, decide_true, if_true]
    exact iff_of_false hPow (by omega)
  · simp only [hOne, decide_false, Bool.false_eq_true, if_false]
    exact iff_of_true rfl (by omega)

theorem part_eq (Count : Word) {j : Nat} (hj : j < 64) :
    part Count (BitVec.twoPow 64 j) = 2 ^ j * (Count.toNat / 2 ^ j % 2) := by
  unfold part
  rw [BitVec.toNat_twoPow, Nat.mod_eq_of_lt (Nat.pow_lt_pow_right (by decide) hj)]
  split
  · next h => rw [(and_bit Count hj).mp h, Nat.mul_zero]
  · next h =>
    rw [and_bit Count hj] at h
    have hOne : Count.toNat / 2 ^ j % 2 = 1 := by omega
    rw [hOne, Nat.mul_one]

/-- What the quadwords, the double word, the word and the byte come to. -/
theorem parts_sum (hCount : Count.toNat < 2 ^ 63) :
    8 * (Count.sdiv 8).toNat + part Count 4 + part Count 2 + part Count 1 = Count.toNat := by
  have h₄ : part Count 4 = 4 * (Count.toNat / 4 % 2) := part_eq Count (j := 2) (by decide)
  have h₂ : part Count 2 = 2 * (Count.toNat / 2 % 2) := part_eq Count (j := 1) (by decide)
  have h₁ : part Count 1 = Count.toNat % 2 := by
    have h : part Count 1 = 2 ^ 0 * (Count.toNat / 2 ^ 0 % 2) := part_eq Count (j := 0) (by decide)
    rw [Nat.pow_zero, Nat.one_mul, Nat.div_one] at h
    exact h
  have h₈ : (Count.sdiv 8).toNat = Count.toNat / 8 := by
    have hMsb : Count.msb = false := BitVec.msb_eq_false_iff_two_mul_lt.mpr (by omega)
    have hSdiv : Count.sdiv 8 = Count.udiv 8 := by
      unfold BitVec.sdiv
      rw [hMsb]
      rfl
    rw [hSdiv]
    exact BitVec.toNat_udiv
  rw [h₄, h₂, h₁, h₈]
  omega

end

/-! ## `memset` -/

/-- All the digits are the same. -/
theorem spread_digits : ∀ (c : Fin 256) (i : Fin 8),
    c.val * 0x0101010101010101 / 2 ^ (8 * i.val) % 2 ^ 8 = c.val := by
  decide +kernel

theorem byteOf_spread (C : BitVec 8) {i : Nat} (hi : i < 8) : byteOf (spread C) i = C := by
  have hC := C.isLt
  have hSpread : (spread C).toNat = C.toNat * 0x0101010101010101 := by
    unfold spread
    rw [BitVec.toNat_mul, BitVec.toNat_setWidth]
    change C.toNat % 2 ^ 64 * 0x0101010101010101 % 2 ^ 64 = _
    omega
  apply BitVec.eq_of_toNat_eq
  unfold byteOf
  rw [BitVec.toNat_setWidth, BitVec.toNat_ushiftRight, Nat.shiftRight_eq_div_pow, hSpread]
  exact spread_digits ⟨C.toNat, hC⟩ ⟨i, hi⟩

section
variable {m : Memory} {C : BitVec 8}

/-- The bytes from `a` on, up to where `rdi` points, are `C`. -/
def FilledTo (m : Memory) (a : Word) (C : BitVec 8) (n : Nat) (s : StosMachine) : Prop :=
  Wrote m s.mem a n (fun _ => C) ∧ s.rdi = a + BitVec.ofNat 64 n

theorem FilledTo.tail {a Count : Word} {n : Nat} {s : StosMachine} (h : FilledTo m a C n s) (bit : Word)
    (hBit : bit.toNat ≤ 8) (hSize : n + part Count bit ≤ 2 ^ 64) :
    FilledTo m a C (n + part Count bit) (Strings.tail Count bit (stos bit.toNat (spread C)) s) := by
  unfold Strings.tail part at *
  split
  · exact h
  · next hSet =>
    rw [if_neg hSet] at hSize
    obtain ⟨hWrote, hRdi⟩ := h
    have hByte : ∀ i < bit.toNat, byteOf (spread C) i = C := fun i hi => byteOf_spread C (by omega)
    have hNext := stos_wrote hByte s
    rw [hRdi] at hNext
    constructor
    · exact hWrote.append hNext hSize
    · rw [BitVec.ofNat_add, ← BitVec.add_assoc, ← hRdi]
      rfl

/-- `memset` sets `Count` bytes, in whatever pieces. -/
theorem memset_wrote (m : Memory) (Address : Word) (C : BitVec 8) {Count : Word} (hCount : Count.toNat < 2 ^ 63) :
    Wrote m (memset m Address C Count).1 Address Count.toNat fun _ => C := by
  have hSum := parts_sum hCount
  have hSize : 8 * (Count.sdiv 8).toNat ≤ 2 ^ 64 := by omega
  have hQuads : FilledTo m Address C (8 * (Count.sdiv 8).toNat)
      (repStos 8 (spread C) ⟨m, Address, Count.sdiv 8⟩) :=
    StosMachine.rounds_wrote (fun i hi => byteOf_spread C hi) hSize _
  have h₄ : FilledTo m Address C _ (Strings.tail Count 4 (stos 4 (spread C)) _) :=
    hQuads.tail 4 (by decide) (by omega)
  have h₂ : FilledTo m Address C _ (Strings.tail Count 2 (stos 2 (spread C)) _) :=
    h₄.tail 2 (by decide) (by omega)
  have h₁ : FilledTo m Address C _ (Strings.tail Count 1 (stos 1 (spread C)) _) :=
    h₂.tail 1 (by decide) (by omega)
  rw [hSum] at h₁
  exact h₁.1

end

/-! ## `memcpy` -/

section
variable {m : Memory} {From To : Word}

/-- `n` bytes are copied, and the registers point behind them. -/
def CopiedTo (m : Memory) (From To : Word) (n : Nat) (s : StringMachine) : Prop :=
  Wrote m s.mem To n (fun i => m (From + BitVec.ofNat 64 i)) ∧ s.rsi = From + BitVec.ofNat 64 n ∧
    s.rdi = To + BitVec.ofNat 64 n

theorem CopiedTo.tail {Num : Word} {n : Nat} {s : StringMachine} (h : CopiedTo m From To n s) (bit : Word)
    (hSafe : ForwardSafe From To (n + part Num bit)) (hSize : n + part Num bit ≤ 2 ^ 64) :
    CopiedTo m From To (n + part Num bit) (Strings.tail Num bit (movs bit.toNat) s) := by
  unfold Strings.tail part at *
  split
  · exact h
  · next hSet =>
    rw [if_neg hSet] at hSize hSafe
    obtain ⟨hWrote, hRsi, hRdi⟩ := h
    have hNext := movs_wrote bit.toNat s
    rw [hRdi, hRsi] at hNext
    refine ⟨hWrote.copy_append hNext hSafe hSize, ?_, ?_⟩
    · rw [BitVec.ofNat_add, ← BitVec.add_assoc, ← hRsi]
      rfl
    · rw [BitVec.ofNat_add, ← BitVec.add_assoc, ← hRdi]
      rfl

/-- `memcpy` copies `Num` bytes, also onto a place that the source reaches into from above. -/
theorem memcpy_wrote {Num : Word} (hNum : Num.toNat < 2 ^ 63) (hSafe : ForwardSafe From To Num.toNat) :
    Wrote m (memcpy m From To Num).1 To Num.toNat fun i => m (From + BitVec.ofNat 64 i) := by
  have hSum := parts_sum hNum
  have hSize : 8 * (Num.sdiv 8).toNat ≤ 2 ^ 64 := by omega
  have hStart : ForwardSafe From To (8 * (Num.sdiv 8).toNat) := hSafe.shorter (by omega)
  have hQuads : CopiedTo m From To (8 * (Num.sdiv 8).toNat) (repMovs 8 ⟨m, From, To, Num.sdiv 8, [], []⟩) :=
    ⟨rounds_copied ⟨m, From, To, Num.sdiv 8, [], []⟩ hStart hSize,
      rounds_rsi 8 _ _, rounds_rdi 8 _ _⟩
  have h₄ : CopiedTo m From To _ (Strings.tail Num 4 (movs 4) _) :=
    hQuads.tail 4 (hSafe.shorter (by omega)) (by omega)
  have h₂ : CopiedTo m From To _ (Strings.tail Num 2 (movs 2) _) :=
    h₄.tail 2 (hSafe.shorter (by omega)) (by omega)
  have h₁ : CopiedTo m From To _ (Strings.tail Num 1 (movs 1) _) :=
    h₂.tail 1 (hSafe.shorter (by omega)) (by omega)
  rw [hSum] at h₁
  exact h₁.1

end

/-! ## The same a byte at a time -/

def setBytes (c : BitVec 8) : Nat → Memory → Word → Memory
  | 0, m, _ => m
  | n + 1, m, a => setBytes c n (Function.update m a c) (a + 1)

def copyBytes : Nat → Memory → Word → Word → Memory
  | 0, m, _, _ => m
  | n + 1, m, source, dest => copyBytes n (Function.update m dest (m source)) (source + 1) (dest + 1)

section
variable {m m₁ m₂ : Memory} {source dest : Word} {k n : Nat}

theorem setBytes_wrote (c : BitVec 8) (m : Memory) (a : Word) (hSize : n ≤ 2 ^ 64) :
    Wrote m (setBytes c n m a) a n fun _ => c := by
  induction n generalizing m a with
  | zero => exact Wrote.refl _ _ _
  | succ n ih =>
    rw [setBytes, Nat.add_comm n]
    exact (Wrote.update m a c).append (ih _ _ (by omega)) (by omega)

theorem copyBytes_wrote (m : Memory) (hSafe : ForwardSafe source dest n) (hSize : n ≤ 2 ^ 64) :
    Wrote m (copyBytes n m source dest) dest n fun i => m (source + BitVec.ofNat 64 i) := by
  induction n generalizing m source dest with
  | zero => exact Wrote.refl _ _ _
  | succ n ih =>
    rw [Nat.add_comm n] at hSafe
    rw [copyBytes, Nat.add_comm n]
    exact (Wrote.copy m source dest).copy_append (ih _ hSafe.skip (by omega)) hSafe (by omega)

theorem copyBytes_add (k n : Nat) (m : Memory) (source dest : Word) :
    copyBytes (k + n) m source dest =
      copyBytes n (copyBytes k m source dest) (source + BitVec.ofNat 64 k) (dest + BitVec.ofNat 64 k) := by
  induction k generalizing m source dest with
  | zero =>
    rw [Nat.zero_add, offset_zero, offset_zero]
    rfl
  | succ k ih =>
    rw [Nat.add_right_comm]
    exact (ih _ _ _).trans (by rw [offset_succ, offset_succ]; rfl)

theorem copyBytes_outside (m : Memory) (hSize : n ≤ 2 ^ 64) {x : Word} (hx : n ≤ (x - dest).toNat) :
    copyBytes n m source dest x = m x := by
  induction n generalizing m source dest with
  | zero => rfl
  | succ n ih =>
    have hOne : (1 : Word).toNat = 1 := rfl
    have hBound := (x - dest).isLt
    have hNext : (x - (dest + 1)).toNat = (x - dest).toNat - 1 := by
      rw [sub_add_eq_sub_sub, BitVec.toNat_sub, hOne]
      omega
    rw [copyBytes, ih _ (by omega) (by omega)]
    apply Function.update_of_ne
    rintro rfl
    rw [BitVec.sub_self, BitVec.toNat_zero] at hx
    exact Nat.not_succ_le_zero n hx

/-! ## In pieces of up to eight bytes -/

/-- The ranges of one `movs` do not run into each other. -/
def Strided (source dest : Word) : Prop := dest = source ∨ 8 ≤ (dest - source).toNat

theorem Strided.safe (h : Strided source dest) (hn : n ≤ 8) : ForwardSafe source dest n := h.imp_right hn.trans

theorem Strided.add (h : Strided source dest) (k : Nat) :
    Strided (source + BitVec.ofNat 64 k) (dest + BitVec.ofNat 64 k) := by
  have hGap : dest + BitVec.ofNat 64 k - (source + BitVec.ofNat 64 k) = dest - source := by abel
  obtain rfl | hFar := h
  · exact .inl rfl
  · exact .inr (by rw [hGap]; exact hFar)

/-- The machine has copied `n` bytes, as a loop over the bytes does. -/
def LoopedTo (m : Memory) (From To : Word) (n : Nat) (s : StringMachine) : Prop :=
  s.mem = copyBytes n m From To ∧ s.rsi = From + BitVec.ofNat 64 n ∧ s.rdi = To + BitVec.ofNat 64 n

theorem LoopedTo.movs {From To : Word} {s : StringMachine} (h : LoopedTo m From To n s)
    (hStride : Strided From To)
    (hk : k ≤ 8) : LoopedTo m From To (n + k) (StringMachine.movs k s) := by
  obtain ⟨hMem, hRsi, hRdi⟩ := h
  have hSafe := (hStride.add n).safe hk
  rw [← hRsi, ← hRdi] at hSafe
  refine ⟨?_, ?_, ?_⟩
  · rw [copyBytes_add, ← hMem, ← hRsi, ← hRdi]
    exact (movs_wrote k s).unique (copyBytes_wrote s.mem hSafe (by omega))
  · rw [BitVec.ofNat_add, ← BitVec.add_assoc, ← hRsi]
    rfl
  · rw [BitVec.ofNat_add, ← BitVec.add_assoc, ← hRdi]
    rfl

theorem LoopedTo.rounds {From To : Word} {s : StringMachine} (h : LoopedTo m From To n s)
    (hStride : Strided From To)
    (hk : k ≤ 8) (r : Nat) : LoopedTo m From To (n + k * r) (StringMachine.rounds k r s) := by
  induction r generalizing n s with
  | zero => exact h
  | succ r ih =>
    have hSplit : n + k * (r + 1) = n + k + k * r := by
      rw [Nat.mul_succ]
      omega
    rw [hSplit]
    exact ih (h.movs hStride hk)

theorem LoopedTo.tail {From To Num : Word} {s : StringMachine} (h : LoopedTo m From To n s)
    (hStride : Strided From To) (bit : Word) (hBit : bit.toNat ≤ 8) :
    LoopedTo m From To (n + part Num bit) (Strings.tail Num bit (StringMachine.movs bit.toNat) s) := by
  unfold Strings.tail part
  split
  · exact h
  · exact h.movs hStride hBit

theorem memcpy_looped (m : Memory) {From To Num : Word} (hNum : Num.toNat < 2 ^ 63) (hStride : Strided From To) :
    memcpy m From To Num = (copyBytes Num.toNat m From To, To) := by
  have hStart : LoopedTo m From To 0 ⟨m, From, To, Num.sdiv 8, [], []⟩ :=
    ⟨rfl, (offset_zero From).symm, (offset_zero To).symm⟩
  have hQuads : LoopedTo m From To _ (repMovs 8 ⟨m, From, To, Num.sdiv 8, [], []⟩) :=
    hStart.rounds hStride (Nat.le_refl 8) (Num.sdiv 8).toNat
  have h₄ : LoopedTo m From To _ (Strings.tail Num 4 (StringMachine.movs 4) _) :=
    hQuads.tail hStride 4 (by decide)
  have h₂ : LoopedTo m From To _ (Strings.tail Num 2 (StringMachine.movs 2) _) := h₄.tail hStride 2 (by decide)
  have h₁ : LoopedTo m From To _ (Strings.tail Num 1 (StringMachine.movs 1) _) := h₂.tail hStride 1 (by decide)
  rw [Nat.zero_add, parts_sum hNum] at h₁
  exact Prod.ext h₁.1 rfl

/-! ## The destination one to seven bytes behind the source -/

theorem movs_outside {s : StringMachine} {x : Word} (h : k ≤ (x - s.rdi).toNat) :
    (StringMachine.movs k s).mem x = s.mem x :=
  (movs_wrote k s).outside h

theorem sub_add_toNat {x rdi : Word} (hk : k ≤ (x - rdi).toNat) :
    (x - (rdi + BitVec.ofNat 64 k)).toNat = (x - rdi).toNat - k := by
  have hBound := (x - rdi).isLt
  rw [sub_add_eq_sub_sub, BitVec.toNat_sub, BitVec.toNat_ofNat]
  omega

theorem rounds_outside {s : StringMachine} {x : Word} {r : Nat} (h : k * r ≤ (x - s.rdi).toNat) :
    (StringMachine.rounds k r s).mem x = s.mem x := by
  induction r generalizing s with
  | zero => rfl
  | succ r ih =>
    rw [Nat.mul_succ] at h
    have hNext : (x - (StringMachine.movs k s).rdi).toNat = (x - s.rdi).toNat - k := sub_add_toNat (by omega)
    rw [StringMachine.rounds, ih (by omega), movs_outside (by omega)]

/-- A tail leaves the bytes alone that it does not reach, and `rdi` stays in front of the rest. -/
theorem tail_outside (Num bit : Word) {s : StringMachine} {x : Word} (h : part Num bit + n ≤ (x - s.rdi).toNat) :
    (Strings.tail Num bit (StringMachine.movs bit.toNat) s).mem x = s.mem x ∧
      n ≤ (x - (Strings.tail Num bit (StringMachine.movs bit.toNat) s).rdi).toNat := by
  unfold Strings.tail part at *
  split
  · next hZero =>
    rw [if_pos hZero] at h
    exact ⟨rfl, by omega⟩
  · next hSet =>
    rw [if_neg hSet] at h
    have hNext : (x - (StringMachine.movs bit.toNat s).rdi).toNat = (x - s.rdi).toNat - bit.toNat :=
      sub_add_toNat (by omega)
    exact ⟨movs_outside (by omega), by omega⟩

theorem part_le (Num bit : Word) : part Num bit ≤ bit.toNat := by
  unfold part
  split
  · exact Nat.zero_le _
  · exact Nat.le_refl _

/-- The first quadword is moved, and nothing behind it comes back to its place. -/
theorem memcpy_first_quad (m : Memory) (From To : Word) {Num : Word} (hNum : Num.toNat < 2 ^ 63)
    (hEight : 8 ≤ Num.toNat)
    {d : Nat} (hd : d < 8) :
    (memcpy m From To Num).1 (To + BitVec.ofNat 64 d) = m (From + BitVec.ofNat 64 d) := by
  have hSum := parts_sum hNum
  have hQuads : 0 < (Num.sdiv 8).toNat := by
    have h₄ : part Num 4 ≤ 4 := part_le Num 4
    have h₂ : part Num 2 ≤ 2 := part_le Num 2
    have h₁ : part Num 1 ≤ 1 := part_le Num 1
    omega
  obtain ⟨r, hr⟩ := Nat.exists_eq_add_one_of_ne_zero (Nat.ne_of_gt hQuads)
  obtain ⟨s₀, hs₀⟩ : ∃ s₀ : StringMachine, s₀ = ⟨m, From, To, Num.sdiv 8, [], []⟩ := ⟨_, rfl⟩
  obtain ⟨x, hx⟩ : ∃ x, x = To + BitVec.ofNat 64 d := ⟨_, rfl⟩
  have hFirst : (StringMachine.movs 8 s₀).mem x = m (From + BitVec.ofNat 64 d) := by
    have hInside := (movs_wrote 8 s₀).inside (by decide) hd
    rw [hs₀] at hInside ⊢
    rw [hx]
    exact hInside
  have hBehind : (x - (StringMachine.movs 8 s₀).rdi).toNat = 2 ^ 64 - 8 + d := by
    have hRdi : (StringMachine.movs 8 s₀).rdi = To + 8 := by rw [hs₀]; rfl
    rw [hRdi, hx]
    bv_omega
  have hRounds : (repMovs 8 s₀).mem x = m (From + BitVec.ofNat 64 d) := by
    have hRun : repMovs 8 s₀ = StringMachine.rounds 8 r (StringMachine.movs 8 s₀) := by
      have hCount : s₀.rcx.toNat = r + 1 := by
        rw [hs₀]
        exact hr
      unfold repMovs
      rw [hCount]
      rfl
    rw [hRun, rounds_outside (by omega), hFirst]
  have hRdi : (x - (repMovs 8 s₀).rdi).toNat = 2 ^ 64 + d - 8 * (Num.sdiv 8).toNat := by
    have hEnd : (repMovs 8 s₀).rdi = To + BitVec.ofNat 64 (8 * (Num.sdiv 8).toNat) := by
      rw [hs₀]
      exact rounds_rdi 8 _ _
    rw [hEnd, hx]
    bv_omega
  have hRoom : part Num 4 + (part Num 2 + part Num 1) ≤ (x - (repMovs 8 s₀).rdi).toNat := by omega
  obtain ⟨h₄, hRdi₄⟩ := tail_outside Num 4 hRoom
  obtain ⟨h₂, hRdi₂⟩ := tail_outside Num 2 hRdi₄
  obtain ⟨h₁, -⟩ := tail_outside (n := 0) Num 1 hRdi₂
  have hEnd := h₁.trans (h₂.trans (h₄.trans hRounds))
  rw [hs₀, hx] at hEnd
  exact hEnd

theorem copyBytes_repeats (m : Memory) {d : Nat} (hd : (dest - source).toNat = d) (hPos : 0 < d) (hLt : d < n)
    (hSize : n ≤ 2 ^ 63) : copyBytes n m source dest (dest + BitVec.ofNat 64 d) = m source := by
  have hSplit : n = d + (n - d - 1 + 1) := by omega
  have hSafe : ForwardSafe source dest d := .inr (Nat.le_of_eq hd.symm)
  have hSource : source + BitVec.ofNat 64 d = dest := by
    rw [← hd, BitVec.ofNat_toNat, BitVec.setWidth_eq]
    abel
  have hFirst := (copyBytes_wrote m hSafe (by omega)).inside (i := 0) (by omega) hPos
  rw [offset_zero, offset_zero] at hFirst
  rw [hSplit, copyBytes_add, hSource, copyBytes, copyBytes_outside _ (by omega)]
  · rw [Function.update_self]
    exact hFirst
  · have hBack : dest + BitVec.ofNat 64 d - (dest + BitVec.ofNat 64 d + 1) = -1 := by abel
    rw [hBack]
    have hLast : (-1 : Word).toNat = 2 ^ 64 - 1 := rfl
    omega

theorem memcpy_not_looped {From To Num : Word} (hNum : Num.toNat < 2 ^ 63) (hEight : 8 ≤ Num.toNat)
    (hStride : ¬Strided From To) : ∃ m, memcpy m From To Num ≠ (copyBytes Num.toNat m From To, To) := by
  obtain ⟨hNe, hNear⟩ := not_or.mp hStride
  obtain ⟨d, hd⟩ : ∃ d, d = (To - From).toNat := ⟨_, rfl⟩
  have hPos : 0 < d := by
    rw [hd]
    bv_omega
  let m : Memory := Function.update (fun _ => 0) From 1
  refine ⟨m, fun hSame => ?_⟩
  -- the loop brings the first byte `d` further on, the quadword has the old byte there
  have hLoop := copyBytes_repeats m hd.symm hPos (n := Num.toNat) (by omega) (by omega)
  have hQuad := memcpy_first_quad m From To hNum hEight (d := d) (by omega)
  have hOther : From + BitVec.ofNat 64 d ≠ From := by bv_omega
  have hZero : m (From + BitVec.ofNat 64 d) = 0 := Function.update_of_ne hOther _ _
  have hOne : m From = 1 := Function.update_self _ _ _
  rw [hSame, hZero] at hQuad
  rw [hOne] at hLoop
  exact absurd (hQuad.symm.trans hLoop) (by decide)

end

/-- `memset` and `memcpy` do what loops over the bytes do. For `memcpy` that is so unless the destination
begins one to seven bytes behind the source; it is a copy of the old bytes if the destination does not begin
inside the source at all. -/
theorem blocks_as_byte_loops {Count : Word} (hCount : Count.toNat < 2 ^ 63) :
    (∀ m Address C, memset m Address C Count = (setBytes C Count.toNat m Address, Address)) ∧
      (∀ m From To, Strided From To → memcpy m From To Count = (copyBytes Count.toNat m From To, To)) ∧
      (∀ From To, 8 ≤ Count.toNat → ¬Strided From To →
        ∃ m, memcpy m From To Count ≠ (copyBytes Count.toNat m From To, To)) ∧
      ∀ m From To, ForwardSafe From To Count.toNat → ∀ x, (memcpy m From To Count).1 x =
        if (x - To).toNat < Count.toNat then m (From + (x - To)) else m x := by
  refine ⟨fun m Address C => ?_, fun m From To => memcpy_looped m hCount,
    fun From To => memcpy_not_looped hCount, fun m From To hSafe x => ?_⟩
  · have hSame := (memset_wrote m Address C hCount).unique (setBytes_wrote C m Address (by omega))
    exact Prod.ext hSame rfl
  · rw [memcpy_wrote hCount hSafe x]
    dsimp only
    rw [BitVec.ofNat_toNat, BitVec.setWidth_eq]

/-- Twelve bytes; `memcpy` to a place apart, and to one byte behind. -/
theorem blocks_as_byte_loops_twelve :
    (∀ m Address C, memset m Address C 12 = (setBytes C 12 m Address, Address)) ∧
      (∀ m, memcpy m 0x100 0x200 12 = (copyBytes 12 m 0x100 0x200, 0x200)) ∧
      (∀ m : Memory, (memcpy m 0x100 0x200 12).1 0x20b = m 0x10b) ∧
      ∃ m, memcpy m 0x100 0x101 12 ≠ (copyBytes 12 m 0x100 0x101, 0x101) := by
  obtain ⟨hSet, hLoop, hNear, hCopy⟩ := blocks_as_byte_loops (by decide : (12 : Word).toNat < 2 ^ 63)
  refine ⟨hSet, fun m => hLoop m 0x100 0x200 (by unfold Strided; decide), fun m => ?_,
    hNear 0x100 0x101 (by decide) (by unfold Strided; decide)⟩
  exact (hCopy m 0x100 0x200 (by unfold ForwardSafe; decide) 0x20b).trans (if_pos (by decide))

end KalinoteOS.Strings
