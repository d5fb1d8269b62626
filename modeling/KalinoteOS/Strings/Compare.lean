import KalinoteOS.FileSystem
import KalinoteOS.Strings.Copy

/-! # `memcmp`, `strncmp` and `strcmp`

All three compare the bytes as signed numbers, the first one that differs decides. `lodsb` and `cmpsb` take
the second string as their source, so that "less" says that the first string is the greater one.
-/
namespace KalinoteOS.Strings
open Lib
set_option autoImplicit false

/-- The zero flag, and whether `jl` would jump. -/
structure Flags where
  zf : Bool
  less : Bool
  deriving DecidableEq, Repr

def cmp (a b : BitVec 8) : Flags := ⟨a == b, a.slt b⟩

/-- `repe cmpsb`. With a count of 0 the flags stay as they are. -/
def repeCmpsb (m : Memory) : Nat → Word → Word → Flags → Flags
  | 0, _, _, flags => flags
  | rcx + 1, rsi, rdi, _ =>
    let flags := cmp (m rsi) (m rdi)
    if flags.zf then repeCmpsb m rcx (rsi + 1) (rdi + 1) flags else flags

/-- The end of all three functions: 1 if the flags say "less", else -1. -/
def unequal (flags : Flags) : Int := if flags.less then 1 else -1

/-- `flags` are those before the call. -/
def memcmp (m : Memory) (flags : Flags) (FirstPart SecondPart Count : Word) : Int :=
  let flags := repeCmpsb m Count.toNat SecondPart FirstPart flags
  if flags.zf then 0 else unequal flags

def strncmpLoop (m : Memory) : Nat → Word → Word → Word → Option Int
  | 0, _, _, _ => none
  | fuel + 1, rdi, rsi, rcx =>
    let rcx := rcx - 1
    if rcx.msb then some 0
    else
      let al := m rsi
      let flags := cmp al (m rdi)
      if !flags.zf then some (unequal flags)
      else if al ≠ 0#8 then strncmpLoop m fuel (rdi + 1) (rsi + 1) rcx
      else some 0

def strncmp (m : Memory) (fuel : Nat) (FirstPart SecondPart Count : Word) : Option Int :=
  strncmpLoop m fuel FirstPart SecondPart Count

/-- The registers of `strcmp` wrap around with the memory. -/
def strcmp (m : Memory) (fuel : Nat) (FirstPart SecondPart : Word) : Option Int :=
  FileSystem.strcmp (m.view 0) fuel FirstPart.toNat SecondPart.toNat

/-! ## The order of signed bytes -/

/-- The lexicographic order of the bytes as signed numbers. -/
def order (s t : List (BitVec 8)) : Ordering := compare (s.map BitVec.toInt) (t.map BitVec.toInt)

def sign : Ordering → Int
  | .lt => -1
  | .eq => 0
  | .gt => 1

section
variable {a b : BitVec 8} {s t : List (BitVec 8)}

theorem order_cons_same (a : BitVec 8) (s t : List (BitVec 8)) : order (a :: s) (a :: t) = order s t := by
  unfold order
  rw [List.map_cons, List.map_cons, List.compare_cons_cons]
  simp

/-- Bytes that differ decide. -/
theorem order_cons_ne (h : a ≠ b) (s t : List (BitVec 8)) : sign (order (a :: s) (b :: t)) =
    unequal (cmp b a) := by
  have hInt : a.toInt ≠ b.toInt := fun hSame => h (BitVec.eq_of_toInt_eq hSame)
  unfold order unequal cmp
  rw [List.map_cons, List.map_cons, List.compare_cons_cons]
  dsimp only
  by_cases hLess : b.toInt < a.toInt
  · have hSlt : b.slt a = true := BitVec.slt_iff_toInt_lt.mpr hLess
    have hGt : compare a.toInt b.toInt = .gt := Int.compare_eq_gt.mpr hLess
    rw [hGt, hSlt]
    rfl
  · have hSlt : b.slt a = false := by
      rw [← Bool.not_eq_true, BitVec.slt_iff_toInt_lt]
      exact hLess
    have hLt : compare a.toInt b.toInt = .lt := Int.compare_eq_lt.mpr (by omega)
    rw [hLt, hSlt]
    rfl

theorem order_eq_iff : order s t = .eq ↔ s = t := by
  unfold order
  rw [Std.LawfulEqCmp.compare_eq_iff_eq]
  exact (List.map_injective_iff.mpr fun _ _ h => BitVec.eq_of_toInt_eq h).eq_iff

theorem order_swap : (order s t).swap = order t s := by
  unfold order
  exact Std.OrientedCmp.eq_swap.symm

theorem order_trans {r : List (BitVec 8)} (hrs : order r s = .lt) (hst : order s t = .lt) : order r t = .lt := by
  unfold order at *
  exact Std.TransCmp.lt_trans hrs hst

/-- With its NUL a string comes where a dictionary has it, as long as no byte is negative. -/
theorem order_ascii (hs : ∀ c ∈ s, c ≠ 0#8 ∧ c.msb = false) (ht : ∀ c ∈ t, c ≠ 0#8 ∧ c.msb = false) :
    order (s ++ [0#8]) (t ++ [0#8]) = compare (s.map BitVec.toNat) (t.map BitVec.toNat) := by
  have hInt : ∀ c : BitVec 8, c ≠ 0#8 ∧ c.msb = false → c.toInt = c.toNat ∧ 0 < c.toNat := by
    intro c hc
    refine ⟨BitVec.toInt_eq_toNat_of_msb hc.2, Nat.pos_of_ne_zero fun hZero => hc.1 ?_⟩
    exact BitVec.eq_of_toNat_eq hZero
  induction s generalizing t with
  | nil =>
    cases t with
    | nil => rfl
    | cons d t =>
      obtain ⟨hd, hPos⟩ := hInt d (ht d List.mem_cons_self)
      have hLt : compare (0#8).toInt d.toInt = .lt :=
        Int.compare_eq_lt.mpr (by rw [hd]; exact Int.ofNat_lt.mpr hPos)
      unfold order
      rw [List.nil_append, List.cons_append, List.map_cons, List.map_cons, List.compare_cons_cons, hLt]
      rfl
  | cons c s ih =>
    obtain ⟨hc, hPos⟩ := hInt c (hs c List.mem_cons_self)
    cases t with
    | nil =>
      have hGt : compare c.toInt (0#8).toInt = .gt :=
        Int.compare_eq_gt.mpr (by rw [hc]; exact Int.ofNat_lt.mpr hPos)
      unfold order
      rw [List.nil_append, List.cons_append, List.map_cons, List.map_cons, List.compare_cons_cons, hGt]
      rfl
    | cons d t =>
      obtain ⟨hd, -⟩ := hInt d (ht d List.mem_cons_self)
      have hRest := ih (fun e he => hs e (List.mem_cons_of_mem _ he)) fun e he => ht e (List.mem_cons_of_mem _ he)
      have hHead : compare c.toInt d.toInt = compare c.toNat d.toNat := by
        rw [hc, hd]
        simp only [compare, compareOfLessAndEq, Int.ofNat_lt, Int.ofNat_inj]
      unfold order at hRest ⊢
      rw [List.cons_append, List.cons_append, List.map_cons, List.map_cons, List.compare_cons_cons, hRest, hHead,
        List.map_cons, List.map_cons, List.compare_cons_cons]

end

/-! ## The three functions -/

section
variable {m : Memory} {s t : List (BitVec 8)}

theorem repeCmpsb_spec {n : Nat} {a b : Word} {flags : Flags} (hZf : flags.zf = true) :
    (if (repeCmpsb m n b a flags).zf then 0 else unequal (repeCmpsb m n b a flags)) =
      sign (order (m.bytes a n) (m.bytes b n)) := by
  induction n generalizing a b flags with
  | zero =>
    rw [repeCmpsb, if_pos hZf]
    rfl
  | succ n ih =>
    rw [repeCmpsb, Memory.bytes, Memory.bytes]
    by_cases hSame : m b = m a
    · have hFlags : (cmp (m b) (m a)).zf = true := beq_iff_eq.mpr hSame
      rw [if_pos hFlags, ih hFlags, hSame, order_cons_same]
    · have hFlags : ¬(cmp (m b) (m a)).zf = true := fun h => hSame (beq_iff_eq.mp h)
      rw [if_neg hFlags, if_neg hFlags, order_cons_ne (Ne.symm hSame)]

theorem memcmp_spec (m : Memory) (flags : Flags) (FirstPart SecondPart : Word) {Count : Word}
    (hPos : 0 < Count.toNat) :
    memcmp m flags FirstPart SecondPart Count =
      sign (order (m.bytes FirstPart Count.toNat) (m.bytes SecondPart Count.toNat)) := by
  obtain ⟨n, hn⟩ := Nat.exists_eq_add_one_of_ne_zero (Nat.ne_of_gt hPos)
  have hFirst : repeCmpsb m Count.toNat SecondPart FirstPart flags =
      repeCmpsb m Count.toNat SecondPart FirstPart ⟨true, false⟩ := by
    rw [hn]
    rfl
  unfold memcmp
  rw [hFirst]
  exact repeCmpsb_spec rfl

/-- The byte that a string begins with, and the bytes it is compared by. -/
theorem Holds.cases {a : Word} (hs : Holds m a s) :
    (m a = 0#8 ∧ s = []) ∨ ∃ r, m a ≠ 0#8 ∧ s = m a :: r ∧ Holds m (a + 1) r := by
  cases s with
  | nil => exact .inl ⟨hs, rfl⟩
  | cons c r =>
    obtain ⟨hc, hNe, hRest⟩ := hs
    subst hc
    exact .inr ⟨r, hNe, rfl, hRest⟩

theorem Holds.first {a : Word} (hs : Holds m a s) : ∃ r, s ++ [0#8] = m a :: r := by
  obtain ⟨hZero, rfl⟩ | ⟨r, -, rfl, -⟩ := Holds.cases hs
  · exact ⟨[], by rw [hZero]; rfl⟩
  · exact ⟨r ++ [0#8], rfl⟩

/-- The strings go on after the same byte, or end with it. -/
theorem Holds.same {a b : Word} (hs : Holds m a s) (ht : Holds m b t) (hSame : m b = m a) :
    (m b = 0#8 ∧ s = [] ∧ t = []) ∨
      ∃ s' t', m b ≠ 0#8 ∧ s = m a :: s' ∧ t = m a :: t' ∧ Holds m (a + 1) s' ∧ Holds m (b + 1) t' := by
  obtain ⟨hZero, rfl⟩ | ⟨s', hNe, rfl, hs'⟩ := Holds.cases hs
  · obtain ⟨hZero', rfl⟩ | ⟨t', hNe', -, -⟩ := Holds.cases ht
    · exact .inl ⟨hZero', rfl, rfl⟩
    · exact absurd (hSame.trans hZero) hNe'
  · obtain ⟨hZero', -⟩ | ⟨t', hNe', rfl, ht'⟩ := Holds.cases ht
    · exact absurd (hSame.symm.trans hZero') hNe
    · exact .inr ⟨s', t', hNe', rfl, by rw [hSame], hs', ht'⟩

theorem strncmpLoop_spec {fuel n : Nat} {a b rcx : Word} (hs : Holds m a s) (ht : Holds m b t)
    (hRcx : rcx.toNat = n) (hSmall : n < 2 ^ 63) (hFuel : min s.length t.length + 1 < fuel) :
    strncmpLoop m fuel a b rcx = some (sign (order ((s ++ [0#8]).take n) ((t ++ [0#8]).take n))) := by
  induction n generalizing s t a b rcx fuel with
  | zero =>
    obtain ⟨fuel, rfl⟩ := Nat.exists_eq_add_one_of_ne_zero (n := fuel) (by omega)
    have hZero : rcx = 0 := BitVec.eq_of_toNat_eq hRcx
    rw [hZero]
    rfl
  | succ n ih =>
    obtain ⟨fuel, rfl⟩ := Nat.exists_eq_add_one_of_ne_zero (n := fuel) (by omega)
    obtain ⟨hCount, hMsb⟩ := msb_of_lt hRcx hSmall
    rw [strncmpLoop, hMsb, if_neg Bool.false_ne_true]
    dsimp only
    by_cases hSame : m b = m a
    · have hFlags : ¬(!(cmp (m b) (m a)).zf) = true := by
        rw [hSame]
        simp [cmp]
      rw [if_neg hFlags]
      obtain ⟨hZero, rfl, rfl⟩ | ⟨s', t', hNe, rfl, rfl, hs', ht'⟩ := Holds.same hs ht hSame
      · rw [if_neg (not_not.mpr hZero)]
        refine congrArg some ?_
        rw [order_eq_iff.mpr rfl]
        rfl
      · rw [List.length_cons, List.length_cons] at hFuel
        rw [if_pos hNe, ih hs' ht' hCount (by omega) (by omega), List.cons_append, List.cons_append,
          List.take_succ_cons, List.take_succ_cons, order_cons_same]
    · have hFlags : (!(cmp (m b) (m a)).zf) = true := by simp [cmp, hSame]
      obtain ⟨s', hs'⟩ := Holds.first hs
      obtain ⟨t', ht'⟩ := Holds.first ht
      rw [if_pos hFlags, hs', ht', List.take_succ_cons, List.take_succ_cons, order_cons_ne (Ne.symm hSame)]

/-- `strcmp` over the bytes of the memory, which wrap around with the addresses. -/
theorem strcmpLoop_order {fuel : Nat} {a b : Word} {i j : Nat} (hs : Holds m a s) (ht : Holds m b t)
    (hi : BitVec.ofNat 64 i = a) (hj : BitVec.ofNat 64 j = b) (hFuel : min s.length t.length < fuel) :
    FileSystem.strcmpLoop (m.view 0) fuel i j = some (sign (order (s ++ [0#8]) (t ++ [0#8]))) := by
  induction fuel generalizing s t a b i j with
  | zero => exact absurd hFuel (Nat.not_lt_zero _)
  | succ fuel ih =>
    have hView : ∀ k, m.view 0 k = m (BitVec.ofNat 64 k) := fun k => congrArg m (BitVec.zero_add _)
    have hNext : ∀ {k : Nat} {c : Word}, BitVec.ofNat 64 k = c → BitVec.ofNat 64 (k + 1) = c + 1 := by
      intro k c hk
      rw [BitVec.ofNat_add, hk]
      rfl
    rw [FileSystem.strcmpLoop, hView, hView, hi, hj]
    by_cases hSame : m b = m a
    · rw [if_neg (not_not.mpr hSame)]
      obtain ⟨hZero, rfl, rfl⟩ | ⟨s', t', hNe, rfl, rfl, hs', ht'⟩ := Holds.same hs ht hSame
      · rw [if_neg (not_not.mpr hZero), order_eq_iff.mpr rfl]
        rfl
      · rw [List.length_cons, List.length_cons] at hFuel
        rw [if_pos hNe, ih hs' ht' (hNext hi) (hNext hj) (by omega), List.cons_append, List.cons_append,
          order_cons_same]
    · obtain ⟨s', hs'⟩ := Holds.first hs
      obtain ⟨t', ht'⟩ := Holds.first ht
      rw [if_pos hSame, hs', ht', order_cons_ne (Ne.symm hSame)]
      rfl

/-- `strcmp`, `strncmp` and `memcmp` answer by one order: that of the bytes, each a signed number, with the NUL
of a string as its last byte. The order is total, only equal strings are equal in it, and for ASCII it is the
dictionary's. -/
theorem comparisons_by_order {fuel : Nat} {a b : Word} (hs : Holds m a s) (ht : Holds m b t)
    (hFuel : min s.length t.length + 1 < fuel) :
    strcmp m fuel a b = some (sign (order (s ++ [0#8]) (t ++ [0#8]))) ∧
      (∀ Count : Word, Count.toNat < 2 ^ 63 → strncmp m fuel a b Count =
        some (sign (order ((s ++ [0#8]).take Count.toNat) ((t ++ [0#8]).take Count.toNat)))) ∧
      (∀ flags (Count : Word), 0 < Count.toNat →
        memcmp m flags a b Count = sign (order (m.bytes a Count.toNat) (m.bytes b Count.toNat))) ∧
      (order (s ++ [0#8]) (t ++ [0#8]) = .eq ↔ s = t) ∧
      (order (s ++ [0#8]) (t ++ [0#8])).swap = order (t ++ [0#8]) (s ++ [0#8]) ∧
      (∀ r, order r s = .lt → order s t = .lt → order r t = .lt) ∧
      ((∀ c ∈ s ++ t, c.msb = false) →
        order (s ++ [0#8]) (t ++ [0#8]) = compare (s.map BitVec.toNat) (t.map BitVec.toNat)) := by
  refine ⟨?_, fun Count hSmall => strncmpLoop_spec hs ht rfl hSmall hFuel,
    fun flags Count hPos => memcmp_spec m flags a b hPos, ?_, order_swap, fun r => order_trans,
    fun hAscii => ?_⟩
  · have hSelf : ∀ c : Word, BitVec.ofNat 64 c.toNat = c :=
      fun c => by rw [BitVec.ofNat_toNat, BitVec.setWidth_eq]
    exact strcmpLoop_order hs ht (hSelf a) (hSelf b) (by omega)
  · rw [order_eq_iff]
    exact List.append_left_inj [0#8]
  · have hNe : ∀ {u : List (BitVec 8)} {c : Word}, Holds m c u → ∀ d ∈ u, d ≠ 0#8 := by
      rintro u c hu d hd rfl
      exact hu.no_nul hd
    exact order_ascii (fun c hc => ⟨hNe hs c hc, hAscii c (List.mem_append_left _ hc)⟩)
      fun c hc => ⟨hNe ht c hc, hAscii c (List.mem_append_right _ hc)⟩

end

/-- `a` and `b`, of which the first is the smaller one, in one byte as well. -/
theorem comparisons_by_order_twoStrings :
    strcmp twoStrings 3 16 32 = some (sign (order [0x61#8, 0#8] [0x62#8, 0#8])) ∧
      strncmp twoStrings 3 16 32 1 = some (sign (order [0x61#8] [0x62#8])) ∧
      (∀ flags, memcmp twoStrings flags 16 32 1 = sign (order (twoStrings.bytes 16 1) (twoStrings.bytes 32 1))) ∧
      sign (order [0x61#8, 0#8] [0x62#8, 0#8]) = -1 := by
  obtain ⟨hStrcmp, hStrncmp, hMemcmp, -⟩ :=
    comparisons_by_order twoStrings_first twoStrings_second (by decide : min 1 1 + 1 < 3)
  exact ⟨hStrcmp, hStrncmp 1 (by decide), fun flags => hMemcmp flags 1 (by decide), by decide⟩

end KalinoteOS.Strings
