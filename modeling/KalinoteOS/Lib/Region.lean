import KalinoteOS.Lib.StringMove

/-! # Writes to a range of addresses

`Wrote m m' a n f` says that `m'` is `m` with the `n` bytes from `a` on set to `f 0`, `f 1`, …; ranges may
wrap around. `rep stos` and `rep movs` are such writes.
-/
namespace KalinoteOS.Lib
open StringMachine
set_option autoImplicit false

theorem Bytes.store_inside (m : Bytes) (a : Nat) {n : Nat} (v : Nat) {i : Nat} (hi : i < n) :
    Bytes.store m a n v (a + i) = BitVec.ofNat 8 (v / 256 ^ i) := by
  induction n generalizing a v i with
  | zero => exact absurd hi (Nat.not_lt_zero i)
  | succ n ih =>
    rw [Bytes.store]
    cases i with
    | zero =>
      rw [Nat.pow_zero, Nat.div_one]
      exact Function.update_self _ _ _
    | succ i =>
      have hShift : a + (i + 1) = a + 1 + i := by omega
      rw [Function.update_of_ne (by omega), hShift, ih (a + 1) (v / 256) (by omega), Nat.div_div_eq_div_mul,
        Nat.pow_succ, Nat.mul_comm 256]

theorem offset_zero (a : Word) : a + BitVec.ofNat 64 0 = a := BitVec.add_zero a

theorem offset_succ (a : Word) (i : Nat) : a + 1 + BitVec.ofNat 64 i = a + BitVec.ofNat 64 (i + 1) := by
  rw [Nat.add_comm, BitVec.ofNat_add, ← BitVec.add_assoc]
  rfl

namespace Memory

/-- The `n` bytes from `a` on. -/
def bytes (m : Memory) (a : Word) : Nat → List (BitVec 8)
  | 0 => []
  | n + 1 => m a :: bytes m (a + 1) n

section
variable {m m' : Memory} {a b : Word} {n : Nat}

theorem bytes_congr (h : ∀ i < n, m (a + BitVec.ofNat 64 i) = m' (b + BitVec.ofNat 64 i)) :
    m.bytes a n = m'.bytes b n := by
  induction n generalizing a b with
  | zero => rfl
  | succ n ih =>
    have hHead := h 0 (Nat.succ_pos n)
    rw [offset_zero, offset_zero] at hHead
    rw [bytes, bytes, hHead]
    refine congrArg (List.cons _) (ih fun i hi => ?_)
    rw [offset_succ, offset_succ]
    exact h (i + 1) (by omega)

/-- The same bytes make the same words. -/
theorem words_congr (h : ∀ i < 8 * n, m (a + BitVec.ofNat 64 i) = m' (b + BitVec.ofNat 64 i)) :
    m.words a n = m'.words b n := by
  induction n generalizing a b with
  | zero => rfl
  | succ n ih =>
    have hNext : ∀ (c : Word) (i : Nat), c + 8 + BitVec.ofNat 64 i = c + BitVec.ofNat 64 (8 + i) := by
      intro c i
      rw [BitVec.ofNat_add, ← BitVec.add_assoc]
      rfl
    have hHead : m.load a = m'.load b := by
      have hBytes : Bytes.load (m.view a) 0 8 = Bytes.load (m'.view b) 0 8 :=
        Bytes.load_congr fun i _ hi => h i (by omega)
      unfold load
      rw [hBytes]
    rw [words, words, hHead]
    refine congrArg (List.cons _) (ih fun i hi => ?_)
    rw [hNext, hNext]
    exact h (8 + i) (by omega)

theorem store_outside {x : Word} (v : Word) (h : 8 ≤ (x - a).toNat) : m.store a v x = m x := by
  have hBack : a + (x - a) = x := by abel
  unfold store
  rw [Bytes.store_other _ _ (.inr h)]
  unfold view
  rw [BitVec.ofNat_toNat, BitVec.setWidth_eq, hBack]

theorem bytes_eq_map (m : Memory) (a : Word) (n : Nat) :
    m.bytes a n = (List.range n).map fun i => m (a + BitVec.ofNat 64 i) := by
  induction n generalizing a with
  | zero => rfl
  | succ n ih =>
    rw [bytes, ih, List.range_succ_eq_map, List.map_cons, List.map_map, offset_zero]
    refine congrArg (List.cons _) (List.map_congr_left fun i _ => ?_)
    rw [offset_succ]
    rfl

/-- The bytes of a word, the low one first. -/
def wordBytes (v : Word) : List (BitVec 8) := (List.range 8).map fun i => BitVec.ofNat 8 (v.toNat / 256 ^ i)

theorem bytes_store (v : Word) : (m.store a v).bytes a 8 = wordBytes v := by
  rw [bytes_eq_map]
  refine List.map_congr_left fun i hi => ?_
  have hLt := List.mem_range.mp hi
  have hOffset : (a + BitVec.ofNat 64 i - a).toNat = 0 + i := by bv_omega
  unfold store
  rw [hOffset]
  exact Bytes.store_inside _ _ _ hLt

end
end Memory

def Wrote (m m' : Memory) (a : Word) (n : Nat) (f : Nat → BitVec 8) : Prop :=
  ∀ x, m' x = if (x - a).toNat < n then f (x - a).toNat else m x

namespace Wrote
section
variable {m m₁ m₂ : Memory} {a : Word} {k n : Nat} {f g : Nat → BitVec 8}

theorem refl (m : Memory) (a : Word) (f : Nat → BitVec 8) : Wrote m m a 0 f :=
  fun _ => (if_neg (Nat.not_lt_zero _)).symm

theorem congr (h : Wrote m m₁ a n f) (hSame : ∀ i < n, f i = g i) : Wrote m m₁ a n g := by
  intro x
  rw [h x]
  split
  · next hIn => exact hSame _ hIn
  · rfl

theorem inside (h : Wrote m m₁ a n f) (hSize : n ≤ 2 ^ 64) {i : Nat} (hi : i < n) :
    m₁ (a + BitVec.ofNat 64 i) = f i := by
  have hOffset : (a + BitVec.ofNat 64 i - a).toNat = i := by bv_omega
  rw [h, hOffset, if_pos hi]

theorem outside (h : Wrote m m₁ a n f) {x : Word} (hx : n ≤ (x - a).toNat) : m₁ x = m x := by
  rw [h, if_neg (by omega)]

/-- Two writes in a row, the second where the first one ends. -/
theorem append (hFirst : Wrote m m₁ a k f) (hSecond : Wrote m₁ m₂ (a + BitVec.ofNat 64 k) n fun i => f (k + i))
    (hSize : k + n ≤ 2 ^ 64) : Wrote m m₂ a (k + n) f := by
  intro x
  have hNext : x - (a + BitVec.ofNat 64 k) = x - a - BitVec.ofNat 64 k := sub_add_eq_sub_sub x a _
  have hBound := (x - a).isLt
  rw [hSecond x, hNext]
  by_cases hLow : (x - a).toNat < k
  · -- before the second range, which begins `k` further up
    have hFar : ¬(x - a - BitVec.ofNat 64 k).toNat < n := by
      rw [BitVec.toNat_sub, BitVec.toNat_ofNat]
      omega
    rw [if_neg hFar, if_pos (by omega), hFirst x, if_pos hLow]
  · have hOffset : k < 2 ^ 64 → (x - a - BitVec.ofNat 64 k).toNat = (x - a).toNat - k := by
      intro hk
      rw [BitVec.toNat_sub, BitVec.toNat_ofNat]
      omega
    by_cases hIn : (x - a).toNat < k + n
    · have hBack : k + ((x - a).toNat - k) = (x - a).toNat := by omega
      rw [hOffset (by omega), if_pos (by omega), if_pos hIn]
      exact congrArg f hBack
    · have hFar : ¬(x - a - BitVec.ofNat 64 k).toNat < n := by
        rw [hOffset (by omega)]
        omega
      rw [if_neg hFar, if_neg hIn, hFirst x, if_neg hLow]

theorem unique (h₁ : Wrote m m₁ a n f) (h₂ : Wrote m m₂ a n f) : m₁ = m₂ :=
  funext fun x => (h₁ x).trans (h₂ x).symm

theorem update (m : Memory) (a : Word) (c : BitVec 8) : Wrote m (Function.update m a c) a 1 fun _ => c := by
  intro x
  by_cases hx : x = a
  · have hZero : (a - a).toNat < 1 := by
      rw [BitVec.sub_self]
      decide
    rw [hx, Function.update_self, if_pos hZero]
  · have hFar : ¬(x - a).toNat < 1 := by bv_omega
    rw [Function.update_of_ne hx, if_neg hFar]

/-- One byte, from `source` to `dest`. -/
theorem copy (m : Memory) (source dest : Word) :
    Wrote m (Function.update m dest (m source)) dest 1 fun i => m (source + BitVec.ofNat 64 i) := by
  refine (update m dest (m source)).congr fun i hi => ?_
  obtain rfl : i = 0 := by omega
  exact congrArg m (offset_zero source).symm

/-- The words of a range come out as they were written. -/
theorem words {source : Word} {m₀ : Memory} (h : Wrote m m₁ a n fun i => m₀ (source + BitVec.ofNat 64 i))
    (hn : 8 * k ≤ n) (hSize : n ≤ 2 ^ 64) : m₁.words a k = m₀.words source k :=
  Memory.words_congr fun _ hi => h.inside hSize (by omega)

end
end Wrote

/-! ## `stos` -/

/-- The byte `i` of a word. -/
def byteOf (v : Word) (i : Nat) : BitVec 8 := (v >>> (8 * i)).setWidth 8

/-- The registers that `rep stos` uses besides `rax`. -/
structure StosMachine where
  mem : Memory
  rdi : Word
  rcx : Word

namespace StosMachine

/-- One `stos` of the low `width` bytes of `rax`. -/
def stos (width : Nat) (rax : Word) (s : StosMachine) : StosMachine :=
  { s with
    mem := fun x => if (x - s.rdi).toNat < width then byteOf rax (x - s.rdi).toNat else s.mem x
    rdi := s.rdi + BitVec.ofNat 64 width }

def rounds (width : Nat) (rax : Word) : Nat → StosMachine → StosMachine
  | 0, s => s
  | n + 1, s => rounds width rax n { stos width rax s with rcx := s.rcx - 1 }

def repStos (width : Nat) (rax : Word) (s : StosMachine) : StosMachine := rounds width rax s.rcx.toNat s

section
variable {width : Nat} {rax : Word} {c : BitVec 8}

theorem stos_wrote (hByte : ∀ i < width, byteOf rax i = c) (s : StosMachine) :
    Wrote s.mem (stos width rax s).mem s.rdi width fun _ => c := by
  intro x
  refine (ite_congr rfl (fun hIn => ?_) fun _ => rfl)
  exact hByte _ hIn

theorem rounds_wrote (hByte : ∀ i < width, byteOf rax i = c) {n : Nat} (hSize : width * n ≤ 2 ^ 64)
    (s : StosMachine) : Wrote s.mem (rounds width rax n s).mem s.rdi (width * n) (fun _ => c) ∧
      (rounds width rax n s).rdi = s.rdi + BitVec.ofNat 64 (width * n) := by
  induction n generalizing s with
  | zero => exact ⟨Wrote.refl _ _ _, (BitVec.add_zero _).symm⟩
  | succ n ih =>
    rw [Nat.mul_succ, Nat.add_comm (width * n)] at hSize ⊢
    obtain ⟨hWrote, hRdi⟩ := ih (by omega) { stos width rax s with rcx := s.rcx - 1 }
    constructor
    · exact (stos_wrote hByte s).append hWrote hSize
    · refine hRdi.trans ?_
      rw [BitVec.ofNat_add, ← BitVec.add_assoc]
      rfl

end
end StosMachine

/-! ## `movs` over ranges that may overlap -/

/-- No byte is overwritten before it has been read when `n` bytes are copied upwards: the destination does
not begin inside the source behind its first byte. -/
def ForwardSafe (source dest : Word) (n : Nat) : Prop :=
  dest = source ∨ n ≤ (dest - source).toNat

section
variable {m m₁ m₂ : Memory} {source dest : Word} {k n : Nat}

theorem ForwardSafe.shorter (h : ForwardSafe source dest n) (hk : k ≤ n) : ForwardSafe source dest k :=
  h.imp_right hk.trans

theorem ForwardSafe.skip (h : ForwardSafe source dest (k + n)) :
    ForwardSafe (source + BitVec.ofNat 64 k) (dest + BitVec.ofNat 64 k) n := by
  obtain rfl | hFar := h
  · exact .inl rfl
  · right
    have hGap : dest + BitVec.ofNat 64 k - (source + BitVec.ofNat 64 k) = dest - source := by abel
    rw [hGap]
    omega

/-- What the first `k` bytes of the copy leave of the source. -/
theorem ForwardSafe.kept (h : ForwardSafe source dest (k + n)) (hSize : k + n ≤ 2 ^ 64)
    (hWrote : Wrote m m₁ dest k fun i => m (source + BitVec.ofNat 64 i)) {i : Nat} (hi : i < n) :
    m₁ (source + BitVec.ofNat 64 (k + i)) = m (source + BitVec.ofNat 64 (k + i)) := by
  obtain rfl | hFar := h
  · have hOffset : (dest + BitVec.ofNat 64 (k + i) - dest).toNat = k + i := by bv_omega
    rw [hWrote, hOffset, if_neg (by omega)]
  · apply hWrote.outside
    obtain ⟨d, hd⟩ : ∃ d, d = dest - source := ⟨_, rfl⟩
    have hSame : source + BitVec.ofNat 64 (k + i) - dest = BitVec.ofNat 64 (k + i) - d := by
      rw [hd]
      abel
    rw [← hd] at hFar
    have hBound := d.isLt
    rw [hSame, BitVec.toNat_sub, BitVec.toNat_ofNat]
    omega

/-- Two copies in a row are one. -/
theorem Wrote.copy_append (hFirst : Wrote m m₁ dest k fun i => m (source + BitVec.ofNat 64 i))
    (hSecond : Wrote m₁ m₂ (dest + BitVec.ofNat 64 k) n fun i =>
      m₁ (source + BitVec.ofNat 64 k + BitVec.ofNat 64 i))
    (hSafe : ForwardSafe source dest (k + n)) (hSize : k + n ≤ 2 ^ 64) :
    Wrote m m₂ dest (k + n) fun i => m (source + BitVec.ofNat 64 i) := by
  apply hFirst.append (hSecond.congr ?_) hSize
  intro i hi
  rw [BitVec.add_assoc, ← BitVec.ofNat_add]
  exact hSafe.kept hSize hFirst hi

theorem movs_wrote (width : Nat) (s : StringMachine) :
    Wrote s.mem (movs width s).mem s.rdi width fun i => s.mem (s.rsi + BitVec.ofNat 64 i) := by
  intro x
  refine ite_congr rfl (fun _ => ?_) fun _ => rfl
  dsimp only
  rw [BitVec.ofNat_toNat, BitVec.setWidth_eq]

theorem rounds_copied {width n : Nat} (s : StringMachine) (hSafe : ForwardSafe s.rsi s.rdi (width * n))
    (hSize : width * n ≤ 2 ^ 64) :
    Wrote s.mem (StringMachine.rounds width n s).mem s.rdi (width * n) fun i =>
      s.mem (s.rsi + BitVec.ofNat 64 i) := by
  induction n generalizing s with
  | zero => exact Wrote.refl _ _ _
  | succ n ih =>
    rw [Nat.mul_succ, Nat.add_comm (width * n)] at hSafe hSize ⊢
    exact (movs_wrote width s).copy_append (ih (movs width s) hSafe.skip (by omega)) hSafe hSize

end
end KalinoteOS.Lib
