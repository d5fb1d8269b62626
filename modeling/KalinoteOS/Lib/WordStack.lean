import KalinoteOS.Lib.Bytes

/-! # A stack of 64-bit words in a byte memory

Addresses have 64 bits and wrap around. The stack grows down; it is read as the list of its words
from the top on.
-/
namespace KalinoteOS.Lib
set_option autoImplicit false

abbrev Word := BitVec 64

abbrev Memory := Word → BitVec 8

namespace Memory

/-- The bytes from `a` on. -/
def view (m : Memory) (a : Word) : Bytes := fun i => m (a + BitVec.ofNat 64 i)

/-- The word at `a`. -/
def load (m : Memory) (a : Word) : Word := BitVec.ofNat 64 (Bytes.load (m.view a) 0 8)

def store (m : Memory) (a v : Word) : Memory :=
  fun x => Bytes.store (m.view a) 0 8 v.toNat (x - a).toNat

/-- The `n` words from `a` on. -/
def words (m : Memory) (a : Word) : Nat → List Word
  | 0 => []
  | n + 1 => m.load a :: words m (a + 8) n

section
variable {m : Memory} {a b v : Word}

theorem load_congr {m' : Memory} (h : ∀ i, i < 8 → m (a + BitVec.ofNat 64 i) = m' (a + BitVec.ofNat 64 i)) :
    m.load a = m'.load a := by
  have hBytes : Bytes.load (m.view a) 0 8 = Bytes.load (m'.view a) 0 8 :=
    Bytes.load_congr fun i _ hi => h i (by omega)
  unfold load
  rw [hBytes]

theorem load_store : (m.store a v).load a = v := by
  have hView : Bytes.load ((m.store a v).view a) 0 8 =
      Bytes.load (Bytes.store (m.view a) 0 8 v.toNat) 0 8 := by
    apply Bytes.load_congr
    intro i _ hi
    have hOffset : (a + BitVec.ofNat 64 i - a).toNat = i := by bv_omega
    unfold view store
    rw [hOffset]
    rfl
  unfold load
  rw [hView, Bytes.load_store]
  have hSmall : v.toNat % 256 ^ 8 = v.toNat := Nat.mod_eq_of_lt v.isLt
  rw [hSmall, BitVec.ofNat_toNat, BitVec.setWidth_eq]

theorem load_store_apart (hLow : 8 ≤ (b - a).toNat) (hHigh : (b - a).toNat + 8 ≤ 2 ^ 64) :
    (m.store a v).load b = m.load b := by
  apply load_congr
  intro i hi
  have hOffset : (b + BitVec.ofNat 64 i - a).toNat = (b - a).toNat + i := by bv_omega
  have hAddress : a + BitVec.ofNat 64 ((b - a).toNat + i) = b + BitVec.ofNat 64 i := by bv_omega
  unfold store
  rw [hOffset, Bytes.store_other _ _ (by omega)]
  unfold view
  rw [hAddress]

/-- A store does not change the words at a distance from it. -/
theorem words_store {n : Nat} (hLow : 8 ≤ (b - a).toNat) (hHigh : (b - a).toNat + 8 * n ≤ 2 ^ 64) :
    (m.store a v).words b n = m.words b n := by
  induction n generalizing b with
  | zero => rfl
  | succ n ih =>
    rw [words, words, load_store_apart hLow (by omega)]
    refine congrArg (List.cons _) ?_
    cases n with
    | zero => rfl
    | succ n =>
      have hNext : (b + 8 - a).toNat = (b - a).toNat + 8 := by bv_omega
      exact ih (by omega) (by omega)

theorem words_push {n : Nat} (hRoom : 8 * (n + 1) ≤ 2 ^ 64) :
    (m.store (a - 8) v).words (a - 8) (n + 1) = v :: m.words a n := by
  have hBack : a - 8 + 8 = a := by bv_omega
  have hGap : (a - (a - 8)).toNat = 8 := by bv_omega
  rw [words, load_store, hBack, words_store (by omega) (by omega)]

theorem words_store_at {k n : Nat} (hRoom : 8 * (k + 1 + n) ≤ 2 ^ 64) :
    (m.store (a + BitVec.ofNat 64 (8 * k)) v).words a (k + 1 + n) =
      (m.words a (k + 1 + n)).set k v := by
  induction k generalizing a with
  | zero =>
    have hHere : a + BitVec.ofNat 64 (8 * 0) = a := BitVec.add_zero a
    have hGap : (a + 8 - a).toNat = 8 := by bv_omega
    rw [hHere, Nat.zero_add, Nat.add_comm, words, words, load_store, words_store (by omega) (by omega)]
    rfl
  | succ k ih =>
    have hNext : a + BitVec.ofNat 64 (8 * (k + 1)) = a + 8 + BitVec.ofNat 64 (8 * k) := by bv_omega
    have hGap : (a - (a + BitVec.ofNat 64 (8 * (k + 1)))).toNat = 2 ^ 64 - 8 * (k + 1) := by bv_omega
    have hLength : k + 1 + 1 + n = k + 1 + n + 1 := by omega
    rw [hLength, words, words, load_store_apart (by omega) (by omega), hNext, ih (by omega)]
    rfl

theorem getElem?_words {i n : Nat} (hLt : i < n) :
    (m.words a n)[i]? = some (m.load (a + BitVec.ofNat 64 (8 * i))) := by
  induction i generalizing a n with
  | zero =>
    obtain ⟨k, rfl⟩ := Nat.exists_eq_add_of_lt hLt
    have hHere : a + BitVec.ofNat 64 (8 * 0) = a := BitVec.add_zero a
    rw [Nat.zero_add, words, List.getElem?_cons_zero, hHere]
  | succ i ih =>
    obtain ⟨k, rfl⟩ := Nat.exists_eq_add_of_lt hLt
    have hNext : a + BitVec.ofNat 64 (8 * (i + 1)) = a + 8 + BitVec.ofNat 64 (8 * i) := by bv_omega
    rw [words, List.getElem?_cons_succ, ih (by omega), hNext]

end

end Memory

end KalinoteOS.Lib
