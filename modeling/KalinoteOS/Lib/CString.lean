import KalinoteOS.Lib.Region

/-! # Strings that end with a NUL

`Holds m a s` says that the string at `a` is `s`. Its bytes are at different addresses, so that it is
shorter than the memory.
-/
namespace KalinoteOS.Lib
set_option autoImplicit false

def Holds (m : Memory) : Word → List (BitVec 8) → Prop
  | a, [] => m a = 0#8
  | a, c :: s => m a = c ∧ c ≠ 0#8 ∧ Holds m (a + 1) s

namespace Holds
section
variable {m m' : Memory} {a b : Word} {s t : List (BitVec 8)}

theorem iff_bytes : Holds m a s ↔
    (∀ i (h : i < s.length), m (a + BitVec.ofNat 64 i) = s[i]) ∧ 0#8 ∉ s ∧
      m (a + BitVec.ofNat 64 s.length) = 0#8 := by
  induction s generalizing a with
  | nil =>
    have hEnd : m (a + BitVec.ofNat 64 ([] : List (BitVec 8)).length) = m a := congrArg m (offset_zero a)
    rw [Holds, hEnd]
    exact ⟨fun h => ⟨fun i hi => absurd hi (Nat.not_lt_zero i), List.not_mem_nil, h⟩, fun h => h.2.2⟩
  | cons c s ih =>
    have hEnd : m (a + 1 + BitVec.ofNat 64 s.length) = m (a + BitVec.ofNat 64 (c :: s).length) :=
      congrArg m (offset_succ a s.length)
    rw [Holds, ih, hEnd, List.mem_cons, not_or]
    constructor
    · rintro ⟨hc, hNe, hBytes, hNone, hEnd⟩
      refine ⟨fun i hi => ?_, ⟨Ne.symm hNe, hNone⟩, hEnd⟩
      cases i with
      | zero => exact (congrArg m (offset_zero a)).trans hc
      | succ i => exact (congrArg m (offset_succ a i).symm).trans (hBytes i (Nat.lt_of_succ_lt_succ hi))
    · rintro ⟨hBytes, ⟨hNe, hNone⟩, hEnd⟩
      refine ⟨(congrArg m (offset_zero a)).symm.trans (hBytes 0 (Nat.succ_pos _)), Ne.symm hNe, fun i hi => ?_,
        hNone, hEnd⟩
      exact (congrArg m (offset_succ a i)).trans (hBytes (i + 1) (Nat.succ_lt_succ hi))

theorem byte (h : Holds m a s) {i : Nat} (hi : i < s.length) : m (a + BitVec.ofNat 64 i) = s[i] :=
  (iff_bytes.mp h).1 i hi

theorem no_nul (h : Holds m a s) : 0#8 ∉ s := (iff_bytes.mp h).2.1

theorem nul (h : Holds m a s) : m (a + BitVec.ofNat 64 s.length) = 0#8 := (iff_bytes.mp h).2.2

theorem byte_ne (h : Holds m a s) {i : Nat} (hi : i < s.length) : m (a + BitVec.ofNat 64 i) ≠ 0#8 := by
  rw [h.byte hi]
  intro hZero
  exact h.no_nul (hZero ▸ List.getElem_mem hi)

/-- Round the memory once, and the NUL would be one of the characters. -/
theorem length_lt (h : Holds m a s) : s.length < 2 ^ 64 := by
  by_contra hLong
  have hWrap : BitVec.ofNat 64 s.length = BitVec.ofNat 64 (s.length - 2 ^ 64) := by
    apply BitVec.eq_of_toNat_eq
    rw [BitVec.toNat_ofNat, BitVec.toNat_ofNat]
    omega
  have hEnd := h.nul
  rw [hWrap] at hEnd
  exact h.byte_ne (by omega) hEnd

/-- The same bytes at another place are the same string. -/
theorem moved (h : Holds m a s)
    (hSame : ∀ i ≤ s.length, m' (b + BitVec.ofNat 64 i) = m (a + BitVec.ofNat 64 i)) : Holds m' b s := by
  rw [iff_bytes]
  refine ⟨fun i hi => ?_, h.no_nul, ?_⟩
  · rw [hSame i (by omega), h.byte hi]
  · rw [hSame _ (Nat.le_refl _), h.nul]

theorem append (hBytes : ∀ i (h : i < s.length), m (a + BitVec.ofNat 64 i) = s[i]) (hNone : 0#8 ∉ s)
    (hRest : Holds m (a + BitVec.ofNat 64 s.length) t) : Holds m a (s ++ t) := by
  obtain ⟨hT, hNoneT, hEnd⟩ := iff_bytes.mp hRest
  rw [iff_bytes]
  refine ⟨fun i hi => ?_, ?_, ?_⟩
  · by_cases hLow : i < s.length
    · rw [hBytes i hLow, List.getElem_append_left hLow]
    · have hSplit : i = s.length + (i - s.length) := by omega
      rw [List.length_append] at hi
      rw [List.getElem_append_right (by omega), ← hT _ (by omega), BitVec.add_assoc, ← BitVec.ofNat_add,
        ← hSplit]
  · rw [List.mem_append, not_or]
    exact ⟨hNone, hNoneT⟩
  · rw [List.length_append, BitVec.ofNat_add, ← BitVec.add_assoc]
    exact hEnd

/-- A string in one memory only. -/
theorem unique (hs : Holds m a s) (ht : Holds m a t) : s = t := by
  induction s generalizing a t with
  | nil =>
    cases t with
    | nil => rfl
    | cons d t => exact absurd (ht.1.symm.trans hs) ht.2.1
  | cons c s ih =>
    cases t with
    | nil => exact absurd (hs.1.symm.trans ht) hs.2.1
    | cons d t =>
      rw [hs.1.symm.trans ht.1, ih hs.2.2 ht.2.2]

end
end Holds

/-- What was written is the string. -/
theorem Wrote.holds {m m' : Memory} {s : List (BitVec 8)} {source dest : Word}
    (h : Wrote m m' dest (1 + s.length) fun i => m (source + BitVec.ofNat 64 i)) (hs : Holds m source s) :
    Holds m' dest s := by
  have hLength := hs.length_lt
  apply hs.moved
  intro i hi
  exact h.inside (by omega) (by omega)

end KalinoteOS.Lib
