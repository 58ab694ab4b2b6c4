import Mathlib.Data.List.Range
import Mathlib.Logic.Basic

/-!
# Words as sets of numbers

A word of 64 bits as the set of the places at which it has a one. Tests of the kind
`word & (1 << n) != 0` are membership, and the bitwise operations are those of sets.
-/

namespace Bits

/-- The word with a one at `n` alone. -/
def bit (n : Nat) : BitVec 64 := 1#64 <<< n

/-- The word has a one at `n`. -/
def Has (w : BitVec 64) (n : Nat) : Prop := w &&& bit n ≠ 0

instance (w : BitVec 64) (n : Nat) : Decidable (Has w n) := inferInstanceAs (Decidable (_ ≠ _))

theorem getLsbD_bit (n i : Nat) : (bit n).getLsbD i = (decide (i = n) && decide (n < 64)) := by
  rw [bit, ← BitVec.twoPow_eq, BitVec.getLsbD_twoPow]
  by_cases hi : i = n
  · simp [hi]
  · simp [hi, Ne.symm hi]

variable {a b : BitVec 64} {k n : Nat}

theorem has_iff : Has a n ↔ a.getLsbD n = true := by
  constructor
  · intro h
    by_contra hn
    refine h (BitVec.eq_of_getLsbD_eq fun i _ => ?_)
    rw [BitVec.getLsbD_and, getLsbD_bit]
    by_cases hi : i = n
    · rw [hi, Bool.not_eq_true] at *
      simp [hn]
    · simp [hi]
  · intro h hzero
    have hn : n < 64 := BitVec.lt_of_getLsbD h
    have hone : (a &&& bit n).getLsbD n = true := by
      rw [BitVec.getLsbD_and, getLsbD_bit, h]
      simp [hn]
    rw [hzero] at hone
    simp at hone

theorem Has.lt (h : Has a n) : n < 64 := BitVec.lt_of_getLsbD (has_iff.mp h)

@[simp] theorem has_or : Has (a ||| b) n ↔ Has a n ∨ Has b n := by
  simp [has_iff]

@[simp] theorem has_and : Has (a &&& b) n ↔ Has a n ∧ Has b n := by
  simp [has_iff]

@[simp] theorem has_bit : Has (bit k) n ↔ n = k ∧ k < 64 := by
  simp [has_iff, getLsbD_bit]

@[simp] theorem not_has_zero : ¬Has 0 n := by
  simp [has_iff]

theorem has_not (hn : n < 64) : Has (~~~a) n ↔ ¬Has a n := by
  simp [has_iff, hn]

@[simp] theorem has_and_not : Has (a &&& ~~~b) n ↔ Has a n ∧ ¬Has b n := by
  rw [has_and]
  exact and_congr_right fun h => has_not h.lt

theorem exists_has (h : a ≠ 0) : ∃ n, Has a n := by
  by_contra hnone
  refine h (BitVec.eq_of_getLsbD_eq fun i _ => ?_)
  have hi := not_exists.mp hnone i
  rw [has_iff, Bool.not_eq_true] at hi
  simpa using hi

/-- The lowest member, or 64. -/
def trailingZeros (w : BitVec 64) : Nat := ((List.range 64).find? fun n => Has w n).getD 64

theorem has_trailingZeros (h : a ≠ 0) : Has a (trailingZeros a) := by
  obtain ⟨n, hn⟩ := exists_has h
  have hsome : ((List.range 64).find? fun n => Has a n).isSome :=
    List.find?_isSome.mpr ⟨n, List.mem_range.mpr hn.lt, decide_eq_true hn⟩
  obtain ⟨m, hm⟩ := Option.isSome_iff_exists.mp hsome
  have hhas := List.find?_some hm
  rw [trailingZeros, hm]
  simpa using hhas

end Bits
