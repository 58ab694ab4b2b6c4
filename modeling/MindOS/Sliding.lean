import Mathlib.Algebra.BigOperators.Intervals
import Mathlib.Data.Int.ConditionallyCompleteOrder
import Mathlib.Data.Int.Interval

/-!
# Sliding windows

The sum over a window that moves along a sequence one place at a time takes one value in and
leaves one out. A finite sequence counts as nothing beyond its ends. The steps of such a walk,
each of which may fail, are taken one after the other with an invariant by the place.
-/

namespace Sliding

variable {M : Type*} [AddCommGroup M]

/-- What is no further than `half` from a place, together. -/
noncomputable def windowSum (f : ℤ → M) (half : ℕ) (x : ℤ) : M :=
  ∑ k ∈ Finset.Icc (x - half) (x + half), f k

theorem windowSum_succ (f : ℤ → M) (half : ℕ) (x : ℤ) :
    windowSum f half (x + 1) = windowSum f half x + f (x + half + 1) - f (x - half) := by
  have hin : Finset.Icc (x - half) (x + half + 1) =
      insert (x + half + 1) (Finset.Icc (x - half) (x + half)) := by
    ext k
    simp only [Finset.mem_insert, Finset.mem_Icc]
    omega
  have hout : Finset.Icc (x - half) (x + half + 1) =
      insert (x - half) (Finset.Icc (x + 1 - half) (x + 1 + half)) := by
    ext k
    simp only [Finset.mem_insert, Finset.mem_Icc]
    omega
  have hsum : ∑ k ∈ insert (x + half + 1) (Finset.Icc (x - half) (x + half)), f k =
      ∑ k ∈ insert (x - half) (Finset.Icc (x + 1 - half) (x + 1 + half)), f k := by
    rw [← hin, hout]
  rw [Finset.sum_insert (by simp), Finset.sum_insert (by simp)] at hsum
  rw [windowSum, windowSum, eq_sub_iff_add_eq, add_comm, ← hsum, add_comm]

/-- A sequence of the given length, with nothing beyond its ends. -/
def extend (n : ℕ) (f : ℕ → M) (k : ℤ) : M := if 0 ≤ k ∧ k < n then f k.toNat else 0

theorem extend_of_lt {n k : ℕ} (f : ℕ → M) (h : k < n) : extend n f k = f k := by
  rw [extend, if_pos (by omega), Int.toNat_natCast]

theorem extend_of_le {n : ℕ} {k : ℤ} (f : ℕ → M) (h : (n : ℤ) ≤ k) : extend n f k = 0 :=
  if_neg (by omega)

theorem extend_of_neg {n : ℕ} {k : ℤ} (f : ℕ → M) (h : k < 0) : extend n f k = 0 :=
  if_neg (by omega)

theorem windowSum_extend_zero (n : ℕ) (f : ℕ → M) (half : ℕ) :
    windowSum (extend n f) half 0 = ((List.range (min (half + 1) n)).map f).sum := by
  rw [← List.sum_toFinset f List.nodup_range, List.toFinset_range]
  have himage : (Finset.range (min (half + 1) n)).map Nat.castEmbedding ⊆
      Finset.Icc (0 - (half : ℤ)) (0 + half) := by
    intro k hk
    simp only [Finset.mem_map, Finset.mem_range, Nat.castEmbedding_apply] at hk
    obtain ⟨i, hi, rfl⟩ := hk
    rw [Finset.mem_Icc]
    omega
  rw [windowSum, ← Finset.sum_subset himage, Finset.sum_map]
  · refine Finset.sum_congr rfl fun k hk => ?_
    rw [Nat.castEmbedding_apply, extend_of_lt f (by rw [Finset.mem_range] at hk; omega)]
  · intro k hk hout
    refine if_neg fun hin => hout ?_
    rw [Finset.mem_Icc] at hk
    refine Finset.mem_map.mpr ⟨k.toNat, Finset.mem_range.mpr (by omega), ?_⟩
    rw [Nat.castEmbedding_apply]
    omega

theorem mapM_eq_some {α β : Type*} {f : α → Option β} {g : α → β} {l : List α}
    (h : ∀ a ∈ l, f a = some (g a)) : l.mapM f = some (l.map g) := by
  induction l with
  | nil => rfl
  | cons a l ih =>
      rw [List.mapM_cons, h a List.mem_cons_self, ih fun b hb => h b (List.mem_cons_of_mem a hb)]
      rfl

/-- Steps that each can be taken, and keep an invariant by the place, can be taken all. -/
theorem exists_foldlM_range {σ : Type*} (step : σ → ℕ → Option σ) {n : ℕ} (P : ℕ → σ → Prop)
    (hstep : ∀ k < n, ∀ s, P k s → ∃ t, step s k = some t ∧ P (k + 1) t) {s : σ} (hs : P 0 s) :
    ∃ t, (List.range n).foldlM step s = some t ∧ P n t := by
  induction n with
  | zero => exact ⟨s, rfl, hs⟩
  | succ n ih =>
      obtain ⟨t, ht, hP⟩ := ih fun k hk => hstep k (Nat.lt_succ_of_lt hk)
      obtain ⟨u, hu, hP'⟩ := hstep n n.lt_succ_self t hP
      refine ⟨u, ?_, hP'⟩
      rw [List.range_succ, List.foldlM_append, ht]
      simpa using hu

end Sliding
