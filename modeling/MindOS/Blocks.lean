import Mathlib.Data.Nat.Bitwise
import Mathlib.Data.Nat.Digits.Lemmas

/-!
# Blocks of addresses

An address in parts of `w` bits each, as networks write them, and the blocks of
addresses that begin with the same bits. A block's first parts decide it: each whole
part has to be equal, and of the last one the leading bits.
-/

/-- The addresses that agree with `start`, filled up with zeros, in their first `length`
bits. -/
structure Block where
  start : List Nat
  length : Nat
  deriving DecidableEq

namespace Block

/-- The number that an address in parts of `w` bits is. -/
def value (w : Nat) (parts : List Nat) : Nat := Nat.ofDigits (2 ^ w) parts.reverse

/-- The parts of the block's first address. -/
def first (b : Block) (n : Nat) : List Nat := b.start ++ List.replicate (n - b.start.length) 0

/-- The address is in the block. -/
def Has (w : Nat) (b : Block) (parts : List Nat) : Prop :=
  value w parts / 2 ^ (w * parts.length - b.length) =
    value w (b.first parts.length) / 2 ^ (w * parts.length - b.length)

instance (w : Nat) (b : Block) (parts : List Nat) : Decidable (b.Has w parts) :=
  inferInstanceAs (Decidable (_ = _))

theorem value_cons (w p : Nat) (parts : List Nat) :
    value w (p :: parts) = value w parts + 2 ^ (w * parts.length) * p := by
  rw [value, Nat.ofDigits_reverse_cons, ← pow_mul]
  rfl

/-- The parts of an address have `w` bits. -/
def Fits (w : Nat) (parts : List Nat) : Prop := ∀ p ∈ parts, p < 2 ^ w

instance (w : Nat) (parts : List Nat) : Decidable (Fits w parts) :=
  inferInstanceAs (Decidable (∀ p ∈ parts, p < 2 ^ w))

theorem Fits.tail {w p : Nat} {parts : List Nat} (h : Fits w (p :: parts)) : Fits w parts :=
  fun q hq => h q (List.mem_cons_of_mem p hq)

theorem value_lt {w : Nat} {parts : List Nat} (h : Fits w parts) :
    value w parts < 2 ^ (w * parts.length) := by
  induction parts with
  | nil => simp [value]
  | cons p parts ih =>
      have hrest := ih h.tail
      have hp : p + 1 ≤ 2 ^ w := h p List.mem_cons_self
      have hstep : 2 ^ (w * parts.length) * (p + 1) ≤ 2 ^ (w * (p :: parts).length) := by
        rw [List.length_cons, Nat.mul_add_one w, pow_add]
        exact Nat.mul_le_mul_left _ hp
      rw [value_cons]
      rw [Nat.mul_succ] at hstep
      omega

theorem Fits.first {w : Nat} {b : Block} (h : Fits w b.start) (n : Nat) : Fits w (b.first n) := by
  intro p hp
  obtain hp | hp := List.mem_append.mp hp
  · exact h p hp
  · rw [(List.mem_replicate.mp hp).2]
    exact Nat.two_pow_pos w

theorem length_first {b : Block} {n : Nat} (h : b.start.length ≤ n) : (b.first n).length = n := by
  rw [first, List.length_append, List.length_replicate]
  omega

theorem value_cons_div {w p len : Nat} {parts : List Nat} (h : Fits w parts) (hlen : len ≤ w) :
    value w (p :: parts) / 2 ^ (w * (parts.length + 1) - len) = p / 2 ^ (w - len) := by
  have hsplit : w * (parts.length + 1) - len = w * parts.length + (w - len) := by
    rw [Nat.mul_succ]
    omega
  rw [hsplit, pow_add, ← Nat.div_div_eq_div_mul, value_cons,
    Nat.add_mul_div_left _ _ (Nat.two_pow_pos _), Nat.div_eq_of_lt (value_lt h), Nat.zero_add]

theorem has_singleton {w p s len : Nat} {parts : List Nat} (h : Fits w parts) (hlen : len ≤ w) :
    Has w ⟨[s], len⟩ (p :: parts) ↔ p / 2 ^ (w - len) = s / 2 ^ (w - len) := by
  have hfirst : first ⟨[s], len⟩ (parts.length + 1) = s :: List.replicate parts.length 0 := by
    simp [first]
  have hzeros : Fits w (List.replicate parts.length 0) := by
    intro q hq
    rw [(List.mem_replicate.mp hq).2]
    exact Nat.two_pow_pos w
  have hstart := value_cons_div (p := s) hzeros hlen
  rw [List.length_replicate] at hstart
  rw [Has, List.length_cons, value_cons_div h hlen, hfirst, hstart]

theorem lead_eq_iff {m p q u v : Nat} (hu : u < m) (hv : v < m) :
    u + m * p = v + m * q ↔ p = q ∧ u = v := by
  constructor
  · intro h
    have hdiv := congrArg (· / m) h
    have hmod := congrArg (· % m) h
    simp only [Nat.add_mul_div_left _ _ (Nat.zero_lt_of_lt hu), Nat.div_eq_of_lt hu,
      Nat.div_eq_of_lt hv, Nat.zero_add] at hdiv
    simp only [Nat.add_mul_mod_self_left, Nat.mod_eq_of_lt hu, Nat.mod_eq_of_lt hv] at hmod
    exact ⟨hdiv, hmod⟩
  · rintro ⟨rfl, rfl⟩
    rfl

theorem has_cons {w p s t len : Nat} {parts rest : List Nat} (h : Fits w parts)
    (hstart : Fits w (t :: rest)) (hlength : (t :: rest).length ≤ parts.length) (hlen : w ≤ len) :
    Has w ⟨s :: t :: rest, len⟩ (p :: parts) ↔ p = s ∧ Has w ⟨t :: rest, len - w⟩ parts := by
  generalize t :: rest = start at *
  have hfirst : first ⟨s :: start, len⟩ (parts.length + 1) =
      s :: first ⟨start, len - w⟩ parts.length := by
    simp [first]
  -- Fewer bits are free than the parts behind the first one have.
  obtain ⟨k, hk⟩ : ∃ k, w * parts.length = w * (parts.length + 1) - len + k :=
    ⟨w * parts.length - (w * (parts.length + 1) - len), by rw [Nat.mul_succ]; omega⟩
  have hfree : w * parts.length - (len - w) = w * (parts.length + 1) - len := by
    rw [Nat.mul_succ]
    omega
  have hsame : (first ⟨start, len - w⟩ parts.length).length = parts.length := length_first hlength
  have hsplit : ∀ (q : Nat) (l : List Nat), l.length = parts.length →
      value w (q :: l) / 2 ^ (w * (parts.length + 1) - len) =
        value w l / 2 ^ (w * (parts.length + 1) - len) + 2 ^ k * q := by
    intro q l hl
    rw [value_cons, hl, hk, pow_add, Nat.mul_assoc,
      Nat.add_mul_div_left _ _ (Nat.two_pow_pos _)]
  have hlt : ∀ l : List Nat, Fits w l → l.length = parts.length →
      value w l / 2 ^ (w * (parts.length + 1) - len) < 2 ^ k := by
    intro l hl hlen
    have hvalue := value_lt hl
    rw [hlen, hk, pow_add] at hvalue
    exact Nat.div_lt_of_lt_mul hvalue
  have hzeros : Fits w (first ⟨start, len - w⟩ parts.length) :=
    Fits.first (b := ⟨start, len - w⟩) hstart _
  rw [Has, Has, List.length_cons, hfirst, hsplit p parts rfl, hsplit s _ hsame, hfree]
  exact lead_eq_iff (hlt parts h rfl) (hlt _ hzeros hsame)

theorem has_whole {w len : Nat} {parts start : List Nat} (h : Fits w parts)
    (hstart : Fits w start) (hne : start ≠ []) (hlength : start.length ≤ parts.length)
    (hlen : len = w * start.length) :
    Has w ⟨start, len⟩ parts ↔ parts.take start.length = start := by
  induction start generalizing parts len with
  | nil => exact absurd rfl hne
  | cons s rest ih =>
      obtain _ | ⟨p, parts⟩ := parts
      · simp at hlength
      cases rest with
      | nil =>
          rw [List.length_singleton, Nat.mul_one] at hlen
          rw [has_singleton h.tail hlen.le, hlen]
          simp
      | cons t rest =>
          have hrest : (t :: rest).length ≤ parts.length := Nat.le_of_succ_le_succ hlength
          have hsub : len - w = w * (t :: rest).length := by
            rw [hlen, List.length_cons (a := s), Nat.mul_succ, Nat.add_sub_cancel]
          have hle : w ≤ len := hlen ▸ Nat.le_mul_of_pos_right w (by simp)
          rw [has_cons h.tail hstart.tail hrest hle,
            ih h.tail hstart.tail (List.cons_ne_nil _ _) hrest hsub, List.length_cons (a := s),
            List.take_succ_cons, List.cons.injEq]

theorem and_mask {w k n : Nat} (hk : k ≤ w) (hn : n < 2 ^ w) :
    n &&& (2 ^ w - 2 ^ k) = n / 2 ^ k * 2 ^ k := by
  have hmask : 2 ^ w - 2 ^ k = (2 ^ (w - k) - 1) * 2 ^ k := by
    rw [Nat.sub_mul, ← pow_add, Nat.sub_add_cancel hk, Nat.one_mul]
  have hhigh : n / 2 ^ k < 2 ^ (w - k) := by
    apply Nat.div_lt_of_lt_mul
    rwa [← pow_add, Nat.add_sub_cancel' hk]
  apply Nat.eq_of_testBit_eq
  intro i
  rw [hmask, Nat.testBit_and, Nat.testBit_mul_two_pow, Nat.testBit_mul_two_pow,
    Nat.testBit_two_pow_sub_one, Nat.testBit_div_two_pow]
  by_cases hi : k ≤ i
  · by_cases hw : i - k < w - k
    · simp [hi, hw, Nat.sub_add_cancel hi]
    · have hbit : n.testBit i = false :=
        Nat.testBit_lt_two_pow (hn.trans_le (Nat.pow_le_pow_right (by omega) (by omega)))
      simp [hbit, Nat.sub_add_cancel hi]
  · simp [hi]

theorem and_mask_eq_iff {w k n v : Nat} (hk : k ≤ w) (hn : n < 2 ^ w) :
    n &&& (2 ^ w - 2 ^ k) = v * 2 ^ k ↔ n / 2 ^ k = v := by
  rw [and_mask hk hn]
  exact Nat.mul_left_inj (Nat.two_pow_pos k).ne'

end Block
