import Mathlib.Algebra.Order.Ring.Int
import Mathlib.Algebra.Order.Ring.Nat
import Mathlib.Data.List.Basic

/-!
# Computations that note what goes wrong

A computation with machine integers and memory goes on whatever happens: arithmetic wraps, and an
index that is outside reads something. What has happened is noted: every operation that overflows,
every index that is outside, and every reservation of memory. A computation is within a limit if
nothing of the kind is noted and no reservation exceeds the limit.
-/

inductive Note where
  | overflow
  | outside
  | reserved (bytes : Nat)

/-- Nothing went wrong, and not more than the limit was reserved. -/
def Note.Fine (limit : Nat) : Note → Prop
  | .overflow => False
  | .outside => False
  | .reserved bytes => bytes ≤ limit

@[ext]
structure Noted (α : Type) where
  notes : List Note
  value : α

namespace Noted

variable {α β γ : Type} {limit : Nat}

instance : Monad Noted where
  pure a := ⟨[], a⟩
  bind r f := ⟨r.notes ++ (f r.value).notes, (f r.value).value⟩

instance : LawfulMonad Noted :=
  LawfulMonad.mk' Noted (fun _ => Noted.ext (List.append_nil _) rfl) (fun _ _ => rfl)
    (fun _ _ _ => Noted.ext (List.append_assoc _ _ _) rfl)

/-- Everything that is noted is fine. -/
def Within (limit : Nat) (r : Noted α) : Prop := ∀ note ∈ r.notes, note.Fine limit

@[simp] theorem value_pure (a : α) : (pure a : Noted α).value = a := rfl

@[simp] theorem value_bind (r : Noted α) (f : α → Noted β) :
    (r >>= f).value = (f r.value).value := rfl

@[simp] theorem within_pure (a : α) : (pure a : Noted α).Within limit :=
  fun _ h => absurd h List.not_mem_nil

@[simp] theorem within_bind (r : Noted α) (f : α → Noted β) :
    (r >>= f).Within limit ↔ r.Within limit ∧ (f r.value).Within limit :=
  List.forall_mem_append

theorem within_ite {c : Prop} [Decidable c] {r s : Noted α} :
    (if c then r else s).Within limit ↔ (c → r.Within limit) ∧ (¬c → s.Within limit) := by
  split <;> simp_all

/-- An operation that is noted where it goes wrong. -/
def noting (fine : Prop) [Decidable fine] (note : Note) (a : α) : Noted α :=
  ⟨if fine then [] else [note], a⟩

@[simp] theorem value_noting (fine : Prop) [Decidable fine] (note : Note) (a : α) :
    (noting fine note a).value = a := rfl

theorem within_noting {fine : Prop} [Decidable fine] {note : Note} {a : α}
    (hnote : ¬note.Fine limit) : (noting fine note a).Within limit ↔ fine := by
  constructor
  · intro h
    by_contra hfine
    refine hnote (h note ?_)
    rw [noting, if_neg hfine]
    exact List.mem_singleton_self note
  · intro hfine note' hnote'
    rw [noting, if_pos hfine] at hnote'
    exact absurd hnote' List.not_mem_nil

/-! ## Unsigned integers -/

/-- Addition of so many bits. -/
def add (bits a b : Nat) : Noted Nat := noting (a + b < 2 ^ bits) .overflow ((a + b) % 2 ^ bits)

def mul (bits a b : Nat) : Noted Nat := noting (a * b < 2 ^ bits) .overflow (a * b % 2 ^ bits)

def sub (bits a b : Nat) : Noted Nat :=
  noting (b ≤ a) .overflow ((a + (2 ^ bits - b)) % 2 ^ bits)

variable {bits a b : Nat}

@[simp] theorem within_add : (add bits a b).Within limit ↔ a + b < 2 ^ bits := within_noting id

@[simp] theorem within_mul : (mul bits a b).Within limit ↔ a * b < 2 ^ bits := within_noting id

@[simp] theorem within_sub : (sub bits a b).Within limit ↔ b ≤ a := within_noting id

theorem value_add (h : a + b < 2 ^ bits) : (add bits a b).value = a + b := Nat.mod_eq_of_lt h

theorem value_mul (h : a * b < 2 ^ bits) : (mul bits a b).value = a * b := Nat.mod_eq_of_lt h

theorem value_sub (ha : a < 2 ^ bits) (h : b ≤ a) : (sub bits a b).value = a - b := by
  have hsum : a + (2 ^ bits - b) = a - b + 2 ^ bits := by omega
  change (a + (2 ^ bits - b)) % 2 ^ bits = a - b
  rw [hsum, Nat.add_mod_right, Nat.mod_eq_of_lt (by omega)]

/-! ## Signed integers -/

/-- An integer of so many bits. -/
def Fits (bits : Nat) (n : Int) : Prop := -2 ^ (bits - 1) ≤ n ∧ n < 2 ^ (bits - 1)

instance (bits : Nat) (n : Int) : Decidable (Fits bits n) :=
  inferInstanceAs (Decidable (_ ∧ _))

/-- The result of an operation on signed integers, by the exact one. -/
def signed (bits : Nat) (exact : Int) : Noted Int :=
  noting (Fits bits exact) .overflow (exact.bmod (2 ^ bits))

@[simp] theorem within_signed {n : Int} : (signed bits n).Within limit ↔ Fits bits n :=
  within_noting id

theorem value_signed {n : Int} (h : Fits bits n) (hbits : 0 < bits) :
    (signed bits n).value = n := by
  obtain ⟨hlow, hhigh⟩ := h
  obtain ⟨k, rfl⟩ := Nat.exists_eq_succ_of_ne_zero hbits.ne'
  have hpow : (2 : Int) ^ (k + 1) = 2 * 2 ^ k := by rw [pow_succ, Int.mul_comm]
  change n.bmod (2 ^ (k + 1)) = n
  simp only [Nat.succ_sub_one] at hlow hhigh
  refine Int.bmod_eq_of_le_mul_two ?_ ?_ <;> push_cast <;> omega

theorem signed_eq_pure {n : Int} (h : Fits bits n) (hbits : 0 < bits) :
    signed bits n = pure n := by
  have hvalue := value_signed h hbits
  change n.bmod (2 ^ bits) = n at hvalue
  rw [signed, noting, if_pos h, hvalue]
  rfl

/-! ## Memory -/

/-- `data[i]` -/
def index (data : List UInt8) (i : Nat) : Noted UInt8 :=
  noting (i < data.length) .outside (data.getD i 0)

/-- `&data[..n]` -/
def sliceTo (data : List UInt8) (n : Nat) : Noted (List UInt8) :=
  noting (n ≤ data.length) .outside (data.take n)

/-- `Vec::with_capacity(n)`, in bytes. -/
def reserve (n : Nat) : Noted Unit := ⟨[.reserved n], ()⟩

variable {data : List UInt8} {n : Nat}

@[simp] theorem within_index : (index data n).Within limit ↔ n < data.length := within_noting id

@[simp] theorem value_index : (index data n).value = data.getD n 0 := rfl

@[simp] theorem within_sliceTo : (sliceTo data n).Within limit ↔ n ≤ data.length :=
  within_noting id

@[simp] theorem value_sliceTo : (sliceTo data n).value = data.take n := rfl

@[simp] theorem within_reserve : (reserve n).Within limit ↔ n ≤ limit :=
  ⟨fun h => h _ List.mem_cons_self, fun h note hnote => by
    rw [List.mem_singleton.mp hnote]
    exact h⟩

end Noted
