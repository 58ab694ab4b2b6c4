import Mathlib.Data.List.Basic
import Mathlib.Data.List.GetD
import Mathlib.Data.List.Range
import Mathlib.Data.Nat.ModEq
import Mathlib.Logic.Function.Basic

/-!
# Vectors, rings and slots

## Growable arrays

An array that can be written at any place and cut or extended to any length; the places
that were never written have a filler. Two such arrays are equal if their lengths are and
they look the same to a reader that takes the filler for what is beyond the end.
-/

namespace Growable

variable {α : Type*} (z : α)

/-- Cuts or extends the array. -/
def truncate (n : Nat) (l : List α) : List α := l.take n ++ List.replicate (n - l.length) z

/-- Puts `buf` at `off`, after a hole where the array is shorter. -/
def write (off : Nat) (buf l : List α) : List α :=
  if buf = [] then l else truncate z off l ++ buf ++ l.drop (off + buf.length)

/-- At most `n` elements from `off` on. -/
def read (off n : Nat) (l : List α) : List α := (l.drop off).take n

variable {l l' buf : List α} {off n i : Nat}

@[simp] theorem length_truncate : (truncate z n l).length = n := by
  rw [truncate, List.length_append, List.length_take, List.length_replicate]
  omega

theorem getD_take_of_lt (h : i < n) : (l.take n).getD i z = l.getD i z := by
  rw [List.getD_eq_getElem?_getD, List.getElem?_take_of_lt h, List.getD_eq_getElem?_getD]

theorem getD_of_le (h : l.length ≤ i) : l.getD i z = z := by
  rw [List.getD_eq_getElem?_getD, List.getElem?_eq_none h, Option.getD_none]

theorem getD_truncate :
    (truncate z n l).getD i z = if i < n then l.getD i z else z := by
  split
  · next hi =>
      by_cases hl : i < (l.take n).length
      · rw [truncate, List.getD_append _ _ _ _ hl, getD_take_of_lt z hi]
      · rw [List.length_take] at hl
        rw [truncate, List.getD_append_right _ _ _ _ (by rw [List.length_take]; omega),
          getD_of_le z (by omega : l.length ≤ i), List.getD_replicate]
        rw [List.length_take]
        omega
  · next hi => exact getD_of_le z (by rw [length_truncate]; omega)

theorem length_write (hbuf : buf ≠ []) :
    (write z off buf l).length = max l.length (off + buf.length) := by
  rw [write, if_neg hbuf, List.length_append, List.length_append, length_truncate,
    List.length_drop]
  omega

theorem getD_write :
    (write z off buf l).getD i z =
      if off ≤ i ∧ i < off + buf.length then buf.getD (i - off) z else l.getD i z := by
  by_cases hbuf : buf = []
  · rw [write, if_pos hbuf, if_neg]
    rw [hbuf, List.length_nil]
    omega
  · rw [write, if_neg hbuf, List.append_assoc]
    by_cases hoff : i < off
    · rw [if_neg (by omega), List.getD_append _ _ _ _ (by rwa [length_truncate]), getD_truncate,
        if_pos hoff]
    · rw [List.getD_append_right _ _ _ _ (by rw [length_truncate]; omega), length_truncate]
      by_cases hend : i < off + buf.length
      · rw [if_pos ⟨by omega, hend⟩, List.getD_append _ _ _ _ (by omega)]
      · rw [if_neg (by omega), List.getD_append_right _ _ _ _ (by omega),
          List.getD_eq_getElem?_getD, List.getElem?_drop, List.getD_eq_getElem?_getD]
        exact congrArg (fun k => (l[k]?).getD z) (by omega)

theorem read_eq_map :
    read off n l = (List.range (min n (l.length - off))).map fun i => l.getD (off + i) z := by
  have hlen : (read off n l).length = min n (l.length - off) := by
    rw [read, List.length_take, List.length_drop]
  refine List.ext_getElem (by rw [hlen, List.length_map, List.length_range]) fun i hi _ => ?_
  have hlt : off + i < l.length := by
    rw [hlen] at hi
    omega
  rw [List.getElem_map, List.getElem_range, List.getD_eq_getElem l z hlt]
  exact List.getElem_take.trans List.getElem_drop

end Growable

/-!
## Rings

A ring keeps a queue in a fixed number of cells. What is written comes behind what is in it, as far
as there is room, and what is read goes off the front.
-/

/-- A queue in `cap` cells, from the one at `head` on. -/
structure RingQueue (α : Type*) (cap : Nat) where
  cells : Nat → α
  head : Nat
  len : Nat
  len_le : len ≤ cap

namespace RingQueue

variable {α : Type*} {cap : Nat} {r : RingQueue α cap} {cells : Nat → α} {data : List α}
  {i j k n : Nat}

def space (r : RingQueue α cap) : Nat := cap - r.len

/-- The queue. -/
def contents (r : RingQueue α cap) : List α :=
  (List.range r.len).map fun i => r.cells ((r.head + i) % cap)

/-- Puts the elements in the cells from `i` on, round the ring. -/
def put (cap : Nat) (cells : Nat → α) (i : Nat) : List α → Nat → α
  | [] => cells
  | a :: data => put cap (Function.update cells (i % cap) a) (i + 1) data

/-- Writes as much as there is room for. -/
def write (r : RingQueue α cap) (data : List α) : RingQueue α cap where
  cells := put cap r.cells (r.head + r.len) (data.take r.space)
  head := r.head
  len := r.len + (data.take r.space).length
  len_le := by
    have hle := r.len_le
    rw [List.length_take, space]
    omega

/-- The first `n` elements, or as many as there are. -/
def front (r : RingQueue α cap) (n : Nat) : List α :=
  (List.range (min n r.len)).map fun i => r.cells ((r.head + i) % cap)

/-- What is left without the first `n` elements. -/
def dropFront (r : RingQueue α cap) (n : Nat) : RingQueue α cap where
  cells := r.cells
  head := (r.head + min n r.len) % cap
  len := r.len - min n r.len
  len_le := (Nat.sub_le _ _).trans r.len_le

@[simp] theorem length_contents (r : RingQueue α cap) : r.contents.length = r.len := by
  simp [contents]

@[simp] theorem length_front (r : RingQueue α cap) (n : Nat) :
    (r.front n).length = min n r.len := by
  simp [front]

theorem eq_of_mod_eq {a b : Nat} (h : a % cap = b % cap) (hab : a < b + cap) (hba : b < a + cap) :
    a = b :=
  Nat.le_antisymm (Nat.ModEq.le_of_lt_add h hab) (Nat.ModEq.le_of_lt_add h.symm hba)

theorem put_of_ne (h : ∀ k < data.length, (i + k) % cap ≠ j) :
    put cap cells i data j = cells j := by
  induction data generalizing cells i with
  | nil => rfl
  | cons a data ih =>
      have hne : j ≠ i % cap := fun heq => h 0 (Nat.zero_lt_succ _) heq.symm
      rw [put, ih fun k hk => ?_, Function.update_of_ne hne]
      have hk := h (k + 1) (Nat.succ_lt_succ hk)
      rwa [show i + (k + 1) = i + 1 + k by omega] at hk

theorem put_at (hdata : data.length ≤ cap) (hk : k < data.length) :
    put cap cells i data ((i + k) % cap) = data[k] := by
  induction data generalizing cells i k with
  | nil => cases hk
  | cons a data ih =>
      rw [List.length_cons] at hdata hk
      rw [put]
      cases k with
      | zero =>
          rw [put_of_ne fun k hk heq => ?_, Nat.add_zero, Function.update_self]
          · rfl
          · have heq := eq_of_mod_eq heq (by omega) (by omega)
            omega
      | succ k =>
          rw [show i + (k + 1) = i + 1 + k by omega, ih (by omega) (by omega)]
          rfl

theorem contents_write (r : RingQueue α cap) (data : List α) :
    (r.write data).contents = r.contents ++ data.take r.space := by
  have hle := r.len_le
  have hroom : (data.take r.space).length ≤ cap - r.len := List.length_take_le _ _
  rw [contents, write, contents]
  dsimp only
  rw [List.range_add, List.map_append, List.map_map]
  congr 1
  · refine List.map_congr_left fun i hi => put_of_ne fun k hk heq => ?_
    have hi := List.mem_range.mp hi
    have heq := eq_of_mod_eq heq (by omega) (by omega)
    omega
  · refine List.ext_getElem (by simp) fun k hk hk' => ?_
    rw [List.getElem_map, List.getElem_range, Function.comp_apply, ← Nat.add_assoc]
    exact put_at (hroom.trans (Nat.sub_le _ _)) hk'

theorem len_write (r : RingQueue α cap) (data : List α) :
    (r.write data).len = r.len + min r.space data.length :=
  congrArg (r.len + ·) List.length_take

theorem front_append_dropFront (r : RingQueue α cap) (n : Nat) :
    r.front n ++ (r.dropFront n).contents = r.contents := by
  have hsplit : r.len = min n r.len + (r.len - min n r.len) := by omega
  rw [contents, contents, front, dropFront]
  dsimp only
  conv_rhs => rw [hsplit, List.range_add, List.map_append, List.map_map]
  congr 1
  refine List.map_congr_left fun i _ => ?_
  rw [Function.comp_apply, Nat.mod_add_mod, Nat.add_assoc]

end RingQueue

/-!
## A vector of slots as a partial map

A vector whose places may be empty gives a map from numbers to what they hold. It grows with empty
places, so that the map does not change.
-/

namespace Slots

variable {α β : Type*} {l l' : List (Option α)} {n i lo k N : Nat}

/-- What is at a number, if anything. -/
def get (l : List (Option α)) (n : Nat) : Option α := (l[n]?).join

/-- Pushes empty places until there are `n`. -/
def grown (l : List (Option α)) (n : Nat) : List (Option α) :=
  l ++ List.replicate (n - l.length) none

@[simp] theorem get_nil : get ([] : List (Option α)) n = none := rfl

theorem get_of_length_le (h : l.length ≤ n) : get l n = none := by
  rw [get, List.getElem?_eq_none h]
  rfl

theorem lt_length_of_get (h : get l n ≠ none) : n < l.length := by
  by_contra hge
  exact h (get_of_length_le (Nat.le_of_not_lt hge))

theorem length_grown : (grown l n).length = max l.length n := by
  rw [grown, List.length_append, List.length_replicate]
  omega

@[simp] theorem get_grown : get (grown l n) i = get l i := by
  rw [get, get, grown, List.getElem?_append]
  split
  · rfl
  · next hge =>
      rw [List.getElem?_eq_none (Nat.le_of_not_lt hge), List.getElem?_replicate]
      split <;> rfl

theorem get_set (h : n < l.length) (e : Option α) :
    get (l.set n e) = Function.update (get l) n e := by
  funext i
  rw [get]
  by_cases hi : i = n
  · subst hi
    rw [Function.update_self, List.getElem?_set_self h]
    rfl
  · rw [Function.update_of_ne hi, List.getElem?_set_ne (Ne.symm hi)]
    rfl

theorem get_concat (e : Option α) : get (l ++ [e]) = Function.update (get l) l.length e := by
  have hset := get_set (l := l ++ [none]) (n := l.length) (by simp) e
  rw [List.set_append_right _ _ le_rfl, Nat.sub_self, List.set_cons_zero] at hset
  rw [hset]
  congr 1
  funext i
  have hgrown : l ++ [none] = grown l (l.length + 1) := by
    rw [grown, Nat.add_sub_cancel_left]
    rfl
  rw [hgrown, get_grown]

theorem get_map {f : Option α → Option α} (hf : f none = none) :
    get (l.map f) n = f (get l n) := by
  rw [get, get, List.getElem?_map]
  cases l[n]? with
  | none => exact hf.symm
  | some e => rfl

theorem filterMap_range (h : l.length ≤ N) (f : α → Option β) :
    (List.range N).filterMap (fun n => (get l n).bind f) = l.filterMap fun e => e.bind f := by
  induction l generalizing N with
  | nil => simp
  | cons e l ih =>
      obtain ⟨N, rfl⟩ : ∃ M, N = M + 1 := ⟨N - 1, by rw [List.length_cons] at h; omega⟩
      have htail := ih (Nat.le_of_succ_le_succ h)
      have hsucc : ((fun n => (get (e :: l) n).bind f) ∘ Nat.succ) = fun n =>
        (get l n).bind f := rfl
      rw [List.range_succ_eq_map, List.filterMap_cons, List.filterMap_map, List.filterMap_cons,
        hsucc,
        htail]
      rfl

theorem filterMap_range' {f : Nat → Option β} (h : 0 < k → lo + k ≤ N)
    (hnone : ∀ n < N, ¬(lo ≤ n ∧ n < lo + k) → f n = none) :
    (List.range N).filterMap f = (List.range' lo k).filterMap f := by
  have hempty : ∀ l : List Nat, (∀ n ∈ l, f n = none) → l.filterMap f = [] := fun l hl =>
    List.filterMap_eq_nil_iff.mpr hl
  rcases Nat.eq_zero_or_pos k with rfl | hk
  · exact hempty _ fun n hn => hnone n (List.mem_range.mp hn) (by omega)
  · obtain ⟨rest, rfl⟩ := Nat.exists_eq_add_of_le (h hk)
    rw [List.range_eq_range', ← List.range'_append_1, ← List.range'_append_1, Nat.zero_add,
      Nat.zero_add, List.filterMap_append, List.filterMap_append,
      hempty (List.range' 0 lo) fun n hn => ?_, hempty (List.range' (lo + k) rest) fun n hn => ?_,
      List.nil_append, List.append_nil]
    all_goals
      have hmem := List.mem_range'_1.mp hn
      exact hnone n (by omega) (by omega)

end Slots
