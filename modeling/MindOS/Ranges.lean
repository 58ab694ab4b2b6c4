import Mathlib.Data.List.Pairwise
import Mathlib.Order.Lattice

/-!
# Ordered maps and ranges

A map whose values know their own keys, kept in the order of the keys, and on top of it the
use of such a map for ranges: each value runs from its key to an end. As long as the ranges
lie apart, the last one that starts at or below a point is the only one that can hold it.
-/

namespace Ranges

variable {α κ : Type*} [LinearOrder κ]

/-- A map in the order of its keys. -/
structure Map (key : α → κ) where
  items : List α
  sorted : items.Pairwise fun a b => key a < key b

namespace Map

variable {key : α → κ}

instance : Membership α (Map key) := ⟨fun m a => a ∈ m.items⟩

def empty : Map key := ⟨[], List.Pairwise.nil⟩

/-- Puts a value at its key, in place of the one that was there. -/
def insert (m : Map key) (a : α) : Map key where
  items := m.items.filter (key · < key a) ++ a :: m.items.filter (key a < key ·)
  sorted := by
    refine List.pairwise_append.mpr ⟨m.sorted.filter _, ?_, fun b hb c hc => ?_⟩
    · refine List.pairwise_cons.mpr ⟨fun c hc => ?_, m.sorted.filter _⟩
      exact of_decide_eq_true (List.mem_filter.mp hc).2
    · have hba := of_decide_eq_true (List.mem_filter.mp hb).2
      rcases List.mem_cons.mp hc with rfl | hc
      · exact hba
      · exact hba.trans (of_decide_eq_true (List.mem_filter.mp hc).2)

def erase (m : Map key) (k : κ) : Map key := ⟨m.items.filter (key · ≠ k), m.sorted.filter _⟩

def get? (m : Map key) (k : κ) : Option α := m.items.find? (key · = k)

/-- The last value in the order of which `p` is true. -/
def last (m : Map key) (p : α → Bool) : Option α := m.items.reverse.find? p

/-- The values with keys from `lo` on and below `hi`. -/
def between (m : Map key) (lo hi : κ) : List α :=
  m.items.filter fun a => lo ≤ key a ∧ key a < hi

variable {m : Map key} {a b : α} {k : κ} {p : α → Bool}

theorem mem_items : a ∈ m.items ↔ a ∈ m := Iff.rfl

@[simp] theorem not_mem_empty : a ∉ (empty : Map key) := List.not_mem_nil

@[simp] theorem mem_insert : b ∈ m.insert a ↔ b = a ∨ b ∈ m ∧ key b ≠ key a := by
  rw [← mem_items, insert, List.mem_append, List.mem_cons, List.mem_filter, List.mem_filter,
    decide_eq_true_iff, decide_eq_true_iff, mem_items]
  constructor
  · rintro (⟨hb, hlt⟩ | rfl | ⟨hb, hlt⟩)
    · exact .inr ⟨hb, hlt.ne⟩
    · exact .inl rfl
    · exact .inr ⟨hb, hlt.ne'⟩
  · rintro (rfl | ⟨hb, hne⟩)
    · exact .inr (.inl rfl)
    · rcases lt_or_gt_of_ne hne with hlt | hlt
      · exact .inl ⟨hb, hlt⟩
      · exact .inr (.inr ⟨hb, hlt⟩)

@[simp] theorem mem_erase : b ∈ m.erase k ↔ b ∈ m ∧ key b ≠ k := by
  rw [← mem_items, erase, List.mem_filter, decide_eq_true_iff, mem_items]

@[simp] theorem mem_between {lo hi : κ} :
    b ∈ m.between lo hi ↔ b ∈ m ∧ lo ≤ key b ∧ key b < hi := by
  rw [between, List.mem_filter, decide_eq_true_iff, mem_items]

theorem insert_erase : (m.erase (key a)).insert a = m.insert a := by
  have hlt : m.items.filter (fun b => decide (key b < key a) && decide (key b ≠ key a)) =
      m.items.filter (key · < key a) :=
    List.filter_congr fun b _ => by
      rw [Bool.and_eq_left_iff_imp, decide_eq_true_iff, decide_eq_true_iff]
      exact fun hlt => hlt.ne
  have hgt : m.items.filter (fun b => decide (key a < key b) && decide (key b ≠ key a)) =
      m.items.filter (key a < key ·) :=
    List.filter_congr fun b _ => by
      rw [Bool.and_eq_left_iff_imp, decide_eq_true_iff, decide_eq_true_iff]
      exact fun hlt => hlt.ne'
  simp only [insert, erase, List.filter_filter, hlt, hgt]

theorem eq_of_key_eq (ha : a ∈ m) (hb : b ∈ m) (h : key a = key b) : a = b := by
  by_contra hne
  have hpair : m.items.Pairwise fun x y => key x ≠ key y := m.sorted.imp fun hlt => hlt.ne
  have hsymm : Std.Symm fun x y => key x ≠ key y := ⟨fun _ _ hxy => hxy.symm⟩
  exact hpair.forall ha hb hne h

theorem get?_eq_some : m.get? k = some a ↔ a ∈ m ∧ key a = k := by
  constructor
  · intro h
    exact ⟨List.mem_of_find?_eq_some h, of_decide_eq_true (List.find?_some h :)⟩
  · rintro ⟨ha, rfl⟩
    cases hget : m.get? (key a) with
    | none => exact absurd rfl (of_decide_eq_false (Bool.eq_false_iff.mpr
        (List.find?_eq_none.mp hget a ha)))
    | some b =>
        have heq : key b = key a := of_decide_eq_true (List.find?_some hget :)
        rw [eq_of_key_eq (List.mem_of_find?_eq_some hget) ha heq]

theorem last_eq_none : m.last p = none ↔ ∀ b ∈ m, p b = false := by
  rw [last, List.find?_eq_none]
  refine ⟨fun h b hb => ?_, fun h b hb => ?_⟩
  · exact Bool.eq_false_iff.mpr (h b (List.mem_reverse.mpr hb))
  · exact Bool.eq_false_iff.mp (h b (List.mem_reverse.mp hb))

theorem mem_of_last (h : m.last p = some a) : a ∈ m :=
  List.mem_reverse.mp (List.mem_of_find?_eq_some h)

theorem pos_of_last (h : m.last p = some a) : p a = true := List.find?_some h

theorem le_of_last (h : m.last p = some a) (hb : b ∈ m) (hpb : p b = true) : key b ≤ key a := by
  obtain ⟨-, after, before, hsplit, hafter⟩ := List.find?_eq_some_iff_append.mp h
  have hsorted := List.pairwise_reverse.mpr m.sorted
  rw [hsplit] at hsorted
  rcases List.mem_append.mp (hsplit ▸ List.mem_reverse.mpr hb) with hb | hb
  · have hnot := hafter b hb
    rw [hpb] at hnot
    exact absurd hnot Bool.false_ne_true
  · rcases List.mem_cons.mp hb with rfl | hb
    · exact le_rfl
    · have hrest := (List.pairwise_append.mp hsorted).2.1
      exact (List.rel_of_pairwise_cons hrest hb).le

theorem last_eq_some :
    m.last p = some a ↔ a ∈ m ∧ p a = true ∧ ∀ b ∈ m, p b = true → key b ≤ key a := by
  constructor
  · exact fun h => ⟨mem_of_last h, pos_of_last h, fun b => le_of_last h⟩
  · rintro ⟨ha, hpa, hmax⟩
    cases hlast : m.last p with
    | none =>
        rw [last_eq_none.mp hlast a ha] at hpa
        exact absurd hpa Bool.false_ne_true
    | some b =>
        have heq := le_antisymm (hmax b (mem_of_last hlast) (pos_of_last hlast))
          (le_of_last hlast ha hpa)
        rw [eq_of_key_eq (mem_of_last hlast) ha heq]

theorem last_congr {m' : Map key} (h : ∀ a, p a = true → (a ∈ m' ↔ a ∈ m)) :
    m'.last p = m.last p := by
  refine Option.ext fun a => ?_
  rw [last_eq_some, last_eq_some]
  constructor
  · rintro ⟨ha, hpa, hmax⟩
    exact ⟨(h a hpa).mp ha, hpa, fun b hb hpb => hmax b ((h b hpb).mpr hb) hpb⟩
  · rintro ⟨ha, hpa, hmax⟩
    exact ⟨(h a hpa).mpr ha, hpa, fun b hb hpb => hmax b ((h b hpb).mp hb) hpb⟩

/-! ### Ranges -/

variable {lo : α → κ} (hi : α → κ) (m : Map lo)

/-- No range is empty, and no point is in two of them. -/
structure Apart : Prop where
  nonempty : ∀ a ∈ m, lo a < hi a
  unique : ∀ a ∈ m, ∀ b ∈ m, ∀ x, lo a ≤ x → x < hi a → lo b ≤ x → x < hi b → a = b

/-- The last range that starts at or below `x`, if it reaches beyond it. -/
def at? (x : κ) : Option α := (m.last (lo · ≤ x)).filter (x < hi ·)

/-- The last range that starts below `e` does not reach beyond `s`. -/
def free (s e : κ) : Bool := (m.last (lo · < e)).all (hi · ≤ s)

variable {hi m} {x s e : κ}

theorem mem_of_at? (h : m.at? hi x = some a) : a ∈ m ∧ lo a ≤ x ∧ x < hi a := by
  obtain ⟨hlast, hx⟩ := Option.filter_eq_some_iff.mp h
  exact ⟨mem_of_last hlast, of_decide_eq_true (pos_of_last hlast :), of_decide_eq_true hx⟩

namespace Apart

theorem empty : Apart hi (empty : Map lo) :=
  ⟨fun _ h => absurd h not_mem_empty, fun _ h => absurd h not_mem_empty⟩

theorem le_of_lt (h : Apart hi m) (ha : a ∈ m) (hb : b ∈ m) (hlt : lo a < lo b) : hi a ≤ lo b := by
  by_contra hnot
  have hab := h.unique a ha b hb (lo b) hlt.le (not_le.mp hnot) le_rfl (h.nonempty b hb)
  exact hlt.ne (congrArg lo hab)

theorem le_or_le (h : Apart hi m) (ha : a ∈ m) (hb : b ∈ m) (hne : lo a ≠ lo b) :
    hi a ≤ lo b ∨ hi b ≤ lo a :=
  (lt_or_gt_of_ne hne).imp (h.le_of_lt ha hb) (h.le_of_lt hb ha)

theorem at?_eq_some (h : Apart hi m) : m.at? hi x = some a ↔ a ∈ m ∧ lo a ≤ x ∧ x < hi a := by
  refine ⟨mem_of_at?, fun ⟨ha, hlo, hhi⟩ => ?_⟩
  refine Option.filter_eq_some_iff.mpr ⟨last_eq_some.mpr ⟨ha, decide_eq_true hlo, ?_⟩,
    decide_eq_true hhi⟩
  intro b hb hbx
  by_contra hlt
  have hend := h.le_of_lt ha hb (not_le.mp hlt)
  exact absurd (hhi.trans_le (hend.trans (of_decide_eq_true hbx))) (lt_irrefl x)

theorem at?_eq_none (h : Apart hi m) :
    m.at? hi x = none ↔ ∀ a ∈ m, lo a ≤ x → hi a ≤ x := by
  rw [Option.eq_none_iff_forall_ne_some]
  refine ⟨fun hnone a ha hlo => ?_, fun hall a ha => ?_⟩
  · by_contra hhi
    exact hnone a (h.at?_eq_some.mpr ⟨ha, hlo, not_le.mp hhi⟩)
  · obtain ⟨ham, hlo, hhi⟩ := mem_of_at? ha
    exact absurd (hhi.trans_le (hall a ham hlo)) (lt_irrefl x)

theorem free_iff (h : Apart hi m) : m.free hi s e = true ↔ ∀ a ∈ m, lo a < e → hi a ≤ s := by
  rw [free]
  cases hlast : m.last (lo · < e) with
  | none =>
      refine ⟨fun _ a ha hlt => ?_, fun _ => rfl⟩
      exact absurd hlt (of_decide_eq_false (last_eq_none.mp hlast a ha))
  | some b =>
      have hb := mem_of_last hlast
      refine ⟨fun hle a ha hlt => ?_, fun hall => ?_⟩
      · have hbs : hi b ≤ s := of_decide_eq_true hle
        rcases (le_of_last hlast ha (decide_eq_true hlt)).lt_or_eq with hab | hab
        · exact (h.le_of_lt ha hb hab).trans ((h.nonempty b hb).le.trans hbs)
        · rw [eq_of_key_eq ha hb hab]
          exact hbs
      · exact decide_eq_true (hall b hb (of_decide_eq_true (pos_of_last hlast :)))

theorem erase (h : Apart hi m) : Apart hi (m.erase k) where
  nonempty a ha := h.nonempty a (mem_erase.mp ha).1
  unique a ha b hb := h.unique a (mem_erase.mp ha).1 b (mem_erase.mp hb).1

theorem insert (h : Apart hi m) (hne : lo a < hi a)
    (hclear : ∀ b ∈ m, lo b ≠ lo a → hi b ≤ lo a ∨ hi a ≤ lo b) : Apart hi (m.insert a) := by
  have hnew : ∀ b ∈ m, lo b ≠ lo a → ∀ x, lo b ≤ x → x < hi b → lo a ≤ x → ¬x < hi a := by
    intro b hb hlo x hbx hxb hax hxa
    rcases hclear b hb hlo with hle | hle
    · exact absurd (hxb.trans_le (hle.trans hax)) (lt_irrefl x)
    · exact absurd (hxa.trans_le (hle.trans hbx)) (lt_irrefl x)
  constructor
  · intro b hb
    rcases mem_insert.mp hb with rfl | ⟨hb, -⟩
    · exact hne
    · exact h.nonempty b hb
  · intro b hb c hc x hbx hxb hcx hxc
    rcases mem_insert.mp hb with rfl | ⟨hbm, hbk⟩ <;>
      rcases mem_insert.mp hc with rfl | ⟨hcm, hck⟩
    · rfl
    · exact absurd hxb (hnew c hcm hck x hcx hxc hbx)
    · exact absurd hxc (hnew b hbm hbk x hbx hxb hcx)
    · exact h.unique b hbm c hcm x hbx hxb hcx hxc

end Apart

end Map

end Ranges
