import Mathlib.Data.List.Nodup
import Mathlib.Data.List.Basic

/-!
# Stacking orders

A stack holds distinct things, the one on top last. Whatever is put on it, raised in
it or taken out of it, it holds nothing twice; that is part of its type. The order of
the other things is never touched, which is stated on what a predicate selects: raising
something that is not selected changes nothing there.
-/

/-- Distinct things, bottom first. -/
structure Stack (α : Type*) where
  items : List α := []
  nodup : items.Nodup := by exact List.nodup_nil
  deriving DecidableEq

namespace Stack

variable {α : Type*}

instance : Inhabited (Stack α) := ⟨{}⟩

/-- Take out everything that is not selected. -/
def retain (s : Stack α) (p : α → Bool) : Stack α := ⟨s.items.filter p, s.nodup.filter p⟩

@[simp] theorem items_retain (s : Stack α) (p : α → Bool) :
    (s.retain p).items = s.items.filter p := rfl

theorem filter_parted {l items : List α} {m q : α → Bool}
    (hitems : items = l ∨ items = l.filter (fun a => !m a) ++ l.filter m) (b : Bool)
    (hq : ∀ a ∈ l, q a = true → m a = b) : items.filter q = l.filter q := by
  rcases hitems with rfl | rfl
  · rfl
  · rw [List.filter_append, List.filter_filter, List.filter_filter]
    cases b with
    | true =>
        have hout : l.filter (fun a => q a && !m a) = [] := by
          refine List.filter_eq_nil_iff.mpr fun a ha => ?_
          cases hqa : q a with
          | false => simp
          | true => simp [hq a ha hqa]
        have hin : l.filter (fun a => q a && m a) = l.filter q := by
          refine List.filter_congr fun a ha => ?_
          cases hqa : q a with
          | false => rfl
          | true => simp [hq a ha hqa]
        rw [hout, hin, List.nil_append]
    | false =>
        have hout : l.filter (fun a => q a && m a) = [] := by
          refine List.filter_eq_nil_iff.mpr fun a ha => ?_
          cases hqa : q a with
          | false => simp
          | true => simp [hq a ha hqa]
        have hin : l.filter (fun a => q a && !m a) = l.filter q := by
          refine List.filter_congr fun a ha => ?_
          cases hqa : q a with
          | false => rfl
          | true => simp [hq a ha hqa]
        rw [hout, hin, List.append_nil]

/-- A list is its selected part followed by the rest when nothing that is selected comes
after something that is not. -/
theorem filter_append_filter_not_eq_self {l : List α} {p : α → Bool} :
    l.filter p ++ l.filter (fun a => !p a) = l ↔ l.Pairwise fun a b => p b = true → p a = true := by
  induction l with
  | nil => simp
  | cons a l ih =>
      rw [List.pairwise_cons]
      cases ha : p a with
      | true =>
          rw [List.filter_cons_of_pos ha, List.filter_cons_of_neg (by simp [ha]),
            List.cons_append, List.cons_inj_right, ih]
          simp
      | false =>
          rw [List.filter_cons_of_neg (by simp [ha]), List.filter_cons_of_pos (by simp [ha])]
          constructor
          · intro h
            have hnone : l.filter p = [] := by
              cases hl : l.filter p with
              | nil => rfl
              | cons b rest =>
                  rw [hl, List.cons_append, List.cons.injEq] at h
                  have hb : b ∈ l.filter p := hl ▸ List.mem_cons_self
                  have hpb := (List.mem_filter.mp hb).2
                  rw [h.1, ha] at hpb
                  cases hpb
            have hno := List.filter_eq_nil_iff.mp hnone
            refine ⟨fun b hb hpb => absurd hpb (hno b hb), ?_⟩
            exact List.pairwise_of_forall_mem_list fun b _ c hc hpc => absurd hpc (hno c hc)
          · rintro ⟨h, -⟩
            have hno : ∀ b ∈ l, ¬ p b = true := fun b hb hpb => by simpa using h b hb hpb
            have hall : l.filter (fun a => !p a) = l :=
              List.filter_eq_self.mpr fun b hb => by simpa using hno b hb
            rw [List.filter_eq_nil_iff.mpr hno, hall, List.nil_append]

variable [DecidableEq α]

/-- Move a thing of a list to the end, or add it there. -/
def toEnd (l : List α) (a : α) : List α := l.erase a ++ [a]

theorem mem_toEnd {l : List α} {a b : α} : b ∈ toEnd l a ↔ b ∈ l ∨ b = a := by
  by_cases hb : b = a
  · simp [toEnd, hb]
  · simp [toEnd, hb, List.mem_erase_of_ne]

theorem nodup_toEnd {l : List α} (h : l.Nodup) (a : α) : (toEnd l a).Nodup := by
  rw [toEnd, List.nodup_append]
  refine ⟨h.erase a, List.nodup_singleton a, ?_⟩
  rintro b hb c hc rfl
  rw [List.mem_singleton] at hc
  exact h.not_mem_erase (hc ▸ hb)

theorem toEnd_of_notMem {l : List α} {a : α} (h : a ∉ l) : toEnd l a = l ++ [a] := by
  rw [toEnd, List.erase_of_not_mem h]

theorem toEnd_append_singleton {l : List α} {a : α} (h : a ∉ l) :
    toEnd (l ++ [a]) a = l ++ [a] := by
  rw [toEnd, List.erase_append_right _ h, List.erase_cons_head, List.append_nil]

theorem toEnd_eq_self {l : List α} {a : α} (h : l.Nodup) :
    toEnd l a = l ↔ l.getLast? = some a := by
  constructor
  · intro heq
    rw [← heq, toEnd, List.getLast?_append_cons, List.getLast?_singleton]
  · intro hlast
    obtain ⟨init, rfl⟩ := List.getLast?_eq_some_iff.mp hlast
    have hnew := List.nodup_append.mp h
    exact toEnd_append_singleton fun ha => hnew.2.2 a ha a (List.mem_singleton_self a) rfl

theorem filter_toEnd_of_pos {l : List α} {a : α} {p : α → Bool} (h : l.Nodup) (ha : p a = true) :
    (toEnd l a).filter p = toEnd (l.filter p) a := by
  rw [toEnd, toEnd, List.filter_append, h.erase_eq_filter, (h.filter p).erase_eq_filter,
    List.filter_filter, List.filter_filter, List.filter_singleton, ha, cond_true]
  congr 1
  exact List.filter_congr fun x _ => Bool.and_comm _ _

theorem filter_toEnd_of_neg {l : List α} {a : α} {p : α → Bool} (h : l.Nodup) (ha : p a = false) :
    (toEnd l a).filter p = l.filter p := by
  rw [toEnd, List.filter_append, h.erase_eq_filter, List.filter_filter, List.filter_singleton, ha,
    cond_false, List.append_nil]
  refine List.filter_congr fun x _ => ?_
  by_cases hx : x = a
  · simp [hx, ha]
  · simp [hx]

/-- Add to the end what a list does not hold yet. -/
def pushNew (l new : List α) : List α :=
  new.foldl (fun l a => if a ∈ l then l else l ++ [a]) l

theorem pushNew_eq {l new : List α} (h : new.Nodup) :
    pushNew l new = l ++ new.filter fun a => decide (a ∉ l) := by
  induction new generalizing l with
  | nil => simp [pushNew]
  | cons a new ih =>
      have hrest := List.nodup_cons.mp h
      change pushNew (if a ∈ l then l else l ++ [a]) new = _
      by_cases ha : a ∈ l
      · rw [if_pos ha, ih hrest.2, List.filter_cons_of_neg (by simp [ha])]
      · rw [if_neg ha, ih hrest.2, List.filter_cons_of_pos (by simp [ha]), List.append_assoc]
        refine congrArg (l ++ a :: ·) (List.filter_congr fun x hx => ?_)
        have hxa : x ≠ a := fun h => hrest.1 (h ▸ hx)
        simp [hxa]

theorem mem_pushNew {l new : List α} {a : α} : a ∈ pushNew l new ↔ a ∈ l ∨ a ∈ new := by
  unfold pushNew
  induction new generalizing l with
  | nil => simp
  | cons b new ih =>
      rw [List.foldl_cons, ih, List.mem_cons]
      split
      case isTrue hb =>
        constructor
        · rintro (h | h)
          · exact .inl h
          · exact .inr (.inr h)
        · rintro (h | rfl | h)
          · exact .inl h
          · exact .inl hb
          · exact .inr h
      case isFalse =>
        rw [List.mem_append, List.mem_singleton]
        exact or_assoc

theorem nodup_pushNew {l : List α} (h : l.Nodup) (new : List α) : (pushNew l new).Nodup := by
  unfold pushNew
  induction new generalizing l with
  | nil => exact h
  | cons a new ih =>
      rw [List.foldl_cons]
      refine ih ?_
      split
      case isTrue => exact h
      case isFalse ha =>
        refine List.nodup_append.mpr ⟨h, List.nodup_singleton a, ?_⟩
        rintro x hx y hy rfl
        exact ha (List.mem_singleton.mp hy ▸ hx)

/-- Put a thing on top, wherever it was. -/
def put (s : Stack α) (a : α) : Stack α := ⟨toEnd s.items a, nodup_toEnd s.nodup a⟩

/-- Raise a thing to the top, if it is there. -/
def raise (s : Stack α) (a : α) : Stack α := if a ∈ s.items then s.put a else s

/-- Take a thing out. -/
def remove (s : Stack α) (a : α) : Stack α := ⟨s.items.erase a, s.nodup.erase a⟩

@[simp] theorem items_put (s : Stack α) (a : α) : (s.put a).items = toEnd s.items a := rfl

@[simp] theorem items_remove (s : Stack α) (a : α) : (s.remove a).items = s.items.erase a := rfl

theorem mem_put {s : Stack α} {a b : α} : b ∈ (s.put a).items ↔ b ∈ s.items ∨ b = a := mem_toEnd

@[simp] theorem mem_raise {s : Stack α} {a b : α} : b ∈ (s.raise a).items ↔ b ∈ s.items := by
  unfold raise
  split
  next ha => exact mem_put.trans ⟨fun h => h.elim id fun h => h ▸ ha, Or.inl⟩
  next => exact Iff.rfl

theorem mem_foldl_raise {s : Stack α} {l : List α} {b : α} :
    b ∈ (l.foldl raise s).items ↔ b ∈ s.items := by
  induction l generalizing s with
  | nil => exact Iff.rfl
  | cons a l ih => exact ih.trans mem_raise

theorem filter_raise_of_neg {s : Stack α} {a : α} {p : α → Bool} (ha : p a = false) :
    (s.raise a).items.filter p = s.items.filter p := by
  unfold raise
  split
  next => exact filter_toEnd_of_neg s.nodup ha
  next => rfl

theorem filter_foldl_raise_of_neg {s : Stack α} {l : List α} {p : α → Bool}
    (hl : ∀ a ∈ l, p a = false) : (l.foldl raise s).items.filter p = s.items.filter p := by
  induction l generalizing s with
  | nil => rfl
  | cons a l ih =>
      rw [List.foldl_cons, ih fun b hb => hl b (List.mem_cons_of_mem a hb)]
      exact filter_raise_of_neg (hl a List.mem_cons_self)

theorem filter_raise_of_pos {s : Stack α} {a : α} {p : α → Bool} (hmem : a ∈ s.items)
    (ha : p a = true) : (s.raise a).items.filter p = toEnd (s.items.filter p) a := by
  rw [raise, if_pos hmem]
  exact filter_toEnd_of_pos s.nodup ha

/-- Putting things on top one after the other: they are above everything else, in the
order they were put there. -/
theorem items_foldl_put {s : Stack α} {l : List α} (hl : l.Nodup) :
    (l.foldl put s).items = s.items.filter (fun a => decide (a ∉ l)) ++ l := by
  induction l generalizing s with
  | nil => simp
  | cons a l ih =>
      obtain ⟨ha, hrest⟩ := List.nodup_cons.mp hl
      have hkeep : (toEnd s.items a).filter (fun b => decide (b ∉ l)) =
          s.items.filter (fun b => decide (b ∉ a :: l)) ++ [a] := by
        rw [toEnd, List.filter_append, s.nodup.erase_eq_filter, List.filter_filter]
        congr 1
        · refine List.filter_congr fun b _ => ?_
          by_cases hb : b = a
          · simp [hb]
          · simp [hb]
        · simp [ha]
      rw [List.foldl_cons, ih hrest, items_put, hkeep, List.append_assoc]
      rfl

end Stack
