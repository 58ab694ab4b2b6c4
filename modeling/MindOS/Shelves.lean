import Mathlib.Data.List.Flatten
import Mathlib.Data.List.Lookmap
import Mathlib.Data.List.Nodup
import Mathlib.Data.List.Perm.Basic

/-!
# Lists under names

Each name has a list, the names differ. A slot is a place in the list of a name; exchanging
what stands in two slots only changes where things stand.
-/

namespace Shelves

variable {κ α : Type*} {l : List (κ × List α)} {p q : κ × Nat} {n : κ} {x y a b : α}

/-- Everything on all of them. -/
def all (l : List (κ × List α)) : List α := l.flatMap Prod.snd

@[simp] theorem all_nil : all ([] : List (κ × List α)) = [] := rfl

@[simp] theorem all_cons (e : κ × List α) (l : List (κ × List α)) : all (e :: l) = e.2 ++ all l :=
  List.flatMap_cons

/-- Everything is there once when each list has it once and the lists have nothing in common. -/
theorem nodup_all (hnames : (l.map Prod.fst).Nodup) (hlists : ∀ e ∈ l, e.2.Nodup)
    (hdisjoint : ∀ e ∈ l, ∀ f ∈ l, ∀ x ∈ e.2, x ∈ f.2 → e.1 = f.1) : (all l).Nodup := by
  refine List.nodup_flatMap.mpr ⟨hlists, ?_⟩
  have hpairs := List.pairwise_map.mp hnames
  refine hpairs.imp_of_mem fun he hf hne x hx hx' => ?_
  exact hne (hdisjoint _ he _ hf x hx hx')

theorem names_filterLists (l : List (κ × List α)) (keep : α → Bool) :
    (l.map fun e => (e.1, e.2.filter keep)).map Prod.fst = l.map Prod.fst := by
  rw [List.map_map]
  rfl

theorem all_filterLists (l : List (κ × List α)) (keep : α → Bool) :
    all (l.map fun e => (e.1, e.2.filter keep)) = (all l).filter keep := by
  induction l with
  | nil => rfl
  | cons e l ih => rw [List.map_cons, all_cons, ih, all_cons, List.filter_append]

theorem all_sublist {m : List (κ × List α)} (h : m.Sublist l) : (all m).Sublist (all l) := by
  rw [all, all, List.flatMap_def, List.flatMap_def]
  exact (h.map _).flatten

variable [BEq κ]

/-- What stands in a slot. -/
def inSlot (l : List (κ × List α)) (slot : κ × Nat) : Option α :=
  (l.lookup slot.1).bind fun xs => xs[slot.2]?

def setSlot (l : List (κ × List α)) (slot : κ × Nat) (x : α) : List (κ × List α) :=
  l.map fun e => if e.1 == slot.1 then (e.1, e.2.set slot.2 x) else e

/-- Exchange what stands in two slots, if there is something in both. -/
def exchange (l : List (κ × List α)) (p q : κ × Nat) : List (κ × List α) :=
  match inSlot l p, inSlot l q with
  | some a, some b => setSlot (setSlot l p b) q a
  | _, _ => l

/-! ### Names -/

@[simp] theorem names_setSlot (l : List (κ × List α)) (p : κ × Nat) (x : α) :
    (setSlot l p x).map Prod.fst = l.map Prod.fst := by
  rw [setSlot, List.map_map]
  refine List.map_congr_left fun e _ => ?_
  rw [Function.comp_apply]
  split <;> rfl

@[simp] theorem names_exchange (l : List (κ × List α)) (p q : κ × Nat) :
    (exchange l p q).map Prod.fst = l.map Prod.fst := by
  unfold exchange
  split
  · rw [names_setSlot, names_setSlot]
  · rfl

variable [LawfulBEq κ]

theorem lookup_of_mem {e : κ × List α} (hnames : (l.map Prod.fst).Nodup) (he : e ∈ l) :
    l.lookup e.1 = some e.2 := by
  induction l with
  | nil => cases he
  | cons f l ih =>
      rw [List.map_cons, List.nodup_cons] at hnames
      obtain rfl | he := List.mem_cons.mp he
      · exact List.lookup_cons_self
      · have hne : (e.1 == f.1) = false := by
          refine beq_false_of_ne fun h => hnames.1 ?_
          exact h ▸ List.mem_map_of_mem he
        rw [List.lookup_cons, hne]
        exact ih hnames.2 he

theorem mem_of_lookup {xs : List α} (h : l.lookup n = some xs) : (n, xs) ∈ l := by
  induction l with
  | nil => cases h
  | cons e l ih =>
      rw [List.lookup_cons] at h
      split at h
      case h_1 heq =>
        obtain rfl := Option.some.inj h
        rw [eq_of_beq heq]
        exact List.mem_cons_self
      case h_2 => exact List.mem_cons_of_mem _ (ih h)

/-! ### One slot -/

theorem lookup_setSlot_self (l : List (κ × List α)) (p : κ × Nat) (x : α) :
    (setSlot l p x).lookup p.1 = (l.lookup p.1).map fun xs => xs.set p.2 x := by
  induction l with
  | nil => rfl
  | cons e l ih =>
      obtain ⟨k, xs⟩ := e
      change List.lookup p.1
        ((if k == p.1 then (k, xs.set p.2 x) else (k, xs)) :: setSlot l p x) = _
      by_cases hk : k = p.1
      · rw [if_pos (beq_iff_eq.mpr hk), hk, List.lookup_cons_self, List.lookup_cons_self]
        rfl
      · have hne : (p.1 == k) = false := beq_false_of_ne fun h => hk h.symm
        rw [if_neg (mt beq_iff_eq.mp hk), List.lookup_cons, List.lookup_cons, hne]
        exact ih

theorem lookup_setSlot_of_ne (hn : n ≠ p.1) : (setSlot l p x).lookup n = l.lookup n := by
  induction l with
  | nil => rfl
  | cons e l ih =>
      obtain ⟨k, xs⟩ := e
      change List.lookup n ((if k == p.1 then (k, xs.set p.2 x) else (k, xs)) :: setSlot l p x) = _
      split
      case isTrue hk =>
        have hne : (n == k) = false := beq_false_of_ne (eq_of_beq hk ▸ hn)
        rw [List.lookup_cons, List.lookup_cons, hne]
        exact ih
      case isFalse =>
        rw [List.lookup_cons, List.lookup_cons, ih]

theorem inSlot_setSlot_of_ne (hne : q ≠ p) : inSlot (setSlot l p x) q = inSlot l q := by
  obtain ⟨n, i⟩ := q
  by_cases hname : n = p.1
  · subst hname
    have hindex : p.2 ≠ i := fun h => hne (Prod.ext rfl h.symm)
    unfold inSlot
    dsimp only
    rw [lookup_setSlot_self]
    cases l.lookup p.1 with
    | none => rfl
    | some xs => exact List.getElem?_set_ne hindex
  · unfold inSlot
    dsimp only
    rw [lookup_setSlot_of_ne hname]

theorem inSlot_setSlot_self (h : inSlot l p = some a) : inSlot (setSlot l p x) p = some x := by
  rw [inSlot, lookup_setSlot_self]
  obtain ⟨xs, hxs, ha⟩ := Option.bind_eq_some_iff.mp h
  rw [hxs]
  exact List.getElem?_set_self (List.getElem?_eq_some_iff.mp ha).1

theorem setSlot_of_notMem (h : p.1 ∉ l.map Prod.fst) : setSlot l p x = l := by
  have hid : setSlot l p x = l.map id :=
    List.map_congr_left fun e he => if_neg fun (hname : (e.1 == p.1) = true) =>
      h (eq_of_beq hname ▸ List.mem_map_of_mem he)
  rw [hid, List.map_id]

/-- Exchanging two slots of one list permutes it and leaves the others. -/
theorem exchange_within {xs : List α} {i j : Nat} (hi : i < xs.length) (hj : j < xs.length)
    (h : l.lookup n = some xs) :
    ∃ ys, (exchange l (n, i) (n, j)).lookup n = some ys ∧ ys.Perm xs := by
  have hslot (i : Nat) (hi : i < xs.length) : inSlot l (n, i) = some xs[i] := by
    rw [inSlot, h]
    exact List.getElem?_eq_getElem hi
  refine ⟨(xs.set i xs[j]).set j xs[i], ?_, List.set_set_perm hi hj⟩
  simp only [exchange, hslot i hi, hslot j hj]
  rw [lookup_setSlot_self (p := (n, j)), lookup_setSlot_self (p := (n, i)), h]
  rfl

theorem lookup_exchange_of_ne (hp : n ≠ p.1) (hq : n ≠ q.1) :
    (exchange l p q).lookup n = l.lookup n := by
  unfold exchange
  split
  · rw [lookup_setSlot_of_ne hq, lookup_setSlot_of_ne hp]
  · rfl

variable [DecidableEq α]

/-- What a slot held goes and something else comes. -/
theorem count_all_setSlot (hnames : (l.map Prod.fst).Nodup) (h : inSlot l p = some a) :
    (all (setSlot l p x)).count y + (if a = y then 1 else 0) =
      (all l).count y + if x = y then 1 else 0 := by
  induction l with
  | nil => cases h
  | cons e l ih =>
      obtain ⟨k, xs⟩ := e
      rw [List.map_cons, List.nodup_cons] at hnames
      change (all ((if k == p.1 then (k, xs.set p.2 x) else (k, xs)) :: setSlot l p x)).count y +
        _ = _
      by_cases hk : k = p.1
      · have hrest : setSlot l p x = l := setSlot_of_notMem (hk ▸ hnames.1)
        have ha : xs[p.2]? = some a := by
          rw [inSlot, ← hk, List.lookup_cons_self] at h
          exact h
        obtain ⟨hlt, hget⟩ := List.getElem?_eq_some_iff.mp ha
        rw [if_pos (beq_iff_eq.mpr hk), hrest, all_cons, all_cons, List.count_append,
          List.count_append,
          List.count_set hlt, hget]
        simp only [beq_iff_eq]
        have hpos : a = y → 0 < xs.count y := fun hay =>
          List.count_pos_iff.mpr (hay ▸ List.mem_of_getElem? ha)
        by_cases hay : a = y
        · have hpos := hpos hay
          rw [if_pos hay]
          omega
        · rw [if_neg hay]
          omega
      · have hlookup : inSlot l p = some a := by
          have hne : (p.1 == k) = false := beq_false_of_ne fun heq => hk heq.symm
          rwa [inSlot, List.lookup_cons, hne] at h
        rw [if_neg (mt beq_iff_eq.mp hk), all_cons, all_cons, List.count_append, List.count_append,
          Nat.add_assoc,
          ih hnames.2 hlookup, Nat.add_assoc]

theorem exchange_perm (hnames : (l.map Prod.fst).Nodup) : (all (exchange l p q)).Perm (all l) := by
  unfold exchange
  split
  case h_2 => exact List.Perm.refl _
  case h_1 a b ha hb =>
    have hthere : inSlot (setSlot l p b) q = some b := by
      by_cases hqp : q = p
      · rw [hqp]
        exact inSlot_setSlot_self ha
      · rw [inSlot_setSlot_of_ne hqp, hb]
    refine List.perm_iff_count.mpr fun y => ?_
    have hfirst := count_all_setSlot (x := b) (y := y) hnames ha
    have hsecond := count_all_setSlot (x := a) (y := y)
      (by rw [names_setSlot]; exact hnames) hthere
    omega

end Shelves
