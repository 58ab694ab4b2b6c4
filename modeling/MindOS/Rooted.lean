import Mathlib.Data.List.Basic

/-!
# Trees of names

## Walks up and down a tree of names

A place in the tree is the list of the names that lead to it, the last one first. A walk
that starts there ends where its own start and end say: it takes off as many names as it
climbs over its start, and puts on those that it does not climb over again.
-/

namespace Walk

variable {α : Type*}

/-- One step of a walk. -/
inductive Move (α : Type*) where
  | stay
  | up
  | down (a : α)
  deriving DecidableEq

/-- Where a walk ends; above the root is the root. -/
def walk (kept : List α) : List (Move α) → List α
  | [] => kept
  | .stay :: ms => walk kept ms
  | .up :: ms => walk kept.tail ms
  | .down a :: ms => walk (a :: kept) ms

/-- How far a walk climbs over its start. -/
def climb : List (Move α) → Nat
  | [] => 0
  | .stay :: ms => climb ms
  | .up :: ms => climb ms + 1
  | .down _ :: ms => climb ms - 1

/-- The names that a walk enters and does not leave. -/
def settled : List (Move α) → List α
  | [] => []
  | .stay :: ms => settled ms
  | .up :: ms => settled ms
  | .down a :: ms => if climb ms = 0 then settled ms ++ [a] else settled ms

theorem walk_append (kept : List α) (ms ns : List (Move α)) :
    walk kept (ms ++ ns) = walk (walk kept ms) ns := by
  induction ms generalizing kept with
  | nil => rfl
  | cons m ms ih => cases m <;> exact ih _

/-- How often a walk goes up. -/
def ups : List (Move α) → Nat
  | [] => 0
  | .up :: ms => ups ms + 1
  | .stay :: ms => ups ms
  | .down _ :: ms => ups ms

/-- How often a walk goes down. -/
def downs : List (Move α) → Nat
  | [] => 0
  | .down _ :: ms => downs ms + 1
  | .stay :: ms => downs ms
  | .up :: ms => downs ms

theorem forall_prefix_cons {P : List (Move α) → Prop} (hnil : P []) {m : Move α}
    {ms : List (Move α)} :
    (∀ front, front <+: m :: ms → P front) ↔ ∀ front, front <+: ms → P (m :: front) := by
  constructor
  · exact fun h front hfront => h _ (List.cons_prefix_cons.mpr ⟨rfl, hfront⟩)
  · intro h front hfront
    cases front with
    | nil => exact hnil
    | cons d front =>
        obtain ⟨hd, hfront⟩ := List.cons_prefix_cons.mp hfront
        rw [hd]
        exact h front hfront

/-- A walk climbs at most `n` names over its start if no beginning of it goes up more than
`n` times as often as down. -/
theorem climb_le_iff {ms : List (Move α)} (n : Nat) :
    climb ms ≤ n ↔ ∀ front, front <+: ms → ups front ≤ downs front + n := by
  induction ms generalizing n with
  | nil => simp [climb, ups, downs]
  | cons m ms ih =>
      rw [forall_prefix_cons (Nat.zero_le _)]
      cases m with
      | stay => exact ih n
      | down a =>
          rw [climb, Nat.sub_le_iff_le_add, ih (n + 1)]
          simp only [ups, downs, Nat.add_assoc, Nat.add_comm 1]
      | up =>
          cases n with
          | zero =>
              refine iff_of_false (by simp [climb]) fun h => ?_
              simpa [ups, downs] using h [] List.nil_prefix
          | succ n =>
              rw [climb, Nat.succ_le_succ_iff, ih n]
              simp only [ups, downs, ← Nat.add_assoc, Nat.succ_le_succ_iff]

theorem walk_eq (kept : List α) (ms : List (Move α)) :
    walk kept ms = settled ms ++ kept.drop (climb ms) := by
  induction ms generalizing kept with
  | nil => rfl
  | cons m ms ih =>
      cases m with
      | stay => exact ih kept
      | up => rw [walk, ih, settled, climb, List.drop_tail]
      | down a =>
          rw [walk, ih, settled, climb]
          by_cases hstays : climb ms = 0
          · rw [if_pos hstays, hstays, List.append_assoc]
            rfl
          · obtain ⟨n, hn⟩ := Nat.exists_eq_succ_of_ne_zero hstays
            rw [if_neg hstays, hn, Nat.succ_sub_one, List.drop_succ_cons]

end Walk

/-!
## Rooted trees given by their edges

A relation of labelled edges is a tree below a root if no edge leads to the root, at most
one leads to each other vertex, and each edge starts at a vertex that the root reaches.
Leaves may be added and removed, and a subtree moved to a place that is not in it.
-/

namespace Rooted

variable {V L : Type*} {E E' : V → L → V → Prop} {root : V}

/-- The labels on the way from one vertex to another. -/
inductive Path (E : V → L → V → Prop) : V → List L → V → Prop
  | nil (v : V) : Path E v [] v
  | cons {u v w : V} {l : L} {p : List L} : E u l v → Path E v p w → Path E u (l :: p) w

structure IsTree (E : V → L → V → Prop) (root : V) : Prop where
  noRoot : ∀ u l, ¬E u l root
  unique : ∀ u l u' l' v, E u l v → E u' l' v → u = u' ∧ l = l'
  reached : ∀ u l v, E u l v → ∃ p, Path E root p u

variable {u v w x b d : V} {l o : L} {p q : List L}

theorem Path.concat (h : Path E u p v) (hv : E v l w) : Path E u (p ++ [l]) w := by
  induction h with
  | nil u => exact .cons hv (.nil w)
  | cons huv _ ih => exact .cons huv (ih hv)

theorem Path.eq_concat (h : Path E u p w) :
    p = [] ∧ u = w ∨ ∃ q v l, p = q ++ [l] ∧ Path E u q v ∧ E v l w := by
  induction h with
  | nil u => exact .inl ⟨rfl, rfl⟩
  | cons huv hvw ih =>
      obtain ⟨rfl, rfl⟩ | ⟨q, v', l', rfl, hq, hl⟩ := ih
      · exact .inr ⟨[], _, _, rfl, .nil _, huv⟩
      · exact .inr ⟨_ :: q, v', l', rfl, .cons huv hq, hl⟩

theorem Path.mono (hE : ∀ u l v, E u l v → E' u l v) (h : Path E u p v) : Path E' u p v := by
  induction h with
  | nil u => exact .nil u
  | cons huv _ ih => exact .cons (hE _ _ _ huv) ih

theorem Path.avoid (h : Path E u p w) (hx : ¬∃ q, Path E x q w) :
    Path (fun u l v => E u l v ∧ v ≠ x) u p w := by
  induction h with
  | nil u => exact .nil u
  | cons huv hvw ih =>
      refine .cons ⟨huv, ?_⟩ (ih hx)
      rintro rfl
      exact hx ⟨_, hvw⟩

theorem Path.avoid_leaf (h : Path E u p w) (hleaf : ∀ l v, ¬E x l v) (hw : w ≠ x) :
    Path (fun u l v => E u l v ∧ v ≠ x) u p w := by
  refine h.avoid ?_
  rintro ⟨q, hq⟩
  cases hq with
  | nil => exact hw rfl
  | cons hxv _ => exact hleaf _ _ hxv

namespace IsTree

theorem path_root (h : IsTree E root) (hp : Path E u p root) : p = [] := by
  obtain ⟨rfl, -⟩ | ⟨q, v, l, -, -, hl⟩ := hp.eq_concat
  · rfl
  · exact absurd hl (h.noRoot v l)

theorem path_unique (h : IsTree E root) (hp : Path E root p v) (hq : Path E root q v) :
    p = q := by
  induction hlen : p.length generalizing p q v with
  | zero =>
      obtain rfl := List.length_eq_zero_iff.mp hlen
      cases hp
      exact (h.path_root hq).symm
  | succ n ih =>
      obtain ⟨rfl, -⟩ | ⟨p', u, l, rfl, hp', hl⟩ := hp.eq_concat
      · cases hlen
      · obtain ⟨rfl, rfl⟩ | ⟨q', u', l', rfl, hq', hl'⟩ := hq.eq_concat
        · exact absurd hl (h.noRoot u l)
        · obtain ⟨rfl, rfl⟩ := h.unique _ _ _ _ _ hl hl'
          rw [ih hp' hq' (by simpa using hlen)]

theorem reached_target (h : IsTree E root) (hv : E u l v) : ∃ p, Path E root p v := by
  obtain ⟨p, hp⟩ := h.reached u l v hv
  exact ⟨p ++ [l], hp.concat hv⟩

theorem add (h : IsTree E root) (hd : ∃ p, Path E root p d) (hnew : ∀ u l, ¬E u l x)
    (hroot : x ≠ root) :
    IsTree (fun u l v => E u l v ∨ u = d ∧ l = o ∧ v = x) root where
  noRoot u l := by
    rintro (hl | ⟨-, -, rfl⟩)
    · exact h.noRoot u l hl
    · exact hroot rfl
  unique u l u' l' v := by
    rintro (hl | ⟨rfl, rfl, rfl⟩) (hl' | ⟨rfl, rfl, hx⟩)
    · exact h.unique u l u' l' v hl hl'
    · exact absurd hl (hx ▸ hnew u l)
    · exact absurd hl' (hnew u' l')
    · exact ⟨rfl, rfl⟩
  reached u l v := by
    rintro (hl | ⟨rfl, -, -⟩)
    · obtain ⟨p, hp⟩ := h.reached u l v hl
      exact ⟨p, hp.mono fun _ _ _ => .inl⟩
    · obtain ⟨p, hp⟩ := hd
      exact ⟨p, hp.mono fun _ _ _ => .inl⟩

theorem remove (h : IsTree E root) (hleaf : ∀ l v, ¬E x l v) :
    IsTree (fun u l v => E u l v ∧ v ≠ x) root where
  noRoot u l hl := h.noRoot u l hl.1
  unique u l u' l' v hl hl' := h.unique u l u' l' v hl.1 hl'.1
  reached u l v hl := by
    obtain ⟨p, hp⟩ := h.reached u l v hl.1
    refine ⟨p, hp.avoid_leaf hleaf ?_⟩
    rintro rfl
    exact hleaf l v hl.1

theorem move (h : IsTree E root) (hroot : x ≠ root) (hb : ∃ p, Path E root p b)
    (hout : ¬∃ q, Path E x q b) :
    IsTree (fun u l v => E u l v ∧ v ≠ x ∨ u = b ∧ l = o ∧ v = x) root := by
  have hmono : ∀ u l v, (fun u l v => E u l v ∧ v ≠ x) u l v →
      (fun u l v => E u l v ∧ v ≠ x ∨ u = b ∧ l = o ∧ v = x) u l v := fun _ _ _ => .inl
  obtain ⟨pb, hpb⟩ := hb
  have hpb' := (hpb.avoid hout).mono hmono
  -- the way to a vertex, up to the last passage of what is moved, is replaced
  have hkept : ∀ (n : Nat) (p : List L) (u : V), p.length = n → Path E root p u →
      ∃ p', Path (fun u l v => E u l v ∧ v ≠ x ∨ u = b ∧ l = o ∧ v = x) root p' u := by
    intro n
    induction n with
    | zero =>
        intro p u hlen hp
        obtain rfl := List.length_eq_zero_iff.mp hlen
        cases hp
        exact ⟨[], .nil _⟩
    | succ n ih =>
        intro p u hlen hp
        obtain ⟨rfl, rfl⟩ | ⟨q, w, l, rfl, hq, hl⟩ := hp.eq_concat
        · exact ⟨[], .nil _⟩
        · by_cases hu : u = x
          · subst hu
            exact ⟨pb ++ [o], hpb'.concat (.inr ⟨rfl, rfl, rfl⟩)⟩
          · obtain ⟨p', hp'⟩ := ih q w (by simpa using hlen) hq
            exact ⟨p' ++ [l], hp'.concat (.inl ⟨hl, hu⟩)⟩
  constructor
  · rintro u l (⟨hl, -⟩ | ⟨-, -, rfl⟩)
    · exact h.noRoot u l hl
    · exact hroot rfl
  · rintro u l u' l' v (⟨hl, hne⟩ | ⟨rfl, rfl, rfl⟩) (⟨hl', hne'⟩ | ⟨rfl, rfl, hx⟩)
    · exact h.unique u l u' l' v hl hl'
    · exact absurd hx hne
    · exact absurd rfl hne'
    · exact ⟨rfl, rfl⟩
  · rintro u l v (⟨hl, -⟩ | ⟨rfl, -, -⟩)
    · obtain ⟨p, hp⟩ := h.reached u l v hl
      exact hkept p.length p u rfl hp
    · exact ⟨pb, hpb'⟩

theorem congr (h : IsTree E root) (hE : ∀ u l v, E' u l v ↔ E u l v) : IsTree E' root := by
  have heq : E' = E := funext fun u => funext fun l => funext fun v => propext (hE u l v)
  rwa [heq]

end IsTree

end Rooted
