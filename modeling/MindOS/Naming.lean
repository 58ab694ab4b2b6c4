import Mathlib.Data.List.Forall2
import Mathlib.Data.List.Nodup

/-!
# Names given in one pass

The entries of a list are to have names of their own. One pass keeps a name that is neither blank
nor taken, and makes one up for every other entry, from its place and from how many have been made
up. A name that is made up is not compared with anything, so the names are distinct exactly if no
earlier entry has come with it.
-/

namespace Naming

/-- How names are made up: for a place in the list, as the so manyth one. -/
structure Maker (ν : Type) where
  blank : ν
  make : Nat → Nat → ν
  make_ne_blank : ∀ i n, make i n ≠ blank
  distinct : ∀ {i n i' n'}, i < i' → n < n' → make i n ≠ make i' n'

variable {ν α β γ : Type} [DecidableEq ν]

/-- Names for the entries from place `i` on, where `n` have been made up and `seen` are taken; an
entry and its name give what the list has afterwards. -/
def assign (m : Maker ν) (name : α → ν) (f : ν → α → β) : Nat → Nat → List ν → List α → List β
  | _, _, _, [] => []
  | i, n, seen, a :: as =>
      if name a = m.blank ∨ name a ∈ seen then
        f (m.make i (n + 1)) a :: assign m name f (i + 1) (n + 1) (m.make i (n + 1) :: seen) as
      else f (name a) a :: assign m name f (i + 1) n (name a :: seen) as

/-- Behind entries that came with the names `front`, and for which the names `made` were made up,
no name is made up that an earlier entry came with; and every entry is fine with its name. -/
def Free (m : Maker ν) (name : α → ν) (fine : ν → α → Prop) :
    Nat → Nat → List ν → List ν → List α → Prop
  | _, _, _, _, [] => True
  | i, n, front, made, a :: as =>
      if name a = m.blank ∨ name a ∈ front ∨ name a ∈ made then
        m.make i (n + 1) ∉ front ∧ fine (m.make i (n + 1)) a ∧
          Free m name fine (i + 1) (n + 1) (name a :: front) (m.make i (n + 1) :: made) as
      else fine (name a) a ∧ Free m name fine (i + 1) n (name a :: front) made as

variable {m : Maker ν} {name : α → ν} {f : ν → α → β} {i n : Nat} {seen : List ν} {as : List α}

theorem assign_forall₂ : List.Forall₂ (fun a b => ∃ x, x ≠ m.blank ∧ b = f x a) as
    (assign m name f i n seen as) := by
  induction as generalizing i n seen with
  | nil => exact .nil
  | cons a as ih =>
      rw [assign]
      split
      case isTrue => exact .cons ⟨_, m.make_ne_blank _ _, rfl⟩ ih
      case isFalse h => exact .cons ⟨_, fun hblank => h (.inl hblank), rfl⟩ ih

theorem assign_kept (hblank : ∀ a ∈ as, name a ≠ m.blank) (hnodup : (as.map name).Nodup)
    (hseen : ∀ a ∈ as, name a ∉ seen) :
    assign m name f i n seen as = as.map fun a => f (name a) a := by
  induction as generalizing i n seen with
  | nil => rfl
  | cons a as ih =>
      obtain ⟨ha, has⟩ := List.forall_mem_cons.mp hblank
      obtain ⟨hs, hss⟩ := List.forall_mem_cons.mp hseen
      obtain ⟨hnew, hnodup⟩ := List.nodup_cons.mp hnodup
      rw [assign, if_neg (not_or.mpr ⟨ha, hs⟩), List.map_cons]
      refine congrArg _ (ih has hnodup fun b hb hmem => ?_)
      obtain heq | hmem := List.mem_cons.mp hmem
      · exact hnew (heq ▸ List.mem_map_of_mem hb)
      · exact hss b hb hmem

/-- The names are distinct, and fine, exactly if no name is made up that is taken already. -/
theorem assign_free_iff {back : β → ν} (hback : ∀ x a, back (f x a) = x) {fine : ν → α → Prop}
    {sound : β → Prop} (hsound : ∀ x a, sound (f x a) ↔ fine x a) {front made : List ν}
    (htaken : ∀ x, x ≠ m.blank → (x ∈ seen ↔ x ∈ front ∨ x ∈ made))
    (hmade : ∀ x ∈ made, ∃ i' n', i' < i ∧ n' < n + 1 ∧ x = m.make i' n') :
    (((assign m name f i n seen as).map back).Nodup ∧
        (∀ b ∈ assign m name f i n seen as, back b ∉ seen) ∧
          ∀ b ∈ assign m name f i n seen as, sound b) ↔
      Free m name fine i n front made as := by
  induction as generalizing i n seen front made with
  | nil => simp [assign, Free]
  | cons a as ih =>
      -- The first name is distinct from the others and not taken, or so the others are to be.
      have hsplit : ∀ x rest, ((f x a :: rest).map back).Nodup ∧
          (∀ b ∈ f x a :: rest, back b ∉ seen) ∧ (∀ b ∈ f x a :: rest, sound b) ↔
            x ∉ seen ∧ fine x a ∧ (rest.map back).Nodup ∧ (∀ b ∈ rest, back b ∉ x :: seen) ∧
              ∀ b ∈ rest, sound b := by
        intro x rest
        rw [List.map_cons, List.nodup_cons, List.forall_mem_cons, List.forall_mem_cons, hback,
          hsound]
        simp only [List.mem_cons, not_or, List.mem_map, not_exists, not_and]
        constructor
        · rintro ⟨⟨hx, hrest⟩, ⟨hseen, htail⟩, hfine, hsounds⟩
          exact ⟨hseen, hfine, hrest, fun b hb => ⟨hx b hb, htail b hb⟩, hsounds⟩
        · rintro ⟨hseen, hfine, hrest, htail, hsounds⟩
          exact ⟨⟨fun b hb => (htail b hb).1, hrest⟩, ⟨hseen, fun b hb => (htail b hb).2⟩, hfine,
            hsounds⟩
      have hiff : (name a = m.blank ∨ name a ∈ seen) ↔
          name a = m.blank ∨ name a ∈ front ∨ name a ∈ made := by
        by_cases hblank : name a = m.blank
        · simp only [hblank, true_or]
        · rw [htaken _ hblank]
      rw [assign, Free]
      by_cases hneeds : name a = m.blank ∨ name a ∈ seen
      · rw [if_pos hneeds, if_pos (hiff.mp hneeds), hsplit]
        have hnew : m.make i (n + 1) ∉ made := by
          intro hmem
          obtain ⟨i', n', hi, hn, heq⟩ := hmade _ hmem
          exact m.distinct hi hn heq.symm
        refine and_congr ?_ (and_congr_right fun _ => ih ?_ ?_)
        · rw [htaken _ (m.make_ne_blank i (n + 1)), not_or, and_iff_left hnew]
        · intro x hx
          have hown : x = name a → x ∈ front ∨ x ∈ made := fun h =>
            (hiff.mp hneeds).resolve_left (h ▸ hx) |>.imp (h ▸ ·) (h ▸ ·)
          rw [List.mem_cons, List.mem_cons, List.mem_cons, htaken x hx]
          constructor
          · rintro (h | h | h)
            · exact .inr (.inl h)
            · exact .inl (.inr h)
            · exact .inr (.inr h)
          · rintro ((h | h) | h | h)
            · exact .inr (hown h)
            · exact .inr (.inl h)
            · exact .inl h
            · exact .inr (.inr h)
        · intro x hx
          obtain rfl | hx := List.mem_cons.mp hx
          · exact ⟨i, n + 1, Nat.lt_succ_self i, Nat.lt_succ_self _, rfl⟩
          · obtain ⟨i', n', hi, hn, heq⟩ := hmade x hx
            exact ⟨i', n', Nat.lt_succ_of_lt hi, Nat.lt_succ_of_lt hn, heq⟩
      · rw [if_neg hneeds, if_neg fun h => hneeds (hiff.mpr h), hsplit,
          and_iff_right (not_or.mp hneeds).2]
        refine and_congr_right fun _ => ih ?_ ?_
        · intro x hx
          rw [List.mem_cons, List.mem_cons, htaken x hx, or_assoc]
        · intro x hx
          obtain ⟨i', n', hi, hn, heq⟩ := hmade x hx
          exact ⟨i', n', Nat.lt_succ_of_lt hi, hn, heq⟩

theorem assign_nodup_iff (m : Maker ν) (name : α → ν) {back : β → ν}
    (hback : ∀ x a, back (f x a) = x) (sound : β → Prop) {fine : ν → α → Prop}
    (hsound : ∀ x a, sound (f x a) ↔ fine x a) (as : List α) :
    (((assign m name f 0 0 [] as).map back).Nodup ∧ ∀ b ∈ assign m name f 0 0 [] as, sound b) ↔
      Free m name fine 0 0 [] [] as := by
  have hiff : (((assign m name f 0 0 [] as).map back).Nodup ∧
      (∀ b ∈ assign m name f 0 0 [] as, back b ∉ ([] : List ν)) ∧
        ∀ b ∈ assign m name f 0 0 [] as, sound b) ↔ Free m name fine 0 0 [] [] as :=
    assign_free_iff hback hsound (by simp) (by simp)
  rw [← hiff]
  simp

end Naming
