import Mathlib.Data.List.Nodup

/-!
# The first few of a list

A walk over a list that changes the first `n` elements of a kind and says which these were.
Where the elements have names that the change keeps, the result is the list with these
elements changed and the others as they were.
-/

namespace Firsts

variable {α β : Type*}

/-- Changes the first `n` elements that satisfy `p`. The second list is these elements, as they
were. -/
def change (p : α → Bool) (f : α → α) : Nat → List α → List α × List α
  | _, [] => ([], [])
  | 0, a :: l => (a :: l, [])
  | n + 1, a :: l =>
      if p a then (f a :: (change p f n l).1, a :: (change p f n l).2)
      else (a :: (change p f (n + 1) l).1, (change p f (n + 1) l).2)

variable {p : α → Bool} {f : α → α} {g : α → β} {a : α} {l : List α} {n : Nat}

@[simp] theorem change_zero : change p f 0 l = (l, []) := by
  cases l <;> rfl

theorem change_of_pos (h : p a = true) :
    change p f (n + 1) (a :: l) = (f a :: (change p f n l).1, a :: (change p f n l).2) :=
  if_pos h

theorem change_of_neg (h : ¬p a = true) :
    change p f (n + 1) (a :: l) = (a :: (change p f (n + 1) l).1, (change p f (n + 1) l).2) :=
  if_neg h

theorem change_snd : (change p f n l).2 = (l.filter p).take n := by
  induction l generalizing n with
  | nil => cases n <;> rfl
  | cons a l ih =>
      cases n with
      | zero => rw [change_zero, List.take_zero]
      | succ n =>
          by_cases h : p a = true
          · rw [change_of_pos h, List.filter_cons_of_pos h, List.take_succ_cons, ih]
          · rw [change_of_neg h, List.filter_cons_of_neg h, ih]

theorem length_change_le : (change p f n l).2.length ≤ n := by
  rw [change_snd]
  exact List.length_take_le _ _

theorem mem_of_mem_change (h : a ∈ (change p f n l).2) : a ∈ l ∧ p a = true := by
  rw [change_snd] at h
  exact List.mem_filter.mp (List.mem_of_mem_take h)

/-- All that satisfy `p` are changed, unless `n` of them were. -/
theorem mem_change_or (h : a ∈ l) (hp : p a = true) :
    a ∈ (change p f n l).2 ∨ (change p f n l).2.length = n := by
  rw [change_snd]
  rcases Nat.le_total (l.filter p).length n with hle | hle
  · rw [List.take_of_length_le hle]
    exact .inl (List.mem_filter.mpr ⟨h, hp⟩)
  · exact .inr (List.length_take_of_le hle)

theorem map_change (hg : ∀ a, g (f a) = g a) : (change p f n l).1.map g = l.map g := by
  induction l generalizing n with
  | nil => cases n <;> rfl
  | cons a l ih =>
      cases n with
      | zero => rw [change_zero]
      | succ n =>
          by_cases h : p a = true
          · rw [change_of_pos h, List.map_cons, List.map_cons, ih, hg]
          · rw [change_of_neg h, List.map_cons, List.map_cons, ih]

theorem nodup_change (hl : (l.map g).Nodup) : ((change p f n l).2.map g).Nodup := by
  rw [change_snd]
  exact hl.sublist (((List.take_sublist _ _).trans List.filter_sublist).map g)

/-- With different names, an element of the result is one that was not changed, or the change
of one that was. -/
theorem mem_change (hl : (l.map g).Nodup) :
    a ∈ (change p f n l).1 ↔ a ∈ l ∧ g a ∉ (change p f n l).2.map g ∨
      ∃ b ∈ (change p f n l).2, a = f b := by
  induction l generalizing n with
  | nil => cases n <;> simp [change]
  | cons x l ih =>
      rw [List.map_cons, List.nodup_cons] at hl
      cases n with
      | zero => simp
      | succ n =>
          have hrest : ∀ b ∈ l, g b ≠ g x := fun b hb heq => hl.1 (heq ▸ List.mem_map_of_mem hb)
          have hnot : ∀ k, g x ∉ (change p f k l).2.map g := fun k hk => by
            obtain ⟨b, hb, heq⟩ := List.mem_map.mp hk
            exact hrest b (mem_of_mem_change hb).1 heq
          by_cases h : p x = true
          · rw [change_of_pos h, List.mem_cons, ih hl.2]
            constructor
            · rintro (rfl | ⟨hin, hout⟩ | ⟨b, hb, rfl⟩)
              · exact .inr ⟨x, List.mem_cons_self, rfl⟩
              · refine .inl ⟨List.mem_cons_of_mem _ hin, fun hcons => ?_⟩
                rcases List.mem_cons.mp hcons with heq | hlater
                · exact hrest a hin heq
                · exact hout hlater
              · exact .inr ⟨b, List.mem_cons_of_mem _ hb, rfl⟩
            · rintro (⟨hin, hout⟩ | ⟨b, hb, rfl⟩)
              · rw [List.map_cons, List.mem_cons, not_or] at hout
                rcases List.mem_cons.mp hin with rfl | hin
                · exact absurd rfl hout.1
                · exact .inr (.inl ⟨hin, hout.2⟩)
              · rcases List.mem_cons.mp hb with rfl | hb
                · exact .inl rfl
                · exact .inr (.inr ⟨b, hb, rfl⟩)
          · rw [change_of_neg h, List.mem_cons, ih hl.2]
            constructor
            · rintro (rfl | ⟨hin, hout⟩ | hb)
              · exact .inl ⟨List.mem_cons_self, hnot _⟩
              · exact .inl ⟨List.mem_cons_of_mem _ hin, hout⟩
              · exact .inr hb
            · rintro (⟨hin, hout⟩ | hb)
              · rcases List.mem_cons.mp hin with rfl | hin
                · exact .inl rfl
                · exact .inr (.inl ⟨hin, hout⟩)
              · exact .inr (.inr hb)

end Firsts
