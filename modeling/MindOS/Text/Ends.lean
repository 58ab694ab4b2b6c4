import MindOS.Text.Basic

/-!
# The ends and the middle of a text

## The ends of a text

Trimming takes off both ends what belongs to a class of characters, and `afterLast` keeps
the end behind a character. What they give is characterised by how the text is put together.
-/

namespace Text

theorem rdropWhile_append {p : Char → Bool} (u : Text) {b : Text} (hb : ∀ c ∈ b, p c = true) :
    (u ++ b).rdropWhile p = u.rdropWhile p := by
  induction b using List.reverseRecOn with
  | nil => rw [List.append_nil]
  | append_singleton b c ih =>
      rw [← List.append_assoc, List.rdropWhile_concat_pos p _ c (hb c (by simp)),
        ih fun d hd => hb d (List.mem_append_left _ hd)]

theorem exists_append_rdropWhile (p : Char → Bool) (t : Text) :
    ∃ b, t = t.rdropWhile p ++ b ∧ ∀ c ∈ b, p c = true :=
  ⟨t.rtakeWhile p, List.rdropWhile_append_rtakeWhile.symm,
    fun _ hc => List.mem_rtakeWhile_imp hc⟩

/-- Trimming takes off what it trims from a text that has none of it. -/
theorem trimMatches_of_bounded {p : Char → Bool} {a u b : Text} (ha : ∀ c ∈ a, p c = true)
    (hu : ∀ c ∈ u, p c = false) (hb : ∀ c ∈ b, p c = true) : (a ++ u ++ b).trimMatches p = u := by
  have hfront : (a ++ (u ++ b)).dropWhile p = (u ++ b).dropWhile p :=
    List.dropWhile_append_of_pos ha
  rw [trimMatches, List.append_assoc, hfront]
  cases u with
  | nil =>
      rw [List.nil_append, List.dropWhile_eq_nil_iff.mpr hb]
      rfl
  | cons c u =>
      rw [List.cons_append, List.dropWhile_cons_of_neg (by simp [hu c (by simp)]),
        ← List.cons_append, rdropWhile_append _ hb, List.rdropWhile_eq_self_iff]
      intro hl
      simp [hu _ (List.getLast_mem hl)]

theorem exists_bounded_trimMatches (p : Char → Bool) (t : Text) :
    ∃ a b, t = a ++ t.trimMatches p ++ b ∧ (∀ c ∈ a, p c = true) ∧ ∀ c ∈ b, p c = true := by
  obtain ⟨b, hb, hbp⟩ := exists_append_rdropWhile p (t.dropWhile p)
  refine ⟨t.takeWhile p, b, ?_, fun c hc => List.mem_takeWhile_imp hc, hbp⟩
  rw [List.append_assoc, trimMatches, ← hb, List.takeWhile_append_dropWhile]

theorem afterLast_eq_iff {t u : Text} {c : Char} (hu : c ∉ u) :
    t.afterLast c = u ↔ t = u ∨ ∃ d, t = d ++ c :: u := by
  have hkeep : ∀ x ∈ u, (x != c) = true := by
    intro x hx
    simpa using ne_of_mem_of_not_mem hx hu
  have hself : u.rtakeWhile (· != c) = u := List.rtakeWhile_eq_self_iff.mpr hkeep
  constructor
  · rintro rfl
    have hcut := (List.rdropWhile_append_rtakeWhile (p := (· != c)) (l := t)).symm
    by_cases hall : t.rdropWhile (· != c) = []
    · left
      rwa [hall, List.nil_append] at hcut
    · right
      have hlast := List.rdropWhile_last_not (· != c) t hall
      refine ⟨(t.rdropWhile (· != c)).dropLast, ?_⟩
      have hend := List.dropLast_append_getLast hall
      rw [show (t.rdropWhile (· != c)).getLast hall = c by simpa using hlast] at hend
      rw [List.append_cons, hend]
      exact hcut
  · rintro (rfl | ⟨d, rfl⟩)
    · exact hself
    · have hrev : (d ++ c :: u).reverse = u.reverse ++ c :: d.reverse := by simp
      rw [afterLast, List.rtakeWhile, hrev, List.takeWhile_append_of_pos (by simpa using hkeep),
        List.takeWhile_cons_of_neg (by simp), List.append_nil, List.reverse_reverse]

end Text

/-!
## Where a text can stand in a concatenation

An occurrence in `x ++ y` lies in `x`, in `y`, or across the place where they
meet. A character that the text does not have cannot be crossed, which is how a
quoted part keeps what is inside apart from what is outside.
-/

namespace Text

variable {α : Type*}

/-- An occurrence in a concatenation lies on one side or across the middle. -/
theorem infix_append_cases {f x y : List α} (h : f <:+: x ++ y) :
    f <:+: x ∨ f <:+: y ∨
      ∃ s t, f = s ++ t ∧ s ≠ [] ∧ t ≠ [] ∧ s <:+ x ∧ t <+: y := by
  obtain ⟨a, b, hab⟩ := h
  rcases List.append_eq_append_iff.mp hab with ⟨r, hx, -⟩ | ⟨r, haf, hy⟩
  · exact .inl ⟨a, r, hx.symm⟩
  · rcases List.append_eq_append_iff.mp haf with ⟨s, hx, hf⟩ | ⟨s, -, hr⟩
    · by_cases hs : s = []
      · exact .inr (.inl ⟨[], b, by simp_all⟩)
      · by_cases hr : r = []
        · exact .inl ⟨a, [], by simp_all⟩
        · exact .inr (.inr ⟨s, r, hf, hs, hr, ⟨a, hx.symm⟩, ⟨b, hy.symm⟩⟩)
    · exact .inr (.inl ⟨s, b, by rw [hy, hr]⟩)

/-- No occurrence crosses a character that the text does not have. -/
theorem infix_append_cons_of_not_mem {f x y : List α} {c : α} (hc : c ∉ f)
    (h : f <:+: x ++ c :: y) : f <:+: x ∨ f <:+: y := by
  have hhead : ∀ t, t <+: c :: y → (∀ a ∈ t, a ∈ f) → t = [] := by
    intro t ht hmem
    cases t with
    | nil => rfl
    | cons d t => exact absurd (hmem d List.mem_cons_self) ((List.cons_prefix_cons.mp ht).1 ▸ hc)
  rcases infix_append_cases h with h | h | ⟨s, t, rfl, -, ht, -, hty⟩
  · exact .inl h
  · rcases List.infix_cons_iff.mp h with h | h
    · rw [hhead f h fun _ ha => ha]
      exact .inl (List.nil_infix)
    · exact .inr h
  · exact absurd (hhead t hty fun _ ha => List.mem_append_right s ha) ht

/-- A part that begins and ends with `c` keeps its inside apart from its outside
for every text that has no `c`. -/
theorem infix_append_bounded {f x q y : List α} {c : α} (hc : c ∉ f)
    (hhead : ∃ m, q = c :: m) (hlast : ∃ m, q = m ++ [c]) (h : f <:+: x ++ q ++ y) :
    f <:+: x ∨ f <:+: q ∨ f <:+: y := by
  obtain ⟨m, hm⟩ := hhead
  obtain ⟨m', hm'⟩ := hlast
  have hstart : x ++ q ++ y = x ++ c :: (m ++ y) := by rw [hm]; simp
  rcases infix_append_cons_of_not_mem hc (hstart ▸ h) with h | h
  · exact .inl h
  · have hend : f <:+: m' ++ c :: y := by
      refine h.trans ⟨[c], [], ?_⟩
      rw [List.append_nil, List.append_cons m', ← hm', hm]
      rfl
    rcases infix_append_cons_of_not_mem hc hend with h | h
    · exact .inr (.inl (h.trans ⟨[], [c], by rw [hm']; rfl⟩))
    · exact .inr (.inr h)

end Text
