import Mathlib.Data.List.Nodup
import Mathlib.Data.List.Count
import Mathlib.Logic.Function.Basic

/-!
# One place for every key

A family of lists, one for each place, keeps keys apart if it holds what a function from
keys to places says, nothing twice. The function is what the lists are for: a key is in
one place because a function has one value. Each rule below says which function a family
holds after one of its lists has changed.
-/

namespace Places

variable {κ π : Type*}

/-- The lists hold what the places say, nothing twice. -/
structure Holds (c : π → List κ) (p : κ → Option π) : Prop where
  mem : ∀ a k, k ∈ c a ↔ p k = some a
  nodup : ∀ a, (c a).Nodup

/-- The keys of `ks` that are in one place go to another. -/
def move [DecidableEq κ] [DecidableEq π] (p : κ → Option π) (a b : π) (ks : List κ) :
    κ → Option π := fun k => if k ∈ ks ∧ p k = some a then some b else p k

/-- What is in a place and not selected is forgotten. -/
def retain [DecidableEq π] (p : κ → Option π) (a : π) (keep : κ → Bool) : κ → Option π :=
  fun k => if p k = some a ∧ keep k = false then none else p k

namespace Holds

variable {c c' : π → List κ} {p : κ → Option π}

theorem congr (h : Holds c p) (hmem : ∀ a k, k ∈ c' a ↔ k ∈ c a)
    (hnodup : ∀ a, (c' a).Nodup) : Holds c' p :=
  ⟨fun a k => (hmem a k).trans (h.mem a k), hnodup⟩

/-- Lists of different places have nothing in common. -/
theorem disjoint (h : Holds c p) {a b : π} (hab : a ≠ b) {k : κ} (hk : k ∈ c a) : k ∉ c b := by
  intro hb
  have hsome := ((h.mem a k).mp hk).symm.trans ((h.mem b k).mp hb)
  exact hab (Option.some.inj hsome)

theorem count_flatMap [DecidableEq κ] (h : Holds c p) {places : List π} (hplaces : places.Nodup)
    {k : κ} {a : π} (hk : p k = some a) (ha : a ∈ places) : (places.flatMap c).count k = 1 := by
  induction places with
  | nil => cases ha
  | cons b places ih =>
      obtain ⟨hb, hrest⟩ := List.nodup_cons.mp hplaces
      rw [List.flatMap_cons, List.count_append]
      rcases List.mem_cons.mp ha with rfl | ha
      · have hothers : k ∉ places.flatMap c := by
          intro hmem
          obtain ⟨d, hd, hkd⟩ := List.mem_flatMap.mp hmem
          exact h.disjoint (ne_of_mem_of_not_mem hd hb) hkd ((h.mem a k).mpr hk)
        rw [List.count_eq_one_of_mem (h.nodup a) ((h.mem a k).mpr hk),
          List.count_eq_zero_of_not_mem hothers]
      · have hkb : k ∉ c b := h.disjoint (ne_of_mem_of_not_mem ha hb) ((h.mem a k).mpr hk)
        rw [List.count_eq_zero_of_not_mem hkb, ih hrest ha]

theorem retain [DecidableEq π] (h : Holds c p) {a : π} {keep : κ → Bool}
    (hsame : ∀ b, b ≠ a → c' b = c b) (ha : c' a = (c a).filter keep) :
    Holds c' (Places.retain p a keep) := by
  constructor
  · intro b x
    by_cases hb : b = a
    · subst hb
      rw [ha, List.mem_filter, h.mem, Places.retain]
      by_cases hx : p x = some b <;> cases hkeep : keep x <;> simp [hx]
    · rw [hsame b hb, h.mem, Places.retain]
      by_cases hx : p x = some a
      · simp [hx, Ne.symm hb]
      · simp [hx]
  · intro b
    by_cases hb : b = a
    · subst hb
      exact ha ▸ (h.nodup b).filter keep
    · exact hsame b hb ▸ h.nodup b

variable [DecidableEq κ]

theorem insert (h : Holds c p) {a : π} {k : κ} (hk : p k = none ∨ p k = some a)
    (hsame : ∀ b, b ≠ a → c' b = c b) (hmem : ∀ x, x ∈ c' a ↔ x ∈ c a ∨ x = k)
    (hnodup : (c' a).Nodup) : Holds c' (Function.update p k (some a)) := by
  constructor
  · intro b x
    by_cases hb : b = a
    · subst hb
      rw [hmem, h.mem]
      by_cases hx : x = k
      · simp [hx]
      · simp [hx]
    · rw [hsame b hb, h.mem]
      by_cases hx : x = k
      · rcases hk with hk | hk
        · simp [hx, hk, Ne.symm hb]
        · simp [hx, hk, Ne.symm hb]
      · simp [hx]
  · intro b
    by_cases hb : b = a
    · exact hb ▸ hnodup
    · exact hsame b hb ▸ h.nodup b

theorem erase (h : Holds c p) {a : π} {k : κ} (hk : p k = some a)
    (hsame : ∀ b, b ≠ a → c' b = c b) (ha : c' a = (c a).erase k) :
    Holds c' (Function.update p k none) := by
  constructor
  · intro b x
    by_cases hb : b = a
    · subst hb
      rw [ha, (h.nodup b).mem_erase_iff, h.mem]
      by_cases hx : x = k
      · simp [hx]
      · simp [hx]
    · rw [hsame b hb, h.mem]
      by_cases hx : x = k
      · simp [hx, hk, Ne.symm hb]
      · simp [hx]
  · intro b
    by_cases hb : b = a
    · subst hb
      exact ha ▸ (h.nodup b).erase k
    · exact hsame b hb ▸ h.nodup b

end Holds

section Move

variable [DecidableEq κ] [DecidableEq π] {p : κ → Option π} {a b : π}

@[simp] theorem move_nil : move p a b [] = p := by
  funext k
  simp [move]

theorem move_cons (k : κ) (ks : List κ) : move (move p a b [k]) a b ks = move p a b (k :: ks) := by
  funext x
  by_cases hx : x = k
  · by_cases hp : p x = some a
    · simp [move, ← hx, hp]
    · simp [move, hp]
  · simp [move, hx]

theorem move_of_ne {k : κ} (hk : p k ≠ some a) : move p a b [k] = p := by
  funext x
  by_cases hx : x = k
  · simp [move, hx, hk]
  · simp [move, hx]

theorem move_eq_update {k : κ} (hk : p k = some a) :
    move p a b [k] = Function.update p k (some b) := by
  funext x
  by_cases hx : x = k
  · simp [move, hx, hk]
  · simp [move, hx]

end Move

end Places
