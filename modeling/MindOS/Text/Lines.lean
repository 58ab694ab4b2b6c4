import MindOS.Text.Words

/-!
# The end of a file of lines

A file of lines is read from its end through a window of so many elements. One
element before the window says whether it begins on a line; if it does not, what
precedes the first line break is left out. What is read then is the last lines
that fit into the window as a whole: this is `newest`.
-/

namespace Lines

variable {α : Type*}

/-- The lines of a file, each with its end. -/
def unlines (nl : α) (ls : List (List α)) : List α := ls.flatMap fun l => l ++ [nl]

@[simp] theorem unlines_nil (nl : α) : unlines nl [] = [] := rfl

@[simp] theorem unlines_cons (nl : α) (l : List α) (ls : List (List α)) :
    unlines nl (l :: ls) = l ++ nl :: unlines nl ls := by
  simp [unlines]

theorem unlines_append (nl : α) (ls ms : List (List α)) :
    unlines nl (ls ++ ms) = unlines nl ls ++ unlines nl ms := List.flatMap_append

theorem splitOn_unlines [BEq α] [LawfulBEq α] {nl : α} {ls : List (List α)}
    (hls : ∀ l ∈ ls, nl ∉ l) : (unlines nl ls).splitOn nl = ls ++ [[]] := by
  induction ls with
  | nil => rfl
  | cons l ls ih =>
      rw [unlines_cons, List.splitOn_append_cons_self_of_not_mem (hls l List.mem_cons_self),
        ih fun m hm => hls m (List.mem_cons_of_mem l hm), List.cons_append]

/-! ### The lines that fit -/

/-- The last lines that fit into `w` elements with their ends. -/
def newest (nl : α) (w : Nat) : List (List α) → List (List α)
  | [] => []
  | l :: ls => if (unlines nl (l :: ls)).length ≤ w then l :: ls else newest nl w ls

theorem newest_of_fits {nl : α} {w : Nat} {ls : List (List α)}
    (h : (unlines nl ls).length ≤ w) : newest nl w ls = ls := by
  cases ls with
  | nil => rfl
  | cons l ls => exact if_pos h

theorem newest_suffix (nl : α) (w : Nat) (ls : List (List α)) : newest nl w ls <:+ ls := by
  induction ls with
  | nil => exact List.suffix_rfl
  | cons l ls ih =>
      unfold newest
      split
      · exact List.suffix_rfl
      · exact ih.trans (List.suffix_cons l ls)

theorem length_unlines_newest (nl : α) (w : Nat) (ls : List (List α)) :
    (unlines nl (newest nl w ls)).length ≤ w := by
  induction ls with
  | nil => exact Nat.zero_le w
  | cons l ls ih =>
      unfold newest
      split
      case isTrue h => exact h
      case isFalse => exact ih

theorem length_unlines_le {nl : α} {ls ms : List (List α)} (h : ls <:+ ms) :
    (unlines nl ls).length ≤ (unlines nl ms).length := by
  obtain ⟨front, rfl⟩ := h
  rw [unlines_append, List.length_append]
  exact Nat.le_add_left _ _

theorem suffix_newest {nl : α} {w : Nat} {back ls : List (List α)} (h : back <:+ ls)
    (hfits : (unlines nl back).length ≤ w) : back <:+ newest nl w ls := by
  induction ls with
  | nil => exact h
  | cons l ls ih =>
      unfold newest
      split
      · exact h
      case isFalse hlong =>
        obtain rfl | h := List.suffix_cons_iff.mp h
        · exact absurd hfits hlong
        · exact ih h

theorem newest_mono {nl : α} {w w' : Nat} (hw : w ≤ w') (ls : List (List α)) :
    newest nl w ls <:+ newest nl w' ls :=
  suffix_newest (newest_suffix nl w ls) ((length_unlines_newest nl w ls).trans hw)

theorem rtake_of_suffix {β : Type*} {back l : List β} (h : back <:+ l) {n : Nat}
    (hn : n ≤ back.length) : back.rtake n = l.rtake n := by
  obtain ⟨front, rfl⟩ := h
  rw [List.rtake, List.rtake, List.length_append, Nat.add_sub_assoc hn,
    List.drop_length_add_append]

theorem rtake_append {β : Type*} (l m : List β) (n : Nat) :
    (l ++ m).rtake n = l.rtake (n - m.length) ++ m.rtake n := by
  have hm : l.length + m.length - n - l.length = m.length - n := by omega
  have hl : l.drop (l.length + m.length - n) = l.drop (l.length - (n - m.length)) := by
    by_cases hn : n ≤ m.length
    · rw [List.drop_eq_nil_of_le (by omega), Nat.sub_eq_zero_of_le hn, Nat.sub_zero,
        List.drop_length]
    · congr 1
      omega
  rw [List.rtake, List.rtake, List.rtake, List.length_append, List.drop_append, hl, hm]

theorem rtake_suffix {β : Type*} (l : List β) (n : Nat) : l.rtake n <:+ l :=
  List.drop_suffix _ l

theorem length_rtake {β : Type*} (l : List β) (n : Nat) : (l.rtake n).length = min n l.length := by
  rw [List.rtake, List.length_drop]
  omega

theorem rtake_newest_iff {nl : α} {w n : Nat} {ls : List (List α)} :
    (newest nl w ls).rtake n = ls.rtake n ↔ (unlines nl (ls.rtake n)).length ≤ w := by
  constructor
  · intro h
    rw [← h]
    exact (length_unlines_le (rtake_suffix _ n)).trans (length_unlines_newest nl w ls)
  · intro h
    have hback := suffix_newest (rtake_suffix ls n) h
    have hlength := hback.length_le
    rw [length_rtake] at hlength
    by_cases hn : n ≤ ls.length
    · exact rtake_of_suffix (newest_suffix nl w ls) (by omega)
    · -- All lines are asked for, so all of them fit.
      have hall : ls.rtake n = ls := by
        rw [List.rtake, Nat.sub_eq_zero_of_le (by omega), List.drop_zero]
      rw [hall] at h
      rw [newest_of_fits h]

/-! ### The window -/

/-- What stands behind the first line break; nothing if there is none. -/
def behindFirst [BEq α] (nl : α) (b : List α) : List α := (b.dropWhile (· != nl)).tail

/-- What a window of `w` elements at the end of a file shows of whole lines. -/
def inWindow [BEq α] (nl : α) (file : List α) (w : Nat) : List α :=
  let start := file.length - w
  let buf := file.drop (start - 1)
  if 0 < start then behindFirst nl buf else buf

section Window

variable [BEq α] [LawfulBEq α] {nl : α}

theorem behindFirst_append {l : List α} (hl : nl ∉ l) (rest : List α) :
    behindFirst nl (l ++ nl :: rest) = rest := by
  rw [behindFirst, List.dropWhile_append_of_pos]
  · simp
  · intro a ha
    simp only [bne_iff_ne, ne_eq]
    rintro rfl
    exact hl ha

theorem inWindow_cons {l : List α} (hl : nl ∉ l) (rest : List α) {w : Nat}
    (hw : w < (l ++ nl :: rest).length) : inWindow nl (l ++ nl :: rest) w = inWindow nl rest w := by
  simp only [List.length_append, List.length_cons] at hw
  simp only [inWindow, List.length_append, List.length_cons]
  rw [if_pos (by omega)]
  by_cases hrest : rest.length ≤ w
  · -- The window begins inside this line.
    have hdrop : List.drop (l.length + (rest.length + 1) - w - 1) (l ++ nl :: rest) =
        l.drop (l.length + (rest.length + 1) - w - 1) ++ nl :: rest :=
      List.drop_append_of_le_length (by omega)
    have hnone : nl ∉ l.drop (l.length + (rest.length + 1) - w - 1) :=
      fun h => hl (List.mem_of_mem_drop h)
    rw [hdrop, behindFirst_append hnone, if_neg (by omega), Nat.sub_eq_zero_of_le hrest,
      Nat.zero_sub, List.drop_zero]
  · -- It begins behind this line.
    have hstart : l.length + (rest.length + 1) - w - 1 =
        (l.length + 1) + (rest.length - w - 1) := by omega
    have hfile : l ++ nl :: rest = (l ++ [nl]) ++ rest := by simp
    have hskip : List.drop (l.length + 1 + (rest.length - w - 1)) ((l ++ [nl]) ++ rest) =
        rest.drop (rest.length - w - 1) := by
      rw [← List.drop_drop, List.drop_left' (by simp)]
    rw [if_pos (by omega), hstart, hfile, hskip]

theorem inWindow_unlines {ls : List (List α)} (hls : ∀ l ∈ ls, nl ∉ l) (w : Nat) :
    inWindow nl (unlines nl ls) w = unlines nl (newest nl w ls) := by
  induction ls with
  | nil => simp [inWindow, newest]
  | cons l ls ih =>
      unfold newest
      split
      case isTrue hfits =>
        rw [inWindow, Nat.sub_eq_zero_of_le hfits]
        simp
      case isFalse hlong =>
        rw [unlines_cons] at hlong ⊢
        rw [inWindow_cons (hls l List.mem_cons_self) _ (by omega),
          ih fun m hm => hls m (List.mem_cons_of_mem l hm)]

end Window

/-! ### What has arrived -/

section Arrived

theorem intercalate_concat (nl : α) (ls : List (List α)) (l : List α) :
    [nl].intercalate (ls ++ [l]) = unlines nl ls ++ l := by
  induction ls with
  | nil => simp
  | cons m ls ih =>
      rw [List.cons_append, List.intercalate_cons_of_ne_nil (by simp), ih, unlines_cons]
      simp

variable [BEq α]

/-- The lines that have ended, without their ends. -/
def completed (nl : α) (xs : List α) : List (List α) := (xs.splitOn nl).dropLast

/-- What there is of the line that has not ended. -/
def unfinished (nl : α) (xs : List α) : List α :=
  (xs.splitOn nl).getLast (List.splitOn_ne_nil nl xs)

theorem splitOn_eq (nl : α) (xs : List α) :
    xs.splitOn nl = completed nl xs ++ [unfinished nl xs] :=
  (List.dropLast_concat_getLast (List.splitOn_ne_nil nl xs)).symm

variable [LawfulBEq α]

theorem splitOn_unlines_append {nl : α} {ls : List (List α)} (hls : ∀ l ∈ ls, nl ∉ l)
    (xs : List α) : (unlines nl ls ++ xs).splitOn nl = ls ++ xs.splitOn nl := by
  induction ls with
  | nil => rfl
  | cons l ls ih =>
      rw [unlines_cons, List.append_assoc, List.cons_append,
        List.splitOn_append_cons_self_of_not_mem (hls l List.mem_cons_self),
        ih fun m hm => hls m (List.mem_cons_of_mem l hm), List.cons_append]

theorem not_mem_of_mem_splitOn {nl : α} {xs l : List α} (h : l ∈ xs.splitOn nl) : nl ∉ l := by
  intro hnl
  simpa using Text.not_mem_piece h nl hnl

theorem unlines_completed (nl : α) (xs : List α) :
    unlines nl (completed nl xs) ++ unfinished nl xs = xs := by
  rw [← intercalate_concat, ← splitOn_eq, List.intercalate_splitOn]

theorem splitOn_append (nl : α) (xs ys : List α) :
    (xs ++ ys).splitOn nl = completed nl xs ++ (unfinished nl xs ++ ys).splitOn nl := by
  have hmem : ∀ l ∈ completed nl xs, nl ∉ l := fun l hl =>
    not_mem_of_mem_splitOn (List.dropLast_subset _ hl)
  rw [← splitOn_unlines_append hmem, ← List.append_assoc, unlines_completed]

theorem completed_append (nl : α) (xs ys : List α) :
    completed nl (xs ++ ys) = completed nl xs ++ completed nl (unfinished nl xs ++ ys) ∧
      unfinished nl (xs ++ ys) = unfinished nl (unfinished nl xs ++ ys) := by
  have hsplit := splitOn_append nl xs ys
  rw [splitOn_eq, splitOn_eq nl (unfinished nl xs ++ ys), ← List.append_assoc] at hsplit
  obtain ⟨hcompleted, hunfinished⟩ := List.append_inj' hsplit rfl
  exact ⟨hcompleted, List.singleton_inj.mp hunfinished⟩

end Arrived

end Lines
