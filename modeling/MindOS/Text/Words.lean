import MindOS.Text.Basic

/-!
# Words of a text

## Splitting a text by a class of characters

`List.splitOnP` is Rust's `str::split` with a character predicate. Splitting a
concatenation splits both halves, and where no separator stands between them
their adjacent pieces become one: this is `glue`. Everything said here about
the pieces of a sequenced command follows from `splitOnP_append`.
-/

namespace Text

variable {α : Type*}

/-- Concatenate two lists of pieces, with the last piece of the first and the
first piece of the second read as one. -/
def glue (xs ys : List (List α)) : List (List α) :=
  xs.dropLast ++ (xs.getLast?.getD [] ++ ys.headD []) :: ys.tail

@[simp] theorem glue_ne_nil (xs ys : List (List α)) : glue xs ys ≠ [] := by
  simp [glue]

theorem glue_singleton_left (x : List α) (ys : List (List α)) :
    glue [x] ys = (x ++ ys.headD []) :: ys.tail := rfl

theorem glue_concat (xs : List (List α)) (x : List α) (ys : List (List α)) :
    glue (xs ++ [x]) ys = xs ++ (x ++ ys.headD []) :: ys.tail := by
  simp [glue]

theorem glue_nil_left {ys : List (List α)} (h : ys ≠ []) : glue [[]] ys = ys := by
  obtain ⟨y, ys, rfl⟩ := List.exists_cons_of_ne_nil h
  rfl

theorem glue_nil_right {xs : List (List α)} (h : xs ≠ []) : glue xs [[]] = xs := by
  simpa [glue, List.getLast?_eq_some_getLast h] using List.dropLast_append_getLast h

theorem glue_cons {x : List α} {xs : List (List α)} (h : xs ≠ []) (ys : List (List α)) :
    glue (x :: xs) ys = x :: glue xs ys := by
  obtain ⟨x', xs, rfl⟩ := List.exists_cons_of_ne_nil h
  simp [glue]

theorem modifyHead_glue {xs : List (List α)} (h : xs ≠ []) (ys : List (List α)) (a : α) :
    glue (xs.modifyHead (List.cons a)) ys = (glue xs ys).modifyHead (List.cons a) := by
  obtain ⟨x, xs, rfl⟩ := List.exists_cons_of_ne_nil h
  cases xs <;> simp [glue]

/-- The pieces of a concatenation are the glued pieces of its halves. -/
theorem splitOnP_append (p : α → Bool) (xs ys : List α) :
    (xs ++ ys).splitOnP p = glue (xs.splitOnP p) (ys.splitOnP p) := by
  induction xs with
  | nil => rw [List.nil_append, List.splitOnP_nil, glue_nil_left (List.splitOnP_ne_nil p ys)]
  | cons x xs ih =>
      rw [List.cons_append, List.splitOnP_cons_eq_if_modifyHead,
        List.splitOnP_cons_eq_if_modifyHead x xs, ih]
      split
      · rw [glue_cons (List.splitOnP_ne_nil p xs)]
      · rw [modifyHead_glue (List.splitOnP_ne_nil p xs)]

theorem not_mem_piece {p : α → Bool} {xs piece : List α} (h : piece ∈ xs.splitOnP p) :
    ∀ a ∈ piece, p a = false := by
  induction xs generalizing piece with
  | nil => simp_all
  | cons x xs ih =>
      rw [List.splitOnP_cons_eq_if_modifyHead] at h
      obtain ⟨y, ys, hys⟩ := List.exists_cons_of_ne_nil (List.splitOnP_ne_nil p xs)
      split at h
      case isTrue hx =>
        rcases List.mem_cons.mp h with rfl | h
        · simp
        · exact ih h
      case isFalse hx =>
        rw [hys, List.modifyHead_cons] at h
        rcases List.mem_cons.mp h with rfl | h
        · intro a ha
          rcases List.mem_cons.mp ha with rfl | ha
          · simpa using hx
          · exact ih (hys ▸ List.mem_cons_self) a ha
        · exact ih (hys ▸ List.mem_cons_of_mem y h)

theorem exists_mem_piece {p : α → Bool} {xs : List α} {a : α} (ha : a ∈ xs)
    (hp : p a = false) : ∃ piece ∈ xs.splitOnP p, a ∈ piece := by
  obtain ⟨ys, zs, rfl⟩ := List.append_of_mem ha
  have hzs : (a :: zs).splitOnP p = (zs.splitOnP p).modifyHead (List.cons a) := by
    rw [List.splitOnP_cons_eq_if_modifyHead, hp, if_neg (by simp)]
  obtain ⟨z, rest, hz⟩ := List.exists_cons_of_ne_nil (List.splitOnP_ne_nil p zs)
  rw [splitOnP_append, hzs, hz]
  exact ⟨_, List.mem_append_right _ List.mem_cons_self, by simp⟩

end Text

/-!
## Words and squeezed whitespace

`squeeze` is what `split_whitespace().collect().join(" ")` computes. A stage of
a command is read through its words alone, so the lemmas here say how words
behave under concatenation, that squeezing a text changes the words of no
stage, and that a squeezed part stays visible in a squeezed whole.
-/

namespace Text

/-- A word has a character and no whitespace. -/
def IsWord (w : Text) : Prop := w ≠ [] ∧ ∀ c ∈ w, isWhitespace c = false

theorem isWord_of_mem_words {t w : Text} (h : w ∈ words t) : IsWord w := by
  obtain ⟨hmem, hne⟩ := List.mem_filter.mp h
  exact ⟨by simpa using hne, not_mem_piece hmem⟩

@[simp] theorem words_nil : words [] = [] := by simp [words]

theorem words_of_isWord {w : Text} (h : IsWord w) : words w = [w] := by
  rw [words, List.splitOnP_eq_singleton h.2]
  simp [h.1]

/-- Whitespace separates: the words of the two sides are read apart. -/
theorem words_append_cons (t u : Text) {c : Char} (hc : isWhitespace c = true) :
    words (t ++ c :: u) = words t ++ words u := by
  rw [words, List.splitOnP_append_cons t u hc, List.filter_append]
  rfl

theorem words_cons (t : Text) {c : Char} (hc : isWhitespace c = true) :
    words (c :: t) = words t := by
  simpa using words_append_cons [] t hc

theorem words_concat (t : Text) {c : Char} (hc : isWhitespace c = true) :
    words (t ++ [c]) = words t := by
  simpa using words_append_cons t [] hc

theorem words_trim (t : Text) : words (trim t) = words t := by
  have hleft : ∀ t : Text, words (t.dropWhile isWhitespace) = words t := by
    intro t
    induction t with
    | nil => rfl
    | cons c t ih =>
        cases hc : isWhitespace c with
        | true => rw [List.dropWhile_cons_of_pos hc, ih, words_cons t hc]
        | false => rw [List.dropWhile_cons_of_neg (by simp [hc])]
  have hright : ∀ t : Text, words (t.rdropWhile isWhitespace) = words t := by
    intro t
    induction t using List.reverseRecOn with
    | nil => rfl
    | append_singleton t c ih =>
        cases hc : isWhitespace c with
        | true => rw [List.rdropWhile_concat_pos _ _ _ hc, ih, words_concat t hc]
        | false => rw [List.rdropWhile_concat_neg _ _ _ (by simp [hc])]
  rw [trim, hright, hleft]

theorem isWhitespace_blank : isWhitespace ' ' = true := by decide

theorem words_append_blank (t u : Text) : words (t ++ ' ' :: u) = words t ++ words u :=
  words_append_cons t u isWhitespace_blank

@[simp] theorem unwords_nil : unwords [] = [] := rfl

@[simp] theorem unwords_singleton (w : Text) : unwords [w] = w := rfl

theorem unwords_cons {w : Text} {ws : List Text} (h : ws ≠ []) :
    unwords (w :: ws) = w ++ ' ' :: unwords ws := by
  rw [unwords, join_cons h, List.append_assoc]
  rfl

theorem unwords_append {vs ws : List Text} (hv : vs ≠ []) (hw : ws ≠ []) :
    unwords (vs ++ ws) = unwords vs ++ ' ' :: unwords ws := by
  rw [unwords, join_append hv hw, List.append_assoc]
  rfl

theorem words_unwords {ws : List Text} (h : ∀ w ∈ ws, IsWord w) : words (unwords ws) = ws := by
  induction ws with
  | nil => simp
  | cons w ws ih =>
      have hw := words_of_isWord (h w List.mem_cons_self)
      have hws := ih fun v hv => h v (List.mem_cons_of_mem w hv)
      by_cases hne : ws = []
      · subst hne
        simpa using hw
      · rw [unwords_cons hne, words_append_blank, hw, hws]
        rfl

@[simp] theorem words_squeeze (t : Text) : words (squeeze t) = words t :=
  words_unwords fun _ h => isWord_of_mem_words h

/-! ### A part stays visible in the whole -/

theorem unwords_prefix_append (vs ws : List Text) : unwords vs <+: unwords (vs ++ ws) := by
  by_cases hv : vs = []
  · subst hv
    exact List.nil_prefix
  · by_cases hw : ws = []
    · subst hw
      rw [List.append_nil]
    · rw [unwords_append hv hw]
      exact List.prefix_append _ _

theorem unwords_suffix_append (vs ws : List Text) : unwords ws <:+ unwords (vs ++ ws) := by
  by_cases hv : vs = []
  · subst hv
    exact List.suffix_rfl
  · by_cases hw : ws = []
    · subst hw
      exact List.nil_suffix
    · rw [unwords_append hv hw]
      exact (List.suffix_cons ' ' _).trans (List.suffix_append _ _)

private theorem unwords_prefix_glued (vs : List Text) (l h : Text) (ws : List Text) :
    unwords (vs ++ [l]) <+: unwords (vs ++ (l ++ h) :: ws) := by
  have head : l <+: unwords ((l ++ h) :: ws) :=
    (List.prefix_append l h).trans (by simpa using unwords_prefix_append [l ++ h] ws)
  by_cases hv : vs = []
  · subst hv
    simpa using head
  · rw [unwords_append hv (List.cons_ne_nil _ _), unwords_append hv (List.cons_ne_nil _ _)]
    exact List.prefix_append_right_inj _ |>.mpr ((List.prefix_cons_inj ' ').mpr head)

private theorem unwords_suffix_glued (vs : List Text) (l h : Text) (ws : List Text) :
    unwords (h :: ws) <:+ unwords (vs ++ (l ++ h) :: ws) := by
  refine List.IsSuffix.trans ?_ (unwords_suffix_append vs _)
  by_cases hw : ws = []
  · subst hw
    exact List.suffix_append l h
  · rw [unwords_cons hw, unwords_cons hw, List.append_assoc]
    exact List.suffix_append l _

private theorem words_split (t : Text) :
    words t = (t.splitOnP isWhitespace).dropLast.filter (fun w => !w.isEmpty) ++
      [(t.splitOnP isWhitespace).getLast (List.splitOnP_ne_nil _ _)].filter
        (fun w => !w.isEmpty) := by
  rw [← List.filter_append, List.dropLast_append_getLast]
  rfl

private theorem words_append_glued {t u : Text}
    (hne : (t.splitOnP isWhitespace).getLast (List.splitOnP_ne_nil _ _) ++
      (u.splitOnP isWhitespace).headD [] ≠ []) :
    words (t ++ u) = (t.splitOnP isWhitespace).dropLast.filter (fun w => !w.isEmpty) ++
      ((t.splitOnP isWhitespace).getLast (List.splitOnP_ne_nil _ _) ++
        (u.splitOnP isWhitespace).headD []) ::
      (u.splitOnP isWhitespace).tail.filter (fun w => !w.isEmpty) := by
  rw [words, splitOnP_append, glue, List.getLast?_eq_some_getLast (List.splitOnP_ne_nil _ _),
    Option.getD_some, List.filter_append, List.filter_cons_of_pos]
  simpa [List.isEmpty_iff] using hne

/-- A squeezed text begins every squeezed text that continues it with something
else than whitespace. -/
theorem squeeze_isPrefix (t u : Text) {c : Char} (hc : isWhitespace c = false) :
    squeeze t <+: squeeze (t ++ c :: u) := by
  have hhead : ((c :: u).splitOnP isWhitespace).headD [] ≠ [] := by
    obtain ⟨y, ys, hys⟩ := List.exists_cons_of_ne_nil (List.splitOnP_ne_nil isWhitespace u)
    simp [List.splitOnP_cons_eq_if_modifyHead, hc, hys]
  rw [squeeze, squeeze, words_append_glued (by simp_all), words_split t]
  by_cases hl : (t.splitOnP isWhitespace).getLast (List.splitOnP_ne_nil _ _) = []
  · rw [hl, List.filter_singleton]
    simpa using unwords_prefix_append _ _
  · rw [List.filter_cons_of_pos (by simpa [List.isEmpty_iff] using hl)]
    exact unwords_prefix_glued _ _ _ _

/-- A squeezed text ends every squeezed text that precedes it by something else
than whitespace. -/
theorem squeeze_isSuffix (t u : Text) {c : Char} (hc : isWhitespace c = false) :
    squeeze u <:+ squeeze (t ++ c :: u) := by
  have hlast : ((t ++ [c]).splitOnP isWhitespace).getLast (List.splitOnP_ne_nil _ _) ≠ [] := by
    have hsplit : [c].splitOnP isWhitespace = [[c]] :=
      List.splitOnP_eq_singleton (by simpa using hc)
    simp [splitOnP_append, hsplit, glue]
  rw [squeeze, squeeze, List.append_cons, words_append_glued (by simp_all), words]
  obtain ⟨y, ys, hys⟩ := List.exists_cons_of_ne_nil (List.splitOnP_ne_nil isWhitespace u)
  rw [hys, List.headD_cons, List.tail_cons]
  by_cases hy : y = []
  · subst hy
    simpa using (unwords_suffix_append [_] _).trans (unwords_suffix_append _ _)
  · rw [List.filter_cons_of_pos (by simpa [List.isEmpty_iff] using hy)]
    exact unwords_suffix_glued _ _ _ _

private theorem splitOnP_singleton {c : Char} (hc : isWhitespace c = false) :
    [c].splitOnP isWhitespace = [[c]] :=
  List.splitOnP_eq_singleton (by simpa using hc)

theorem squeeze_cons (t : Text) {c : Char} (hc : isWhitespace c = false) :
    ∃ m, squeeze (c :: t) = c :: m := by
  have hwords := words_append_glued (t := [c]) (u := t) (by simp [splitOnP_singleton hc])
  simp only [splitOnP_singleton hc, List.dropLast_singleton, List.filter_nil, List.nil_append,
    List.getLast_singleton, List.singleton_append] at hwords
  obtain ⟨m, hm⟩ := unwords_prefix_append [c :: (t.splitOnP isWhitespace).headD []]
    ((t.splitOnP isWhitespace).tail.filter fun w => !w.isEmpty)
  exact ⟨(t.splitOnP isWhitespace).headD [] ++ m, by
    rw [squeeze, hwords, ← List.singleton_append, ← hm, unwords_singleton]; rfl⟩

theorem squeeze_concat (t : Text) {c : Char} (hc : isWhitespace c = false) :
    ∃ m, squeeze (t ++ [c]) = m ++ [c] := by
  have hwords := words_append_glued (t := t) (u := [c]) (by simp [splitOnP_singleton hc])
  simp only [splitOnP_singleton hc, List.headD_cons, List.tail_cons, List.filter_nil] at hwords
  obtain ⟨m, hm⟩ := unwords_suffix_append
    ((t.splitOnP isWhitespace).dropLast.filter fun w => !w.isEmpty)
    [(t.splitOnP isWhitespace).getLast (List.splitOnP_ne_nil _ _) ++ [c]]
  exact ⟨m ++ (t.splitOnP isWhitespace).getLast (List.splitOnP_ne_nil _ _), by
    rw [squeeze, hwords, ← hm, unwords_singleton, List.append_assoc]⟩

theorem exists_mem_words {t : Text} {c : Char} (hc : c ∈ t) (hws : isWhitespace c = false) :
    ∃ w ∈ words t, c ∈ w := by
  obtain ⟨w, hw, hcw⟩ := exists_mem_piece hc hws
  exact ⟨w, List.mem_filter.mpr ⟨hw, by simpa using List.ne_nil_of_mem hcw⟩, hcw⟩

theorem squeeze_append_blank {t u : Text} (ht : words t ≠ []) (hu : words u ≠ []) :
    squeeze (t ++ ' ' :: u) = squeeze t ++ ' ' :: squeeze u := by
  rw [squeeze, words_append_blank, unwords_append ht hu]
  rfl

/-! ### The words of the stages -/

/-- The words of every piece between separators. -/
def stageWords (p : Char → Bool) (t : Text) : List (List Text) := (t.splitOnP p).map words

theorem stageWords_ne_nil (p : Char → Bool) (t : Text) : stageWords p t ≠ [] := by
  simp [stageWords, List.splitOnP_ne_nil]

@[simp] theorem stageWords_nil (p : Char → Bool) : stageWords p [] = [[]] := by
  simp [stageWords]

theorem stageWords_append_sep {p : Char → Bool} (t u : Text) {c : Char} (hc : p c = true) :
    stageWords p (t ++ c :: u) = stageWords p t ++ stageWords p u := by
  rw [stageWords, List.splitOnP_append_cons t u hc, List.map_append]
  rfl

/-- Whitespace that is no separator reads the stages on its two sides as one. -/
theorem stageWords_append_blank {p : Char → Bool} (t u : Text) {c : Char}
    (hp : p c = false) (hc : isWhitespace c = true) :
    stageWords p (t ++ c :: u) = glue (stageWords p t) (stageWords p u) := by
  obtain ⟨x, xs, hxs⟩ := List.exists_cons_of_ne_nil (List.splitOnP_ne_nil p u)
  have hlast := List.getLast?_eq_some_getLast (List.splitOnP_ne_nil p t)
  simp [stageWords, splitOnP_append, List.splitOnP_cons_eq_if_modifyHead, hp, hxs, glue,
    hlast, words_append_cons _ _ hc]

/-- A last character that is no separator belongs to the last stage. -/
theorem stageWords_concat {p : Char → Bool} (t : Text) {c : Char} (hc : p c = false) :
    ∃ init l, stageWords p (t ++ [c]) = init ++ [words (l ++ [c])] := by
  have hone : [c].splitOnP p = [[c]] := List.splitOnP_eq_singleton (by simpa using hc)
  exact ⟨_, _, by rw [stageWords, splitOnP_append, hone, glue, List.map_append]; rfl⟩

theorem stageWords_squeeze {p : Char → Bool} (hp : ∀ c, isWhitespace c = true → p c = false)
    (t : Text) : stageWords p (squeeze t) = stageWords p t := by
  -- Induction on the length: cut the text at its first whitespace.
  induction hn : t.length using Nat.strong_induction_on generalizing t with
  | _ n ih =>
    subst hn
    have hcut := List.takeWhile_append_dropWhile (p := fun c => !isWhitespace c) (l := t)
    have hfront : ∀ c ∈ t.takeWhile (fun c => !isWhitespace c), isWhitespace c = false := by
      intro c hc
      simpa using List.mem_takeWhile_imp hc
    generalize t.takeWhile (fun c => !isWhitespace c) = w at hcut hfront
    cases hrest : t.dropWhile (fun c => !isWhitespace c) with
    | nil =>
        rw [hrest, List.append_nil] at hcut
        subst hcut
        by_cases hw : w = []
        · subst hw
          rfl
        · rw [squeeze, words_of_isWord ⟨hw, hfront⟩, unwords_singleton]
    | cons c r =>
        have hc : isWhitespace c = true := by
          have := List.head?_dropWhile_not (p := fun c => !isWhitespace c) (l := t)
          simpa [hrest] using this
        rw [hrest] at hcut
        subst hcut
        have hr := ih r.length (by simp; omega) r rfl
        rw [stageWords_append_blank w r (hp c hc) hc, ← hr, squeeze,
          words_append_cons w r hc]
        by_cases hw : w = []
        · subst hw
          rw [words_nil, List.nil_append, stageWords_nil,
            glue_nil_left (stageWords_ne_nil p _)]
          rfl
        · rw [words_of_isWord ⟨hw, hfront⟩, squeeze]
          by_cases hnone : words r = []
          · rw [hnone, List.append_nil, unwords_singleton, unwords_nil, stageWords_nil,
              glue_nil_right (stageWords_ne_nil p _)]
          · rw [List.singleton_append, unwords_cons hnone,
              stageWords_append_blank _ _ (hp ' ' isWhitespace_blank) isWhitespace_blank]

end Text

/-!
## Squeezing between two characters

Between two characters that are no whitespace, `squeeze` makes one blank of every run of
whitespace and leaves the rest alone. Where that is everything, the text was spaced with
single blanks.
-/

namespace Text

/-- One blank for every run of whitespace; `after` says that the run has begun. -/
def collapse (after : Bool) : Text → Text
  | [] => []
  | c :: t =>
      if isWhitespace c then
        if after then collapse true t else ' ' :: collapse true t
      else c :: collapse false t

/-- Blanks are the only whitespace, and no two stand together. -/
def Spaced (t : Text) : Prop :=
  (∀ c ∈ t, isWhitespace c = true → c = ' ') ∧ ¬[' ', ' '] <:+: t

instance (t : Text) : Decidable (Spaced t) := inferInstanceAs (Decidable (_ ∧ _))

/-! ### A word in its text -/

/-- The pieces are parts of the text, the first one at its beginning. -/
theorem splitOnP_infix {α : Type*} (p : α → Bool) (xs : List α) :
    ∃ y ys, xs.splitOnP p = y :: ys ∧ y <+: xs ∧ ∀ z ∈ ys, z <:+: xs := by
  induction xs with
  | nil => exact ⟨[], [], by simp⟩
  | cons x xs ih =>
      obtain ⟨y, ys, hys, hy, hrest⟩ := ih
      have hlater : ∀ z ∈ ys, z <:+: x :: xs := fun z hz =>
        (hrest z hz).trans (List.suffix_cons x xs).isInfix
      rw [List.splitOnP_cons_eq_if_modifyHead, hys]
      split
      · refine ⟨[], y :: ys, rfl, List.nil_prefix, List.forall_mem_cons.mpr ⟨?_, hlater⟩⟩
        exact hy.isInfix.trans (List.suffix_cons x xs).isInfix
      · exact ⟨x :: y, ys, rfl, (List.prefix_cons_inj x).mpr hy, hlater⟩

theorem infix_of_mem_words {t w : Text} (hw : w ∈ words t) : w <:+: t := by
  obtain ⟨y, ys, hys, hy, hrest⟩ := splitOnP_infix isWhitespace t
  have hmem := (List.mem_filter.mp hw).1
  rw [hys] at hmem
  obtain rfl | hmem := List.mem_cons.mp hmem
  · exact hy.isInfix
  · exact hrest w hmem

/-- A word of a text that has whitespace is shorter than the text. -/
theorem length_lt_of_mem_words {t w : Text} (hw : w ∈ words t) {c : Char} (hc : c ∈ t)
    (hws : isWhitespace c = true) : w.length < t.length := by
  have hle := (infix_of_mem_words hw).length_le
  refine Nat.lt_of_le_of_ne hle fun heq => ?_
  obtain rfl := (infix_of_mem_words hw).eq_of_length heq
  rw [(isWord_of_mem_words hw).2 c hc] at hws
  cases hws

/-! ### A first character -/

theorem words_cons_of_word {c : Char} {t w : Text} {ws : List Text} (hc : isWhitespace c = false)
    (ht : ∀ d ∈ t.head?, isWhitespace d = false) (hw : words t = w :: ws) :
    words (c :: t) = (c :: w) :: ws := by
  cases t with
  | nil => simp at hw
  | cons d t =>
      have hd : isWhitespace d = false := ht d rfl
      obtain ⟨y, ys, hys⟩ := List.exists_cons_of_ne_nil (List.splitOnP_ne_nil isWhitespace t)
      have hsplit : (d :: t).splitOnP isWhitespace = (d :: y) :: ys := by
        simp [List.splitOnP_cons_eq_if_modifyHead, hd, hys]
      have hboth : (c :: d :: t).splitOnP isWhitespace = (c :: d :: y) :: ys := by
        rw [List.splitOnP_cons_eq_if_modifyHead, hc, hsplit]
        rfl
      rw [words, hsplit, List.filter_cons_of_pos (by simp)] at hw
      obtain ⟨rfl, rfl⟩ := List.cons.inj hw
      rw [words, hboth, List.filter_cons_of_pos (by simp)]

theorem squeeze_cons_of_head {c : Char} {t : Text} (hc : isWhitespace c = false)
    (ht : ∀ d ∈ t.head?, isWhitespace d = false) (hne : t ≠ []) :
    squeeze (c :: t) = c :: squeeze t := by
  obtain ⟨d, t, rfl⟩ := List.exists_cons_of_ne_nil hne
  obtain ⟨w, hw, -⟩ := exists_mem_words (t := d :: t) List.mem_cons_self (ht d rfl)
  obtain ⟨v, vs, hvs⟩ := List.exists_cons_of_ne_nil (List.ne_nil_of_mem hw)
  rw [squeeze, words_cons_of_word hc ht hvs, squeeze, hvs]
  cases vs with
  | nil => rfl
  | cons u vs =>
      have hvs : u :: vs ≠ [] := List.cons_ne_nil u vs
      rw [unwords_cons hvs, unwords_cons hvs, List.cons_append]

theorem squeeze_cons_blank {c d : Char} {t : Text} (hc : isWhitespace c = false)
    (hd : isWhitespace d = true) (hne : words t ≠ []) :
    squeeze (c :: d :: t) = c :: ' ' :: squeeze t := by
  have hone : words [c] = [[c]] := words_of_isWord ⟨by simp, by simpa using hc⟩
  have happ := words_append_cons [c] t hd
  rw [squeeze, show words (c :: d :: t) = [c] :: words t by simpa [hone] using happ,
    unwords_cons hne]
  rfl

private theorem words_concat_ne_nil (t : Text) {y : Char} (hy : isWhitespace y = false) :
    words (t ++ [y]) ≠ [] := by
  obtain ⟨w, hw, -⟩ := exists_mem_words (t := t ++ [y]) (by simp) hy
  exact List.ne_nil_of_mem hw

private theorem squeeze_ends {y : Char} (hy : isWhitespace y = false) (t : Text) :
    (∀ x, isWhitespace x = false → squeeze (x :: (t ++ [y])) = x :: (collapse false t ++ [y])) ∧
      squeeze (t ++ [y]) = collapse true t ++ [y] := by
  induction t with
  | nil =>
      have hone : squeeze [y] = [y] := by
        rw [squeeze, words_of_isWord ⟨by simp, by simpa using hy⟩, unwords_singleton]
      refine ⟨fun x hx => ?_, hone⟩
      rw [List.nil_append, squeeze_cons_of_head hx (by simpa using hy) (by simp), hone]
      rfl
  | cons c t ih =>
      obtain ⟨ihfirst, ihnone⟩ := ih
      cases hc : isWhitespace c with
      | true =>
          refine ⟨fun x hx => ?_, ?_⟩
          · rw [List.cons_append, squeeze_cons_blank hx hc (words_concat_ne_nil t hy), ihnone]
            simp [collapse, hc]
          · rw [List.cons_append, squeeze, words_cons _ hc, ← squeeze, ihnone]
            simp [collapse, hc]
      | false =>
          have hcons := ihfirst c hc
          refine ⟨fun x hx => ?_, ?_⟩
          · rw [List.cons_append, squeeze_cons_of_head hx (by simpa using hc) (by simp), hcons]
            simp [collapse, hc]
          · rw [List.cons_append, hcons]
            simp [collapse, hc]

theorem squeeze_between {x y : Char} (hx : isWhitespace x = false) (hy : isWhitespace y = false)
    (t : Text) : squeeze (x :: (t ++ [y])) = x :: (collapse false t ++ [y]) :=
  (squeeze_ends hy t).1 x hx

/-! ### What is left as it is -/

theorem length_collapse_le (after : Bool) (t : Text) : (collapse after t).length ≤ t.length := by
  induction t generalizing after with
  | nil => simp [collapse]
  | cons c t ih =>
      have htrue := ih true
      have hfalse := ih false
      unfold collapse
      split
      · split <;> simp <;> omega
      · simpa using hfalse

theorem spaced_cons {c : Char} {t : Text} :
    Spaced (c :: t) ↔
      (isWhitespace c = true → c = ' ' ∧ ∀ d ∈ t.head?, isWhitespace d = false) ∧ Spaced t := by
  constructor
  · rintro ⟨hblank, hpair⟩
    have hrest : Spaced t := ⟨fun d hd => hblank d (List.mem_cons_of_mem c hd),
      fun h => hpair (h.trans (List.suffix_cons c t).isInfix)⟩
    refine ⟨fun hc => ⟨hblank c List.mem_cons_self hc, fun d hd => ?_⟩, hrest⟩
    by_contra hd'
    obtain ⟨t', rfl⟩ : ∃ t', t = d :: t' := by
      cases t with
      | nil => cases hd
      | cons e t => exact ⟨t, by rw [Option.mem_some_iff.mp hd]⟩
    have hdspace : d = ' ' := hblank d (by simp) (by simpa using hd')
    obtain rfl := hblank c List.mem_cons_self hc
    subst hdspace
    exact hpair (List.prefix_append [' ', ' '] t').isInfix
  · rintro ⟨hhead, hblank, hpair⟩
    refine ⟨?_, fun h => ?_⟩
    · intro d hd hws
      obtain rfl | hd := List.mem_cons.mp hd
      · exact (hhead hws).1
      · exact hblank d hd hws
    · obtain h | h := List.infix_cons_iff.mp h
      · obtain ⟨rfl, u, rfl⟩ := List.cons_prefix_cons.mp h
        exact absurd ((hhead (by decide)).2 ' ' rfl) (by decide)
      · exact hpair h

theorem collapse_eq_self_iff (t : Text) : collapse false t = t ↔ Spaced t := by
  induction t with
  | nil => simp [collapse, Spaced]
  | cons c t ih =>
      rw [spaced_cons]
      cases hc : isWhitespace c with
      | false => simp [collapse, hc, ih]
      | true =>
          have hafter : collapse true t = t ↔
              (∀ d ∈ t.head?, isWhitespace d = false) ∧ collapse false t = t := by
            cases t with
            | nil => simp [collapse]
            | cons d t =>
                cases hd : isWhitespace d with
                | false => simp [collapse, hd]
                | true =>
                    have hlen := length_collapse_le true t
                    have hne : collapse true t ≠ d :: t := fun h => by
                      have := congrArg List.length h
                      simp at this
                      omega
                    simp [collapse, hd, hne]
          simp only [collapse, hc, if_true, Bool.false_eq_true, if_false, List.cons.injEq, hafter,
            true_imp_iff, ← ih, and_assoc, eq_comm (a := c)]

example : collapse false "a  b\tc ".toList = "a b c ".toList := by decide

end Text
