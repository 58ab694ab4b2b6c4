import MindOS.Daemon.Policy.Basic

/-!
# Sequencing two commands

Putting a second command behind `;`, `&&`, `||` or `|` can only add to what the
policy sees of each half, with one exception. The forbidden texts and the `rm`
check see both halves whole, and so does the observe-only check, because all
three split at every separator or not at all. `pipesDownloadToShell` splits at
`|` alone: behind `;` or `&&` the last stage of the first command and the first
stage of the second become one stage with one program, and a download or an
interpreter can vanish in it.

`SequencingSafe` is exactly the case in which nothing is lost.
-/

namespace MindOS.Policy

open Text

/-- The four ways to sequence two commands. -/
inductive Sequencer where
  | semi
  | andIf
  | orIf
  | pipe
  deriving DecidableEq, Repr

def Sequencer.text : Sequencer → Text
  | semi => ";"
  | andIf => "&&"
  | orIf => "||"
  | pipe => "|"

/-- The separators that `pipesDownloadToShell` splits at. -/
def Sequencer.isPipe : Sequencer → Bool
  | semi | andIf => false
  | orIf | pipe => true

/-- The shell text of two commands in sequence. -/
def sequence (a : Text) (sep : Sequencer) (b : Text) : Text := a ++ sep.text ++ b

/-! ### The two halves of a sequence -/

section Halves

variable (a b : Text) (sep : Sequencer)

theorem Sequencer.text_cases :
    ∃ c, stageSep c = true ∧ isWhitespace c = false ∧ sep.text.toLowercase = sep.text ∧
      (sep.text = [c] ∨ sep.text = [c, c]) := by
  cases sep
  · exact ⟨';', by decide⟩
  · exact ⟨'&', by decide⟩
  · exact ⟨'|', by decide⟩
  · exact ⟨'|', by decide⟩

theorem toLowercase_sequence :
    (sequence a sep b).toLowercase = a.toLowercase ++ sep.text ++ b.toLowercase := by
  obtain ⟨_, _, _, hlower, _⟩ := sep.text_cases
  rw [sequence, toLowercase_append, toLowercase_append, hlower]

theorem stages_sequence : stages (sequence a sep b) = stages a ++ stages b := by
  obtain ⟨c, hc, _, _, htext | htext⟩ := sep.text_cases
  · simp [stages, sequence, htext, List.splitOnP_append_cons a b hc]
  · have hempty : trim [] = [] := by decide
    have htwo : (c :: b).splitOnP stageSep = [] :: b.splitOnP stageSep := by
      rw [List.splitOnP_cons_eq_if_modifyHead, if_pos hc]
    simp [stages, sequence, htext, List.splitOnP_append_cons a (c :: b) hc, htwo, hempty]

theorem contains_sequence {t pat : Text} (h : t = a ∨ t = b) (hpat : t.contains pat = true) :
    (sequence a sep b).contains pat = true := by
  rw [contains_iff] at hpat ⊢
  refine hpat.trans ?_
  rcases h with rfl | rfl
  · exact (List.prefix_append_of_prefix (List.prefix_append t sep.text)).isInfix
  · exact (List.suffix_append (a ++ sep.text) t).isInfix

theorem hasMutatingShell_sequence {t : Text} (h : t = a ∨ t = b)
    (ht : hasMutatingShell t = true) : hasMutatingShell (sequence a sep b) = true := by
  simp only [hasMutatingShell, Bool.or_eq_true] at ht ⊢
  exact ht.imp (Or.imp (Or.imp (contains_sequence a b sep h) (contains_sequence a b sep h))
    (contains_sequence a b sep h)) (contains_sequence a b sep h)

theorem observesAll_sequence {cfg : PolicyConfig} {t : Text} (h : t = a ∨ t = b)
    (hj : observesAll (sequence a sep b) cfg = true) : observesAll t cfg = true := by
  simp only [observesAll, Bool.and_eq_true, Bool.not_eq_true', stages_sequence,
    List.all_append] at hj ⊢
  refine ⟨?_, ?_⟩
  · by_contra hmut
    rw [hasMutatingShell_sequence a b sep h (by simpa using hmut)] at hj
    exact absurd hj.1 (by decide)
  · rcases h with rfl | rfl
    · exact hj.2.1
    · exact hj.2.2

theorem hasForbiddenText_sequence {t : Text} (h : t = a ∨ t = b)
    (ht : hasForbiddenText (normalized t) = true) :
    hasForbiddenText (normalized (sequence a sep b)) = true := by
  obtain ⟨f, hf, hcontains⟩ := List.any_eq_true.mp ht
  refine List.any_eq_true.mpr ⟨f, hf, ?_⟩
  rw [contains_iff] at hcontains ⊢
  refine hcontains.trans ?_
  obtain ⟨c, _, hws, _, htext⟩ := sep.text_cases
  rw [normalized, normalized, toLowercase_sequence]
  rcases h with rfl | rfl
  · rcases htext with htext | htext <;> rw [htext, List.append_assoc]
    · exact (squeeze_isPrefix _ _ hws).isInfix
    · exact (squeeze_isPrefix _ _ hws).isInfix
  · rcases htext with htext | htext <;> rw [htext]
    · rw [List.append_assoc]
      exact (squeeze_isSuffix _ _ hws).isInfix
    · rw [show [c, c] = [c] ++ [c] from rfl, ← List.append_assoc, List.append_assoc _ [c]]
      exact (squeeze_isSuffix _ _ hws).isInfix

/-- The stages of a sequence are those of its halves, and perhaps an empty one. -/
theorem stageWords_sequence :
    ∃ middle, (∀ stage ∈ middle, stage = []) ∧
      (sequence a sep b).toLowercase.stageWords stageSep =
        a.toLowercase.stageWords stageSep ++ middle ++ b.toLowercase.stageWords stageSep := by
  obtain ⟨c, hc, _, _, htext | htext⟩ := sep.text_cases
  · refine ⟨[], by simp, ?_⟩
    rw [toLowercase_sequence, htext, List.append_assoc, List.singleton_append,
      stageWords_append_sep _ _ hc, List.append_nil]
  · refine ⟨[[]], by simp, ?_⟩
    have hempty : stageWords stageSep (c :: b.toLowercase) =
        [] :: stageWords stageSep b.toLowercase := by
      simpa using stageWords_append_sep [] b.toLowercase hc
    rw [toLowercase_sequence, htext, List.append_assoc, List.cons_append,
      stageWords_append_sep _ _ hc, List.singleton_append, hempty, List.append_assoc]
    rfl

theorem deletesASystemPath_sequence :
    deletesASystemPath (normalized (sequence a sep b)) =
      (deletesASystemPath (normalized a) || deletesASystemPath (normalized b)) := by
  obtain ⟨middle, hmiddle, hstages⟩ := stageWords_sequence a b sep
  have hnone : middle.any stageDeletes = false := by
    rw [List.any_eq_false]
    intro stage hstage
    rw [hmiddle stage hstage]
    decide
  simp only [deletesASystemPath_normalized, hstages, List.any_append, hnone, Bool.or_false]

theorem ruinous_sequence {t : Text} (h : t = a ∨ t = b) (ht : ruinous t = true) :
    ruinous (sequence a sep b) = true := by
  simp only [ruinous, Bool.or_eq_true] at ht ⊢
  refine ht.imp (hasForbiddenText_sequence a b sep h) fun hdel => ?_
  rw [deletesASystemPath_sequence]
  rcases h with rfl | rfl <;> simp [hdel]

end Halves

/-! ### Downloads into an interpreter -/

theorem downloadThenShell_mono {progs : List Text} {d e : Bool} (hde : d = true → e = true)
    (h : downloadThenShell d progs = true) : downloadThenShell e progs = true := by
  induction progs generalizing d e with
  | nil => cases h
  | cons prog progs ih =>
      unfold downloadThenShell at h ⊢
      split
      case isTrue => rfl
      case isFalse hnow =>
        have hearlier : ¬(d && interpreters.contains prog) = true := fun hd => hnow (by
          simp only [Bool.and_eq_true] at hd ⊢
          exact ⟨hde hd.1, hd.2⟩)
        rw [if_neg hearlier] at h
        refine ih (fun hd => ?_) h
        simp only [Bool.or_eq_true] at hd ⊢
        exact hd.imp_left hde

theorem downloadThenShell_append_left {d : Bool} {progs : List Text} (more : List Text)
    (h : downloadThenShell d progs = true) : downloadThenShell d (progs ++ more) = true := by
  induction progs generalizing d with
  | nil => simp [downloadThenShell] at h
  | cons prog progs ih =>
      rw [List.cons_append]
      unfold downloadThenShell at h ⊢
      split
      · rfl
      · rw [if_neg (by assumption)] at h
        exact ih h

theorem downloadThenShell_append_right {d : Bool} (progs : List Text) {more : List Text}
    (h : downloadThenShell false more = true) : downloadThenShell d (progs ++ more) = true := by
  induction progs generalizing d with
  | nil => exact downloadThenShell_mono (by simp) h
  | cons prog progs ih =>
      rw [List.cons_append]
      unfold downloadThenShell
      split
      · rfl
      · exact ih

/-- The programs of a sequence under `;` or `&&`: the last stage of the first
command and the first stage of the second are read as one. -/
def gluedPrograms (a : Text) (sep : Sequencer) (b : Text) : List Text :=
  let xs := a.toLowercase.splitOnP pipeSep
  let ys := b.toLowercase.splitOnP pipeSep
  (stagePrograms a).dropLast ++
    stageProgram (words (xs.getLast?.getD [] ++ sep.text ++ ys.headD [])) ::
      (stagePrograms b).tail

theorem stagePrograms_sequence_of_not_pipe (a b : Text) {sep : Sequencer}
    (h : sep.isPipe = false) : stagePrograms (sequence a sep b) = gluedPrograms a sep b := by
  have hsep : sep.text.splitOnP pipeSep = [sep.text] :=
    List.splitOnP_eq_singleton (by cases sep <;> revert h <;> decide)
  have hlast := List.getLast?_eq_some_getLast (List.splitOnP_ne_nil pipeSep a.toLowercase)
  simp [stagePrograms, gluedPrograms, toLowercase_sequence, stageWords, splitOnP_append, hsep,
    glue, hlast, List.map_dropLast, List.map_tail]

theorem stagePrograms_sequence_of_pipe (a b : Text) {sep : Sequencer} (h : sep.isPipe = true) :
    ∃ middle, stagePrograms (sequence a sep b) = stagePrograms a ++ middle ++ stagePrograms b := by
  have hpipe : pipeSep '|' = true := rfl
  cases sep with
  | semi => cases h
  | andIf => cases h
  | orIf =>
      refine ⟨[stageProgram []], ?_⟩
      have hempty := stageWords_append_sep [] b.toLowercase hpipe
      rw [List.nil_append] at hempty
      rw [stagePrograms, toLowercase_sequence, List.append_assoc,
        show Sequencer.orIf.text = ['|', '|'] from rfl, List.cons_append,
        stageWords_append_sep _ _ hpipe, List.singleton_append, hempty]
      simp [stagePrograms]
  | pipe =>
      refine ⟨[], ?_⟩
      rw [stagePrograms, toLowercase_sequence, List.append_assoc,
        show Sequencer.pipe.text = ['|'] from rfl, List.singleton_append,
        stageWords_append_sep _ _ hpipe]
      simp [stagePrograms]

theorem downloadThenShell_sequence_of_pipe (a b : Text) {sep : Sequencer}
    (h : sep.isPipe = true)
    (hhalf : downloadThenShell false (stagePrograms a) = true ∨
      downloadThenShell false (stagePrograms b) = true) :
    downloadThenShell false (stagePrograms (sequence a sep b)) = true := by
  obtain ⟨middle, hprogs⟩ := stagePrograms_sequence_of_pipe a b h
  rw [hprogs]
  rcases hhalf with hhalf | hhalf
  · rw [List.append_assoc]
    exact downloadThenShell_append_left _ hhalf
  · exact downloadThenShell_append_right _ hhalf

/-! ### When nothing is lost -/

/-- If one half alone pipes a download into an interpreter, then the separator
is a pipe, or the whole is forbidden on other grounds, or a download still comes
before an interpreter once the two stages that meet are read as one. -/
def SequencingSafe (a : Text) (sep : Sequencer) (b : Text) : Prop :=
  downloadThenShell false (stagePrograms a) = true ∨
      downloadThenShell false (stagePrograms b) = true →
    sep.isPipe = true ∨ ruinous (sequence a sep b) = true ∨
      downloadThenShell false (gluedPrograms a sep b) = true

theorem isForbidden_sequence {a b t : Text} {sep : Sequencer} (safe : SequencingSafe a sep b)
    (h : t = a ∨ t = b) (ht : isForbidden (normalized t) = true) :
    isForbidden (normalized (sequence a sep b)) = true := by
  rw [isForbidden_normalized] at ht ⊢
  rcases ht with ht | ht
  · exact .inl (ruinous_sequence a b sep h ht)
  · have hhalf : downloadThenShell false (stagePrograms a) = true ∨
        downloadThenShell false (stagePrograms b) = true := by
      rcases h with rfl | rfl
      · exact .inl ht
      · exact .inr ht
    cases hpipe : sep.isPipe with
    | true => exact .inr (downloadThenShell_sequence_of_pipe a b hpipe hhalf)
    | false =>
        rw [stagePrograms_sequence_of_not_pipe a b hpipe]
        simpa [hpipe] using safe hhalf

theorem classifyCommand_le_sequence {a b t : Text} {sep : Sequencer} (cfg : PolicyConfig)
    (safe : SequencingSafe a sep b) (h : t = a ∨ t = b) :
    classifyCommand t cfg ≤ classifyCommand (sequence a sep b) cfg := by
  cases ht : isForbidden (normalized t) with
  | true =>
      rw [classifyCommand_eq_forbidden.mpr (isForbidden_sequence safe h ht)]
      exact le_forbidden _
  | false => exact classifyCommand_le ht (observesAll_sequence a b sep h)

/-- Sequencing never relaxes the verdict on either half exactly when no download
into an interpreter is lost where the halves meet. -/
theorem sequence_at_least_as_restrictive_iff (cfg : PolicyConfig) (a b : Text)
    (sep : Sequencer) :
    (classifyCommand a cfg ≤ classifyCommand (sequence a sep b) cfg ∧
      classifyCommand b cfg ≤ classifyCommand (sequence a sep b) cfg) ↔
      SequencingSafe a sep b := by
  constructor
  · rintro ⟨ha, hb⟩ hhalf
    have hwhole : isForbidden (normalized (sequence a sep b)) = true := by
      rw [← @classifyCommand_eq_forbidden _ cfg]
      rcases hhalf with hhalf | hhalf
      · rw [classifyCommand_eq_forbidden.mpr ((isForbidden_normalized a).mpr (.inr hhalf))] at ha
        exact forbidden_le.mp ha
      · rw [classifyCommand_eq_forbidden.mpr ((isForbidden_normalized b).mpr (.inr hhalf))] at hb
        exact forbidden_le.mp hb
    rcases (isForbidden_normalized _).mp hwhole with hruin | hpiped
    · exact .inr (.inl hruin)
    · cases hpipe : sep.isPipe with
      | true => exact .inl rfl
      | false =>
          rw [stagePrograms_sequence_of_not_pipe a b hpipe] at hpiped
          exact .inr (.inr hpiped)
  · intro safe
    exact ⟨classifyCommand_le_sequence cfg safe (.inl rfl),
      classifyCommand_le_sequence cfg safe (.inr rfl)⟩

/-- A download piped into a listed interpreter is refused; behind `true;` it runs
without a question. -/
theorem sequence_launders_download :
    ¬ ∀ (cfg : PolicyConfig) (a b : Text) (sep : Sequencer),
      classifyCommand a cfg ≤ classifyCommand (sequence a sep b) cfg ∧
        classifyCommand b cfg ≤ classifyCommand (sequence a sep b) cfg := by
  intro h
  exact absurd (h {} "true" " curl x | python3" .semi).2 (by decide +kernel)

end MindOS.Policy
