import MindOS.Daemon.Policy.Sequencing

/-!
# A command behind a wrapper

A wrapper such as `sudo` or `env` runs its argument as a command. The policy reads the
wrapped command with the wrapper and its options as the first words of the first stage, and
each of its checks looks behind other wrappers: what the check of the first stage says of
the wrapper alone stands for what it would have said of the command.
-/

namespace MindOS.Policy

open Text

/-- The wrappers that the policy knows: each runs its argument as a command. -/
def wrappers : List Text := ["sudo", "doas", "env", "command", "exec", "nice", "xargs"]

/-- What stands between a wrapper and its command: a blank, or options between blanks. -/
structure Gap (gap : Text) : Prop where
  front : ∃ m, gap = ' ' :: m
  back : ∃ m, gap = m ++ [' ']
  inStage : ∀ c ∈ gap, stageSep c = false

/-- A command behind a wrapper. -/
def wrapped (w gap c : Text) : Text := w ++ gap ++ c

/-- The words of the first stage of a command, in lower case. -/
def firstStage (p : Char → Bool) (cmd : Text) : List Text :=
  (cmd.toLowercase.stageWords p).headD []

/-- The words of the stages behind the first, in lower case. -/
def laterStages (p : Char → Bool) (cmd : Text) : List (List Text) :=
  (cmd.toLowercase.stageWords p).tail

/-- The command has a forbidden form that its first stage has no part in. -/
def ForbiddenLater (cmd : Text) : Prop :=
  (∃ stage ∈ laterStages stageSep cmd, stageDeletes stage = true) ∨
    downloadThenShell false ((laterStages pipeSep cmd).map stageProgram) = true

/-- The first stage downloads, and an interpreter stands behind it. -/
def FeedsInterpreter (prog cmd : Text) : Prop :=
  downloaders.contains prog = true ∧
    ∃ stage ∈ laterStages pipeSep cmd, interpreters.contains (stageProgram stage) = true

/-- The first stage makes the command forbidden. -/
def Ruins (cmd : Text) : Prop :=
  stageDeletes (firstStage stageSep cmd) = true ∨
    FeedsInterpreter (stageProgram (firstStage pipeSep cmd)) cmd

/-- The first stage still does behind the wrapper: each check looks behind its own wrappers
and takes an option for the program. -/
def RuinsBehind (w gap c : Text) : Prop :=
  (w ∈ deleteWrappers ∧
      stageDeletes (words gap.toLowercase ++ firstStage stageSep c) = true) ∨
    (w ∈ pipeWrappers ∧
      FeedsInterpreter (stageProgram (words gap.toLowercase ++ firstStage pipeSep c)) c)

/-- The text in front of the first separator. -/
def firstPiece (cmd : Text) : Text := (cmd.splitOnP stageSep).headD []

/-- The first stage alone needs a question. -/
def FirstAsks (cfg : PolicyConfig) (cmd : Text) : Prop :=
  (firstPiece cmd).trim ≠ [] ∧ stageObserves cfg (firstPiece cmd).trim = false

/-- The wrapper with its options needs a question: it is not observe-only itself, or it is
`sudo`, and what follows is not. -/
def WrapperAsks (cfg : PolicyConfig) (w gap c : Text) : Prop :=
  if w = "sudo".toList then stageObserves cfg (wrapped w gap (firstPiece c)).trim = false
  else w ≠ "env".toList ∧ w ≠ "xargs".toList ∧ w ∉ cfg.extraObserveCommands

/-- Some stage behind the first needs a question. -/
def LaterAsks (cfg : PolicyConfig) (cmd : Text) : Prop :=
  ∃ piece ∈ (cmd.splitOnP stageSep).tail,
    Text.trim piece ≠ [] ∧ stageObserves cfg (Text.trim piece) = false

/-- Something else than the first stage needs a question. -/
def AsksElsewhere (cfg : PolicyConfig) (w gap c : Text) : Prop :=
  hasMutatingShell (wrapped w gap c) = true ∨ LaterAsks cfg c

/-- The wrapper lets the policy see as much of the command as it needs. -/
def SeesThrough (cfg : PolicyConfig) (w gap c : Text) : Prop :=
  hasForbiddenText (normalized (wrapped w gap c)) = true ∨ ForbiddenLater c ∨
    ((Ruins c → RuinsBehind w gap c) ∧
      (¬Ruins c → FirstAsks cfg c →
        RuinsBehind w gap c ∨ AsksElsewhere cfg w gap c ∨ WrapperAsks cfg w gap c))

/-! ### The stages of a wrapped command -/

theorem stageSep_of_lowerChar {c d : Char} (hd : d ∈ lowerChar c) (hsep : stageSep d = true) :
    stageSep c = true := by
  obtain rfl | hletter | rfl := lowerChar_cases hd
  · exact hsep
  · simp only [stageSep, Bool.or_eq_true, beq_iff_eq] at hsep
    obtain (rfl | rfl) | rfl := hsep <;> exact absurd hletter (by decide)
  · cases hsep

theorem Gap.toLowercase {gap : Text} (h : Gap gap) : Gap gap.toLowercase := by
  obtain ⟨⟨m, hm⟩, ⟨m', hm'⟩, hsep⟩ := h
  refine ⟨⟨Text.toLowercase m, by rw [hm]; rfl⟩, ⟨Text.toLowercase m', ?_⟩, ?_⟩
  · rw [hm', toLowercase_append]
    rfl
  · intro d hd
    obtain ⟨c, hc, hdc⟩ := List.mem_flatMap.mp hd
    by_contra hd
    have hcsep := stageSep_of_lowerChar hdc (by simpa using hd)
    rw [hsep c hc] at hcsep
    cases hcsep

theorem wrappers_plain : ∀ w ∈ wrappers,
    w.toLowercase = w ∧ words w = [w] ∧ programName w = w ∧ w ≠ "rm".toList ∧
      downloaders.contains w = false ∧ ∀ c ∈ w, stageSep c = false := by decide

theorem pipeSep_of_stageSep {c : Char} (h : stageSep c = false) : pipeSep c = false := by
  simp only [stageSep, Bool.or_eq_false_iff] at h
  exact h.1.1

theorem trimStartMatches_of_not_startsWith {t pat : Text} (h : t.startsWith pat = false) :
    t.trimStartMatches pat = t := by
  rw [trimStartMatches]
  cases t.length with
  | zero => rfl
  | succ n => rw [trimStartMatches.go, h, if_neg (by simp)]

section Stages

variable {w gap : Text}

theorem toLowercase_wrapped (hw : w ∈ wrappers) (c : Text) :
    (wrapped w gap c).toLowercase = wrapped w gap.toLowercase c.toLowercase := by
  rw [wrapped, toLowercase_append, toLowercase_append, (wrappers_plain w hw).1, wrapped]

variable (hw : w ∈ wrappers) (hgap : Gap gap) (c : Text)

include hw hgap

theorem stageWords_wrapped {p : Char → Bool} (hp : ∀ c, stageSep c = false → p c = false) :
    (wrapped w gap c).stageWords p =
      (w :: words gap ++ (c.stageWords p).headD []) :: (c.stageWords p).tail := by
  obtain ⟨-, hword, -, -, -, hplain⟩ := wrappers_plain w hw
  obtain ⟨⟨front, hfront⟩, ⟨back, hback⟩, hin⟩ := hgap
  have hlead : words (w ++ back) = w :: words gap := by
    rw [← words_concat (w ++ back) isWhitespace_blank, List.append_assoc, ← hback, hfront,
      words_append_blank, hword, words_cons front isWhitespace_blank]
    rfl
  have hstage : (w ++ back).stageWords p = [words (w ++ back)] := by
    rw [stageWords, List.splitOnP_eq_singleton]
    · rfl
    · intro d hd
      obtain hd | hd := List.mem_append.mp hd
      · exact hp d (hplain d hd)
      · exact hp d (hin d (hback ▸ List.mem_append_left _ hd))
  rw [wrapped, hback, ← List.append_assoc, List.append_assoc, List.singleton_append,
    stageWords_append_blank _ _ (hp ' ' rfl) isWhitespace_blank, hstage, glue_singleton_left,
    hlead, hback]

theorem firstStage_wrapped {p : Char → Bool} (hp : ∀ c, stageSep c = false → p c = false) :
    firstStage p (wrapped w gap c) = w :: (words gap.toLowercase ++ firstStage p c) := by
  rw [firstStage, toLowercase_wrapped hw, stageWords_wrapped hw hgap.toLowercase _ hp,
    List.headD_cons, List.cons_append, firstStage]

theorem laterStages_wrapped {p : Char → Bool} (hp : ∀ c, stageSep c = false → p c = false) :
    laterStages p (wrapped w gap c) = laterStages p c := by
  rw [laterStages, toLowercase_wrapped hw, stageWords_wrapped hw hgap.toLowercase _ hp,
    List.tail_cons, laterStages]

theorem hasForbiddenText_wrapped (h : hasForbiddenText (normalized c) = true) :
    hasForbiddenText (normalized (wrapped w gap c)) = true := by
  obtain ⟨f, hf, hcontains⟩ := List.any_eq_true.mp h
  refine List.any_eq_true.mpr ⟨f, hf, ?_⟩
  rw [contains_iff] at hcontains ⊢
  refine hcontains.trans ?_
  obtain ⟨⟨front, hfront⟩, ⟨back, hback⟩, -⟩ := hgap.toLowercase
  rw [normalized, normalized, toLowercase_wrapped hw, wrapped, hback, List.append_assoc,
    List.append_assoc, List.singleton_append, ← List.append_assoc]
  by_cases hnone : words c.toLowercase = []
  · rw [squeeze, hnone]
    exact List.nil_infix
  · have hlead : words (w ++ back) ≠ [] := by
      rw [← words_concat _ isWhitespace_blank, List.append_assoc, ← hback, hfront,
        words_append_blank, (wrappers_plain w hw).2.1]
      simp
    rw [squeeze_append_blank hlead hnone]
    exact (List.suffix_append_of_suffix (List.suffix_cons _ _)).isInfix

theorem forbiddenLater_wrapped : ForbiddenLater (wrapped w gap c) ↔ ForbiddenLater c := by
  rw [ForbiddenLater, laterStages_wrapped hw hgap c fun _ h => h,
    laterStages_wrapped hw hgap c fun _ => pipeSep_of_stageSep]
  rfl

theorem ruins_wrapped : Ruins (wrapped w gap c) ↔ RuinsBehind w gap c := by
  obtain ⟨-, -, hname, hrm, hnoload, -⟩ := wrappers_plain w hw
  rw [Ruins, RuinsBehind, firstStage_wrapped hw hgap c fun _ h => h,
    firstStage_wrapped hw hgap c fun _ => pipeSep_of_stageSep]
  refine or_congr ?_ ?_
  · by_cases hdelete : w ∈ deleteWrappers
    · simp only [hdelete, true_and, stageDeletes]
      rw [List.dropWhile_cons_of_pos (List.contains_iff_mem.mpr hdelete)]
    · rw [stageDeletes_cons (by simpa using hdelete) (by rwa [hname])]
      simp [hdelete]
  · rw [FeedsInterpreter, laterStages_wrapped hw hgap c fun _ => pipeSep_of_stageSep]
    by_cases hpipe : w ∈ pipeWrappers
    · rw [stageProgram, List.find?_cons_of_neg (by simpa using hpipe)]
      simp [hpipe, FeedsInterpreter, stageProgram]
    · rw [stageProgram_cons (by simpa using hpipe), hname, hnoload]
      simp [hpipe]

theorem splitOnP_wrapped : (wrapped w gap c).splitOnP stageSep =
    wrapped w gap (firstPiece c) :: (c.splitOnP stageSep).tail := by
  have hlead : (w ++ gap).splitOnP stageSep = [w ++ gap] := by
    refine List.splitOnP_eq_singleton fun d hd => ?_
    obtain hd | hd := List.mem_append.mp hd
    · exact (wrappers_plain w hw).2.2.2.2.2 d hd
    · exact hgap.inStage d hd
  rw [wrapped, splitOnP_append, hlead, glue_singleton_left]
  rfl

theorem words_trim_wrapped :
    words (wrapped w gap c).trim = w :: (words gap ++ words c) := by
  obtain ⟨⟨front, hfront⟩, ⟨back, hback⟩, -⟩ := hgap
  have hgapped : words (gap ++ c) = words gap ++ words c := by
    rw [hback, List.append_assoc, List.singleton_append, words_append_blank,
      words_concat _ isWhitespace_blank]
  rw [words_trim, wrapped, List.append_assoc, ← hgapped, hfront, List.cons_append,
    words_append_blank, words_cons _ isWhitespace_blank, (wrappers_plain w hw).2.1]
  rfl

theorem stageObserves_wrapped (cfg : PolicyConfig) (hsudo : w ≠ "sudo".toList) :
    stageObserves cfg (wrapped w gap c).trim = false ↔
      w ≠ "env".toList ∧ w ≠ "xargs".toList ∧ w ∉ cfg.extraObserveCommands := by
  have hmutating : ∀ w ∈ wrappers, ∀ rest, mutating w rest = false := by
    intro w hw rest
    simp only [wrappers, List.mem_cons, List.not_mem_nil, or_false] at hw
    obtain rfl | rfl | rfl | rfl | rfl | rfl | rfl := hw <;> rfl
  have hobserve : ∀ w ∈ wrappers, observeCommands.contains w = true ↔
      w = "env".toList ∨ w = "xargs".toList := by decide
  have hstart : Text.startsWith (wrapped w gap c).trim "sudo " = false := by
    by_contra hstart
    obtain ⟨rest, hrest⟩ := startsWith_iff.mp (Bool.not_eq_false _ ▸ hstart)
    have hblank : "sudo ".toList = "sudo".toList ++ [' '] := by decide
    have hword : words "sudo".toList = ["sudo".toList] := by decide
    have hwords := words_trim_wrapped hw hgap c
    rw [← hrest, hblank, List.append_assoc, List.singleton_append, words_append_blank,
      hword] at hwords
    exact hsudo (List.cons.inj hwords).1.symm
  have hprogram : stageObserves cfg (wrapped w gap c).trim =
      (observeCommands.contains w || cfg.extraObserveCommands.contains w) := by
    rw [stageObserves, trimStartMatches_of_not_startsWith hstart]
    rw [words_trim, words_trim_wrapped hw hgap, List.headD_cons, (wrappers_plain w hw).2.2.1,
      hmutating w hw, Bool.not_false, Bool.and_true]
  rw [hprogram, Bool.or_eq_false_iff, ← Bool.not_eq_true, hobserve w hw, not_or, and_assoc]
  simp

theorem wrapperAsks_iff (cfg : PolicyConfig) :
    WrapperAsks cfg w gap c ↔ FirstAsks cfg (wrapped w gap c) := by
  have hne : (wrapped w gap (firstPiece c)).trim ≠ [] := by
    intro hnil
    have hwords := words_trim_wrapped hw hgap (firstPiece c)
    rw [hnil] at hwords
    cases hwords
  rw [WrapperAsks, FirstAsks]
  rw [show firstPiece (wrapped w gap c) = wrapped w gap (firstPiece c) by
    rw [firstPiece, splitOnP_wrapped hw hgap, List.headD_cons]]
  split
  case isTrue => simp only [hne, ne_eq, not_false_eq_true, true_and]
  case isFalse hsudo =>
    rw [← stageObserves_wrapped hw hgap (firstPiece c) cfg hsudo]
    simp only [hne, ne_eq, not_false_eq_true, true_and]

end Stages

/-! ### The forbidden forms -/

theorem downloadThenShell_true_iff (progs : List Text) :
    downloadThenShell true progs = true ↔ ∃ prog ∈ progs, interpreters.contains prog = true := by
  induction progs with
  | nil => simp [downloadThenShell]
  | cons prog progs ih =>
      rw [downloadThenShell]
      cases hinterp : interpreters.contains prog <;> simp_all

theorem downloadThenShell_cons_iff (prog : Text) (progs : List Text) :
    downloadThenShell false (prog :: progs) = true ↔
      (downloaders.contains prog = true ∧ ∃ q ∈ progs, interpreters.contains q = true) ∨
        downloadThenShell false progs = true := by
  rw [downloadThenShell, Bool.false_and, if_neg (by simp), Bool.false_or]
  cases hload : downloaders.contains prog with
  | false => simp
  | true =>
      rw [downloadThenShell_true_iff]
      refine ⟨fun h => .inl ⟨rfl, h⟩, ?_⟩
      rintro (⟨-, h⟩ | h)
      · exact h
      · exact (downloadThenShell_true_iff progs).mp (downloadThenShell_mono (by simp) h)

theorem stageWords_eq_cons (p : Char → Bool) (cmd : Text) :
    cmd.toLowercase.stageWords p = firstStage p cmd :: laterStages p cmd := by
  rw [firstStage, laterStages]
  cases h : cmd.toLowercase.stageWords p with
  | nil => exact absurd h (stageWords_ne_nil p _)
  | cons s ss => rfl

theorem isForbidden_iff (cmd : Text) :
    isForbidden (normalized cmd) = true ↔
      hasForbiddenText (normalized cmd) = true ∨ ForbiddenLater cmd ∨ Ruins cmd := by
  have hdelete : deletesASystemPath (normalized cmd) = true ↔
      stageDeletes (firstStage stageSep cmd) = true ∨
        ∃ stage ∈ laterStages stageSep cmd, stageDeletes stage = true := by
    rw [deletesASystemPath_normalized, stageWords_eq_cons, List.any_cons, Bool.or_eq_true,
      List.any_eq_true]
  have hpipe : pipesDownloadToShell (normalized cmd) = true ↔
      FeedsInterpreter (stageProgram (firstStage pipeSep cmd)) cmd ∨
        downloadThenShell false ((laterStages pipeSep cmd).map stageProgram) = true := by
    rw [pipesDownloadToShell_normalized, stagePrograms, stageWords_eq_cons, List.map_cons,
      downloadThenShell_cons_iff, FeedsInterpreter]
    simp only [List.mem_map, exists_exists_and_eq_and]
  rw [isForbidden, Bool.or_eq_true, Bool.or_eq_true, hdelete, hpipe, ForbiddenLater, Ruins]
  constructor
  · rintro ((h | h | h) | h | h)
    · exact .inl h
    · exact .inr (.inr (.inr h))
    · exact .inr (.inl (.inr h))
    · exact .inr (.inr (.inl h))
    · exact .inr (.inl (.inl h))
  · rintro (h | (h | h) | h | h)
    · exact .inl (.inl h)
    · exact .inr (.inr h)
    · exact .inl (.inr (.inr h))
    · exact .inr (.inl h)
    · exact .inl (.inr (.inl h))

/-! ### The verdict -/

theorem observesAll_iff (cmd : Text) (cfg : PolicyConfig) :
    observesAll cmd cfg = true ↔
      ¬hasMutatingShell cmd = true ∧ ¬FirstAsks cfg cmd ∧ ¬LaterAsks cfg cmd := by
  have hcons : cmd.splitOnP stageSep = firstPiece cmd :: (cmd.splitOnP stageSep).tail := by
    rw [firstPiece]
    cases h : cmd.splitOnP stageSep with
    | nil => exact absurd h (List.splitOnP_ne_nil _ _)
    | cons s ss => rfl
  have hstages : (stages cmd).all (stageObserves cfg) = true ↔
      ∀ piece ∈ cmd.splitOnP stageSep,
        ¬(Text.trim piece ≠ [] ∧ stageObserves cfg (Text.trim piece) = false) := by
    simp only [stages, List.all_eq_true, List.mem_filter, List.mem_map, Bool.not_eq_true',
      List.isEmpty_eq_false_iff, and_imp, forall_exists_index, forall_apply_eq_imp_iff₂, not_and,
      Bool.not_eq_false]
  rw [observesAll, Bool.and_eq_true, Bool.not_eq_true', ← Bool.not_eq_true, hstages, hcons,
    List.forall_mem_cons, LaterAsks, FirstAsks]
  simp only [not_exists, not_and]

theorem classifyCommand_le_iff (a j : Text) (cfg : PolicyConfig) :
    classifyCommand a cfg ≤ classifyCommand j cfg ↔
      (isForbidden (normalized a) = true → isForbidden (normalized j) = true) ∧
        (¬isForbidden (normalized a) = true → ¬isForbidden (normalized j) = true →
          observesAll j cfg = true → observesAll a cfg = true) := by
  cases ha : isForbidden (normalized a) with
  | true =>
      rw [classifyCommand_eq_forbidden.mpr ha, forbidden_le, classifyCommand_eq_forbidden]
      simp
  | false =>
      cases hj : isForbidden (normalized j) with
      | true =>
          rw [classifyCommand_eq_forbidden.mpr hj]
          simp
      | false =>
          rw [classifyCommand_of_not_forbidden ha, classifyCommand_of_not_forbidden hj]
          cases observesAll a cfg <;> cases observesAll j cfg <;> decide

theorem hasMutatingShell_wrapped {w gap c : Text} (h : hasMutatingShell c = true) :
    hasMutatingShell (wrapped w gap c) = true := by
  have hcontains : ∀ pat : Text, c.contains pat = true →
      (wrapped w gap c).contains pat = true := by
    intro pat hpat
    rw [contains_iff] at hpat ⊢
    exact hpat.trans (List.suffix_append _ c).isInfix
  simp only [hasMutatingShell, Bool.or_eq_true] at h ⊢
  exact h.imp (Or.imp (Or.imp (hcontains _) (hcontains _)) (hcontains _)) (hcontains _)

/-- How the verdicts compare: `t`, `r`, `m` and `a` are what the forbidden texts, the first
stage, the shell syntax and the question of the first stage say of the command, `t'` and so
on what they say of the wrapped one, `f` and `l` what the later stages say of both. -/
private theorem compare_iff {t t' r r' m m' a a' f l : Prop} (ht : t → t') (hm : m → m') :
    ((t ∨ f ∨ r → t' ∨ f ∨ r') ∧ (¬(t ∨ f ∨ r) → ¬(t' ∨ f ∨ r') →
        ¬m' ∧ ¬a' ∧ ¬l → ¬m ∧ ¬a ∧ ¬l)) ↔
      t' ∨ f ∨ ((r → r') ∧ (¬r → a → r' ∨ (m' ∨ l) ∨ a')) := by
  tauto

/-- A wrapped command is at least as restricted as the command exactly when the policy sees
through the wrapper. -/
theorem wrapped_le_iff {w gap : Text} (hw : w ∈ wrappers) (hgap : Gap gap) (c : Text)
    (cfg : PolicyConfig) :
    classifyCommand c cfg ≤ classifyCommand (wrapped w gap c) cfg ↔ SeesThrough cfg w gap c := by
  have hlater : LaterAsks cfg (wrapped w gap c) ↔ LaterAsks cfg c := by
    rw [LaterAsks, splitOnP_wrapped hw hgap, List.tail_cons, LaterAsks]
  rw [classifyCommand_le_iff, observesAll_iff, observesAll_iff, isForbidden_iff, isForbidden_iff,
    forbiddenLater_wrapped hw hgap, ruins_wrapped hw hgap, ← wrapperAsks_iff hw hgap, hlater,
    SeesThrough, AsksElsewhere]
  exact compare_iff (hasForbiddenText_wrapped hw hgap c) hasMutatingShell_wrapped

theorem gap_blank : Gap " " := ⟨⟨[], rfl⟩, ⟨[], rfl⟩, by decide⟩

theorem wrapped_le_iff_nice :
    classifyCommand "rm x" {} ≤ classifyCommand (wrapped "nice" " " "rm x") {} ↔
      SeesThrough {} "nice" " " "rm x" :=
  wrapped_le_iff (by decide) gap_blank "rm x" {}

/-- A removal behind `env` runs without a question. -/
theorem wrapped_not_le :
    ¬ ∀ (w gap c : Text) (cfg : PolicyConfig), w ∈ wrappers → Gap gap →
      classifyCommand c cfg ≤ classifyCommand (wrapped w gap c) cfg := by
  intro h
  have hle := h "env" " " "rm x" {} (by decide) gap_blank
  revert hle
  decide

end MindOS.Policy
