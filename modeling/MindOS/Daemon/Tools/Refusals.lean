import MindOS.Daemon.Tools.Basic
import MindOS.Text.Ends

/-!
# A refused call as a shell command

`service_control` refuses to stop a protected unit and `remove_packages` refuses
a protected package; the shell texts that the two tools would have run can also
be handed to `run_command`. What the command policy makes of them is decided by
the target alone: the words around it trip no forbidden form, and the quotes
around a unit keep a forbidden text from reaching across. A protected name is no
forbidden text, so the refusal is not repeated.
-/

namespace MindOS.Tools

open Text Policy

/-! ### The texts of the two tools -/

/-- What stands between `systemctl` and `--`. -/
def serviceVerbs : List Text := plainActions ++ ["enable --now".toList, "disable --now".toList]

/-- The program of both calls. -/
def systemctl : Text := "systemctl"

/-- What precedes the unit. -/
def invocation (verb : Text) : Text := "systemctl ".toList ++ verb ++ " --".toList

/-- The words of the second call in front of its unit. -/
def statusArgs : Text := "systemctl status --no-pager -n 5 --"

/-- What stands between the two copies of the unit. -/
def statusCall : Text := '&' :: '&' :: ' ' :: statusArgs

/-- The text of a service call around a quoted unit. -/
def serviceText (verb q : Text) : Text :=
  invocation verb ++ ' ' :: (q ++ ' ' :: (statusCall ++ ' ' :: q))

private theorem append_of_eq {x y z : Text} (h : y = z ++ [' ']) : x ++ y = x ++ z ++ [' '] := by
  rw [h, List.append_assoc]

private theorem append_of_eq_cons {x y z q : Text} (h : y = ' ' :: (z ++ [' '])) :
    x ++ ' ' :: q ++ y ++ q = x ++ ' ' :: (q ++ ' ' :: (z ++ ' ' :: q)) := by
  simp [h]

private theorem append_blank_append (x q : Text) : x ++ [' '] ++ q = x ++ ' ' :: q := by
  simp

theorem serviceCall_eq_ok {action unit c : Text} (h : serviceCall action unit = .ok c) :
    ∃ verb ∈ serviceVerbs, c = invocation verb ++ ' ' :: shellQuote unit := by
  have hdash : " -- ".toList = " --".toList ++ [' '] := by decide
  have hverb : ∀ verb : Text, "systemctl ".toList ++ verb ++ " -- ".toList =
      invocation verb ++ [' '] := fun verb => append_of_eq hdash
  have henable : "systemctl enable --now -- ".toList =
      invocation "enable --now" ++ [' '] := by decide
  have hdisable : "systemctl disable --now -- ".toList =
      invocation "disable --now" ++ [' '] := by decide
  unfold serviceCall at h
  by_cases h₁ : action = "enable-now".toList
  · rw [if_pos h₁, henable, append_blank_append] at h
    exact ⟨"enable --now", by decide, (Except.ok.inj h).symm⟩
  · by_cases h₂ : action = "disable-now".toList
    · rw [if_neg h₁, if_pos h₂, hdisable, append_blank_append] at h
      exact ⟨"disable --now", by decide, (Except.ok.inj h).symm⟩
    · rw [if_neg h₁, if_neg h₂, hverb, append_blank_append] at h
      by_cases h₃ : plainActions.contains action
      · rw [if_pos h₃] at h
        exact ⟨action, List.mem_append_left _ (List.contains_iff_mem.mp h₃),
          (Except.ok.inj h).symm⟩
      · rw [if_neg h₃] at h
        cases h

theorem serviceControlCommand_eq_ok {args : Json} {text : Text}
    (h : serviceControlCommand args = .ok text) :
    ∃ unit, args.getStr "unit" = some unit ∧
      ∃ verb ∈ serviceVerbs, text = serviceText verb (shellQuote unit) := by
  have hstatus : " && systemctl status --no-pager -n 5 -- ".toList =
      ' ' :: (statusCall ++ [' ']) := by decide
  unfold serviceControlCommand at h
  split at h
  case h_1 => cases h
  case h_2 => cases h
  case h_3 unit action hunit _ =>
    cases hcall : serviceCall action unit with
    | error e =>
        rw [hcall] at h
        cases h
    | ok c =>
        obtain ⟨verb, hverb, rfl⟩ := serviceCall_eq_ok hcall
        rw [hcall] at h
        exact ⟨unit, hunit, verb, hverb, (Except.ok.inj h).symm.trans (append_of_eq_cons hstatus)⟩

theorem removePackagesCommand_eq_ok {args : Json} {text : Text}
    (h : removePackagesCommand args = .ok text) :
    ∃ list, pkgList args = .ok list ∧ text = "mindos-pkg remove ".toList ++ list := by
  cases hlist : pkgList args with
  | error e => simp [removePackagesCommand, hlist, Except.map] at h
  | ok list =>
      refine ⟨list, rfl, ?_⟩
      simpa [removePackagesCommand, hlist, Except.map, eq_comm] using h

/-! ### A service call -/

theorem toLowercase_cons_blank (t : Text) : toLowercase (' ' :: t) = ' ' :: toLowercase t := rfl

theorem words_statusArgs : ∃ ws, words statusArgs = systemctl :: ws :=
  ⟨["status".toList, "--no-pager".toList, "-n".toList, "5".toList, "--".toList], by decide⟩

theorem stageWords_append_stageBlank (t u : Text) : stageWords stageSep (t ++ ' ' :: u) =
    glue (stageWords stageSep t) (stageWords stageSep u) :=
  stageWords_append_blank t u rfl isWhitespace_blank

theorem toLowercase_shellQuote (unit : Text) :
    ∃ m, (shellQuote unit).toLowercase = '\'' :: (m ++ ['\'']) :=
  ⟨toLowercase (unit.replaceChar '\'' "'\\''"), by
    rw [shellQuote, toLowercase_append, toLowercase_append]; rfl⟩

section Service

variable {verb : Text} (hverb : verb ∈ serviceVerbs)

include hverb

theorem toLowercase_serviceText (q : Text) :
    (serviceText verb q).toLowercase = serviceText verb q.toLowercase := by
  have hinv : ∀ v ∈ serviceVerbs, (invocation v).toLowercase = invocation v := by decide
  have hstatus : statusCall.toLowercase = statusCall := by decide
  simp only [serviceText, toLowercase_append, toLowercase_cons_blank, hinv verb hverb, hstatus]

theorem words_invocation : ∃ ws, words (invocation verb) = systemctl :: ws := by
  have hinv : ∀ v ∈ serviceVerbs, (words (invocation v)).head? = some systemctl := by
    decide
  obtain ⟨ws, hws⟩ := List.head?_eq_some_iff.mp (hinv verb hverb)
  exact ⟨ws, hws⟩

theorem stageWords_invocation {p : Char → Bool} (hp : p = stageSep ∨ p = pipeSep) :
    stageWords p (invocation verb) = [words (invocation verb)] := by
  have hinv : ∀ v ∈ serviceVerbs, ∀ c ∈ invocation v, stageSep c = false ∧ pipeSep c = false := by
    decide
  have hnone : ∀ c ∈ invocation verb, p c = false := by
    intro c hc
    rcases hp with rfl | rfl
    · exact (hinv verb hverb c hc).1
    · exact (hinv verb hverb c hc).2
  rw [stageWords, List.splitOnP_eq_singleton hnone]
  rfl

omit hverb in
/-- The stages across the status call: those of the text before it, an empty one, and
those of its own words with the text behind it. -/
theorem stageWords_statusCall (t u : Text) :
    stageWords stageSep (t ++ ' ' :: (statusCall ++ ' ' :: u)) =
      stageWords stageSep t ++ [] ::
        glue [words statusArgs] (stageWords stageSep u) := by
  have hsplit : t ++ ' ' :: (statusCall ++ ' ' :: u) =
      (t ++ ' ' :: []) ++ '&' :: ([] ++ '&' :: ([] ++ ' ' :: (statusArgs ++ ' ' :: u))) := by
    simp only [statusCall, List.append_assoc, List.cons_append, List.nil_append]
  have hargs : stageWords stageSep statusArgs = [words statusArgs] := by decide
  rw [hsplit, stageWords_append_sep _ _ (rfl : stageSep '&' = true),
    stageWords_append_sep _ _ (rfl : stageSep '&' = true), stageWords_append_stageBlank,
    stageWords_append_stageBlank, stageWords_append_stageBlank, stageWords_nil, hargs,
    glue_nil_right (stageWords_ne_nil _ _), glue_nil_left (glue_ne_nil _ _)]
  rfl

theorem deletesASystemPath_serviceText (q : Text) :
    deletesASystemPath (normalized (serviceText verb q)) =
      (q.toLowercase.stageWords stageSep).tail.any stageDeletes := by
  have hsystemctl : ∀ ws, stageDeletes (systemctl :: ws) = false :=
    stageDeletes_cons (by decide) (by decide)
  obtain ⟨ws, hws⟩ := words_invocation hverb
  obtain ⟨vs, hvs⟩ := words_statusArgs
  rw [deletesASystemPath_normalized, toLowercase_serviceText hverb, serviceText,
    stageWords_append_stageBlank, stageWords_invocation hverb (.inl rfl), stageWords_statusCall,
    hws, hvs]
  obtain ⟨h, T, hT⟩ := List.exists_cons_of_ne_nil (stageWords_ne_nil stageSep q.toLowercase)
  have hempty : stageDeletes [] = false := rfl
  simp [hT, glue_singleton_left, hsystemctl, hempty]

/-- The programs of the pipeline: `systemctl`, and twice those of the stages that
begin inside the unit. -/
theorem stagePrograms_serviceText (unit : Text) :
    stagePrograms (serviceText verb (shellQuote unit)) = systemctl ::
      ((stagePrograms (shellQuote unit)).tail ++ (stagePrograms (shellQuote unit)).tail) := by
  have hsystemctl : ∀ ws, stageProgram (systemctl :: ws) = systemctl :=
    stageProgram_cons (by decide)
  have hblank : ∀ t u : Text, stageWords pipeSep (t ++ ' ' :: u) =
      glue (stageWords pipeSep t) (stageWords pipeSep u) :=
    fun t u => stageWords_append_blank t u rfl isWhitespace_blank
  have hstatus : stageWords pipeSep statusCall = [words statusCall] := by decide
  obtain ⟨ws, hws⟩ := words_invocation hverb
  obtain ⟨m, hm⟩ := toLowercase_shellQuote unit
  obtain ⟨init, l, hlast⟩ := stageWords_concat ('\'' :: m) (rfl : pipeSep '\'' = false)
  rw [stagePrograms, stagePrograms, toLowercase_serviceText hverb, serviceText, hblank, hblank,
    hblank, stageWords_invocation hverb (.inr rfl), hstatus, hws, hm, ← List.cons_append, hlast]
  -- The stage that ends the first copy runs the program it would run alone.
  have hprog : ∀ more, stageProgram (words (l ++ ['\'']) ++ more) =
      stageProgram (words (l ++ ['\''])) := by
    intro more
    obtain ⟨w, hw, hquote⟩ := exists_mem_words (t := l ++ ['\'']) (c := '\'') (by simp) (by decide)
    refine stageProgram_append hw ?_ more
    by_contra hwrap
    have hwrappers : ∀ v ∈ pipeWrappers, '\'' ∉ v := by decide
    exact hwrappers w (List.contains_iff_mem.mp (by simpa using hwrap)) hquote
  cases init with
  | nil => simp [glue, hsystemctl]
  | cons h init =>
      rw [glue_concat, glue_singleton_left, glue_singleton_left]
      simp [hsystemctl, hprog]

theorem hasForbiddenText_serviceText (unit : Text) :
    hasForbiddenText (normalized (serviceText verb (shellQuote unit))) =
      hasForbiddenText (normalized (shellQuote unit)) := by
  have hquote : ∀ f ∈ forbiddenTexts, '\'' ∉ f := by decide
  have hinv : ∀ v ∈ serviceVerbs, squeeze (invocation v) = invocation v ∧
      ∀ f ∈ forbiddenTexts, ¬ f <:+: invocation v ++ [' '] := by decide
  have hstatus : squeeze statusCall = statusCall ∧
      ∀ f ∈ forbiddenTexts, ¬ f <:+: ' ' :: (statusCall ++ [' ']) := by decide +kernel
  have hfull : words statusCall ≠ [] := by decide
  obtain ⟨ws, hws⟩ := words_invocation hverb
  obtain ⟨m, hm⟩ := toLowercase_shellQuote unit
  have hhead : ∃ l, normalized (shellQuote unit) = '\'' :: l := by
    rw [normalized, hm]
    exact squeeze_cons _ (by decide)
  have hlast : ∃ l, normalized (shellQuote unit) = l ++ ['\''] := by
    rw [normalized, hm, ← List.cons_append]
    exact squeeze_concat _ (by decide)
  have hnonempty : words (shellQuote unit).toLowercase ≠ [] := by
    obtain ⟨w, hw, -⟩ := exists_mem_words (t := (shellQuote unit).toLowercase) (c := '\'')
      (by rw [hm]; exact List.mem_cons_self) (by decide)
    exact List.ne_nil_of_mem hw
  have hwhole : normalized (serviceText verb (shellQuote unit)) =
      (invocation verb ++ [' ']) ++ normalized (shellQuote unit) ++
        (' ' :: (statusCall ++ [' ']) ++ normalized (shellQuote unit) ++ []) := by
    rw [normalized, toLowercase_serviceText hverb, serviceText,
      squeeze_append_blank (by rw [hws]; simp) (by simp [words_append_blank, hnonempty]),
      squeeze_append_blank hnonempty (by simp [words_append_blank, hfull]),
      squeeze_append_blank hfull hnonempty, (hinv verb hverb).1, hstatus.1, normalized]
    simp
  apply Bool.eq_iff_iff.mpr
  constructor
  · intro h
    obtain ⟨f, hf, hcontains⟩ := List.any_eq_true.mp h
    refine List.any_eq_true.mpr ⟨f, hf, contains_iff.mpr ?_⟩
    rw [contains_iff, hwhole] at hcontains
    -- The first copy and the second are each kept apart by their quotes.
    rcases infix_append_bounded (hquote f hf) hhead hlast hcontains with h | h | h
    · exact absurd h ((hinv verb hverb).2 f hf)
    · exact h
    · rcases infix_append_bounded (hquote f hf) hhead hlast h with h | h | h
      · exact absurd h (hstatus.2 f hf)
      · exact h
      · rw [List.infix_nil.mp h]
        exact List.nil_infix
  · intro h
    obtain ⟨f, hf, hcontains⟩ := List.any_eq_true.mp h
    refine List.any_eq_true.mpr ⟨f, hf, contains_iff.mpr ?_⟩
    rw [hwhole]
    exact (contains_iff.mp hcontains).trans (List.infix_append _ _ _)

end Service

/-- The forbidden forms that a unit brings along by itself: a forbidden text, an
`rm` behind a separator, or, since the unit stands in the command twice, a
download before an interpreter in its later pipeline stages read twice over. -/
def unitForbidden (unit : Text) : Bool :=
  hasForbiddenText (normalized (shellQuote unit)) ||
    ((shellQuote unit).toLowercase.stageWords stageSep).tail.any stageDeletes ||
    downloadThenShell false
      ((stagePrograms (shellQuote unit)).tail ++ (stagePrograms (shellQuote unit)).tail)

theorem classifyCommand_serviceText {verb : Text} (hverb : verb ∈ serviceVerbs) (unit : Text)
    (cfg : PolicyConfig) :
    classifyCommand (serviceText verb (shellQuote unit)) cfg = .forbidden ↔
      unitForbidden unit = true := by
  have hsystemctl : interpreters.contains systemctl = false ∧
      downloaders.contains systemctl = false := by decide
  rw [classifyCommand_eq_forbidden, isForbidden_normalized, ruinous,
    hasForbiddenText_serviceText hverb, deletesASystemPath_serviceText hverb,
    stagePrograms_serviceText hverb]
  simp only [downloadThenShell, hsystemctl, unitForbidden, Bool.or_eq_true, Bool.and_false,
    Bool.or_false, Bool.false_eq_true, if_false]

/-! ### A removal -/

/-- What precedes the package list. -/
def removal : Text := "mindos-pkg remove"

theorem removal_append (list : Text) :
    "mindos-pkg remove ".toList ++ list = removal ++ ' ' :: list := by
  have htext : "mindos-pkg remove ".toList = removal ++ [' '] := by decide
  rw [htext, ← List.append_cons]

/-- In lower case a package character stays one character, neither whitespace
nor a separator. -/
theorem lowerChar_of_packageChar {c : Char} (h : packageChar c = true) :
    lowerChar c = [c.toLower] ∧ isWhitespace c.toLower = false ∧
      stageSep c.toLower = false ∧ pipeSep c.toLower = false :=
  packageChar_forall (P := fun c => lowerChar c = [c.toLower] ∧ isWhitespace c.toLower = false ∧
    stageSep c.toLower = false ∧ pipeSep c.toLower = false) (by decide) h

theorem toLowercase_pkgList {args : Json} {list : Text} (h : pkgList args = .ok list) :
    words list.toLowercase ≠ [] ∧
      ∀ c ∈ list.toLowercase, stageSep c = false ∧ pipeSep c = false := by
  obtain ⟨hnames, hchars, rfl⟩ := pkgList_eq_ok h
  constructor
  · obtain ⟨n, ns, hcons⟩ := List.exists_cons_of_ne_nil hnames
    rw [hcons] at hchars ⊢
    obtain ⟨hn, hpkg⟩ := hchars n List.mem_cons_self
    obtain ⟨c, cs, rfl⟩ := List.exists_cons_of_ne_nil hn
    obtain ⟨hlower, hws, -⟩ := lowerChar_of_packageChar (hpkg c List.mem_cons_self)
    have hc : c ∈ unwords ((c :: cs) :: ns) :=
      (unwords_prefix_append [c :: cs] ns).mem List.mem_cons_self
    obtain ⟨w, hw, -⟩ := exists_mem_words (t := toLowercase (unwords ((c :: cs) :: ns)))
      (List.mem_flatMap.mpr ⟨c, hc, by rw [hlower]; exact List.mem_singleton_self _⟩) hws
    exact List.ne_nil_of_mem hw
  · intro d hd
    obtain ⟨c, hc, hdc⟩ := List.mem_flatMap.mp hd
    rcases mem_join hc with hblank | ⟨n, hn, hcn⟩
    · rw [List.mem_singleton.mp hblank] at hdc
      rw [List.mem_singleton.mp (hdc : d ∈ [' '])]
      decide
    · obtain ⟨hlower, -, hsep⟩ := lowerChar_of_packageChar ((hchars n hn).2 c hcn)
      rw [hlower] at hdc
      rw [List.mem_singleton.mp hdc]
      exact hsep

theorem hasForbiddenText_removal (t : Text) :
    hasForbiddenText ((removal ++ [' ']) ++ t) = hasForbiddenText t := by
  have hremoval : ∀ f ∈ forbiddenTexts, ¬ f <:+: removal ++ [' '] ∧
      ∀ s ∈ (removal ++ [' ']).tails, s ≠ [] → ¬ s <+: f := by decide
  apply Bool.eq_iff_iff.mpr
  constructor
  · intro h
    obtain ⟨f, hf, hcontains⟩ := List.any_eq_true.mp h
    refine List.any_eq_true.mpr ⟨f, hf, contains_iff.mpr ?_⟩
    obtain h | h | ⟨s, u, rfl, hs, -, hsuffix, -⟩ :=
      infix_append_cases (contains_iff.mp hcontains)
    · exact absurd h (hremoval f hf).1
    · exact h
    · exact absurd (List.prefix_append s u)
        ((hremoval _ hf).2 s ((List.mem_tails s _).mpr hsuffix) hs)
  · intro h
    obtain ⟨f, hf, hcontains⟩ := List.any_eq_true.mp h
    exact List.any_eq_true.mpr ⟨f, hf, contains_iff.mpr
      ((contains_iff.mp hcontains).trans (List.suffix_append _ _).isInfix)⟩

theorem classifyCommand_removal {args : Json} {list : Text} (h : pkgList args = .ok list)
    (cfg : PolicyConfig) :
    classifyCommand (removal ++ ' ' :: list) cfg = .forbidden ↔
      hasForbiddenText (normalized list) = true := by
  obtain ⟨hwords, hsep⟩ := toLowercase_pkgList h
  have hlower : removal.toLowercase = removal := by decide
  have hsqueeze : squeeze removal = removal := by decide
  obtain ⟨ws, hremoval⟩ : ∃ ws, words removal = "mindos-pkg".toList :: ws :=
    ⟨["remove".toList], by decide⟩
  have hstage : ∀ p : Char → Bool, p = stageSep ∨ p = pipeSep →
      stageWords p (removal ++ ' ' :: list.toLowercase) =
        [words removal ++ words list.toLowercase] := by
    intro p hp
    have hplain : ∀ c ∈ removal ++ ' ' :: [], stageSep c = false ∧ pipeSep c = false := by
      decide
    have hnone : ∀ c ∈ removal ++ ' ' :: list.toLowercase, p c = false := by
      intro c hc
      rw [List.append_cons, List.mem_append] at hc
      have hboth := hc.elim (hplain c) (hsep c)
      rcases hp with rfl | rfl
      · exact hboth.1
      · exact hboth.2
    rw [stageWords, List.splitOnP_eq_singleton hnone, List.map_singleton, words_append_blank]
  have hnormalized : normalized (removal ++ ' ' :: list) =
      (removal ++ [' ']) ++ normalized list := by
    rw [normalized, toLowercase_append, toLowercase_cons_blank, hlower,
      squeeze_append_blank (by rw [hremoval]; simp) hwords, hsqueeze, ← List.append_cons]
    rfl
  rw [classifyCommand_eq_forbidden, isForbidden_normalized, ruinous, deletesASystemPath_normalized,
    stagePrograms, toLowercase_append, toLowercase_cons_blank, hlower, hstage _ (.inl rfl),
    hstage _ (.inr rfl), hremoval, hnormalized]
  have hdeletes : ∀ ws, stageDeletes ("mindos-pkg".toList :: ws) = false :=
    stageDeletes_cons (by decide) (by decide)
  have hprog : ∀ ws, stageProgram ("mindos-pkg".toList :: ws) = "mindos-pkg".toList :=
    stageProgram_cons (by decide)
  have hnot : downloadThenShell false ["mindos-pkg".toList] = false := by decide
  rw [hasForbiddenText_removal, List.any_cons, List.any_nil, List.cons_append, hdeletes,
    List.map_cons, List.map_nil, hprog, hnot]
  simp

/-! ### Refused calls -/

/-- The shell text that a call of one of the two refusing tools runs. -/
def BuildsCommand (d : ToolDef) (args : Json) (text : Text) : Prop :=
  (d.name = "service_control".toList ∧ serviceControlCommand args = .ok text) ∨
    (d.name = "remove_packages".toList ∧ removePackagesCommand args = .ok text)

/-- The target of the call carries a forbidden form by itself. -/
def TargetForbidden (d : ToolDef) (args : Json) : Prop :=
  (d.name = "service_control".toList ∧
      ∃ unit, args.getStr "unit" = some unit ∧ unitForbidden unit = true) ∨
    (d.name = "remove_packages".toList ∧
      ∃ list, pkgList args = .ok list ∧ hasForbiddenText (normalized list) = true)

/-- The command policy refuses the text of a call exactly when the call's target
is forbidden whatever stands around it. -/
theorem classifyCommand_of_buildsCommand {d : ToolDef} {args : Json} {text : Text}
    (h : BuildsCommand d args text) (cfg : PolicyConfig) :
    classifyCommand text cfg = .forbidden ↔ TargetForbidden d args := by
  have hnames : "service_control".toList ≠ "remove_packages".toList := by decide
  rcases h with ⟨hname, htext⟩ | ⟨hname, htext⟩
  · obtain ⟨unit, hunit, verb, hverb, rfl⟩ := serviceControlCommand_eq_ok htext
    rw [classifyCommand_serviceText hverb]
    constructor
    · exact fun hforbidden => .inl ⟨hname, unit, hunit, hforbidden⟩
    · rintro (⟨-, unit', hunit', hforbidden⟩ | ⟨hother, -⟩)
      · rw [hunit] at hunit'
        rwa [Option.some.inj hunit']
      · exact absurd (hname.symm.trans hother) hnames
  · obtain ⟨list, hlist, rfl⟩ := removePackagesCommand_eq_ok htext
    rw [removal_append, classifyCommand_removal hlist]
    constructor
    · exact fun hforbidden => .inr ⟨hname, list, hlist, hforbidden⟩
    · rintro (⟨hother, -⟩ | ⟨-, list', hlist', hforbidden⟩)
      · exact absurd (hother.symm.trans hname) hnames
      · rw [hlist] at hlist'
        rwa [Except.ok.inj hlist']

/-- The command policy repeats a refusal of `service_control` or
`remove_packages` exactly when the refused target is forbidden by itself. -/
theorem refusal_repeated_iff {d : ToolDef} {args : Json} {text : Text} (cfg : Config)
    (h : BuildsCommand d args text) :
    (policyFor d args cfg = .forbidden → classifyCommand text cfg.policy = .forbidden) ↔
      (policyFor d args cfg = .forbidden → TargetForbidden d args) := by
  rw [classifyCommand_of_buildsCommand h]

/-- Stopping `mindd`. -/
def stopMindd : Json := .obj [("unit", .str "mindd"), ("action", .str "stop")]

theorem refusal_repeated_iff_stopMindd :
    policyFor ⟨"service_control", .change, "services"⟩ stopMindd {} = .forbidden ∧
      ((policyFor ⟨"service_control", .change, "services"⟩ stopMindd {} = .forbidden →
          classifyCommand (serviceText "stop" "'mindd'") {} = .forbidden) ↔
        (policyFor ⟨"service_control", .change, "services"⟩ stopMindd {} = .forbidden →
          TargetForbidden ⟨"service_control", .change, "services"⟩ stopMindd)) :=
  ⟨by decide, refusal_repeated_iff {} (.inl ⟨rfl, by decide⟩)⟩

/-- `service_control` refuses to stop `mindd`, and its shell text is one that
`run_command` runs after a confirmation. -/
theorem refusal_not_repeated :
    ¬ ∀ (d : ToolDef) (args : Json) (text : Text) (cfg : Config), BuildsCommand d args text →
      policyFor d args cfg = .forbidden → classifyCommand text cfg.policy = .forbidden := by
  intro h
  have hbuilds : BuildsCommand ⟨"service_control", .change, "services"⟩ stopMindd
      (serviceText "stop" "'mindd'") := .inl ⟨rfl, by decide⟩
  have hrefused := h _ _ _ {} hbuilds (by decide)
  rw [classifyCommand_of_buildsCommand hbuilds] at hrefused
  obtain ⟨-, unit, hunit, hforbidden⟩ | ⟨hname, -⟩ := hrefused
  · obtain rfl := Option.some.inj (hunit.symm.trans (rfl : _ = some "mindd".toList))
    exact absurd hforbidden (by decide)
  · exact absurd hname (by decide)

end MindOS.Tools
