import MindOS.Daemon.Agent.Trimming

/-!
# What fits into the context

What `fitContext` leaves of a conversation: first it is made lighter, then turns go from
the front.
-/

namespace MindOS.Agent

open Text

/-! ### What is left of a conversation -/

/-- A conversation that was too long, and what is left of it. -/
structure Cut (ms ms' : List Message) : Prop where
  system : ms'.head? = ms.head?
  block : ms'.filter isBlock = ms.filter isBlock
  /-- The newest question, the daemon's lines before it and all that follows. -/
  newest : ∀ front lines question after, Newest front lines question after ms →
    ∃ fresh kept, FreshClock (lines ++ question :: after) fresh ∧ Shortened fresh kept ∧
      kept <:+ ms'
  /-- What goes besides clock lines are lines of the user and whole exchanges, from the
  oldest on. -/
  oldest : ∃ fresh short s old rest, FreshClock ms fresh ∧ Shortened fresh short ∧
    Trimmed s old rest short ms' ∧ Turns old []

theorem dropOldClocks_lines (lines after : List Message) {question : Message}
    (hquestion : isQuestion question = true) :
    ∃ lines', dropOldClocks (lines ++ question :: after) =
      lines' ++ question :: dropOldClocks after ∧ List.Sublist lines' lines := by
  induction lines with
  | nil =>
      have hclock : isClock question = false := by
        simp only [isQuestion, Bool.and_eq_true, Option.isNone_iff_eq_none] at hquestion
        simp [isClock, Message.isStatus, hquestion.2]
      exact ⟨[], by simp [dropOldClocks, hclock], List.Sublist.refl _⟩
  | cons m lines ih =>
      obtain ⟨lines', hlines, hsub⟩ := ih
      rw [List.cons_append, dropOldClocks]
      split
      case isTrue => exact ⟨lines', hlines, hsub.cons m⟩
      case isFalse => exact ⟨m :: lines', congrArg (m :: ·) hlines, hsub.cons_cons m⟩

theorem isTool_of_isStatus {m : Message} (h : m.isStatus = true) : m.isTool = false := by
  simp only [Message.isStatus, Bool.and_eq_true, beq_iff_eq] at h
  simp [Message.isTool, h.1]

theorem isTool_of_isQuestion {m : Message} (h : isQuestion m = true) : m.isTool = false := by
  simp only [isQuestion, Bool.and_eq_true, beq_iff_eq] at h
  simp [Message.isTool, h.1]

namespace Newest

variable {front lines after ms ms' : List Message} {question : Message}

theorem dropOldClocks (h : Newest front lines question after ms)
    (hhead : ∀ m ∈ ms.head?, isClock m = false) :
    ∃ front' lines', Newest front' lines' question (dropOldClocks after) (dropOldClocks ms) ∧
      lines' ++ question :: Agent.dropOldClocks after =
        Agent.dropOldClocks (lines ++ question :: after) := by
  obtain ⟨s, front, rfl⟩ := List.exists_cons_of_ne_nil h.front
  have hms : ms = s :: (front ++ (lines ++ question :: after)) := h.split
  have hs : isClock s = false := hhead s (by rw [hms]; rfl)
  obtain ⟨lines', hlines, hsub⟩ := dropOldClocks_lines lines after h.question
  obtain ⟨front', hfront⟩ := dropOldClocks_suffix front (lines ++ question :: after)
  refine ⟨s :: front', lines', ⟨?_, by simp, ?_, h.question, ?_⟩, hlines.symm⟩
  · rw [hms, Agent.dropOldClocks, hs, ← hfront, hlines]
    rfl
  · exact fun m hm => h.lines m (hsub.subset hm)
  · exact fun m hm => h.after m ((dropOldClocks_isSublist after).subset hm)

theorem shortened (h : Newest front lines question after ms) (hshort : Shortened ms ms') :
    ∃ front' after', Newest front' lines question after' ms' ∧
      Shortened (lines ++ question :: after) (lines ++ question :: after') := by
  obtain ⟨front', back', rfl, hlength, hback⟩ :=
    Shortened.append (h.split ▸ hshort) (by simp : lines ++ question :: after ≠ [])
  have heach : List.Forall₂ MayEmpty ((lines ++ [question]) ++ after) back' := by
    simpa using hback.each
  obtain ⟨after', rfl, hafter⟩ := append_of_mayEmpty heach (by
    intro m hm
    obtain hm | hm := List.mem_append.mp hm
    · exact isTool_of_isStatus (h.lines m hm)
    · rw [List.mem_singleton.mp hm]
      exact isTool_of_isQuestion h.question)
  have hsplit : lines ++ [question] ++ after' = lines ++ question :: after' := by simp
  rw [hsplit] at hback ⊢
  refine ⟨front', after', ⟨rfl, ?_, h.lines, h.question, ?_⟩, hback⟩
  · apply List.length_pos_iff.mp
    rw [hlength]
    exact List.length_pos_iff.mpr h.front
  · exact no_question_of_mayEmpty hafter h.after

end Newest

theorem Turns.left {old rest : List Message} {pending pending' : List ToolCall}
    (h : Turns (old ++ rest) pending) (hrest : Turns rest pending') (hne : rest ≠ []) :
    Turns old [] := by
  obtain ⟨r, rest, rfl⟩ := List.exists_cons_of_ne_nil hne
  have hr : ¬r.role = .tool := by simpa [Message.isTool] using hrest.head_not_tool
  generalize hms : old ++ r :: rest = ms at h
  induction h generalizing old with
  | nil => simp at hms
  | line role _ ih =>
      cases old with
      | nil => exact .nil
      | cons m old =>
          obtain ⟨rfl, hback⟩ := List.cons.inj hms
          exact .line role (ih hback)
  | @exchange a results ms _ role tools ids _ ih =>
      cases old with
      | nil => exact .nil
      | cons m old =>
          obtain ⟨rfl, hback⟩ := List.cons.inj hms
          obtain ⟨mid, rfl, hmid⟩ | ⟨mid, rfl, hmid⟩ := List.append_eq_append_iff.mp hback
          · cases mid with
            | nil =>
                rw [List.append_nil] at tools ids
                have hturns := Turns.exchange role tools ids .nil
                rwa [List.append_nil] at hturns
            | cons t mid =>
                obtain ⟨rfl, -⟩ := List.cons.inj hmid
                exact absurd (tools r (by simp)) hr
          · exact .exchange role tools ids (ih hmid.symm)
  | unfinished _ tools =>
      cases old with
      | nil => exact .nil
      | cons m old =>
          obtain ⟨rfl, rfl⟩ := List.cons.inj hms
          exact absurd (tools r (by simp)) hr

theorem Turns.lines {lines rest : List Message} {pending : List ToolCall}
    (h : Turns (lines ++ rest) pending) (hlines : ∀ m ∈ lines, m.role = .user) :
    Turns rest pending := by
  induction lines with
  | nil => exact h
  | cons m lines ih =>
      obtain ⟨hm, hlines⟩ := List.forall_mem_cons.mp hlines
      exact ih (h.tail hm) hlines

theorem role_of_isBlock {m : Message} (h : isBlock m = true) : m.role = .user := by
  simp only [isBlock, Message.isStatus, Bool.and_eq_true, beq_iff_eq] at h
  exact h.1.1

theorem Trimmed.turns {s : Message} {old rest ms ms' : List Message} {pending : List ToolCall}
    (h : Trimmed s old rest ms ms') (hms : Conversation ms pending)
    (hms' : Conversation ms' pending) : Turns old [] := by
  cases old with
  | nil => exact .nil
  | cons m old =>
      obtain ⟨s₁, rest₁, hsplit, -, hturns⟩ := hms.turns
      obtain ⟨s₂, rest₂, hleft, -, hturns'⟩ := hms'.turns
      obtain ⟨-, rfl⟩ := List.cons.inj (h.split.symm.trans hsplit)
      obtain ⟨-, rfl⟩ := List.cons.inj (h.left.symm.trans hleft)
      have hrest := hturns'.lines fun b hb => role_of_isBlock (List.mem_filter.mp hb).2
      exact hturns.left hrest (h.nonempty (by simp))

/-! ### Before a request -/

theorem emptyResults_shortened (render : Json → Text) (limit : Nat) (ms : List Message) :
    Shortened ms (emptyResults render limit (List.range' 1 (ms.length - 2)) ms) := by
  apply (Shortened.refl ms).emptyResults render limit
  intro i hi
  have := List.mem_range'_1.mp hi
  omega

theorem Conversation.head? {ms : List Message} {pending : List ToolCall}
    (h : Conversation ms pending) : ∃ s, ms.head? = some s ∧ s.role = .system := by
  obtain ⟨s, rest, rfl, hs, -⟩ := h.turns
  exact ⟨s, rfl, hs⟩

section Rounds

variable (render : Json → Text) (limit fuel : Nat) {ms ms' : List Message}
  {pending : List ToolCall}

/-- The conversation without old clock lines and with placeholders for tool results. -/
def lightened (ms : List Message) : List Message :=
  emptyResults render limit (List.range' 1 ((dropOldClocks ms).length - 2)) (dropOldClocks ms)

theorem lightened_shortened (ms : List Message) :
    Shortened (dropOldClocks ms) (lightened render limit ms) :=
  emptyResults_shortened render limit _

theorem Conversation.lightened (h : Conversation ms pending) :
    Conversation (lightened render limit ms) pending :=
  h.dropOldClocks.of_bare (map_bare_emptyResults ..)

theorem Conversation.exists_trimmed (h : Conversation ms pending) :
    ∃ s old rest, Trimmed s old rest (Agent.lightened render limit ms)
      (Agent.dropTurns render limit fuel (Agent.lightened render limit ms)) := by
  have hconv := h.lightened render limit
  apply exists_trimmed_dropTurns render limit fuel _ hconv.block
  obtain ⟨s, hs, -⟩ := hconv.head?
  intro hnil
  rw [hnil] at hs
  cases hs

theorem Conversation.cut (h : Conversation ms pending) :
    Cut ms (Agent.dropTurns render limit fuel (Agent.lightened render limit ms)) := by
  have hshort := lightened_shortened render limit ms
  obtain ⟨s₀, hs₀, hrole⟩ := h.head?
  obtain ⟨s, old, rest, htrim⟩ := h.exists_trimmed render limit fuel
  have hconv := h.lightened render limit
  have hclock : ∀ m ∈ ms.head?, isClock m = false := by
    intro m hm
    obtain rfl := Option.some.inj (hs₀.symm.trans hm)
    simp [isClock, Message.isStatus, hrole]
  have hfresh : (Agent.dropOldClocks ms).head? = ms.head? := by
    cases ms with
    | nil => rfl
    | cons m ms =>
        rw [Agent.dropOldClocks, hclock m rfl]
        rfl
  refine ⟨?_, ?_, ?_, ?_⟩
  · have hhead : (Agent.lightened render limit ms).head? = some s := by rw [htrim.split]; rfl
    have htool : ∀ m ∈ (Agent.dropOldClocks ms).head?, m.isTool = false := by
      rw [hfresh]
      intro m hm
      obtain rfl := Option.some.inj (hs₀.symm.trans hm)
      simp [Message.isTool, hrole]
    rw [htrim.left, List.head?_cons, ← hhead, hshort.head? htool, hfresh]
  · exact htrim.filter_isBlock.trans
      (hshort.filter_isBlock.trans (dropOldClocks_fresh ms).filter_isBlock)
  · intro front lines question after hnewest
    obtain ⟨front', lines', hnewest', hlines⟩ := hnewest.dropOldClocks hclock
    obtain ⟨front'', after', hnewest'', hkept⟩ := hnewest'.shortened hshort
    refine ⟨_, _, dropOldClocks_fresh _, hlines ▸ hkept, ?_⟩
    rw [htrim.left, ← List.cons_append]
    exact (htrim.kept _ _ _ _ hnewest'').trans (List.suffix_append _ _)
  · exact ⟨_, _, s, old, rest, dropOldClocks_fresh ms, hshort, htrim,
      htrim.turns hconv (hconv.dropTurns render limit fuel)⟩

theorem ShortNames.of_sublist {ms ms' : List Message} (h : ShortNames ms)
    (hsub : List.Sublist ms' ms) : ShortNames ms' :=
  fun m hm => h m (hsub.subset hm)

theorem Conversation.size (h : Conversation ms pending) (hnames : ShortNames ms) :
    total render (Agent.dropTurns render limit fuel (Agent.lightened render limit ms)) ≤
      total render ms := by
  have hsub := dropOldClocks_isSublist ms
  obtain ⟨s, old, rest, htrim⟩ := h.exists_trimmed render limit fuel
  calc total render (Agent.dropTurns render limit fuel (Agent.lightened render limit ms))
      ≤ total render (Agent.lightened render limit ms) := total_le_of_sublist render htrim.isSublist
    _ ≤ total render (Agent.dropOldClocks ms) :=
        (lightened_shortened render limit ms).total_le render (hnames.of_sublist hsub)
    _ ≤ total render ms := total_le_of_sublist render hsub

end Rounds

/-- The rounds end: by the time there have been as many as messages, the rest fits or
nothing may go, and more rounds change nothing. -/
def Ends (render : Json → Text) (limit : Nat) (ms : List Message) : Prop :=
  ∀ fuel, ms.length ≤ fuel →
    dropTurns render limit fuel ms = dropTurns render limit ms.length ms ∧
      (total render (dropTurns render limit fuel ms) ≤ limit ∨
        dropOldest (dropTurns render limit fuel ms) = none)

theorem ends (render : Json → Text) (limit : Nat) (ms : List Message) : Ends render limit ms :=
  fun _ hfuel => ⟨dropTurns_fuel render limit hfuel le_rfl, dropTurns_done render limit hfuel⟩

/-- What `fitContext` makes of a conversation. -/
structure Fitted (render : Json → Text) (limit : Nat) (pending : List ToolCall)
    (ms ms' : List Message) : Prop where
  ends : Ends render limit (lightened render limit ms)
  whole : total render ms ≤ limit → ms' = ms
  cut : limit < total render ms → Cut ms ms'
  conversation : Conversation ms' pending
  size : ShortNames ms → total render ms' ≤ total render ms
  done : total render ms' ≤ limit ∨ Exhausted ms'

section Fit

variable (render : Json → Text) (cfg : ModelConfig) (toolsChars : Nat) {ms : List Message}
  {pending : List ToolCall}

theorem fitContext_of_lt (h : budget cfg toolsChars < total render ms) :
    fitContext render cfg toolsChars ms = dropTurns render (budget cfg toolsChars)
      (lightened render (budget cfg toolsChars) ms).length
      (lightened render (budget cfg toolsChars) ms) :=
  if_neg (Nat.not_le.mpr h)

theorem fitContext_of_le (h : total render ms ≤ budget cfg toolsChars) :
    fitContext render cfg toolsChars ms = ms :=
  if_pos h

/-- The conversation that goes to the model. -/
theorem fitContext_fitted (h : Conversation ms pending) :
    Fitted render (budget cfg toolsChars) pending ms (fitContext render cfg toolsChars ms) := by
  refine ⟨ends render _ _, fitContext_of_le render cfg toolsChars, ?_, h.fitContext .., ?_, ?_⟩
  · intro hover
    rw [fitContext_of_lt render cfg toolsChars hover]
    exact h.cut ..
  · intro hnames
    obtain hover | hfits := Nat.lt_or_ge (budget cfg toolsChars) (total render ms)
    · rw [fitContext_of_lt render cfg toolsChars hover]
      exact h.size render _ _ hnames
    · rw [fitContext_of_le render cfg toolsChars hfits]
  · exact (fitContext_done render cfg toolsChars ms).imp_right exhausted_of_dropOldest

end Fit

/-- What goes, goes from the oldest on, the status block apart. -/
def GoesFromOldest (ms ms' : List Message) : Prop :=
  ∃ s old rest, ms = s :: (old ++ rest) ∧ ms' = s :: (old.filter isBlock ++ rest)

/-- The newest question stays, with the daemon's lines before it and all that follows. -/
def KeepsNewest (ms ms' : List Message) : Prop :=
  ∀ front lines question after, Newest front lines question after ms →
    lines ++ question :: after <:+ ms'

/-- A call as text. -/
def callText (name : Text) (_ : Json) : Text :=
  "\x7b\"function\":\x7b\"arguments\":\"\x7b\x7d\",\"name\":\"".toList ++ name ++
    "\"\x7d,\"id\":\"i\",\"type\":\"function\"\x7d".toList

/-- A session with an old clock line between two questions and a long tool result behind
the newest one. -/
def clockSession : List Message :=
  [.ofSystem "s".toList, .ofUser "a".toList, .namedUser clockName "1".toList,
    .ofUser "b".toList, .namedUser clockName "2".toList, .ofUser "c".toList,
    .ofAssistant [] [⟨"i".toList, "wiki".toList, "\x7b\x7d".toList⟩],
    .ofTool "i".toList "wiki".toList (List.replicate 1000 'x'), .ofAssistant "d".toList []]

/-- What is left of it in 1000 bytes. -/
def clockSessionLeft : List Message :=
  [.ofSystem "s".toList, .ofUser "a".toList, .ofUser "b".toList, .namedUser clockName "2".toList,
    .ofUser "c".toList, .ofAssistant [] [⟨"i".toList, "wiki".toList, "\x7b\x7d".toList⟩],
    .ofTool "i".toList "wiki".toList
      "[wiki result dropped: the conversation grew past the model's context]".toList,
    .ofAssistant "d".toList []]

/-- A session with the result of a tool whose name is longer than the result. -/
def nameSession : List Message :=
  [.ofSystem "s".toList, .ofUser "a".toList,
    .ofAssistant [] [⟨"i".toList, List.replicate 300 'n', "\x7b\x7d".toList⟩],
    .ofTool "i".toList (List.replicate 300 'n') (List.replicate 201 'x'),
    .ofAssistant (List.replicate 1000 'd') []]

theorem clockSession_conversation : Conversation clockSession [] :=
  ((((((((Conversation.start _).line rfl fun _ => rfl).line rfl fun _ => rfl).line rfl
    fun _ => rfl).line rfl fun _ => rfl).line rfl fun _ => rfl).reply _ _).answer _ _).reply _ _

/-- The session fits after one clock line and the text of the result. -/
theorem fitContext_fitted_clockSession :
    Conversation clockSession [] ∧
      Fitted (callText "wiki".toList) (budget ⟨4096, 4096⟩ 0) [] clockSession
        (fitContext (callText "wiki".toList) ⟨4096, 4096⟩ 0 clockSession) :=
  ⟨clockSession_conversation, fitContext_fitted _ _ _ clockSession_conversation⟩

theorem nameSession_conversation : Conversation nameSession [] :=
  ((((Conversation.start _).line rfl fun _ => rfl).reply _ _).answer _ _).reply _ _

theorem fitContext_clockSession :
    fitContext (callText "wiki".toList) ⟨4096, 4096⟩ 0 clockSession = clockSessionLeft := by
  decide +kernel

theorem not_goesFromOldest_left : ¬GoesFromOldest clockSession clockSessionLeft := by
  rintro ⟨s, old, rest, hms, hleft⟩
  have hnone : old.filter isBlock = [] := by
    apply List.eq_nil_iff_forall_not_mem.mpr
    intro b hb
    have hno : ∀ m ∈ clockSessionLeft, isBlock m = false := by decide
    have hmem : b ∈ clockSessionLeft := by
      rw [hleft]
      exact List.mem_cons_of_mem s (List.mem_append_left rest hb)
    exact absurd (List.mem_filter.mp hb).2 (by simp [hno b hmem])
  have hrest : clockSessionLeft.tail = rest := by rw [hleft, hnone]; rfl
  have hsuffix : rest <:+ clockSession.tail := by rw [hms]; exact List.suffix_append old rest
  rw [← hrest] at hsuffix
  exact absurd hsuffix (by decide)

theorem not_keepsNewest_left : ¬KeepsNewest clockSession clockSessionLeft := by
  intro h
  have hsuffix := h (clockSession.take 4) ((clockSession.drop 4).take 1) _ (clockSession.drop 6)
    ⟨rfl, by decide, by decide, rfl, by decide⟩
  exact absurd hsuffix (by decide)

/-- A clock line goes alone, a tool result behind the newest question loses its body, and
a placeholder may be longer than what it stands for. -/
theorem not_fitContext_keeps :
    (∃ render cfg ms, Conversation ms [] ∧ ¬GoesFromOldest ms (fitContext render cfg 0 ms) ∧
      ¬KeepsNewest ms (fitContext render cfg 0 ms)) ∧
      ∃ render cfg ms, Conversation ms [] ∧
        total render ms < total render (fitContext render cfg 0 ms) := by
  constructor
  · refine ⟨callText "wiki".toList, ⟨4096, 4096⟩, clockSession, clockSession_conversation, ?_⟩
    rw [fitContext_clockSession]
    exact ⟨not_goesFromOldest_left, not_keepsNewest_left⟩
  · refine ⟨callText (List.replicate 300 'n'), ⟨4096, 4096⟩, nameSession,
      nameSession_conversation, ?_⟩
    decide +kernel

end MindOS.Agent
