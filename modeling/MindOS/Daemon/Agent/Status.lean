import MindOS.Daemon.Agent.Editing
import MindOS.Text.Lines

/-!
# The status block

What `placeStatus` keeps of a conversation. The model server reuses what it has computed
for a conversation up to the first change, so the messages have to stay as they are up
to a status block that is replaced.
-/

namespace MindOS.Agent

open Text

/-! ### The newest one -/

section Last

variable {α : Type*} {p : α → Bool} {l : List α}

theorem rposition_eq_none_iff : rposition p l = none ↔ ∀ x ∈ l, p x = false := by
  induction l with
  | nil => simp [rposition]
  | cons x l ih =>
      rw [rposition, List.forall_mem_cons]
      cases h : rposition p l with
      | none =>
          rw [h] at ih
          have hl := ih.mp rfl
          cases hx : p x with
          | false => exact iff_of_true (if_neg (by decide)) ⟨rfl, hl⟩
          | true => exact iff_of_false (by simp) fun hall => absurd hall.1 (by decide)
      | some i =>
          rw [h] at ih
          exact iff_of_false (by simp) fun hall => absurd (ih.mpr hall.2) (by simp)

theorem rposition_append {front back : List α} {x : α} (hx : p x = true)
    (hback : ∀ y ∈ back, p y = false) : rposition p (front ++ x :: back) = some front.length := by
  induction front with
  | nil =>
      rw [List.nil_append, rposition, rposition_eq_none_iff.mpr hback]
      exact if_pos hx
  | cons y front ih =>
      rw [List.cons_append, rposition, ih]
      rfl

theorem exists_of_rposition {i : Nat} (h : rposition p l = some i) :
    ∃ front x back, l = front ++ x :: back ∧ front.length = i ∧ p x = true ∧
      ∀ y ∈ back, p y = false := by
  induction l generalizing i with
  | nil => cases h
  | cons x l ih =>
      rw [rposition] at h
      split at h
      case h_1 j hj =>
        obtain rfl := Option.some.inj h
        obtain ⟨front, y, back, rfl, hlength, hy, hback⟩ := ih hj
        exact ⟨x :: front, y, back, rfl, by rw [List.length_cons, hlength], hy, hback⟩
      case h_2 hnone =>
        split at h
        case isTrue hx =>
          obtain rfl := Option.some.inj h
          exact ⟨[], x, l, rfl, rfl, hx, rposition_eq_none_iff.mp hnone⟩
        case isFalse => cases h

end Last

/-! ### What is placed -/

/-- The text is one line, and behind it the body. -/
def Says (t body : Text) : Prop := ∃ first, '\n' ∉ first ∧ t = first ++ '\n' :: body

theorem afterLine_append {first : Text} (h : '\n' ∉ first) (body : Text) :
    afterLine (first ++ '\n' :: body) = some body := by
  have hbehind := Lines.behindFirst_append h body
  rw [Lines.behindFirst, ← List.drop_one] at hbehind
  rw [afterLine, if_pos (by simp), hbehind]

theorem afterLine_eq_some_iff {t body : Text} : afterLine t = some body ↔ Says t body := by
  constructor
  · intro h
    by_cases hmem : '\n' ∈ t
    · obtain ⟨first, rest, rfl, hfirst⟩ := List.eq_append_cons_of_mem hmem
      rw [afterLine_append hfirst] at h
      cases h
      exact ⟨first, hfirst, rfl⟩
    · rw [afterLine, if_neg hmem] at h
      cases h
  · rintro ⟨first, hfirst, rfl⟩
    exact afterLine_append hfirst body

/-- The newest status block says the body. -/
def Placed (body : Text) (ms : List Message) : Prop :=
  ∃ front m back, ms = front ++ m :: back ∧ isBlock m = true ∧ (∀ b ∈ back, isBlock b = false) ∧
    ∃ t, m.content = some t ∧ Says t body

theorem statusUnchanged_iff {ms : List Message} {body : Text} :
    statusUnchanged ms body = true ↔ Placed body ms := by
  constructor
  · intro h
    rw [statusUnchanged, beq_iff_eq] at h
    cases hpos : rposition isBlock ms with
    | none => simp [hpos] at h
    | some i =>
        obtain ⟨front, m, back, rfl, rfl, hm, hback⟩ := exists_of_rposition hpos
        obtain ⟨t, ht, hsays⟩ : ∃ t, m.content = some t ∧ afterLine t = some body := by
          simpa [hpos, Option.bind_eq_some_iff] using h
        exact ⟨front, m, back, rfl, hm, hback, t, ht, afterLine_eq_some_iff.mp hsays⟩
  · rintro ⟨front, m, back, rfl, hm, hback, t, ht, hsays⟩
    rw [statusUnchanged, rposition_append hm hback]
    simp [ht, afterLine_eq_some_iff.mpr hsays]

/-! ### What is kept -/

/-- The list begins with the system message, and it holds the prompt. -/
def HoldsPrompt (systemPrompt : Text) (ms : List Message) : Prop :=
  ∃ s rest, ms = s :: rest ∧ s.role = .system ∧ s.content = some systemPrompt

theorem holdsPrompt_fixSystem (systemPrompt : Text) (ms : List Message) :
    HoldsPrompt systemPrompt (fixSystem systemPrompt ms) := by
  cases ms with
  | nil => exact ⟨_, [], rfl, rfl, rfl⟩
  | cons m ms =>
      rw [fixSystem]
      split
      case isTrue hrole => exact ⟨_, ms, rfl, hrole, rfl⟩
      case isFalse => exact ⟨_, m :: ms, rfl, rfl, rfl⟩

theorem fixSystem_of_holdsPrompt {systemPrompt : Text} {ms : List Message}
    (h : HoldsPrompt systemPrompt ms) : fixSystem systemPrompt ms = ms := by
  obtain ⟨s, rest, rfl, hrole, hcontent⟩ := h
  rw [fixSystem, if_pos hrole, ← hcontent]

/-- Everything before the daemon's first own line. -/
def beforeLines (ms : List Message) : List Message := ms.takeWhile fun m => !m.isStatus

theorem beforeLines_prefix_filter (ms : List Message) :
    beforeLines ms <+: ms.filter fun m => !m.isStatus := by
  induction ms with
  | nil => exact List.prefix_rfl
  | cons m ms ih =>
      cases hm : m.isStatus with
      | true =>
          rw [beforeLines, List.takeWhile_cons_of_neg (by simp [hm])]
          exact List.nil_prefix
      | false =>
          rw [beforeLines, List.takeWhile_cons_of_pos (by simp [hm]),
            List.filter_cons_of_pos (by simp [hm])]
          exact List.prefix_cons_inj m |>.mpr ih

/-- The block that says the body. -/
def newBlock (time body : Text) : Message :=
  .namedUser statusName ("Right now (".toList ++ time ++ "):\n".toList ++ body)

theorem not_isBlock_of_isClock {m : Message} (h : isClock m = true) : isBlock m = false := by
  have hnames : clockName ≠ statusName := by decide
  simp only [isClock, Bool.and_eq_true, beq_iff_eq] at h
  simp [isBlock, h.2, hnames]

section Place

variable {ms : List Message} {systemPrompt time body : Text}

theorem placeStatus_of_placed (h : Placed body (fixSystem systemPrompt ms)) :
    ∃ line, isClock line = true ∧
      placeStatus ms systemPrompt time body = fixSystem systemPrompt ms ++ [line] :=
  ⟨_, rfl, if_pos (statusUnchanged_iff.mpr h)⟩

theorem placeStatus_of_not_placed (h : ¬Placed body (fixSystem systemPrompt ms)) :
    placeStatus ms systemPrompt time body =
      (fixSystem systemPrompt ms).filter (fun m => !m.isStatus) ++ [newBlock time body] :=
  if_neg fun hsame => h (statusUnchanged_iff.mp hsame)

theorem says_block (htime : '\n' ∉ time) :
    Says ("Right now (".toList ++ time ++ "):\n".toList ++ body) body := by
  refine ⟨"Right now (".toList ++ time ++ "):".toList, ?_, by simp⟩
  have hfront : '\n' ∉ "Right now (".toList ∧ '\n' ∉ "):".toList := by decide
  simp only [List.mem_append, not_or]
  exact ⟨⟨hfront.1, htime⟩, hfront.2⟩

end Place

theorem holdsPrompt_placeStatus (ms : List Message) (systemPrompt time body : Text) :
    HoldsPrompt systemPrompt (placeStatus ms systemPrompt time body) := by
  obtain ⟨s, rest, hfix, hrole, hcontent⟩ := holdsPrompt_fixSystem systemPrompt ms
  by_cases hplaced : Placed body (fixSystem systemPrompt ms)
  · obtain ⟨line, -, heq⟩ : ∃ line, isClock line = true ∧
        placeStatus ms systemPrompt time body = fixSystem systemPrompt ms ++ [line] :=
      placeStatus_of_placed hplaced
    exact ⟨s, rest ++ [line], by rw [heq, hfix, List.cons_append], hrole, hcontent⟩
  · have hs : s.isStatus = false := by simp [Message.isStatus, hrole]
    refine ⟨s, rest.filter (fun m => !m.isStatus) ++ [newBlock time body], ?_, hrole, hcontent⟩
    rw [placeStatus_of_not_placed hplaced, hfix, List.filter_cons_of_pos (by simp [hs])]
    rfl

theorem placed_placeStatus {ms : List Message} {systemPrompt time body : Text}
    (htime : '\n' ∉ time) : Placed body (placeStatus ms systemPrompt time body) := by
  by_cases hplaced : Placed body (fixSystem systemPrompt ms)
  · obtain ⟨line, hclock, heq⟩ : ∃ line, isClock line = true ∧
        placeStatus ms systemPrompt time body = fixSystem systemPrompt ms ++ [line] :=
      placeStatus_of_placed hplaced
    obtain ⟨front, m, back, hfix, hm, hback, hsays⟩ := hplaced
    refine ⟨front, m, back ++ [line], by simp [heq, hfix], hm, ?_, hsays⟩
    intro b hb
    obtain hb | hb := List.mem_append.mp hb
    · exact hback b hb
    · rw [List.mem_singleton.mp hb]
      exact not_isBlock_of_isClock hclock
  · refine ⟨_, _, [], placeStatus_of_not_placed hplaced, rfl, by simp, _, rfl, says_block htime⟩

/-- Neither a status block nor a clock line. -/
def isOther (m : Message) : Bool := !isBlock m && !isClock m

/-- With the body that is placed the list grows at its end alone; with another one only
status blocks and clock lines change. -/
def AppendOnly (ms : List Message) (systemPrompt time body : Text) : Prop :=
  (Placed body ms → ms <+: placeStatus ms systemPrompt time body) ∧
    (¬Placed body ms →
      (placeStatus ms systemPrompt time body).filter isOther = ms.filter isOther)

/-- The daemon's own lines are status blocks and clock lines. -/
def OwnLines (ms : List Message) : Prop := ∀ m ∈ ms, m.isStatus = !isOther m

theorem appendOnly_of_holdsPrompt {ms : List Message} {systemPrompt : Text}
    (h : HoldsPrompt systemPrompt ms) (hown : OwnLines ms) (time body : Text) :
    AppendOnly ms systemPrompt time body := by
  have hfix := fixSystem_of_holdsPrompt h
  constructor
  · intro hplaced
    rw [← hfix] at hplaced
    obtain ⟨line, -, heq⟩ : ∃ line, isClock line = true ∧
        placeStatus ms systemPrompt time body = fixSystem systemPrompt ms ++ [line] :=
      placeStatus_of_placed hplaced
    rw [heq, hfix]
    exact List.prefix_append ms _
  · intro hplaced
    rw [← hfix] at hplaced
    have hsame : ms.filter (fun m => !m.isStatus) = ms.filter isOther :=
      List.filter_congr fun m hm => by rw [hown m hm, Bool.not_not]
    have hnew : [newBlock time body].filter isOther = [] := rfl
    rw [placeStatus_of_not_placed hplaced, hfix, hsame, List.filter_append, hnew,
      List.filter_filter, List.append_nil]
    simp only [Bool.and_self]

/-- What `placeStatus` does to any list, once the system message holds the prompt: with
the body that is placed it adds a clock line; with another one the daemon's own lines
go, everything else stays in its order, and a new block comes last. Everything before the
first own line stays as it is; a list that holds the prompt and has no own lines but blocks
and clock lines is only appended to. -/
theorem placeStatus_keeps (ms : List Message) (systemPrompt time body : Text) :
    (Placed body (fixSystem systemPrompt ms) →
      ∃ line, isClock line = true ∧
        placeStatus ms systemPrompt time body = fixSystem systemPrompt ms ++ [line]) ∧
    (¬Placed body (fixSystem systemPrompt ms) →
      ∃ block, isBlock block = true ∧
        placeStatus ms systemPrompt time body =
          (fixSystem systemPrompt ms).filter (fun m => !m.isStatus) ++ [block]) ∧
    beforeLines (fixSystem systemPrompt ms) <+: placeStatus ms systemPrompt time body ∧
    HoldsPrompt systemPrompt (placeStatus ms systemPrompt time body) ∧
    ('\n' ∉ time → Placed body (placeStatus ms systemPrompt time body)) ∧
    (HoldsPrompt systemPrompt ms → fixSystem systemPrompt ms = ms) ∧
    (HoldsPrompt systemPrompt ms → OwnLines ms → AppendOnly ms systemPrompt time body) := by
  refine ⟨placeStatus_of_placed, fun h => ⟨_, rfl, placeStatus_of_not_placed h⟩, ?_, ?_, ?_,
    fixSystem_of_holdsPrompt, fun h hown => appendOnly_of_holdsPrompt h hown time body⟩
  · by_cases hplaced : Placed body (fixSystem systemPrompt ms)
    · obtain ⟨line, -, heq⟩ : ∃ line, isClock line = true ∧
          placeStatus ms systemPrompt time body = fixSystem systemPrompt ms ++ [line] :=
        placeStatus_of_placed hplaced
      rw [heq]
      exact (List.takeWhile_prefix _).trans (List.prefix_append _ _)
    · rw [placeStatus_of_not_placed hplaced]
      exact (beforeLines_prefix_filter _).trans (List.prefix_append _ _)
  · exact holdsPrompt_placeStatus ms systemPrompt time body
  · exact placed_placeStatus

/-- A status block alone gets a system message put in front of it, and a line of the user
that has a name of its own goes with the daemon's lines. -/
theorem not_appendOnly :
    ¬AppendOnly [.namedUser statusName "Right now (t):\nb"] "p" "t" "b" ∧
      ¬AppendOnly [.ofSystem "p", .namedUser "alice" "hi"] "p" "t" "b" := by
  constructor
  · intro h
    refine absurd (h.1 ⟨[], _, [], rfl, rfl, by simp, _, rfl, "Right now (t):".toList, ?_, rfl⟩) ?_
    · decide
    · decide
  · intro h
    refine absurd (h.2 ?_) ?_
    · rw [← statusUnchanged_iff]
      decide
    · decide

end MindOS.Agent
