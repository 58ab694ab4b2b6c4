import Mathlib.Algebra.Order.BigOperators.Group.List
import Mathlib.Algebra.Order.Group.Nat
import Mathlib.Data.List.Forall2
import MindOS.Daemon.Agent.Status

/-!
# Trimming a conversation

## Lighter conversations

The first two things `fitContext` does to a conversation that is too long: all clock
lines but the newest go, and tool results lose their bodies.
-/

namespace MindOS.Agent

open Text

/-- What the user typed. -/
def isQuestion (m : Message) : Bool := m.role == .user && m.name.isNone

/-! ### Clock lines -/

/-- Of the clock lines only the newest one is left, and everything else. -/
structure FreshClock (ms ms' : List Message) : Prop where
  order : List.Sublist ms' ms
  clock : ms'.filter isClock = (ms.filter isClock).getLast?.toList
  other : ms'.filter (fun m => !isClock m) = ms.filter fun m => !isClock m

theorem dropOldClocks_fresh (ms : List Message) : FreshClock ms (dropOldClocks ms) := by
  refine ⟨dropOldClocks_isSublist ms, ?_, ?_⟩
  · induction ms with
    | nil => rfl
    | cons m ms ih =>
        rw [dropOldClocks]
        split
        case isTrue h =>
          obtain ⟨hm, hany⟩ := Bool.and_eq_true_iff.mp h
          have hne : ms.filter isClock ≠ [] := by
            obtain ⟨c, hc, hclock⟩ := List.any_eq_true.mp hany
            exact List.ne_nil_of_mem (List.mem_filter.mpr ⟨hc, hclock⟩)
          obtain ⟨c, cs, hcs⟩ := List.exists_cons_of_ne_nil hne
          rw [ih, List.filter_cons_of_pos hm, hcs, List.getLast?_cons_cons]
        case isFalse h =>
          cases hm : isClock m with
          | false =>
              have hneg : ¬isClock m = true := by simp [hm]
              rw [List.filter_cons_of_neg hneg, List.filter_cons_of_neg hneg, ih]
          | true =>
              have hnone : ms.filter isClock = [] := by
                rw [List.filter_eq_nil_iff]
                intro c hc hclock
                exact h (Bool.and_eq_true_iff.mpr ⟨hm, List.any_eq_true.mpr ⟨c, hc, hclock⟩⟩)
              rw [List.filter_cons_of_pos hm, List.filter_cons_of_pos hm, ih, hnone]
              rfl
  · induction ms with
    | nil => rfl
    | cons m ms ih =>
        rw [dropOldClocks]
        split
        case isTrue h =>
          have hm := (Bool.and_eq_true_iff.mp h).1
          rw [ih, List.filter_cons_of_neg (by simp [hm])]
        case isFalse =>
          rw [List.filter_cons, List.filter_cons, ih]

/-- What comes behind does not depend on what stands before. -/
theorem dropOldClocks_suffix (front back : List Message) :
    dropOldClocks back <:+ dropOldClocks (front ++ back) := by
  induction front with
  | nil => exact List.suffix_refl _
  | cons m front ih =>
      rw [List.cons_append, dropOldClocks]
      split
      case isTrue => exact ih
      case isFalse => exact ih.trans (List.suffix_cons m _)

theorem FreshClock.filter_isBlock {ms ms' : List Message} (h : FreshClock ms ms') :
    ms'.filter isBlock = ms.filter isBlock := by
  have hblock : ∀ l : List Message,
      (l.filter fun m => !isClock m).filter isBlock = l.filter isBlock := by
    intro l
    rw [List.filter_filter]
    apply List.filter_congr
    intro m _
    have hname : statusName ≠ clockName := by decide
    cases hm : isBlock m with
    | false => rfl
    | true =>
        simp only [isBlock, Bool.and_eq_true, beq_iff_eq] at hm
        simp [isClock, hm.2, hname]
  rw [← hblock ms', h.other, hblock ms]

/-! ### Bodies of tool results -/

/-- The same message, or the placeholder of a tool result of more than 200 bytes. -/
def MayEmpty (m m' : Message) : Prop := m' = m ∨ m' = emptied m

/-- The same messages, but tool results may be placeholders, the last message apart. -/
structure Shortened (ms ms' : List Message) : Prop where
  each : List.Forall₂ MayEmpty ms ms'
  last : ms'.getLast? = ms.getLast?

theorem not_isBlock_of_isTool {m : Message} (h : m.isTool = true) : ¬isBlock m = true := by
  have hrole := Message.isTool_iff.mp h
  simp [isBlock, Message.isStatus, hrole]

theorem emptied_of_not_tool {m : Message} (h : m.isTool = false) : emptied m = m := by
  rw [emptied, h]
  rfl

theorem isTool_emptied (m : Message) : (emptied m).isTool = m.isTool := by
  rw [emptied]
  split <;> rfl

theorem emptied_emptied (m : Message) : emptied (emptied m) = emptied m := by
  by_cases h : (m.isTool && decide (200 < (m.content.map len).getD 0)) = true
  · have hm : emptied m = { m with content := some ("[".toList ++ m.name.getD "tool" ++
        " result dropped: the conversation grew past the model's context]".toList) } := if_pos h
    rw [hm, emptied]
    split <;> rfl
  · have hm : emptied m = m := if_neg h
    rw [hm, hm]

theorem MayEmpty.eq_of_not_tool {m m' : Message} (h : MayEmpty m m') (htool : m.isTool = false) :
    m' = m := by
  obtain h | h := h
  · exact h
  · exact h.trans (emptied_of_not_tool htool)

theorem MayEmpty.isTool_eq {m m' : Message} (h : MayEmpty m m') : m'.isTool = m.isTool := by
  obtain rfl | rfl := h
  · rfl
  · exact isTool_emptied m

theorem MayEmpty.isQuestion_eq {m m' : Message} (h : MayEmpty m m') :
    isQuestion m' = isQuestion m := by
  obtain rfl | rfl := h
  · rfl
  · rw [emptied]
    split <;> rfl

/-- What no tool wrote stays at the front of the list. -/
theorem append_of_mayEmpty {front back ms' : List Message}
    (h : List.Forall₂ MayEmpty (front ++ back) ms') (hfront : ∀ m ∈ front, m.isTool = false) :
    ∃ back', ms' = front ++ back' ∧ List.Forall₂ MayEmpty back back' := by
  induction front generalizing ms' with
  | nil => exact ⟨ms', rfl, h⟩
  | cons m front ih =>
      cases h with
      | cons hm h =>
          obtain ⟨back', rfl, hback⟩ := ih h fun x hx => hfront x (List.mem_cons_of_mem m hx)
          exact ⟨back', by rw [hm.eq_of_not_tool (hfront m List.mem_cons_self)]; rfl, hback⟩

theorem no_question_of_mayEmpty {ms ms' : List Message} (h : List.Forall₂ MayEmpty ms ms')
    (hms : ∀ m ∈ ms, isQuestion m = false) : ∀ m ∈ ms', isQuestion m = false := by
  induction h with
  | nil => exact hms
  | cons hm _ ih =>
      obtain ⟨hquestion, hrest⟩ := List.forall_mem_cons.mp hms
      exact List.forall_mem_cons.mpr ⟨hm.isQuestion_eq.trans hquestion, ih hrest⟩

namespace Shortened

variable {ms ms' : List Message}

theorem refl (ms : List Message) : Shortened ms ms :=
  ⟨List.forall₂_same.mpr fun _ _ => .inl rfl, rfl⟩

theorem modify (h : Shortened ms ms') {i : Nat} (hi : i + 1 < ms'.length) :
    Shortened ms (ms'.modify i emptied) := by
  have hlength := h.each.length_eq
  constructor
  · apply List.forall₂_iff_get.mpr
    refine ⟨by rw [List.length_modify, hlength], fun j hj hj' => ?_⟩
    have hstep := (List.forall₂_iff_get.mp h.each).2 j hj (hlength ▸ hj)
    simp only [List.get_eq_getElem, List.getElem_modify] at hstep ⊢
    split
    case isTrue =>
      obtain hstep | hstep := hstep
      · exact .inr (congrArg emptied hstep)
      · exact .inr (by rw [hstep, emptied_emptied])
    case isFalse => exact hstep
  · have hlast : ¬i = ms'.length - 1 := by omega
    rw [← h.last, List.getLast?_eq_getElem?, List.getLast?_eq_getElem?, List.length_modify,
      List.getElem?_modify]
    simp [hlast]

theorem emptyResults (render : Json → Text) (limit : Nat) {is : List Nat} (h : Shortened ms ms')
    (his : ∀ i ∈ is, i + 1 < ms'.length) :
    Shortened ms (emptyResults render limit is ms') := by
  induction is generalizing ms' with
  | nil => exact h
  | cons i is ih =>
      rw [Agent.emptyResults]
      split
      case isTrue => exact h
      case isFalse =>
        apply ih (h.modify (his i List.mem_cons_self))
        intro j hj
        rw [List.length_modify]
        exact his j (List.mem_cons_of_mem i hj)

theorem append {front back : List Message} (h : Shortened (front ++ back) ms') (hne : back ≠ []) :
    ∃ front' back', ms' = front' ++ back' ∧ front'.length = front.length ∧
      Shortened back back' := by
  have hlength := h.each.length_eq
  have hback := List.length_pos_iff.mpr hne
  rw [List.length_append] at hlength
  refine ⟨ms'.take front.length, ms'.drop front.length, (List.take_append_drop _ _).symm,
    List.length_take_of_le (by omega), ?_, ?_⟩
  · have hdrop := List.forall₂_drop front.length h.each
    rwa [List.drop_left] at hdrop
  · rw [List.getLast?_drop, if_neg (by omega), h.last, List.getLast?_append_of_ne_nil _ hne]

theorem head? (h : Shortened ms ms') (hhead : ∀ m ∈ ms.head?, m.isTool = false) :
    ms'.head? = ms.head? := by
  obtain ⟨each, -⟩ := h
  cases each with
  | nil => rfl
  | cons hm _ => rw [List.head?_cons, hm.eq_of_not_tool (hhead _ rfl), List.head?_cons]

theorem filter_isBlock (h : Shortened ms ms') : ms'.filter isBlock = ms.filter isBlock := by
  obtain ⟨each, -⟩ := h
  induction each with
  | nil => rfl
  | @cons m m' ms ms' hm _ ih =>
      cases htool : m.isTool with
      | false => rw [hm.eq_of_not_tool htool, List.filter_cons, List.filter_cons, ih]
      | true =>
          have htool' : m'.isTool = true := hm.isTool_eq.trans htool
          rw [List.filter_cons_of_neg (not_isBlock_of_isTool htool),
            List.filter_cons_of_neg (not_isBlock_of_isTool htool'), ih]

end Shortened

/-! ### The estimated total -/

/-- The names of tool results are short: no placeholder is then longer than what it stands
for. -/
def ShortNames (ms : List Message) : Prop :=
  ∀ m ∈ ms, m.isTool = true → len (m.name.getD []) ≤ 136

section Total

variable (render : Json → Text) {ms ms' : List Message}

theorem size_emptied {m : Message} (hname : m.isTool = true → len (m.name.getD []) ≤ 136) :
    size render (emptied m) ≤ size render m := by
  rw [emptied]
  split
  case isTrue h =>
    obtain ⟨htool, hlong⟩ := Bool.and_eq_true_iff.mp h
    have hlong := of_decide_eq_true hlong
    have hname : len (m.name.getD "tool".toList) ≤ 136 := by
      cases hm : m.name with
      | none => decide
      | some name => simpa [hm] using hname htool
    have hfront : len "[".toList = 1 := by decide
    have hback :
        len " result dropped: the conversation grew past the model's context]".toList = 64 := by
      decide
    simp only [size, Option.map_some, Option.getD_some, len_append, hfront, hback]
    omega
  case isFalse => exact le_rfl

theorem total_le_of_sublist (h : List.Sublist ms' ms) : total render ms' ≤ total render ms :=
  (h.map (size render)).sum_le_sum fun _ _ => Nat.zero_le _

theorem Shortened.total_le (h : Shortened ms ms') (hnames : ShortNames ms) :
    total render ms' ≤ total render ms := by
  obtain ⟨each, -⟩ := h
  induction each with
  | nil => exact le_rfl
  | @cons m m' ms ms' hm _ ih =>
      have hm : size render m' ≤ size render m := by
        obtain rfl | rfl := hm
        · exact le_rfl
        · exact size_emptied render (hnames m List.mem_cons_self)
      have hms := ih fun x hx => hnames x (List.mem_cons_of_mem m hx)
      simp only [total, List.map_cons, List.sum_cons] at hms ⊢
      omega

end Total

/-!
## Turns from the front

The last thing `fitContext` does to a conversation that is too long: messages go from the
oldest on, around the status block and up to the daemon's lines before the newest question.
-/

/-- The list ends with its newest question, what follows it, and daemon's lines right
before it. -/
structure Newest (front lines : List Message) (question : Message) (after ms : List Message) :
    Prop where
  split : ms = front ++ (lines ++ question :: after)
  front : front ≠ []
  lines : ∀ m ∈ lines, m.isStatus = true
  question : isQuestion question = true
  after : ∀ m ∈ after, isQuestion m = false

/-! ### Turns from the front -/

/-- Everything between the system message and some position is gone but the status block,
and that position is not behind the newest question and the daemon's lines before it. -/
structure Trimmed (s : Message) (old rest ms ms' : List Message) : Prop where
  split : ms = s :: (old ++ rest)
  left : ms' = s :: (old.filter isBlock ++ rest)
  nonempty : old ≠ [] → rest ≠ []
  kept : ∀ front lines question after, Newest front lines question after ms →
    lines ++ question :: after <:+ rest

section Keep

variable {ms : List Message} {j k n : Nat}

theorem keepFrom_le_of_isStatus
    (h : ∀ j, n ≤ j → j < k → ∃ m, ms[j]? = some m ∧ m.isStatus = true) (hn : 1 ≤ n)
    (hk : n ≤ k) : keepFrom ms k ≤ n := by
  fun_induction keepFrom ms k with
  | case1 k _ ih =>
      by_cases hle : n ≤ k + 1
      · exact ih (fun j hj hjk => h j hj (by omega)) hle
      · have := keepFrom_le ms (k + 1)
        omega
  | case2 k hstatus =>
      by_contra hlt
      obtain ⟨m, hm, hm'⟩ := h (k + 1) (by omega) (by omega)
      exact hstatus (by rw [hm]; exact hm')
  | case3 k hshort =>
      by_contra hlt
      exact hshort (k - 2) (by omega)

theorem isStatus_of_keepFrom_le (h : keepFrom ms k ≤ j) (hj : j < k) :
    ∃ m, ms[j]? = some m ∧ m.isStatus = true := by
  fun_induction keepFrom ms k with
  | case1 k hstatus ih =>
      obtain rfl | hlt : j = k + 1 ∨ j < k + 1 := by omega
      · cases hm : ms[k + 1]? with
        | none => simp [hm] at hstatus
        | some m => exact ⟨m, rfl, by simpa [hm] using hstatus⟩
      · exact ih h hlt
  | case2 => omega
  | case3 => omega

end Keep

section Newest

variable {front lines after ms : List Message} {question : Message}

theorem Newest.rposition_eq (h : Newest front lines question after ms) :
    rposition isQuestion ms = some (front.length + lines.length) := by
  rw [h.split, ← List.append_assoc, rposition_append h.question h.after, List.length_append]

theorem Newest.keepFrom_le (h : Newest front lines question after ms) :
    keepFrom ms (front.length + lines.length) ≤ front.length := by
  apply keepFrom_le_of_isStatus
  · intro j hfront hlines
    have hj : ms[j]? = lines[j - front.length]? := by
      rw [h.split, List.getElem?_append_right hfront, List.getElem?_append_left (by omega)]
    have hlt : j - front.length < lines.length := by omega
    exact ⟨_, hj.trans (List.getElem?_eq_getElem hlt), h.lines _ (List.getElem_mem hlt)⟩
  · exact List.length_pos_iff.mpr h.front
  · exact Nat.le_add_right _ _

end Newest

/-- What a round does: the message at position 1 goes, or the one at position 2 behind the
status block, with the tool results that follow it. -/
theorem dropOldest_eq_some {ms ms' : List Message} (h : dropOldest ms = some ms') :
    ∃ question i, rposition isQuestion ms = some question ∧ question < ms.length ∧
      i < keepFrom ms question ∧ (i = 1 ∨ i = 2 ∧ rposition isBlock ms = some 1) ∧
      rposition isBlock ms ≠ some i ∧ ms' = removeAt ms i (keepFrom ms question) := by
  unfold dropOldest at h
  split at h
  case h_1 => cases h
  case h_2 question hquestion =>
    obtain ⟨i, hi, rfl⟩ := Option.map_eq_some_iff.mp h
    obtain ⟨q, hq, -⟩ := rposition_spec hquestion
    have hlt : question < ms.length := (List.getElem?_eq_some_iff.mp hq).1
    have hne : some i ≠ rposition isBlock ms := by simpa using List.find?_some hi
    obtain ⟨hkeep, hcase⟩ := find_not_block hi
    exact ⟨question, i, hquestion, hlt, hkeep, hcase, hne.symm, rfl⟩

theorem dropTools_split (n : Nat) (ms : List Message) :
    ∃ tools, ms = tools ++ dropTools n ms ∧ tools.length ≤ n ∧ ∀ m ∈ tools, m.isTool = true := by
  fun_induction dropTools n ms with
  | case1 n m ms hm ih =>
      obtain ⟨tools, hms, hlength, htools⟩ := ih
      refine ⟨m :: tools, congrArg (m :: ·) hms, ?_, List.forall_mem_cons.mpr ⟨hm, htools⟩⟩
      rw [List.length_cons]
      omega
  | case2 => exact ⟨[], rfl, Nat.zero_le _, by simp⟩
  | case3 => exact ⟨[], rfl, Nat.zero_le _, by simp⟩

theorem not_block_behind {front back : List Message} {b : Message} (hb : isBlock b = true)
    (hcount : (front ++ b :: back).countP isBlock ≤ 1) : ∀ m ∈ back, isBlock m = false := by
  rw [List.countP_append, List.countP_cons_of_pos hb] at hcount
  have hback : back.countP isBlock = 0 := by omega
  intro m hm
  simpa using List.countP_eq_zero.mp hback m hm

theorem exists_trimmed_of_dropOldest {ms ms' : List Message} (hcount : ms.countP isBlock ≤ 1)
    (h : dropOldest ms = some ms') : ∃ s old rest, Trimmed s old rest ms ms' := by
  obtain ⟨question, i, hquestion, hlt, hkeep, hi, hblock, rfl⟩ := dropOldest_eq_some h
  have hle := keepFrom_le ms question
  obtain ⟨s, blocks, hfront, hblocks⟩ : ∃ s blocks, ms.take i = s :: blocks ∧
      ∀ b ∈ blocks, isBlock b = true := by
    cases ms with
    | nil => exact absurd hlt (Nat.not_lt_zero _)
    | cons s ms =>
        obtain rfl | ⟨rfl, hone⟩ := hi
        · exact ⟨s, [], rfl, by simp⟩
        · obtain ⟨b, hb, hbblock⟩ := rposition_spec hone
          cases ms with
          | nil => cases hb
          | cons b' ms =>
              obtain rfl : b' = b := by simpa using hb
              exact ⟨s, [b'], rfl, by simpa using hbblock⟩
  have hsplit : ms = ms.take i ++ ms[i] :: ms.drop (i + 1) := by simp
  have hm : isBlock ms[i] = false := by
    by_contra hm
    have hm : isBlock ms[i] = true := by simpa using hm
    apply hblock
    have hpos : rposition isBlock (ms.take i ++ ms[i] :: ms.drop (i + 1)) =
        some (ms.take i).length := rposition_append hm (not_block_behind hm (hsplit ▸ hcount))
    rwa [← hsplit, List.length_take_of_le (by omega)] at hpos
  obtain ⟨tools, htools, hlength, htool⟩ :=
    dropTools_split (keepFrom ms question - 1 - i) (ms.drop (i + 1))
  generalize hrest : dropTools (keepFrom ms question - 1 - i) (ms.drop (i + 1)) = rest at htools
  have hwhole : ms = s :: ((blocks ++ ms[i] :: tools) ++ rest) := by
    calc ms = ms.take i ++ ms[i] :: ms.drop (i + 1) := hsplit
      _ = s :: blocks ++ ms[i] :: (tools ++ rest) := by rw [hfront, htools]
      _ = s :: ((blocks ++ ms[i] :: tools) ++ rest) := by simp
  have hsize := congrArg List.length hwhole
  have hblocks' := congrArg List.length hfront
  simp only [List.length_cons, List.length_append, List.length_take] at hsize hblocks'
  refine ⟨s, blocks ++ ms[i] :: tools, rest, hwhole, ?_, ?_, ?_⟩
  · have hfilter : (blocks ++ ms[i] :: tools).filter isBlock = blocks := by
      have hnone : tools.filter isBlock = [] :=
        List.filter_eq_nil_iff.mpr fun t ht => not_isBlock_of_isTool (htool t ht)
      rw [List.filter_append, List.filter_eq_self.mpr hblocks,
        List.filter_cons_of_neg (by simp [hm]), hnone, List.append_nil]
    rw [hfilter, removeAt, hfront, hrest]
    rfl
  · intro _
    apply List.length_pos_iff.mp
    omega
  · intro front lines q after hnewest
    have hkeep' : keepFrom ms question ≤ front.length := by
      obtain rfl := Option.some.inj (hquestion.symm.trans hnewest.rposition_eq)
      exact hnewest.keepFrom_le
    have hms : ms.length = front.length + (lines ++ q :: after).length := by
      rw [← List.length_append, ← hnewest.split]
    have hkept : lines ++ q :: after <:+ ms := ⟨front, hnewest.split.symm⟩
    have hend : rest <:+ ms := ⟨s :: (blocks ++ ms[i] :: tools), hwhole.symm⟩
    exact List.suffix_of_suffix_length_le hkept hend (by omega)

namespace Trimmed

variable {s : Message} {old rest ms ms' : List Message}

theorem isSublist (h : Trimmed s old rest ms ms') : List.Sublist ms' ms := by
  rw [h.split, h.left]
  exact (List.filter_sublist.append_right rest).cons_cons s

theorem filter_isBlock (h : Trimmed s old rest ms ms') :
    ms'.filter isBlock = ms.filter isBlock := by
  rw [h.split, h.left]
  simp [List.filter_cons, List.filter_filter]

/-- The newest question stays the newest one, with the same messages behind it. -/
theorem newest (h : Trimmed s old rest ms ms') {front lines after : List Message}
    {question : Message} (hnewest : Newest front lines question after ms) :
    ∃ front', Newest front' lines question after ms' := by
  obtain ⟨mid, hmid⟩ := h.kept front lines question after hnewest
  refine ⟨s :: (old.filter isBlock ++ mid), ?_, by simp, hnewest.lines, hnewest.question,
    hnewest.after⟩
  rw [h.left, ← hmid]
  simp

theorem trans {s₂ : Message} {old₂ rest₂ ms₂ : List Message} (h : Trimmed s old rest ms ms')
    (h₂ : Trimmed s₂ old₂ rest₂ ms' ms₂) : ∃ s old rest, Trimmed s old rest ms ms₂ := by
  have hsplit : s :: (old.filter isBlock ++ rest) = s₂ :: (old₂ ++ rest₂) :=
    h.left.symm.trans h₂.split
  obtain ⟨rfl, hback⟩ := List.cons.inj hsplit
  have hfilter : ∀ l : List Message, (l.filter isBlock).filter isBlock = l.filter isBlock := by
    simp [List.filter_filter]
  obtain ⟨mid, hmid, hrest⟩ | ⟨mid, hmid, hrest⟩ := List.append_eq_append_iff.mp hback
  · -- The second round goes on behind the status block.
    refine ⟨s, old ++ mid, rest₂, ?_, ?_, ?_, ?_⟩
    · rw [h.split, hrest, List.append_assoc]
    · rw [h₂.left, hmid, List.filter_append, List.filter_append, hfilter]
    · intro hgone
      cases mid with
      | nil =>
          rw [List.append_nil] at hgone
          rw [List.nil_append] at hrest
          exact hrest ▸ h.nonempty hgone
      | cons m mid => exact h₂.nonempty (by simp [hmid])
    · intro front lines question after hnewest
      obtain ⟨front', hnewest'⟩ := h.newest hnewest
      exact h₂.kept _ _ _ _ hnewest'
  · -- The second round ends before it, and changes nothing.
    refine ⟨s, old, rest, h.split, ?_, h.nonempty, h.kept⟩
    have hold₂ : old₂.filter isBlock = old₂ := by
      rw [List.filter_eq_self]
      intro b hb
      exact (List.mem_filter.mp (hmid ▸ List.mem_append_left mid hb)).2
    rw [h₂.left, hold₂, hmid, hrest, List.append_assoc]

end Trimmed

theorem exists_trimmed_refl {ms : List Message} (hne : ms ≠ []) :
    ∃ s old rest, Trimmed s old rest ms ms := by
  obtain ⟨s, rest, rfl⟩ := List.exists_cons_of_ne_nil hne
  refine ⟨s, [], rest, rfl, rfl, fun h => absurd rfl h, ?_⟩
  intro front lines question after hnewest
  obtain ⟨m, front, rfl⟩ := List.exists_cons_of_ne_nil hnewest.front
  exact ⟨front, (List.cons.inj hnewest.split).2.symm⟩

theorem exists_trimmed_dropTurns (render : Json → Text) (limit fuel : Nat) {ms : List Message}
    (hne : ms ≠ []) (hcount : ms.countP isBlock ≤ 1) :
    ∃ s old rest, Trimmed s old rest ms (dropTurns render limit fuel ms) := by
  induction fuel generalizing ms with
  | zero => exact exists_trimmed_refl hne
  | succ fuel ih =>
      rw [dropTurns]
      split
      case isTrue => exact exists_trimmed_refl hne
      case isFalse =>
        split
        case h_1 => exact exists_trimmed_refl hne
        case h_2 ms' hdrop =>
          obtain ⟨s, old, rest, hstep⟩ := exists_trimmed_of_dropOldest hcount hdrop
          have hne' : ms' ≠ [] := by simp [hstep.left]
          obtain ⟨_, _, _, hrun⟩ := ih hne' (hstep.isSublist.countP_le.trans hcount)
          exact hstep.trans hrun

theorem dropTurns_fuel (render : Json → Text) (limit : Nat) {fuel fuel' : Nat}
    {ms : List Message} (h : ms.length ≤ fuel) (h' : ms.length ≤ fuel') :
    dropTurns render limit fuel ms = dropTurns render limit fuel' ms := by
  have hnil : ∀ n, dropTurns render limit n [] = [] := by
    intro n
    cases n with
    | zero => rfl
    | succ n => exact if_pos (Nat.zero_le limit)
  induction fuel generalizing fuel' ms with
  | zero =>
      obtain rfl := List.length_eq_zero_iff.mp (Nat.le_zero.mp h)
      rw [hnil, hnil]
  | succ fuel ih =>
      cases fuel' with
      | zero =>
          obtain rfl := List.length_eq_zero_iff.mp (Nat.le_zero.mp h')
          rw [hnil, hnil]
      | succ fuel' =>
          rw [dropTurns, dropTurns]
          split
          case isTrue => rfl
          case isFalse =>
            cases hdrop : dropOldest ms with
            | none => rfl
            | some ms' =>
                have hlength := length_dropOldest hdrop
                exact ih (by omega) (by omega)

/-! ### Where it ends -/

/-- There is nothing but the daemon's lines between the system message and the newest
question. -/
def Exhausted (ms : List Message) : Prop :=
  ∀ front question after, Newest front [] question after ms →
    ∀ m ∈ front.drop 1, m.isStatus = true

theorem exhausted_of_dropOldest {ms : List Message} (h : dropOldest ms = none) :
    Exhausted ms := by
  intro front question after hnewest m hm
  have hpos : rposition (fun m => m.role == .user && m.name.isNone) ms = some front.length :=
    hnewest.rposition_eq
  rw [dropOldest, hpos, Option.map_eq_none_iff, List.find?_eq_none] at h
  obtain ⟨j, hj, rfl⟩ := List.getElem_of_mem hm
  rw [List.length_drop] at hj
  have hms : ms[j + 1]? = some (front.drop 1)[j] := by
    rw [hnewest.split, List.getElem?_append_left (by omega), List.getElem_drop,
      List.getElem?_eq_getElem (by omega)]
    simp only [Nat.add_comm]
  by_cases hkeep : keepFrom ms front.length ≤ j + 1
  · obtain ⟨x, hx, hstatus⟩ := isStatus_of_keepFrom_le hkeep (by omega)
    rwa [Option.some.inj (hms.symm.trans hx)]
  · have hblock : rposition isBlock ms = some (j + 1) := by
      have hrange : j + 1 ∈ List.range' 1 (keepFrom ms front.length - 1) :=
        List.mem_range'_1.mpr (by omega)
      by_contra hne
      exact h _ hrange (bne_iff_ne.mpr (Ne.symm hne))
    obtain ⟨x, hx, hstatus⟩ := rposition_spec hblock
    rw [Option.some.inj (hms.symm.trans hx)]
    exact (Bool.and_eq_true_iff.mp hstatus).1

end MindOS.Agent
