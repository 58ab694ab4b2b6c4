import MindOS.Daemon.Agent.Conversation

/-!
# What the editors of a conversation keep

`placeStatus`, `fitContext` and `trimSession` take conversations to conversations,
at the moments the daemon calls them. So do the three appends of a turn: the
question, the reply of the model, the result of a call.
-/

namespace MindOS.Agent

open Text

/-! ### Before a turn -/

theorem isBlock_namedUser_clock (t : Text) : isBlock (.namedUser clockName t) = false := by
  have h : clockName ≠ statusName := by decide
  simp [isBlock, Message.namedUser, h]

theorem countP_isBlock_append {m : Message} (ms : List Message) (h : isBlock m = false) :
    (ms ++ [m]).countP isBlock = ms.countP isBlock := by
  simp [List.countP_append, h]

namespace Conversation

variable {ms : List Message} {pending : List ToolCall}

theorem line {m : Message} (h : Conversation ms []) (role : m.role = .user)
    (block : isBlock m = true → ms.countP isBlock = 0) : Conversation (ms ++ [m]) [] := by
  obtain ⟨s, rest, rfl, hs, hrest⟩ := h.turns
  refine ⟨⟨s, rest ++ [m], rfl, hs, hrest.append (.line role .nil)⟩, ?_⟩
  cases hm : isBlock m with
  | true =>
      rw [List.countP_append, block hm]
      simp [hm]
  | false => exact (countP_isBlock_append _ hm).trans_le h.block

theorem reply (h : Conversation ms []) (text : Text) (calls : List ToolCall) :
    Conversation (ms ++ [.ofAssistant text calls]) calls := by
  obtain ⟨s, rest, rfl, hs, hrest⟩ := h.turns
  have hcalls : (Message.ofAssistant text calls).calls = calls := by
    cases calls <;> rfl
  refine ⟨⟨s, rest ++ [.ofAssistant text calls], rfl, hs, hrest.append ?_⟩, ?_⟩
  · cases calls with
    | nil =>
        have tools : ∀ m ∈ ([] : List Message), m.role = .tool := by simp
        exact .exchange rfl tools rfl .nil
    | cons c calls =>
        exact .unfinished rfl (by simp) (by rw [hcalls]; rfl) (by simp)
  · rw [countP_isBlock_append _ (by simp [isBlock, Message.isStatus, Message.ofAssistant])]
    exact h.block

theorem answer {c : ToolCall} {calls : List ToolCall} (h : Conversation ms (c :: calls))
    (name content : Text) : Conversation (ms ++ [.ofTool c.id name content]) calls := by
  obtain ⟨s, rest, rfl, hs, hrest⟩ := h.turns
  refine ⟨⟨s, rest ++ [.ofTool c.id name content], rfl, hs, hrest.answer rfl rfl⟩, ?_⟩
  rw [countP_isBlock_append _ (by simp [isBlock, Message.isStatus, Message.ofTool])]
  exact h.block

theorem start (systemPrompt : Text) : Conversation [.ofSystem systemPrompt] [] :=
  ⟨⟨_, [], rfl, rfl, .nil⟩, by simp [isBlock, Message.isStatus, Message.ofSystem]⟩

theorem fixSystem (h : Conversation ms []) (systemPrompt : Text) :
    Conversation (fixSystem systemPrompt ms) [] := by
  obtain ⟨s, rest, rfl, hs, hrest⟩ := h.turns
  rw [Agent.fixSystem, if_pos hs]
  refine ⟨⟨_, rest, rfl, hs, hrest⟩, ?_⟩
  have hblock := h.block
  rwa [List.countP_cons] at hblock ⊢

theorem placeStatus (h : Conversation ms []) (systemPrompt time body : Text) :
    Conversation (placeStatus ms systemPrompt time body) [] := by
  have hfix := h.fixSystem systemPrompt
  unfold Agent.placeStatus
  dsimp only
  split
  case isTrue =>
    exact hfix.line rfl (by rw [isBlock_namedUser_clock]; simp)
  case isFalse =>
    obtain ⟨s, rest, hms, hs, hrest⟩ := hfix.turns
    have hnone : ((Agent.fixSystem systemPrompt ms).filter fun m => !m.isStatus).countP isBlock
        = 0 := by
      rw [List.countP_eq_zero]
      intro m hm
      have hstatus := (List.mem_filter.mp hm).2
      simp only [Bool.not_eq_true'] at hstatus
      simp [isBlock, hstatus]
    refine line ⟨⟨s, rest.filter fun m => !m.isStatus, ?_, hs, hrest.filter_isStatus⟩, ?_⟩ rfl
      fun _ => hnone
    · rw [hms, List.filter_cons_of_pos (by simp [Message.isStatus, hs])]
    · exact hnone ▸ Nat.zero_le 1

end Conversation

/-! ### Before a request -/

theorem rposition_spec {α : Type*} {p : α → Bool} {l : List α} {i : Nat}
    (h : rposition p l = some i) : ∃ x, l[i]? = some x ∧ p x = true := by
  induction l generalizing i with
  | nil => cases h
  | cons x l ih =>
      unfold rposition at h
      split at h
      case h_1 j hj =>
        obtain rfl := Option.some.inj h
        simpa using ih hj
      case h_2 =>
        split at h
        case isTrue hx =>
          obtain rfl := Option.some.inj h
          exact ⟨x, rfl, hx⟩
        case isFalse => cases h

/-- The kept part starts with a line of the user, at the question or before it. -/
theorem keepFrom_spec {ms : List Message} {k : Nat} (h : ∃ x, ms[k]? = some x ∧ x.role = .user) :
    ∃ x, ms[keepFrom ms k]? = some x ∧ x.role = .user := by
  fun_induction keepFrom ms k with
  | case1 k hstatus ih =>
      apply ih
      cases hy : ms[k + 1]? with
      | none => simp [hy] at hstatus
      | some y =>
          have hrole : y.role = .user ∧ y.name.isSome = true := by
            simpa [hy, Message.isStatus] using hstatus
          exact ⟨y, rfl, hrole.1⟩
  | case2 => exact h
  | case3 => exact h

/-- The first removable position: behind the system message, or behind the status
block that follows it. -/
theorem find_not_block {keep i : Nat} {block : Option Nat}
    (h : ((List.range' 1 (keep - 1)).find? fun i => some i != block) = some i) :
    i < keep ∧ (i = 1 ∨ i = 2 ∧ block = some 1) := by
  obtain ⟨_, hmem, hbefore⟩ := List.find?_range'_eq_some.mp h
  have hblock : ∀ j, 1 ≤ j → j < i → some j = block := fun j h1 hj => by
    simpa using hbefore j h1 hj
  have hrange := List.mem_range'_1.mp hmem
  have hi : i ≤ 2 := by
    by_contra hi
    have h1 := hblock 1 (by omega) (by omega)
    have h2 := hblock 2 (by omega) (by omega)
    simp [← h1] at h2
  refine ⟨by omega, ?_⟩
  obtain h1 | h2 : i = 1 ∨ i = 2 := by omega
  · exact .inl h1
  · exact .inr ⟨h2, (hblock 1 (by omega) (by omega)).symm⟩

theorem dropTools_isSublist (k : Nat) (ms : List Message) :
    List.Sublist (dropTools k ms) ms := by
  fun_induction dropTools k ms with
  | case1 n m ms _ ih => exact ih.cons m
  | case2 => exact List.Sublist.refl _
  | case3 => exact List.Sublist.refl _

theorem removeAt_isSublist (ms : List Message) (i keep : Nat) :
    List.Sublist (removeAt ms i keep) ms := by
  have hdrop : List.Sublist (ms.drop (i + 1)) (ms.drop i) := by
    rw [← List.drop_drop]
    exact List.drop_sublist 1 _
  have h := ((dropTools_isSublist (keep - 1 - i) _).trans hdrop).append_left (ms.take i)
  rwa [List.take_append_drop] at h

theorem keepFrom_le (ms : List Message) (k : Nat) : keepFrom ms k ≤ k := by
  fun_induction keepFrom ms k with
  | case1 k _ ih => exact ih.trans (Nat.le_succ _)
  | case2 => exact le_rfl
  | case3 => exact le_rfl

theorem length_dropOldest {ms ms' : List Message} (h : dropOldest ms = some ms') :
    ms'.length < ms.length := by
  unfold dropOldest at h
  split at h
  case h_1 => cases h
  case h_2 question hquestion =>
    obtain ⟨i, hi, rfl⟩ := Option.map_eq_some_iff.mp h
    obtain ⟨q, hq, -⟩ := rposition_spec hquestion
    have hlt : question < ms.length := (List.getElem?_eq_some_iff.mp hq).1
    have hkeep := keepFrom_le ms question
    have hi := (find_not_block hi).1
    have hrest := (dropTools_isSublist (keepFrom ms question - 1 - i) (ms.drop (i + 1))).length_le
    rw [List.length_drop] at hrest
    rw [removeAt, List.length_append, List.length_take]
    omega

/-- The rounds of `dropTurns` end because the rest fits or nothing may go. -/
theorem dropTurns_done (render : Json → Text) (limit : Nat) {fuel : Nat} {ms : List Message}
    (h : ms.length ≤ fuel) :
    total render (dropTurns render limit fuel ms) ≤ limit ∨
      dropOldest (dropTurns render limit fuel ms) = none := by
  induction fuel generalizing ms with
  | zero =>
      obtain rfl := List.length_eq_zero_iff.mp (Nat.le_zero.mp h)
      exact .inr rfl
  | succ fuel ih =>
      rw [dropTurns]
      split
      case isTrue hfits => exact .inl hfits
      case isFalse =>
        split
        case h_1 hnone => exact .inr hnone
        case h_2 ms' hdrop =>
          have := length_dropOldest hdrop
          exact ih (by omega)

theorem map_bare_modify (ms : List Message) (i : Nat) :
    (ms.modify i emptied).map Message.bare = ms.map Message.bare := by
  have hbare : ∀ m : Message, (emptied m).bare = m.bare := by
    intro m
    unfold emptied
    split <;> rfl
  apply List.ext_getElem?
  intro j
  rw [List.getElem?_map, List.getElem?_map, List.getElem?_modify]
  split
  case isTrue => cases ms[j]? <;> simp [hbare]
  case isFalse => simp

theorem map_bare_emptyResults (render : Json → Text) (limit : Nat) (is : List Nat)
    (ms : List Message) :
    (emptyResults render limit is ms).map Message.bare = ms.map Message.bare := by
  fun_induction emptyResults render limit is ms with
  | case1 => rfl
  | case2 => rfl
  | case3 i is ms _ ih => rw [ih, map_bare_modify]

theorem countP_isBlock_bare {ms ms' : List Message}
    (h : ms'.map Message.bare = ms.map Message.bare) : ms'.countP isBlock = ms.countP isBlock := by
  have hbare : ∀ l : List Message, (l.map Message.bare).countP isBlock = l.countP isBlock :=
    fun l => List.countP_map
  rw [← hbare ms', h, hbare ms]

theorem dropOldClocks_isSublist (ms : List Message) : List.Sublist (dropOldClocks ms) ms := by
  fun_induction dropOldClocks ms with
  | case1 => exact List.Sublist.refl _
  | case2 m ms _ ih => exact ih.cons m
  | case3 m ms _ ih => exact ih.cons_cons m

theorem dropOldClocks_append {front back : List Message}
    (h : ∀ m ∈ front, m.role ≠ .user) :
    dropOldClocks (front ++ back) = front ++ dropOldClocks back := by
  induction front with
  | nil => rfl
  | cons m front ih =>
      have hm : isClock m = false := by simp [isClock, Message.isStatus, h m List.mem_cons_self]
      simp [dropOldClocks, hm, ih fun m hm => h m (List.mem_cons_of_mem _ hm)]

theorem Turns.dropOldClocks {ms : List Message} {pending : List ToolCall} (h : Turns ms pending) :
    Turns (dropOldClocks ms) pending := by
  induction h with
  | nil => exact .nil
  | line role _ ih =>
      rw [Agent.dropOldClocks]
      split
      case isTrue => exact ih
      case isFalse => exact .line role ih
  | @exchange a results ms _ role tools ids _ ih =>
      have huser : ∀ m ∈ a :: results, m.role ≠ .user := by simp_all
      rw [← List.cons_append, dropOldClocks_append huser]
      exact .exchange role tools ids ih
  | @unfinished a results _ role tools ids left =>
      have huser : ∀ m ∈ a :: results, m.role ≠ .user := by simp_all
      have h := @dropOldClocks_append _ [] huser
      rw [List.append_nil, Agent.dropOldClocks, List.append_nil] at h
      rw [h]
      exact .unfinished role tools ids left

namespace Conversation

variable {ms ms' : List Message} {pending : List ToolCall}

theorem dropOldest (h : Conversation ms pending) (hdrop : dropOldest ms = some ms') :
    Conversation ms' pending := by
  unfold Agent.dropOldest at hdrop
  split at hdrop
  case h_1 => cases hdrop
  case h_2 question hquestion =>
    obtain ⟨i, hi, rfl⟩ := Option.map_eq_some_iff.mp hdrop
    obtain ⟨s, rest, rfl, hs, hrest⟩ := h.turns
    obtain ⟨q, hq, hrole⟩ := rposition_spec hquestion
    have hquser : q.role = .user := by
      simp only [Bool.and_eq_true, beq_iff_eq] at hrole
      exact hrole.1
    obtain ⟨x, hx, hxuser⟩ := keepFrom_spec ⟨q, hq, hquser⟩
    generalize keepFrom (s :: rest) question = keep at hi hx ⊢
    obtain ⟨hlt, hcase⟩ := find_not_block hi
    refine ⟨?_, (removeAt_isSublist _ _ _).countP_le.trans h.block⟩
    obtain rfl | ⟨rfl, hblock⟩ := hcase
    · obtain ⟨k, rfl⟩ : ∃ k, keep = k + 2 := ⟨keep - 2, by omega⟩
      cases rest with
      | nil => simp at hx
      | cons m rest => exact ⟨s, _, rfl, hs, hrest.dropTools (by simpa using hx) hxuser⟩
    · obtain ⟨k, rfl⟩ : ∃ k, keep = k + 3 := ⟨keep - 3, by omega⟩
      obtain ⟨b, hb, hbblock⟩ := rposition_spec hblock
      cases rest with
      | nil => simp at hx
      | cons b' rest =>
          obtain rfl : b' = b := by simpa using hb
          have hbuser : b'.role = .user := by
            simp only [isBlock, Message.isStatus, Bool.and_eq_true, beq_iff_eq] at hbblock
            exact hbblock.1.1
          cases rest with
          | nil => simp at hx
          | cons m rest =>
              have hrest := (hrest.tail hbuser).dropTools (by simpa using hx) hxuser
              exact ⟨s, _, rfl, hs, .line hbuser hrest⟩

theorem dropTurns (render : Json → Text) (limit fuel : Nat) (h : Conversation ms pending) :
    Conversation (dropTurns render limit fuel ms) pending := by
  induction fuel generalizing ms with
  | zero => exact h
  | succ fuel ih =>
      rw [Agent.dropTurns]
      split
      case isTrue => exact h
      case isFalse =>
        split
        case h_1 => exact h
        case h_2 ms' hdrop => exact ih (h.dropOldest hdrop)

theorem dropOldClocks (h : Conversation ms pending) : Conversation (dropOldClocks ms) pending := by
  obtain ⟨s, rest, rfl, hs, hrest⟩ := h.turns
  refine ⟨⟨s, _, ?_, hs, hrest.dropOldClocks⟩,
    (dropOldClocks_isSublist _).countP_le.trans h.block⟩
  have huser : ∀ m ∈ [s], m.role ≠ .user := by simp [hs]
  exact dropOldClocks_append huser

theorem of_bare (h : Conversation ms pending)
    (hbare : ms'.map Message.bare = ms.map Message.bare) : Conversation ms' pending := by
  obtain ⟨s, rest, rfl, hs, hrest⟩ := h.turns
  obtain ⟨s', rest', rfl, hs', hrest'⟩ := List.map_eq_cons_iff.mp hbare
  exact ⟨⟨s', rest', rfl, (Message.role_eq_of_bare hs').trans hs, hrest.of_bare hrest'⟩,
    (countP_isBlock_bare hbare).trans_le h.block⟩

theorem fitContext (render : Json → Text) (cfg : ModelConfig) (toolsChars : Nat)
    (h : Conversation ms pending) : Conversation (fitContext render cfg toolsChars ms) pending := by
  unfold Agent.fitContext
  dsimp only
  split
  case isTrue => exact h
  case isFalse => exact (h.dropOldClocks.of_bare (map_bare_emptyResults ..)).dropTurns ..

end Conversation

/-- A request fits the model's context, unless nothing may be dropped any more. -/
theorem fitContext_done (render : Json → Text) (cfg : ModelConfig) (toolsChars : Nat)
    (ms : List Message) :
    total render (fitContext render cfg toolsChars ms) ≤ budget cfg toolsChars ∨
      dropOldest (fitContext render cfg toolsChars ms) = none := by
  unfold fitContext
  dsimp only
  split
  case isTrue hfits => exact .inl hfits
  case isFalse => exact dropTurns_done render _ le_rfl

/-! ### After a turn -/

theorem Conversation.trimSession {ms : List Message} (maxMessages : Nat)
    (h : Conversation ms []) : Conversation (trimSession maxMessages ms) [] := by
  unfold Agent.trimSession
  dsimp only
  split
  case isTrue => exact h
  case isFalse =>
    obtain ⟨s, rest, rfl, hs, hrest⟩ := h.turns
    have hhead : (s :: rest).takeWhile (fun m => m.role == .system) = [s] := by
      rw [List.takeWhile_cons_of_pos (by simp [hs])]
      cases rest with
      | nil => rfl
      | cons m rest =>
          have hm := hrest.role_ne_system m List.mem_cons_self
          rw [List.takeWhile_cons_of_neg (by simpa using hm)]
    rw [hhead]
    refine ⟨⟨s, _, rfl, hs, hrest.filter_isStatus.drop _⟩, ?_⟩
    refine (List.Sublist.countP_le ?_).trans h.block
    refine List.Sublist.cons_cons s ?_
    exact (List.dropWhile_sublist _).trans ((List.drop_sublist _ _).trans (List.filter_sublist ..))

end MindOS.Agent
