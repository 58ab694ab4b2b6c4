import MindOS.Daemon.Tools.Basic

/-!
# Conversations

## The messages of a conversation

The message list of a session and the three functions that edit it by position:
`placeStatus` before a turn, `fitContext` before every request to the model,
`trimSession` after the turn.
-/

namespace MindOS.Agent

open Text

inductive Role where
  | system
  | user
  | assistant
  | tool
  deriving DecidableEq

/-- A tool call of the model, with the raw text of its arguments. -/
structure ToolCall where
  id : Text
  name : Text
  arguments : Text
  deriving DecidableEq

/-- A call as it stands in an assistant message. -/
def ToolCall.json (c : ToolCall) : Json :=
  .obj [
    ("function".toList,
      .obj [("arguments".toList, .str c.arguments), ("name".toList, .str c.name)]),
    ("id".toList, .str c.id), ("type".toList, .str "function".toList)]

structure Message where
  role : Role
  content : Option Text := none
  toolCalls : Option (List ToolCall) := none
  toolCallId : Option Text := none
  name : Option Text := none
  deriving DecidableEq

namespace Message

def ofSystem (s : Text) : Message := { role := .system, content := some s }

def ofUser (s : Text) : Message := { role := .user, content := some s }

/-- A user-role message the daemon writes itself. -/
def namedUser (name s : Text) : Message := { role := .user, content := some s, name := some name }

def ofAssistant (text : Text) (calls : List ToolCall) : Message where
  role := .assistant
  content := if text.isEmpty then (if calls.isEmpty then some [] else none) else some text
  toolCalls := if calls.isEmpty then none else some calls

def ofTool (id name content : Text) : Message :=
  { role := .tool, content := some content, toolCallId := some id, name := some name }

/-- The daemon's own lines: the status block and the clock lines. -/
def isStatus (m : Message) : Bool := m.role == .user && m.name.isSome

def isTool (m : Message) : Bool := m.role == .tool

end Message

def statusName : Text := "status"

def clockName : Text := "clock"

/-- The status block. -/
def isBlock (m : Message) : Bool := m.isStatus && m.name == some statusName

/-- A clock line. -/
def isClock (m : Message) : Bool := m.isStatus && m.name == some clockName

/-- The last position at which a property holds. -/
def rposition {α : Type*} (p : α → Bool) : List α → Option Nat
  | [] => none
  | x :: xs =>
      match rposition p xs with
      | some i => some (i + 1)
      | none => if p x then some 0 else none

/-! ### Before a turn -/

/-- The system message stands first and holds the prompt. -/
def fixSystem (systemPrompt : Text) : List Message → List Message
  | [] => [.ofSystem systemPrompt]
  | m :: ms =>
      if m.role = .system then { m with content := some systemPrompt } :: ms
      else .ofSystem systemPrompt :: m :: ms

/-- The text behind the first line break. -/
def afterLine (t : Text) : Option Text :=
  if '\n' ∈ t then some ((t.dropWhile (· != '\n')).drop 1) else none

/-- The status block says the same as `body`. -/
def statusUnchanged (messages : List Message) (body : Text) : Bool :=
  let current := (rposition isBlock messages).bind fun i => messages[i]?
  (current.bind fun m => m.content.bind afterLine) == some body

/-- A clock line while the status is unchanged, else one new status block. -/
def placeStatus (messages : List Message) (systemPrompt time body : Text) : List Message :=
  let messages := fixSystem systemPrompt messages
  if statusUnchanged messages body then
    messages ++ [.namedUser clockName
      ("Right now (".toList ++ time ++ "); the status above still applies.".toList)]
  else
    messages.filter (fun m => !m.isStatus) ++
      [.namedUser statusName ("Right now (".toList ++ time ++ "):\n".toList ++ body)]

/-! ### Before a request -/

section Fit

-- `Value::to_string`
variable (render : Json → Text)

def size (m : Message) : Nat :=
  (m.content.map len).getD 0 +
    (m.toolCalls.map fun calls => (calls.map fun c => len (render c.json)).sum).getD 0 + 24

def total (messages : List Message) : Nat := (messages.map (size render)).sum

/-- Characters the prompt may hold. -/
def contextChars (cfg : ModelConfig) : Nat := (cfg.context - cfg.maxTokens) * 3

def budget (cfg : ModelConfig) (toolsChars : Nat) : Nat := max (contextChars cfg - toolsChars) 1000

/-- Only the newest clock line stays. -/
def dropOldClocks : List Message → List Message
  | [] => []
  | m :: ms => if isClock m && ms.any isClock then dropOldClocks ms else m :: dropOldClocks ms

/-- A tool result without its body. -/
def emptied (m : Message) : Message :=
  if m.isTool && decide (200 < (m.content.map len).getD 0) then
    { m with content := some ("[".toList ++ m.name.getD "tool" ++
      " result dropped: the conversation grew past the model's context]".toList) }
  else m

/-- Old tool results lose their bodies, the oldest first, until the rest fits. -/
def emptyResults (limit : Nat) : List Nat → List Message → List Message
  | [], messages => messages
  | i :: is, messages =>
      if total render messages ≤ limit then messages
      else emptyResults limit is (messages.modify i emptied)

/-- The daemon's lines right before position `k` belong to what is kept from there. -/
def keepFrom (messages : List Message) : Nat → Nat
  | k + 2 =>
      if (messages[k + 1]?.map Message.isStatus).getD false then keepFrom messages (k + 1)
      else k + 2
  | k => k

/-- Up to `n` tool results go from the front. -/
def dropTools : Nat → List Message → List Message
  | n + 1, m :: ms => if m.isTool then dropTools n ms else m :: ms
  | _, ms => ms

/-- Remove the message at `i` and the tool results behind it, before `keep`. -/
def removeAt (messages : List Message) (i keep : Nat) : List Message :=
  messages.take i ++ dropTools (keep - 1 - i) (messages.drop (i + 1))

/-- Drop the oldest message that is neither the system message nor the status block
and lies before the newest question; nothing when there is none. -/
def dropOldest (messages : List Message) : Option (List Message) :=
  match rposition (fun m => m.role == .user && m.name.isNone) messages with
  | none => none
  | some question =>
      let keep := keepFrom messages question
      let block := rposition isBlock messages
      ((List.range' 1 (keep - 1)).find? fun i => some i != block).map fun i =>
        removeAt messages i keep

/-- Drop turns from the front until the rest fits. Every round removes a message, so
their number bounds the rounds. -/
def dropTurns (limit : Nat) : Nat → List Message → List Message
  | 0, messages => messages
  | fuel + 1, messages =>
      if total render messages ≤ limit then messages
      else
        match dropOldest messages with
        | none => messages
        | some messages => dropTurns limit fuel messages

/-- Keep the conversation inside the model's context. -/
def fitContext (cfg : ModelConfig) (toolsChars : Nat) (messages : List Message) : List Message :=
  let limit := budget cfg toolsChars
  if total render messages ≤ limit then messages
  else
    let messages := dropOldClocks messages
    let messages := emptyResults render limit (List.range' 1 (messages.length - 2)) messages
    dropTurns render limit messages.length messages

end Fit

/-! ### After a turn -/

def trimSession (maxMessages : Nat) (messages : List Message) : List Message :=
  let conversation := (messages.filter fun m => !m.isStatus).length
  if conversation ≤ maxMessages then messages
  else
    let head := messages.takeWhile fun m => m.role == .system
    let rest := (messages.drop head.length).filter fun m => !m.isStatus
    head ++ (rest.drop (conversation - maxMessages)).dropWhile Message.isTool

/-!
## Well-formed conversations

What the model server asks of a message list: one system message, first; every
tool result in the block behind the assistant message that made its call; no call
without its result, except the calls the running turn has still to make. The list
behind the system message is a sequence of lines and exchanges, and each of the
three editors removes or adds whole ones.
-/

/-- The calls of an assistant message. -/
def Message.calls (m : Message) : List ToolCall := m.toolCalls.getD []

/-- The ids that results answer to. -/
def resultIds (results : List Message) : List (Option Text) := results.map (·.toolCallId)

/-- The ids of calls. -/
def callIds (calls : List ToolCall) : List (Option Text) := calls.map fun c => some c.id

/-- A message list the model server takes, while the calls `pending` of the last
assistant message have no result yet. -/
structure WellFormed (ms : List Message) (pending : List ToolCall) : Prop where
  /-- Exactly one system message, at the front. -/
  system : ∃ s rest, ms = s :: rest ∧ s.role = .system ∧ ∀ m ∈ rest, m.role ≠ .system
  /-- At most one status block. -/
  block : ms.countP isBlock ≤ 1
  /-- A tool result stands behind the assistant message with its call, with nothing
  but tool results between them. -/
  result : ∀ front m back, ms = front ++ m :: back → m.role = .tool →
    ∃ before a between, front = before ++ a :: between ∧ a.role = .assistant ∧
      (∀ x ∈ between, x.role = .tool) ∧ ∃ c ∈ a.calls, m.toolCallId = some c.id
  /-- The tool results behind an assistant message answer its calls in order, all of
  them unless the list ends there; then the calls left are the pending ones. -/
  answered : ∀ front a back, ms = front ++ a :: back → a.role = .assistant →
    resultIds (back.takeWhile Message.isTool) = callIds a.calls ∨
      back.all Message.isTool ∧ resultIds back ++ callIds pending = callIds a.calls

/-! ### The list behind the system message -/

/-- Lines of the user and exchanges, an exchange being an assistant message with the
results of its calls; the last one may still lack those of `pending`. -/
inductive Turns : List Message → List ToolCall → Prop
  | nil : Turns [] []
  | line {m ms pending} (role : m.role = .user) (rest : Turns ms pending) :
      Turns (m :: ms) pending
  | exchange {a results ms pending} (role : a.role = .assistant)
      (tools : ∀ m ∈ results, m.role = .tool) (ids : resultIds results = callIds a.calls)
      (rest : Turns ms pending) : Turns (a :: (results ++ ms)) pending
  | unfinished {a results pending} (role : a.role = .assistant)
      (tools : ∀ m ∈ results, m.role = .tool)
      (ids : resultIds results ++ callIds pending = callIds a.calls) (left : pending ≠ []) :
      Turns (a :: results) pending

/-- A conversation: the system message, then turns, with at most one status block. -/
structure Conversation (ms : List Message) (pending : List ToolCall) : Prop where
  turns : ∃ s rest, ms = s :: rest ∧ s.role = .system ∧ Turns rest pending
  block : ms.countP isBlock ≤ 1

theorem Message.isTool_iff {m : Message} : m.isTool = true ↔ m.role = .tool := by
  simp [isTool]

theorem takeWhile_isTool {results ms : List Message} (h : ∀ m ∈ results, m.role = .tool) :
    (results ++ ms).takeWhile Message.isTool = results ++ ms.takeWhile Message.isTool := by
  rw [List.takeWhile_append_of_pos fun m hm => Message.isTool_iff.mpr (h m hm)]

theorem dropWhile_isTool {results ms : List Message} (h : ∀ m ∈ results, m.role = .tool) :
    (results ++ ms).dropWhile Message.isTool = ms.dropWhile Message.isTool := by
  rw [List.dropWhile_append_of_pos fun m hm => Message.isTool_iff.mpr (h m hm)]

namespace Turns

variable {ms ms' : List Message} {pending : List ToolCall}

theorem role_ne_system (h : Turns ms pending) : ∀ m ∈ ms, m.role ≠ .system := by
  induction h with
  | nil => simp
  | line role _ ih =>
      intro m hm
      obtain rfl | hm := List.mem_cons.mp hm
      · simp [role]
      · exact ih m hm
  | exchange role tools _ _ ih =>
      intro m hm
      obtain rfl | hm := List.mem_cons.mp hm
      · simp [role]
      · obtain hm | hm := List.mem_append.mp hm
        · simp [tools m hm]
        · exact ih m hm
  | unfinished role tools =>
      intro m hm
      obtain rfl | hm := List.mem_cons.mp hm
      · simp [role]
      · simp [tools m hm]

theorem head_not_tool {m : Message} (h : Turns (m :: ms) pending) : m.isTool = false := by
  cases h with
  | line role => simp [Message.isTool, role]
  | exchange role => simp [Message.isTool, role]
  | unfinished role => simp [Message.isTool, role]

theorem tail {m : Message} (h : Turns (m :: ms) pending) (role : m.role = .user) :
    Turns ms pending := by
  cases h with
  | line _ rest => exact rest
  | exchange role' => exact absurd (role.symm.trans role') (by simp)
  | unfinished role' => exact absurd (role.symm.trans role') (by simp)

theorem dropWhile_eq (h : Turns ms pending) : ms.dropWhile Message.isTool = ms := by
  cases ms with
  | nil => rfl
  | cons m ms => rw [List.dropWhile_cons_of_neg (by simp [h.head_not_tool])]

theorem takeWhile_eq (h : Turns ms pending) : ms.takeWhile Message.isTool = [] := by
  cases ms with
  | nil => rfl
  | cons m ms => rw [List.takeWhile_cons_of_neg (by simp [h.head_not_tool])]

theorem append (h : Turns ms []) (h' : Turns ms' pending) : Turns (ms ++ ms') pending := by
  generalize hp : ([] : List ToolCall) = p at h
  induction h with
  | nil => exact h'
  | line role _ ih => exact .line role (ih hp)
  | exchange role tools ids _ ih =>
      rw [List.cons_append, List.append_assoc]
      exact .exchange role tools ids (ih hp)
  | unfinished _ _ _ left => exact absurd hp.symm left

theorem filter {keep : Message → Bool} (hkeep : ∀ m, m.role ≠ .user → keep m = true)
    (h : Turns ms pending) : Turns (ms.filter keep) pending := by
  have htools : ∀ results : List Message, (∀ m ∈ results, m.role = .tool) →
      results.filter keep = results := fun results tools =>
    List.filter_eq_self.mpr fun m hm => hkeep m (by simp [tools m hm])
  induction h with
  | nil => exact .nil
  | @line m ms pending role rest ih =>
      cases hm : keep m with
      | true => simpa [List.filter_cons, hm] using Turns.line role ih
      | false => simpa [List.filter_cons, hm] using ih
  | exchange role tools ids _ ih =>
      rw [List.filter_cons_of_pos (hkeep _ (by simp [role])), List.filter_append, htools _ tools]
      exact .exchange role tools ids ih
  | unfinished role tools ids left =>
      rw [List.filter_cons_of_pos (hkeep _ (by simp [role])), htools _ tools]
      exact .unfinished role tools ids left

theorem filter_isStatus (h : Turns ms pending) :
    Turns (ms.filter fun m => !m.isStatus) pending :=
  h.filter fun m hm => by simp [Message.isStatus, hm]

theorem answer {c : ToolCall} {calls : List ToolCall} {t : Message} (role : t.role = .tool)
    (id : t.toolCallId = some c.id) (h : Turns ms (c :: calls)) : Turns (ms ++ [t]) calls := by
  generalize hp : c :: calls = p at h
  induction h with
  | nil => cases hp
  | line role _ ih => exact .line role (ih hp)
  | exchange role tools ids _ ih =>
      rw [List.cons_append, List.append_assoc]
      exact .exchange role tools ids (ih hp)
  | @unfinished a results _ arole tools ids left =>
      subst hp
      have htools : ∀ m ∈ results ++ [t], m.role = .tool := by
        intro m hm
        obtain hm | hm := List.mem_append.mp hm
        · exact tools m hm
        · rw [List.mem_singleton.mp hm, role]
      have hids : resultIds (results ++ [t]) ++ callIds calls = callIds a.calls := by
        rw [← ids]
        simp [resultIds, callIds, id]
      cases calls with
      | nil => simpa using Turns.exchange arole htools (by simpa [callIds] using hids) .nil
      | cons d calls => exact .unfinished arole htools hids (by simp)

end Turns

/-! ### What the three editors keep -/

/-- A message without its text. -/
def Message.bare (m : Message) : Message := { m with content := none }

namespace Message

variable {m m' : Message} {ms ms' : List Message}

theorem role_eq_of_bare (h : m'.bare = m.bare) : m'.role = m.role :=
  show m'.bare.role = m.bare.role by rw [h]

theorem calls_eq_of_bare (h : m'.bare = m.bare) : m'.calls = m.calls :=
  show m'.bare.calls = m.bare.calls by rw [h]

theorem resultIds_eq_of_bare (h : ms'.map bare = ms.map bare) : resultIds ms' = resultIds ms := by
  have hid : ∀ l : List Message, resultIds l = resultIds (l.map bare) := fun l => by
    simp [resultIds, bare]
  rw [hid ms', h, ← hid ms]

theorem tools_of_bare (h : ms'.map bare = ms.map bare) (tools : ∀ m ∈ ms, m.role = .tool) :
    ∀ m ∈ ms', m.role = .tool := by
  intro m hm
  obtain ⟨m₀, hm₀, h₀⟩ := List.mem_map.mp (h ▸ List.mem_map_of_mem hm)
  rw [← role_eq_of_bare h₀, tools m₀ hm₀]

end Message

open Message in
theorem Turns.of_bare {ms ms' : List Message} {pending : List ToolCall} (h : Turns ms pending)
    (hbare : ms'.map bare = ms.map bare) : Turns ms' pending := by
  induction h generalizing ms' with
  | nil =>
      rw [List.map_eq_nil_iff.mp hbare]
      exact .nil
  | line role _ ih =>
      obtain ⟨m', rest', rfl, hm, hrest⟩ := List.map_eq_cons_iff.mp hbare
      exact .line ((role_eq_of_bare hm).trans role) (ih hrest)
  | exchange role tools ids _ ih =>
      obtain ⟨a', back, rfl, ha, hback⟩ := List.map_eq_cons_iff.mp hbare
      rw [List.map_append] at hback
      obtain ⟨results', rest', rfl, hresults, hrest⟩ := List.map_eq_append_iff.mp hback
      refine .exchange ((role_eq_of_bare ha).trans role) (tools_of_bare hresults tools) ?_
        (ih hrest)
      rw [resultIds_eq_of_bare hresults, ids, calls_eq_of_bare ha]
  | unfinished role tools ids left =>
      obtain ⟨a', results', rfl, ha, hresults⟩ := List.map_eq_cons_iff.mp hbare
      refine .unfinished ((role_eq_of_bare ha).trans role) (tools_of_bare hresults tools) ?_ left
      rw [resultIds_eq_of_bare hresults, ids, calls_eq_of_bare ha]

theorem Turns.dropTools_eq {ms : List Message} {pending : List ToolCall} (h : Turns ms pending)
    (k : Nat) : dropTools k ms = ms := by
  cases k with
  | zero => rfl
  | succ k =>
      cases ms with
      | nil => rfl
      | cons m ms => simp [dropTools, h.head_not_tool]

theorem dropTools_append {results ms : List Message} {x : Message} {k : Nat}
    (tools : ∀ m ∈ results, m.role = .tool) (hx : (results ++ ms)[k]? = some x)
    (hrole : x.role = .user) :
    dropTools k (results ++ ms) = dropTools (k - results.length) ms := by
  induction results generalizing k with
  | nil => simp
  | cons t results ih =>
      have ht : t.role = .tool := tools t List.mem_cons_self
      cases k with
      | zero =>
          obtain rfl : t = x := by simpa using hx
          exact absurd (hrole.symm.trans ht) (by simp)
      | succ k =>
          have hrest := ih (fun m hm => tools m (List.mem_cons_of_mem t hm))
            (by simpa using hx : (results ++ ms)[k]? = some x)
          simpa [dropTools, Message.isTool_iff.mpr ht] using hrest

theorem Turns.dropTools {m x : Message} {ms : List Message} {pending : List ToolCall} {k : Nat}
    (h : Turns (m :: ms) pending) (hx : ms[k]? = some x) (hrole : x.role = .user) :
    Turns (dropTools k ms) pending := by
  cases h with
  | line _ rest => rwa [rest.dropTools_eq]
  | exchange _ tools _ rest => rwa [dropTools_append tools hx hrole, rest.dropTools_eq]
  | unfinished _ tools =>
      have htool := tools x (List.mem_of_getElem? hx)
      exact absurd (hrole.symm.trans htool) (by simp)

theorem Turns.drop {ms : List Message} (k : Nat) (h : Turns ms []) :
    Turns ((ms.drop k).dropWhile Message.isTool) [] := by
  generalize hp : ([] : List ToolCall) = p at h
  induction h generalizing k with
  | nil => simpa using Turns.nil
  | line role rest ih =>
      cases k with
      | zero =>
          rw [List.drop_zero, (Turns.line role rest).dropWhile_eq]
          exact .line role rest
      | succ k => exact ih k hp
  | @exchange a results ms _ role tools ids rest ih =>
      cases k with
      | zero =>
          rw [List.drop_zero, (Turns.exchange role tools ids rest).dropWhile_eq]
          exact .exchange role tools ids rest
      | succ k =>
          rw [List.drop_succ_cons, List.drop_append,
            dropWhile_isTool fun m hm => tools m (List.mem_of_mem_drop hm)]
          exact ih _ hp
  | unfinished _ _ _ left => exact absurd hp.symm left

/-! ### What it means for the list -/

theorem Message.exists_call {a m : Message} {results : List Message} {calls : List ToolCall}
    (ids : resultIds results ++ callIds calls = callIds a.calls) (hm : m ∈ results) :
    ∃ c ∈ a.calls, m.toolCallId = some c.id := by
  have hmem : m.toolCallId ∈ callIds a.calls :=
    ids ▸ List.mem_append_left _ (List.mem_map_of_mem hm)
  obtain ⟨c, hc, hid⟩ := List.mem_map.mp hmem
  exact ⟨c, hc, hid.symm⟩

namespace Turns

variable {ms : List Message} {pending : List ToolCall}

theorem result (h : Turns ms pending) {front back : List Message} {m : Message}
    (hms : ms = front ++ m :: back) (hm : m.role = .tool) :
    ∃ before a between, front = before ++ a :: between ∧ a.role = .assistant ∧
      (∀ x ∈ between, x.role = .tool) ∧ ∃ c ∈ a.calls, m.toolCallId = some c.id := by
  induction h generalizing front with
  | nil => simp at hms
  | line role _ ih =>
      cases front with
      | nil =>
          obtain ⟨rfl, -⟩ := List.cons.inj hms
          exact absurd (role.symm.trans hm) (by simp)
      | cons x front =>
          obtain ⟨rfl, hrest⟩ := List.cons.inj hms
          obtain ⟨before, a, between, rfl, h⟩ := ih hrest
          exact ⟨_ :: before, a, between, rfl, h⟩
  | @exchange a results ms _ role tools ids rest ih =>
      cases front with
      | nil =>
          obtain ⟨rfl, -⟩ := List.cons.inj hms
          exact absurd (role.symm.trans hm) (by simp)
      | cons x front =>
          obtain ⟨rfl, hrest⟩ := List.cons.inj hms
          obtain ⟨mid, hmid, hback⟩ | ⟨mid, hmid, hback⟩ := List.append_eq_append_iff.mp hrest
          · -- The result stands behind this exchange.
            obtain ⟨before, a', between, rfl, h⟩ := ih hback
            exact ⟨a :: (results ++ before), a', between, by simp [hmid], h⟩
          · cases mid with
            | nil =>
                subst hback
                have hhead := rest.head_not_tool
                simp [Message.isTool, hm] at hhead
            | cons y mid =>
                obtain ⟨rfl, -⟩ := List.cons.inj hback
                have hm : m ∈ results := hmid ▸ List.mem_append_right _ List.mem_cons_self
                have hids : resultIds results ++ callIds [] = callIds a.calls := by
                  simpa [callIds] using ids
                exact ⟨[], a, front, rfl, role,
                  fun x hx => tools x (hmid ▸ List.mem_append_left _ hx),
                  Message.exists_call hids hm⟩
  | @unfinished a results _ role tools ids left =>
      cases front with
      | nil =>
          obtain ⟨rfl, -⟩ := List.cons.inj hms
          exact absurd (role.symm.trans hm) (by simp)
      | cons x front =>
          obtain ⟨rfl, rfl⟩ := List.cons.inj hms
          exact ⟨[], _, front, rfl, role, fun x hx => tools x (List.mem_append_left _ hx),
            Message.exists_call ids (List.mem_append_right _ List.mem_cons_self)⟩

theorem answered (h : Turns ms pending) {front back : List Message} {a : Message}
    (hms : ms = front ++ a :: back) (ha : a.role = .assistant) :
    resultIds (back.takeWhile Message.isTool) = callIds a.calls ∨
      back.all Message.isTool ∧ resultIds back ++ callIds pending = callIds a.calls := by
  induction h generalizing front with
  | nil => simp at hms
  | line role _ ih =>
      cases front with
      | nil =>
          obtain ⟨rfl, -⟩ := List.cons.inj hms
          exact absurd (role.symm.trans ha) (by simp)
      | cons x front => exact ih (List.cons.inj hms).2
  | @exchange b results ms _ role tools ids rest ih =>
      cases front with
      | nil =>
          obtain ⟨rfl, rfl⟩ := List.cons.inj hms
          rw [takeWhile_isTool tools, rest.takeWhile_eq, List.append_nil]
          exact .inl ids
      | cons x front =>
          obtain ⟨mid, -, hback⟩ | ⟨mid, hmid, hback⟩ :=
            List.append_eq_append_iff.mp (List.cons.inj hms).2
          · exact ih hback
          · cases mid with
            | nil =>
                have hms : ms = [] ++ a :: back := hback.symm
                exact ih hms
            | cons y mid =>
                obtain ⟨rfl, -⟩ := List.cons.inj hback
                have htool := tools a (hmid ▸ List.mem_append_right _ List.mem_cons_self)
                exact absurd (ha.symm.trans htool) (by simp)
  | @unfinished b results _ role tools ids left =>
      cases front with
      | nil =>
          obtain ⟨rfl, rfl⟩ := List.cons.inj hms
          refine .inr ⟨?_, ids⟩
          simpa [Message.isTool_iff] using tools
      | cons x front =>
          obtain ⟨-, rfl⟩ := List.cons.inj hms
          have htool := tools a (List.mem_append_right _ List.mem_cons_self)
          exact absurd (ha.symm.trans htool) (by simp)

end Turns

theorem Conversation.wellFormed {ms : List Message} {pending : List ToolCall}
    (h : Conversation ms pending) : WellFormed ms pending := by
  obtain ⟨s, rest, rfl, hs, hrest⟩ := h.turns
  refine ⟨⟨s, rest, rfl, hs, hrest.role_ne_system⟩, h.block, ?_, ?_⟩
  · intro front m back hms hm
    cases front with
    | nil =>
        obtain ⟨rfl, -⟩ := List.cons.inj hms
        exact absurd (hs.symm.trans hm) (by simp)
    | cons x front =>
        obtain ⟨rfl, hrest'⟩ := List.cons.inj hms
        obtain ⟨before, a, between, rfl, h⟩ := hrest.result hrest' hm
        exact ⟨_ :: before, a, between, rfl, h⟩
  · intro front a back hms ha
    cases front with
    | nil =>
        obtain ⟨rfl, -⟩ := List.cons.inj hms
        exact absurd (hs.symm.trans ha) (by simp)
    | cons x front => exact hrest.answered (List.cons.inj hms).2 ha

end MindOS.Agent
