import MindOS.Chunks
import MindOS.Daemon.Agent.Conversation
import MindOS.Daemon.Web.Basic
import MindOS.Text.Utf8

/-!
# A streamed reply

`chat` reads the model server's events as they arrive: text and thinking are passed on
piece by piece, and tool calls are put together from fragments by their index. The JSON
parser and its printer are outside.
-/

namespace MindOS.Llm

open Text Agent

inductive Delta where
  | text (s : Text)
  | thinking (s : Text)
  deriving DecidableEq

/-- A tool call as far as it has arrived. -/
structure PartialCall where
  id : Text := []
  name : Text := []
  arguments : Text := []
  deriving DecidableEq

/-- A reply as far as it has arrived, with what was passed on. -/
structure Reply where
  text : Text := []
  calls : List PartialCall := []
  deltas : List Delta := []

/-- Why the stream ends: the server closed it, or reading it failed or was cancelled. -/
inductive Ending where
  | closed
  | failed (e : Text)

inductive Response where
  /-- An HTTP status without success, with the body. -/
  | refused (status body : Text)
  | stream (chunks : List (List UInt8)) (ending : Ending)

/-- What `chat` passed on and what it returns. -/
structure Chat where
  deltas : List Delta
  result : Except Text (Text × List ToolCall)

/-- `serde_json`: its parser, and how a value is printed. -/
structure JsonText where
  parse : Text → Option Json
  print : Json → Text

/-! ### One event -/

namespace Reply

def pass (r : Reply) (d : Delta) : Reply := { r with deltas := r.deltas ++ [d] }

def addThinking (r : Reply) (delta : Json) : Reply :=
  match delta.getStr "reasoning_content" with
  | some s => if s.isEmpty then r else r.pass (.thinking s)
  | none => r

def addText (r : Reply) (delta : Json) : Reply :=
  match delta.getStr "content" with
  | some s => if s.isEmpty then r else { r with text := r.text ++ s }.pass (.text s)
  | none => r

/-- One fragment of a tool call: the id replaces what was there, name and arguments are
appended. -/
def mergeCall (fragment : Json) (c : PartialCall) : PartialCall :=
  let function := fragment.get "function"
  { id := (fragment.getStr "id").getD c.id
    name := c.name ++ (function.getStr "name").getD []
    arguments := c.arguments ++ (function.getStr "arguments").getD [] }

def addCall (r : Reply) (fragment : Json) : Reply :=
  let index := ((fragment.get "index").asU64).getD r.calls.length
  let calls := r.calls ++ List.replicate (index + 1 - r.calls.length) ⟨[], [], []⟩
  { r with calls := calls.modify index (mergeCall fragment) }

def addCalls (r : Reply) (delta : Json) : Reply :=
  (((delta.get "tool_calls").asArray).getD []).foldl addCall r

def addDelta (r : Reply) (delta : Json) : Reply :=
  ((r.addThinking delta).addText delta).addCalls delta

end Reply

/-- `value.get("key")`. -/
def field? (v : Json) (key : Text) : Option Json :=
  match v with
  | .obj fields => fields.lookup key
  | _ => none

/-- `value.get(0)`. -/
def first? (v : Json) : Option Json := v.asArray.bind (·.head?)

/-- The reader stops: the reply is complete, or the server reports an error. -/
inductive Stop where
  | done (r : Reply)
  | error (r : Reply) (e : Text)

section Event

variable (json : JsonText)

def takeValue (r : Reply) (v : Json) : Reading Reply Stop :=
  match field? v "error" with
  | some err => .done (.error r ("model server error: ".toList ++ json.print err))
  | none =>
      match first? (v.get "choices") with
      | none => .more r
      | some choice => .more (r.addDelta (choice.get "delta"))

/-- One line of an event; a line without data, and data that are no JSON, are passed over. -/
def takeLine (r : Reply) (line : Text) : Reading Reply Stop :=
  if line.startsWith "data:" then
    let data := trim (line.drop "data:".toList.length)
    if data = "[DONE]".toList then .done (.done r)
    else
      match json.parse data with
      | some v => takeValue json r v
      | none => .more r
  else .more r

def takeEvent (r : Reply) (event : List UInt8) : Reading Reply Stop :=
  Reading.through (takeLine json) r (Web.lines (fromUtf8Lossy event))

end Event

/-! ### The whole stream -/

/-- `find_event_end`, and what is drained of the buffer: events end in an empty line. -/
def events : Cutter UInt8 := Cutter.before [10, 10] (by decide)

/-- The calls that have a name, with an id and arguments if they came without. -/
def finishCalls (calls : List PartialCall) : List ToolCall :=
  (calls.zipIdx.filter fun c => !c.1.name.isEmpty).map fun c =>
    { id := if c.1.id.isEmpty then "call_".toList ++ Nat.toDigits 10 c.2 else c.1.id
      name := c.1.name
      arguments := if (trim c.1.arguments).isEmpty then "{}" else c.1.arguments }

def Reply.finish (r : Reply) : Chat :=
  { deltas := r.deltas, result := .ok (r.text, finishCalls r.calls) }

def Reply.fail (r : Reply) (e : Text) : Chat := { deltas := r.deltas, result := .error e }

/-- `chat`, from the response on. -/
def chat (json : JsonText) : Response → Chat
  | .refused status body =>
      { deltas := []
        result := .error ("model server returned ".toList ++ status ++ ": ".toList ++
          body.take 500) }
  | .stream chunks ending =>
      match events.read (takeEvent json) ({}, []) chunks with
      | .done (.done r) => r.finish
      | .done (.error r e) => r.fail e
      | .more (r, _) =>
          match ending with
          | .closed => r.finish
          | .failed e => r.fail e

/-- However the stream is cut into chunks, the same deltas are passed on one after the
other, and the text and the tool calls are those of the whole stream in one chunk. -/
theorem chat_stream_flatten (json : JsonText) (chunks : List (List UInt8)) (ending : Ending) :
    chat json (.stream chunks ending) = chat json (.stream [chunks.flatten] ending) := by
  have hempty : events.cut [] = none := rfl
  have hread : events.read (takeEvent json) ({}, []) chunks =
      events.read (takeEvent json) ({}, []) [chunks.flatten] := Cutter.read_flatten hempty chunks
  rw [chat, chat, hread]

end MindOS.Llm
