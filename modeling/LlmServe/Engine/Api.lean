import LlmServe.Engine.Detokenizer

/-!
# Responses of `/generate` (`engine/api.py`)

The handler takes `(token, finished)` events from its queue and detokenizes them. A streamed
response is one JSON object a line: a line for each token, at most one line for the text held
back, and a last line that says the response is done. The other mode collects the same text.
-/

namespace LlmServe

open Infra

/-! ## JSON as `json.dumps` writes it -/

inductive Json where
  | null
  | bool (b : Bool)
  | int (i : Int)
  | str (text : Text)
  deriving DecidableEq

/-- The keys of an object in the order they were written. -/
abbrev JsonObject := List (String × Json)

/-- A UTF-16 unit as `\\uXXXX`. -/
def escapeUnit (n : Nat) : Text :=
  '\\' :: 'u' :: [n / 4096 % 16, n / 256 % 16, n / 16 % 16, n % 16].map Nat.digitChar

/-- `ensure_ascii`: whatever is not printable ASCII is escaped. -/
def escapeChar (c : Char) : Text :=
  if c = '"' then ['\\', '"']
  else if c = '\\' then ['\\', '\\']
  else if c = '\n' then ['\\', 'n']
  else if c = '\r' then ['\\', 'r']
  else if c = '\t' then ['\\', 't']
  else if c = '\x0c' then ['\\', 'f']
  else if c = '\x08' then ['\\', 'b']
  else if ' ' ≤ c ∧ c ≤ '~' then [c]
  else if c.toNat < 0x10000 then escapeUnit c.toNat
  else
    escapeUnit (0xD800 + (c.toNat - 0x10000) / 0x400)
      ++ escapeUnit (0xDC00 + (c.toNat - 0x10000) % 0x400)

def dumpsString (text : Text) : Text := '"' :: text.flatMap escapeChar ++ ['"']

def dumpsInt : Int → Text
  | .ofNat n => Nat.toDigits 10 n
  | .negSucc n => '-' :: Nat.toDigits 10 (n + 1)

def Json.dumps : Json → Text
  | .null => "null".toList
  | .bool b => (if b then "true" else "false").toList
  | .int i => dumpsInt i
  | .str text => dumpsString text

def JsonObject.dumps (o : JsonObject) : Text :=
  '\x7b' :: ", ".toList.intercalate (o.map fun (key, v) =>
    dumpsString key.toList ++ ": ".toList ++ v.dumps) ++ ['\x7d']

/-! ## Events -/

/-- One item of the handler's queue: a token and whether it is the last. -/
abbrev SinkEvent := Token × Bool

/-- What `events_iter` yields. -/
structure Yielded where
  t : Token
  text : Text
  fin : Bool
  n : Nat
  deriving DecidableEq

/-- `events_iter` on the events of the queue, in order: it stops behind a final event. -/
def eventsIter (tok : Tokenizer) : IncrementalDetokenizer → Nat → List SinkEvent →
    List Yielded × IncrementalDetokenizer
  | detok, _, [] => ([], detok)
  | detok, n, (t, fin) :: events =>
    let y : Yielded := { t, text := (detok.push tok t).1, fin, n := n + 1 }
    if fin then ([y], (detok.push tok t).2)
    else
      let rest := eventsIter tok (detok.push tok t).2 (n + 1) events
      (y :: rest.1, rest.2)

/-! ## The streamed response -/

def FinishReason.json : FinishReason → Json
  | .length => .str "length".toList
  | .stop => .str "stop".toList
  | .cancelled => .str "cancelled".toList

def tokenLine (t : Token) (text : Text) : JsonObject := [("token_id", .int t), ("text", .str text)]

/-- The line for the text that was held back. -/
def tailLine (tail : Text) : JsonObject := [("token_id", .null), ("text", .str tail)]

def doneLine (finishReason : Option FinishReason) (n : Nat) : JsonObject :=
  [("done", .bool true), ("finish_reason", (finishReason.map FinishReason.json).getD .null),
    ("n_tokens", .int n)]

/-- `if tail: yield …`. -/
def tailLines (tail : Text) : List JsonObject := if tail = [] then [] else [tailLine tail]

/-- The lines of `ndjson`; `finishReason` is `req.finish_reason` at the final event, and the
detokenizer that is flushed there has had every push. -/
def ndjson (tok : Tokenizer) (finishReason : Option FinishReason) (events : List SinkEvent) :
    List JsonObject :=
  let yielded := eventsIter tok {} 0 events
  yielded.1.flatMap fun y =>
    tokenLine y.t y.text :: if y.fin then
      tailLines (yielded.2.flush tok).1 ++ [doneLine finishReason y.n]
    else []

/-- The body of the streamed response. -/
def streamBody (lines : List JsonObject) : Text := lines.flatMap fun o => o.dumps ++ ['\n']

/-! ## The response in one piece -/

/-- `text` of the JSON response. -/
def responseText (tok : Tokenizer) (events : List SinkEvent) : Text :=
  let yielded := eventsIter tok {} 0 events
  (yielded.1.map Yielded.text).flatten ++ (yielded.2.flush tok).1

end LlmServe
