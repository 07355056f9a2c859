import LlmServe.Engine.Generate
import LlmServe.Infra.JsonText

/-!
# The body of a request (`engine/api.py`, class `GenerateIn`)

FastAPI reads the body and pydantic makes a `GenerateIn` of it. Both are packages; what the server
relies on is that a JSON object whose fields have their declared types is taken as it is
(`TakesJson`). What else they accept, and convert, is left to them.
-/

namespace LlmServe

open Infra

namespace GenerateIn

/-- The value of a key; the last one counts. -/
def field (members : List (Text × JsonText.Value)) (key : String) : Option JsonText.Value :=
  members.reverse.lookup key.toList

/-- `str | None = None`. -/
def readText : Option JsonText.Value → Option (Option Text)
  | none | some .null => some none
  | some (.str text) => some (some text)
  | some _ => none

def readId : JsonText.Value → Option Token
  | .int i => some i
  | _ => none

/-- `list[int] | None = None`. -/
def readIds : Option JsonText.Value → Option (Option (List Token))
  | none | some .null => some none
  | some (.arr items) => (items.mapM readId).map some
  | some _ => none

/-- `int` with a default. -/
def readInt (default : Int) : Option JsonText.Value → Option Int
  | none => some default
  | some (.int i) => some i
  | some _ => none

/-- `bool = False`. -/
def readBool : Option JsonText.Value → Option Bool
  | none => some false
  | some (.bool b) => some b
  | some _ => none

/-- The object whose fields have their declared types, or are left out. -/
def ofValue : JsonText.Value → Option GenerateIn
  | .obj members => do
    let prompt ← readText (field members "prompt")
    let promptTokenIds ← readIds (field members "prompt_token_ids")
    let maxNewTokens ← readInt 32 (field members "max_new_tokens")
    let ignoreEos ← readBool (field members "ignore_eos")
    let stream ← readBool (field members "stream")
    return { prompt, promptTokenIds, maxNewTokens, ignoreEos, stream }
  | _ => none

end GenerateIn

/-- What FastAPI and pydantic make of a body, where nothing has to be converted. -/
def TakesJson (readBody : Text → Option GenerateIn) : Prop :=
  ∀ text v body, JsonText.parse 2 text = some v → GenerateIn.ofValue v = some body →
    readBody text = some body

end LlmServe
