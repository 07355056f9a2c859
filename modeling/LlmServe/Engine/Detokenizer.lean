import LlmServe.Engine.Request
import LlmServe.Infra.Utf8

/-!
# Streaming detokenisation (`engine/detokenizer.py`)

One character can span several byte-level tokens. The detokenizer decodes a sliding window of ids
and releases text only when the window does not end in an incomplete character.
-/

namespace LlmServe

open Infra

/-- A Python `str`. -/
abbrev Text := List Char

/-- A byte-level tokenizer, as `decode` sees it: each token stands for a fixed string of bytes. -/
structure Tokenizer where
  bytes : Token → List UInt8
  bytes_ne_nil : ∀ t, bytes t ≠ []

namespace Tokenizer

def allBytes (tok : Tokenizer) (ids : List Token) : List UInt8 := ids.flatMap tok.bytes

/-- `tokenizer.decode`. -/
def decode (tok : Tokenizer) (ids : List Token) : Text := Utf8.decode (tok.allBytes ids)

end Tokenizer

/-- `prefixIdx` is the source's `prefix`, the start of the window; ids before `read` have been
emitted as text. -/
structure IncrementalDetokenizer where
  ids : List Token := []
  prefixIdx : Nat := 0
  read : Nat := 0
  deriving DecidableEq

namespace IncrementalDetokenizer

/-- `self.tok.decode(self.ids[self.prefix:self.read])`. -/
def prefixText (tok : Tokenizer) (d : IncrementalDetokenizer) : Text :=
  tok.decode ((d.ids.take d.read).drop d.prefixIdx)

/-- `self.tok.decode(self.ids[self.prefix:])`. -/
def newText (tok : Tokenizer) (d : IncrementalDetokenizer) : Text :=
  tok.decode (d.ids.drop d.prefixIdx)

/-- `push`, from `self.ids.append` on. -/
def release (tok : Tokenizer) (d : IncrementalDetokenizer) : Text × IncrementalDetokenizer :=
  if (d.newText tok).length > (d.prefixText tok).length ∧
      (d.newText tok).getLast? ≠ some Utf8.replacement then
    ((d.newText tok).drop (d.prefixText tok).length,
      { d with prefixIdx := d.read, read := d.ids.length })
  else
    -- incomplete character: hold it back until more bytes arrive
    ([], d)

def push (tok : Tokenizer) (d : IncrementalDetokenizer) (tokenId : Token) :
    Text × IncrementalDetokenizer :=
  release tok { d with ids := d.ids ++ [tokenId] }

/-- What is left; an incomplete tail becomes U+FFFD, as a plain decode would. -/
def flush (tok : Tokenizer) (d : IncrementalDetokenizer) : Text × IncrementalDetokenizer :=
  ((d.newText tok).drop (d.prefixText tok).length,
    { d with prefixIdx := d.ids.length, read := d.ids.length })

/-- One `push` for each id: the pieces it returned, and the detokenizer after the last. -/
def pushAll (tok : Tokenizer) (d : IncrementalDetokenizer) :
    List Token → List Text × IncrementalDetokenizer
  | [] => ([], d)
  | t :: ts =>
    ((d.push tok t).1 :: ((d.push tok t).2.pushAll tok ts).1, ((d.push tok t).2.pushAll tok ts).2)

end IncrementalDetokenizer

end LlmServe
