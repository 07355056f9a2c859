import LlmServe.Bench.DoRequest
import LlmServe.Infra.JsonText
import Mathlib.Algebra.Ring.Int.Defs

/-!
# `json.Unmarshal` into the struct of the scan loop (`bench/main.go`)

The package matches the keys of an object with the tags of the struct whatever their case, sets the
fields in the order of the keys and ignores keys it does not know. A value of another type is an
error, reported at the end; `doRequest` then ignores the line. `null` empties a pointer and leaves
anything else alone.
-/

namespace LlmServe.Bench

open Infra

/-- `maxNestingDepth`. -/
def maxNestingDepth : Nat := 10000

/-- `foldRune`, for the runes that fold to ASCII: besides the letters these are the Kelvin sign and
the long s. -/
def foldRune (c : Char) : Char :=
  if 'a' ≤ c ∧ c ≤ 'z' then Char.ofNat (c.toNat - 32)
  else if c = '\u212a' then 'K'
  else if c = '\u017f' then 'S'
  else c

def foldName (key : Text) : Text := key.map foldRune

namespace Msg

/-- A value for `TokenID *int`. -/
def setTokenId (m : Msg) : JsonText.Value → Option Msg
  | .null => some { m with tokenId := none }
  | .int i => if -2 ^ 63 ≤ i ∧ i < 2 ^ 63 then some { m with tokenId := some i } else none
  | _ => none

/-- A value for `Done bool`. -/
def setDone (m : Msg) : JsonText.Value → Option Msg
  | .null => some m
  | .bool b => some { m with done := b }
  | _ => none

def setField (m : Msg) : Text × JsonText.Value → Option Msg
  | (key, v) =>
    if foldName key = foldName "token_id".toList then m.setTokenId v
    else if foldName key = foldName "done".toList then m.setDone v
    else some m

end Msg

/-- `json.Unmarshal(sc.Bytes(), &m)`; `none` stands for an error. -/
def unmarshal (line : Text) : Option Msg :=
  match JsonText.parse maxNestingDepth line with
  | some .null => some {}
  | some (.obj members) => members.foldlM Msg.setField {}
  | _ => none

end LlmServe.Bench
