import LlmServe.Engine.Api

/-!
# The load generator's reader (`bench/main.go`)

`doRequest` from the reply of the server on: it scans the body line by line, decodes each line
into a struct of two fields and takes the time of what it saw. Times are exact rationals where the
source has `float64`.

`bufio.Scanner` holds a line in a buffer that never grows over the size `Buffer` was given; a line
that does not fit there with its newline ends the scan.
-/

namespace LlmServe.Bench

/-! ## `bufio.Scanner` -/

/-- The second argument of `sc.Buffer`, `1<<20`. -/
def maxTokenSize : Nat := 1048576

/-- The text cut at each newline; what follows the last one is a line if it is not empty. -/
def splitLines (cur : Text) : Text → List Text
  | [] => if cur = [] then [] else [cur]
  | c :: cs => if c = '\n' then cur :: splitLines [] cs else splitLines (cur ++ [c]) cs

def dropCR (line : Text) : Text := if line.getLast? = some '\r' then line.dropLast else line

/-- The lines that `sc.Scan` finds, one after the other. -/
def scanLines (body : Text) : List Text :=
  ((splitLines [] body).takeWhile (·.length < maxTokenSize)).map dropCR

/-! ## `json.Unmarshal` -/

/-- The struct `m`: a `nil` pointer is `none`. -/
structure Msg where
  tokenId : Option Int := none
  done : Bool := false
  deriving DecidableEq

/-- The fields that an object sets: `null` and a missing key leave the zero value, a value of
another type is an error. -/
def Msg.ofObject (o : JsonObject) : Option Msg := do
  let tokenId ← match o.lookup "token_id" with
    | none | some .null => some none
    | some (.int i) => some (some i)
    | some _ => none
  let done ← match o.lookup "done" with
    | none | some .null => some false
    | some (.bool b) => some b
    | some _ => none
  return { tokenId, done }

/-! ## `doRequest` -/

inductive Status where
  | ok
  | rejected
  | error
  | incomplete
  deriving DecidableEq

structure Result where
  status : Status := .incomplete
  outTokens : Nat := 0
  ttft : Rat := 0
  e2e : Rat := 0
  tpot : Rat := 0
  tokenTimes : List Rat := []
  deriving DecidableEq

/-- The variables of the scan loop. -/
structure Reading where
  r : Result := {}
  done : Bool := false

/-- `if m.TokenID != nil`. -/
def Reading.onToken (rd : Reading) (start arrival now : Rat) : Reading :=
  let off := now - start
  { rd with
    r := { rd.r with
      outTokens := rd.r.outTokens + 1
      tokenTimes := rd.r.tokenTimes ++ [off]
      ttft := if rd.r.outTokens + 1 = 1 then off - arrival else rd.r.ttft } }

/-- `if m.Done`. -/
def Reading.onDone (rd : Reading) (start arrival now : Rat) : Reading :=
  { r := { rd.r with e2e := now - start - arrival }, done := true }

/-- The body of the scan loop for a line that was decoded. -/
def Reading.onMsg (rd : Reading) (start arrival now : Rat) (m : Msg) : Reading :=
  let rd := if m.tokenId ≠ none then rd.onToken start arrival now else rd
  if m.done then rd.onDone start arrival now else rd

section

variable (unmarshal : Text → Option Msg) (start arrival : Rat)

/-- `for sc.Scan()`; `clock` is `time.Now()` at each line. -/
def readLines : (clock : Nat → Rat) → Reading → List Text → Reading
  | _, rd, [] => rd
  | clock, rd, line :: lines =>
    let rd := match unmarshal line with
      | none => rd
      | some m => rd.onMsg start arrival (clock 0) m
    readLines (fun i => clock (i + 1)) rd lines

/-- What follows the loop. -/
def Reading.result (rd : Reading) : Result :=
  if rd.done then
    { rd.r with
      status := .ok
      tpot := if rd.r.outTokens > 1 then (rd.r.e2e - rd.r.ttft) / (rd.r.outTokens - 1 : Nat)
        else rd.r.tpot }
  else rd.r

/-- The outcome of `client.Do`. -/
inductive Reply where
  /-- `err != nil`; whether the deadline had passed. -/
  | failed (expired : Bool)
  | answered (statusCode : Nat) (body : Text)

def doRequest (clock : Nat → Rat) : Reply → Result
  | .failed expired => { status := if expired then .incomplete else .error }
  | .answered statusCode body =>
    if statusCode = 429 then { status := .rejected }
    else if statusCode ≠ 200 then { status := .error }
    else (readLines unmarshal start arrival clock {} (scanLines body)).result

end

end LlmServe.Bench
