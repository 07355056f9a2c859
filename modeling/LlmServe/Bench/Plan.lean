import LlmServe.Engine.Generate
import LlmServe.Infra.JsonText
import Mathlib.Data.Rat.Defs

/-!
# The requests of a load test (`bench/main.go`)

`plan` draws arrivals and lengths, `main` adds the injected request, `doRequest` turns each of them
into the body it posts. The generator of random numbers is a state that is handed on; `intn` is the
only draw whose range matters. Floats are exact rationals, and what `math.Exp` and `math.Log` make
of a normal draw is a parameter.
-/

namespace LlmServe.Bench

/-! ## Random numbers -/

/-- `*rand.Rand`. -/
structure Rand (ρ : Type) where
  expFloat64 : ρ → Rat × ρ
  normFloat64 : ρ → Rat × ρ
  intn : Nat → ρ → Nat × ρ
  intn_lt : ∀ {n : Nat} (s : ρ), 0 < n → (intn n s).1 < n
  /-- `int(math.Round(math.Exp(math.Log(median) + sigma*x)))`. -/
  roundExp : (median sigma x : Rat) → Int

/-! ## Workloads -/

/-- A length is fixed, or drawn where the fixed one is 0. -/
structure Workload where
  promptFixed : Int := 0
  outFixed : Int := 0
  promptMedian : Rat := 0
  promptSigma : Rat := 0
  promptLo : Int := 0
  promptHi : Int := 0
  outMedian : Rat := 0
  outSigma : Rat := 0
  outLo : Int := 0
  outHi : Int := 0

def workloads : List (String × Workload) :=
  [("A", { promptFixed := 64, outFixed := 64 }),
    ("B", { promptMedian := 64, promptSigma := 1 / 2, promptLo := 8, promptHi := 512
            outMedian := 48, outSigma := 7 / 10, outLo := 4, outHi := 256 }),
    ("C", { promptMedian := 64, promptSigma := 1 / 2, promptLo := 8, promptHi := 512
            outMedian := 40, outSigma := 6 / 5, outLo := 8, outHi := 400 })]

def vocab : Nat := 50257

structure Planned where
  id : Nat := 0
  arrival : Rat := 0
  prompt : List Token
  maxNew : Int
  injected : Bool := false
  deriving DecidableEq

/-! ## `plan` -/

section

variable {ρ : Type} (rng : Rand ρ)

def lognormal (s : ρ) (median sigma : Rat) (lo hi : Int) : Int × ρ :=
  let x := rng.normFloat64 s
  let v := rng.roundExp median sigma x.1
  let v := if v < lo then lo else v
  let v := if v > hi then hi else v
  (v, x.2)

def randomPrompt (s : ρ) : (n : Nat) → List Token × ρ
  | 0 => ([], s)
  | n + 1 =>
    let t := rng.intn (vocab - 1) s
    let p := randomPrompt t.2 n
    ((t.1 : Int) :: p.1, p.2)

/-- `pl` and `ol`. -/
def lengths (w : Workload) (s : ρ) : (Int × Int) × ρ :=
  if w.promptFixed = 0 then
    let pl := lognormal rng s w.promptMedian w.promptSigma w.promptLo w.promptHi
    let ol := lognormal rng pl.2 w.outMedian w.outSigma w.outLo w.outHi
    ((pl.1, ol.1), ol.2)
  else ((w.promptFixed, w.outFixed), s)

/-- The loop of `plan`, with as many turns as `fuel`. -/
def planFrom (w : Workload) (rate duration : Rat) : (fuel : Nat) → (id : Nat) → (t : Rat) → ρ →
    Option (List Planned)
  | 0, _, _, _ => none
  | fuel + 1, id, t, s =>
    let x := rng.expFloat64 s
    let t := t + x.1 / rate
    if t ≥ duration then some []
    else
      let l := lengths rng w x.2
      let p := randomPrompt rng l.2 l.1.1.toNat
      (planFrom w rate duration fuel (id + 1) t p.2).map fun out =>
        { id, arrival := t, prompt := p.1, maxNew := l.1.2 } :: out

def plan (fuel : Nat) (w : Workload) (seed : ρ) (rate duration : Rat) : Option (List Planned) :=
  planFrom rng w rate duration fuel 0 0 seed

/-- `if *injectAt > 0`; `wrng` is the generator behind the warm-up. -/
def inject (planned : List Planned) (injectAt : Rat) (injectPrompt : Nat) (wrng : ρ) :
    List Planned :=
  if injectAt > 0 then
    planned ++ [{ id := planned.length, arrival := injectAt
                  prompt := (randomPrompt rng wrng injectPrompt).1, maxNew := 16, injected := true }]
  else planned

end

/-! ## The body -/

/-- `json.Marshal` of the map, whose keys it sorts. -/
def Planned.body (p : Planned) : Text :=
  let member (key : String) (v : Text) : Text := '"' :: key.toList ++ ['"', ':'] ++ v
  '\x7b' :: [','].intercalate
    [member "ignore_eos" "true".toList,
      member "max_new_tokens" (dumpsInt p.maxNew),
      member "prompt_token_ids" ('[' :: [','].intercalate (p.prompt.map dumpsInt) ++ [']']),
      member "stream" "true".toList] ++ ['\x7d']

end LlmServe.Bench
