import LlmServe.Engine.Engine

/-!
# A forward pass that is a function of the tokens

The deterministic outside world: a clock that ticks at each reading and a model whose next token
depends on the tokens a request has been fed, and on nothing else.
-/

namespace LlmServe

/-- The clock, and for each request the tokens fed to the model so far, by position. -/
structure History where
  clock : Time
  seen : Ref → List Token

/-- A row overwrites the positions from its start on. -/
def History.feed (seen : Ref → List Token) (row : Row) : Ref → List Token :=
  Function.update seen row.req ((seen row.req).take row.start ++ row.tokens)

/-- The world whose next token after `toks` is `next toks`. -/
def Env.ofNext (next : List Token → Token) : Env History where
  perfCounter w := (w.clock, { w with clock := w.clock + 1 })
  stepTokens w rows :=
    let seen := rows.foldl History.feed w.seen
    .ok (rows.map fun row => next (seen row.req), { w with seen })
  lastPadFrac _ := 0
  stepTokens_length h := by
    cases h
    rw [List.length_map]

theorem Env.ofNext_answers (next : List Token → Token) : (Env.ofNext next).Answers :=
  fun _ _ _ => ⟨_, rfl⟩

def History.start : History := { clock := 0, seen := fun _ => [] }

end LlmServe
