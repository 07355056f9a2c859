import Mathlib.Data.List.Basic

/-!
# A sequence that each element continues

`unroll next start k` is the list of `k` elements that `next` appends to `start` one by one. A
program that appends until a condition on the appended list holds produces the first unrolling
with that condition (`FirstStop`), whatever order its checks are written in.
-/

namespace Infra

variable {α : Type} (next : List α → α) (start : List α)

/-- What `next` appends to `start` in `k` rounds. -/
def unroll : Nat → List α
  | 0 => []
  | k + 1 => unroll k ++ [next (start ++ unroll k)]

@[simp] theorem length_unroll : ∀ k, (unroll next start k).length = k
  | 0 => rfl
  | k + 1 => by rw [unroll, List.length_append, length_unroll k, List.length_singleton]

theorem unroll_prefix {j k : Nat} (h : j ≤ k) : unroll next start j <+: unroll next start k := by
  induction h with
  | refl => exact List.prefix_refl _
  | step _ ih => exact ih.trans (List.prefix_append _ _)

variable {next start}

/-- One more round. -/
theorem unroll_snoc {out : List α} {a : α} (hout : out = unroll next start out.length)
    (ha : a = next (start ++ out)) : out ++ [a] = unroll next start (out ++ [a]).length := by
  rw [List.length_append, List.length_singleton, unroll, ← hout, ha]

/-- What holds of all that `next` gives holds of every element. -/
theorem forall_mem_unroll {P : α → Prop} (h : ∀ l, P (next l)) :
    ∀ {k : Nat}, ∀ a ∈ unroll next start k, P a
  | 0, _, ha => absurd ha List.not_mem_nil
  | k + 1, a, ha => by
    rcases List.mem_append.mp ha with ha | ha
    · exact forall_mem_unroll h a ha
    · rw [List.mem_singleton.mp ha]
      exact h _

/-- Two functions that agree along the way. -/
theorem unroll_congr {next' : List α → α} : ∀ {k : Nat},
    (∀ j < k, next (start ++ unroll next start j) = next' (start ++ unroll next start j)) →
      unroll next start k = unroll next' start k
  | 0, _ => rfl
  | k + 1, h => by
    have ih := unroll_congr fun j hj => h j (Nat.lt_succ_of_lt hj)
    rw [unroll, unroll, h k (Nat.lt_succ_self k), ih]

variable (next start) in
/-- The first unrolling at which `stop` holds. -/
structure FirstStop (stop : List α → Prop) (out : List α) : Prop where
  unrolled : out = unroll next start out.length
  stops : stop out
  goes : ∀ pre, pre <+: out → pre ≠ out → ¬stop pre

theorem FirstStop.not_shorter {stop : List α → Prop} {out out' : List α}
    (h : FirstStop next start stop out) (h' : FirstStop next start stop out') :
    ¬out.length < out'.length := by
  intro hlt
  have hpre : out <+: out' := by
    rw [h.unrolled, h'.unrolled]
    exact unroll_prefix next start (Nat.le_of_lt hlt)
  exact h'.goes out hpre (fun he => Nat.lt_irrefl _ (he ▸ hlt)) h.stops

theorem FirstStop.congr {next' : List α → α} {stop : List α → Prop} {out : List α}
    (h : FirstStop next start stop out)
    (hnext : ∀ j < out.length,
      next (start ++ unroll next start j) = next' (start ++ unroll next start j)) :
    FirstStop next' start stop out where
  unrolled := h.unrolled.trans (unroll_congr hnext)
  stops := h.stops
  goes := h.goes

theorem FirstStop.unique {stop : List α → Prop} {out out' : List α}
    (h : FirstStop next start stop out) (h' : FirstStop next start stop out') : out = out' := by
  have hlen : out.length = out'.length :=
    Nat.le_antisymm (Nat.not_lt.mp (h'.not_shorter h)) (Nat.not_lt.mp (h.not_shorter h'))
  rw [h.unrolled, h'.unrolled, hlen]

end Infra
