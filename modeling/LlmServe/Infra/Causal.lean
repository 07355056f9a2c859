import Mathlib.Data.List.Basic
import Mathlib.Algebra.Order.Group.Nat

/-!
# A causal stack of layers, and its cache

Every position has a state in every layer. A layer turns the state of a position into a cell, and
computes the state of the next layer from the state and the cells of the positions up to it.
`hidden` recomputes everything. `chunk_hidden` is why a cache is enough: a run of positions computed
on top of the cells of all earlier positions has the recomputed states.
-/

namespace Infra

/-- The numbers below `k`, by a condition on the numbers below `n`. -/
theorem filter_range {p : Nat → Bool} {k n : Nat} (hk : k ≤ n) (h : ∀ j < n, p j = true ↔ j < k) :
    (List.range n).filter p = List.range k := by
  obtain ⟨d, rfl⟩ := Nat.exists_eq_add_of_le hk
  have hlow : (List.range k).filter p = List.range k := by
    rw [List.filter_eq_self]
    intro j hj
    have hj := List.mem_range.mp hj
    exact (h j (by omega)).mpr hj
  have hhigh : ((List.range d).map (k + ·)).filter p = [] := by
    rw [List.filter_eq_nil_iff]
    intro j hj
    obtain ⟨i, hi, rfl⟩ := List.mem_map.mp hj
    have hi := List.mem_range.mp hi
    rw [h (k + i) (by omega)]
    omega
  rw [List.range_add, List.filter_append, hlow, hhigh, List.append_nil]

structure Causal (Tok Hid Cell : Type) where
  embed : Tok → Nat → Hid
  /-- What a layer stores of a position. -/
  cell : Nat → Hid → Cell
  /-- The next layer's state, from the cells of the positions up to this one, in order. -/
  block : Nat → Hid → List Cell → Hid

namespace Causal

variable {Tok Hid Cell : Type} (M : Causal Tok Hid Cell)

/-- The state of layer `l` at position `p`, with nothing cached. -/
def hidden (toks : Nat → Tok) : Nat → Nat → Hid
  | 0, p => M.embed (toks p) p
  | l + 1, p => M.block l (hidden toks l p)
      ((List.range (p + 1)).map fun j => M.cell l (hidden toks l j))

/-- The cell of layer `l` at position `p`. -/
def cellAt (toks : Nat → Tok) (l p : Nat) : Cell := M.cell l (M.hidden toks l p)

variable {M}

/-- **Causality**: later tokens do not matter. -/
theorem hidden_congr {toks toks' : Nat → Tok} : ∀ (l p : Nat), (∀ j ≤ p, toks j = toks' j) →
    M.hidden toks l p = M.hidden toks' l p
  | 0, p, h => by rw [hidden, hidden, h p le_rfl]
  | l + 1, p, h => by
    have hcells : ∀ j ∈ List.range (p + 1),
        M.cell l (M.hidden toks l j) = M.cell l (M.hidden toks' l j) := fun j hj => by
      have hjp := Nat.lt_succ_iff.mp (List.mem_range.mp hj)
      rw [hidden_congr l j fun i hi => h i (hi.trans hjp)]
    rw [hidden, hidden, hidden_congr l p h, List.map_congr_left hcells]

theorem cellAt_congr {toks toks' : Nat → Tok} {l p : Nat} (h : ∀ j ≤ p, toks j = toks' j) :
    M.cellAt toks l p = M.cellAt toks' l p := by
  rw [cellAt, cellAt, hidden_congr l p h]

/--
**Computing on top of a cache.** `x l c` is the state of layer `l` at position `s + c`, computed
from `cached` before `s` and from the chunk itself after.
-/
theorem chunk_hidden {toks : Nat → Tok} {x : Nat → Nat → Hid} {cached : Nat → Nat → Cell}
    {s n depth : Nat} (hembed : ∀ c < n, x 0 c = M.embed (toks (s + c)) (s + c))
    (hblock : ∀ l < depth, ∀ c < n, x (l + 1) c = M.block l (x l c)
      ((List.range (s + c + 1)).map fun j =>
        if j < s then cached l j else M.cell l (x l (j - s))))
    (hcached : ∀ l < depth, ∀ j < s, cached l j = M.cellAt toks l j) :
    ∀ l ≤ depth, ∀ c < n, x l c = M.hidden toks l (s + c)
  | 0, _, c, hc => hembed c hc
  | l + 1, hl, c, hc => by
    have ih := chunk_hidden hembed hblock hcached l (Nat.le_of_succ_le hl)
    have hcells : ∀ j ∈ List.range (s + c + 1),
        (if j < s then cached l j else M.cell l (x l (j - s))) = M.cell l (M.hidden toks l j) := by
      intro j hj
      have hj := List.mem_range.mp hj
      split
      · next hjs => exact hcached l hl j hjs
      · next hjs => rw [ih (j - s) (by omega), Nat.add_sub_cancel' (Nat.not_lt.mp hjs)]
    rw [hblock l hl c hc, ih c hc, List.map_congr_left hcells, hidden]

end Causal

end Infra
