import LlmServe.Properties.Lifecycle
import LlmServe.Properties.Recompute

/-!
# One sequence with a contiguous cache (`generate_cached`)

`_forward_single` on a cache that has what recomputing gives tells the next token and leaves such a
cache (`forwardSingle_ok`), so `generate_cached` ends where greedy decoding ends
(`generateCached_ends`).
-/

namespace LlmServe

open Infra

variable {Hidden K V : Type} {M : Transformer Hidden K V}

namespace Transformer

/-- The cache has what recomputing these tokens gives. -/
def Holds (M : Transformer Hidden K V) (cache : ContiguousKVCache K V) (toks : List Token) : Prop :=
  ∀ l < M.nLayers, ∀ j < toks.length,
    cache.read l j = M.causal.cellAt (fun j => toks.getD j 0) l j

/-! ## `_forward_single` -/

/-- The cache and the states of layer `l`. -/
def singleStates (M : Transformer Hidden K V) (ids : List Token) (start : Nat)
    (cache : ContiguousKVCache K V) (l : Nat) : ContiguousKVCache K V × (Nat → Hidden) :=
  (List.range l).foldl (M.layerSingle start ids.length)
    (cache, fun c => M.embed (ids.getD c 0) (start + c))

variable {ids : List Token} {start : Nat} {cache : ContiguousKVCache K V}

theorem singleStates_succ (l : Nat) : M.singleStates ids start cache (l + 1)
    = M.layerSingle start ids.length (M.singleStates ids start cache l) l := by
  rw [singleStates, List.range_succ, List.foldl_append]
  rfl

/-- Layer `l` writes its cells at the new positions. -/
theorem read_singleStates (l j : Nat) : ∀ n, (M.singleStates ids start cache n).1.read l j =
    if l < n ∧ start ≤ j ∧ j < start + ids.length then
      M.causal.cell l ((M.singleStates ids start cache l).2 (j - start))
    else cache.read l j
  | 0 => by simp [singleStates]
  | n + 1 => by
    have ih := read_singleStates l j n
    rw [singleStates_succ]
    by_cases hl : l = n
    · subst hl
      by_cases hj : start ≤ j ∧ j < start + ids.length
      · rw [if_pos ⟨Nat.lt_succ_self l, hj⟩]
        simp only [layerSingle, ContiguousKVCache.read, ContiguousKVCache.write,
          Function.update_self, if_pos hj]
        rfl
      · rw [if_neg fun h => hj h.2]
        rw [if_neg fun h => hj h.2] at ih
        rw [← ih]
        simp only [layerSingle, ContiguousKVCache.read, ContiguousKVCache.write,
          Function.update_self, if_neg hj]
    · have hread : (M.layerSingle start ids.length (M.singleStates ids start cache n) n).1.read l j
          = (M.singleStates ids start cache n).1.read l j := by
        simp only [layerSingle, ContiguousKVCache.read, ContiguousKVCache.write,
          Function.update_of_ne hl]
      rw [hread, ih]
      congr 1
      simp only [eq_iff_iff]
      omega

/-- The keys that a new token sees: those up to its own. -/
theorem visible_single {t c : Nat} (hone : start = 0 ∨ t = 1) (hc : c < t) :
    ((List.range (start + t)).filter fun j => if 1 < t then decide (j ≤ c) else true)
      = List.range (start + c + 1) := by
  refine filter_range (by omega) fun j hj => ?_
  by_cases ht : 1 < t
  · rw [if_pos ht, decide_eq_true_eq]
    omega
  · rw [if_neg ht]
    simp only [true_iff]
    omega

/-- **The states on top of such a cache** are the recomputed ones. -/
theorem singleStates_hidden {pre : List Token} (hone : pre = [] ∨ ids.length = 1)
    (hcache : M.Holds cache pre) : ∀ l ≤ M.nLayers, ∀ c < ids.length,
      (M.singleStates ids pre.length cache l).2 c
        = M.causal.hidden (fun j => (pre ++ ids).getD j 0) l (pre.length + c) := by
  have hcached : ∀ l < M.nLayers, ∀ j < pre.length, cache.read l j
      = M.causal.cellAt (fun j => (pre ++ ids).getD j 0) l j := by
    intro l hl j hj
    rw [hcache l hl j hj]
    refine Causal.cellAt_congr fun i hi => ?_
    rw [List.getD_append _ _ _ _ (by omega)]
  refine Causal.chunk_hidden (x := fun l => (M.singleStates ids pre.length cache l).2)
    (fun c hc => ?_) (fun l hl c hc => ?_) hcached
  · show M.embed (ids.getD c 0) (pre.length + c) = M.embed ((pre ++ ids).getD (pre.length + c) 0) _
    rw [List.getD_append_right _ _ _ _ (Nat.le_add_right ..), Nat.add_sub_cancel_left]
  · have hread : ∀ j ∈ List.range (pre.length + c + 1),
        (M.singleStates ids pre.length cache (l + 1)).1.read l j = if j < pre.length then
          cache.read l j else M.causal.cell l ((M.singleStates ids pre.length cache l).2
            (j - pre.length)) := by
      intro j hj
      have hj := List.mem_range.mp hj
      rw [read_singleStates]
      by_cases hlt : j < pre.length
      · rw [if_pos hlt, if_neg (by omega)]
      · rw [if_neg hlt, if_pos (by omega)]
    rw [singleStates_succ] at hread ⊢
    have hstart : pre.length = 0 ∨ ids.length = 1 := hone.imp_left fun h => by rw [h]; rfl
    show M.block l _ (List.map _ (List.filter _ _)) = _
    rw [visible_single hstart hc]
    exact congrArg (M.block l _) (List.map_congr_left hread)

theorem forwardSingle_ok {pre : List Token} (hne : ids ≠ [])
    (hle : pre.length + ids.length ≤ maxContext) (hone : pre = [] ∨ ids.length = 1)
    (hcache : M.Holds cache pre) : ∃ cache', M.forwardSingle ids pre.length cache
      = .ok (M.next (pre ++ ids), cache') ∧ M.Holds cache' (pre ++ ids) := by
  have hpos : 0 < ids.length := List.length_pos_of_ne_nil hne
  have hhidden := singleStates_hidden hone hcache
  refine ⟨(M.singleStates ids pre.length cache M.nLayers).1, ?_, fun l hl j hj => ?_⟩
  · rw [forwardSingle, if_neg (by rw [not_or]; exact ⟨hne, Nat.not_lt.mpr hle⟩)]
    have hlast := hhidden M.nLayers le_rfl (ids.length - 1) (by omega)
    have hpos : pre.length + (ids.length - 1) = (pre ++ ids).length - 1 := by
      rw [List.length_append]
      omega
    rw [hpos] at hlast
    show Except.ok (M.argmax ((M.singleStates ids pre.length cache M.nLayers).2 (ids.length - 1)), _)
      = _
    rw [hlast]
    rfl
  · rw [List.length_append] at hj
    rw [read_singleStates]
    by_cases hnew : pre.length ≤ j
    · rw [if_pos ⟨hl, hnew, hj⟩, hhidden l (Nat.le_of_lt hl) (j - pre.length) (by omega),
        Nat.add_sub_cancel' hnew]
      rfl
    · rw [if_neg (by omega), hcache l hl j (by omega)]
      refine Causal.cellAt_congr fun i hi => ?_
      rw [List.getD_append _ _ _ _ (by omega)]

/-! ## `generate_cached` -/

variable {prompt out : List Token} {maxNew : Int} {ignoreEos : Bool}

/-- In the loop: the cache is right, and no token so far ended the request. -/
structure Generating (M : Transformer Hidden K V) (prompt : List Token) (maxNew : Int)
    (ignoreEos : Bool) (out : List Token) (cache : ContiguousKVCache K V) : Prop where
  holds : M.Holds cache (prompt ++ out)
  room : prompt.length + out.length < maxContext
  unrolled : out = unroll M.next prompt out.length
  goes : ∀ pre, pre <+: out →
    Request.endReason (min maxNew (maxContext - prompt.length)) ignoreEos pre = none

theorem generateLoop_ends (out : List Token) (cache : ContiguousKVCache K V)
    (h : M.Generating prompt maxNew ignoreEos out cache) :
    ∃ res, M.generateLoop prompt maxNew ignoreEos (M.next (prompt ++ out)) out cache = .ok res ∧
      Request.Ends M.next prompt (min maxNew (maxContext - prompt.length)) ignoreEos res := by
  have hlimit : (maxNew ≤ (out ++ [M.next (prompt ++ out)]).length ∨
      maxContext ≤ prompt.length + (out ++ [M.next (prompt ++ out)]).length) ↔
        min maxNew (maxContext - prompt.length) ≤ (out.length + 1 : Int) := by
    simp only [List.length_append, List.length_singleton, maxContext]
    omega
  have hends : Request.endReason (min maxNew (maxContext - prompt.length)) ignoreEos
      (out ++ [M.next (prompt ++ out)]) ≠ none →
      Request.Ends M.next prompt (min maxNew (maxContext - prompt.length)) ignoreEos
        (out ++ [M.next (prompt ++ out)]) := fun hstop => {
    unrolled := unroll_snoc h.unrolled rfl
    stops := hstop
    goes := fun pre hpre hne =>
      not_not.mpr (h.goes pre ((List.prefix_concat_iff.mp hpre).resolve_left hne)) }
  rw [Request.endReason_snoc] at hends
  rw [generateLoop]
  by_cases hlen : min maxNew (maxContext - prompt.length) ≤ (out.length + 1 : Int)
  · rw [if_pos (hlimit.mpr hlen)]
    rw [if_pos hlen] at hends
    exact ⟨_, rfl, hends (Option.some_ne_none _)⟩
  rw [if_neg fun hl => hlen (hlimit.mp hl)]
  rw [if_neg hlen] at hends
  by_cases heos : M.next (prompt ++ out) = eosTokenId ∧ ignoreEos = false
  · rw [if_pos heos]
    rw [if_pos heos] at hends
    exact ⟨_, rfl, hends (Option.some_ne_none _)⟩
  rw [if_neg heos]
  -- the token is fed at its position, and the loop goes on
  have hroom : prompt.length + (out.length + 1) < maxContext := by
    simp only [maxContext] at hlen ⊢
    omega
  obtain ⟨cache', hfwd, hholds⟩ := forwardSingle_ok (List.cons_ne_nil (M.next (prompt ++ out)) [])
    (by simp only [List.length_append, List.length_singleton]; omega) (Or.inr rfl) h.holds
  have hstart : prompt.length + (out ++ [M.next (prompt ++ out)]).length - 1
      = (prompt ++ out).length := by
    simp only [List.length_append, List.length_singleton]
    omega
  have hnext : M.Generating prompt maxNew ignoreEos (out ++ [M.next (prompt ++ out)]) cache' := {
    holds := by rw [← List.append_assoc]; exact hholds
    room := by rw [List.length_append]; exact hroom
    unrolled := unroll_snoc h.unrolled rfl
    goes := fun pre hpre => by
      rcases List.prefix_concat_iff.mp hpre with rfl | hpre
      · rw [Request.endReason_snoc, if_neg hlen, if_neg heos]
      · exact h.goes pre hpre }
  rw [hstart, hfwd, List.append_assoc]
  exact generateLoop_ends (out ++ [M.next (prompt ++ out)]) cache' hnext
termination_by maxContext - (prompt.length + out.length)
decreasing_by
  rw [List.length_append, List.length_singleton]
  omega

/-- **`generate_cached` returns, with the greedy output.** -/
theorem generateCached_ends (cache : ContiguousKVCache K V) (hpos : 1 ≤ prompt.length)
    (hle : prompt.length ≤ 1023) (maxNew : Int) (ignoreEos : Bool) :
    ∃ res, M.generateCached cache prompt maxNew ignoreEos = .ok res ∧
      Request.Ends M.next prompt (min maxNew (maxContext - prompt.length)) ignoreEos res := by
  have hempty : M.Holds cache [] := fun l _ j hj => absurd hj (Nat.not_lt_zero j)
  have hne : prompt ≠ [] := List.ne_nil_of_length_pos hpos
  obtain ⟨cache', hfwd, hholds⟩ := forwardSingle_ok hne
    (by simp only [List.length_nil, maxContext]; omega) (Or.inl rfl) hempty
  have hstart : M.Generating prompt maxNew ignoreEos [] cache' := {
    holds := by rw [List.append_nil]; exact hholds
    room := by simp only [List.length_nil, maxContext]; omega
    unrolled := rfl
    goes := fun pre hpre => by rw [List.prefix_nil.mp hpre]; rfl }
  obtain ⟨res, hres, hends⟩ := generateLoop_ends [] cache' hstart
  refine ⟨res, ?_, hends⟩
  rw [List.append_nil] at hres
  show M.forwardSingle prompt ([] : List Token).length cache >>= _ = _
  rw [hfwd]
  exact hres

end Transformer

end LlmServe
