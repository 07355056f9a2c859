import LlmServe.Engine.Cache
import LlmServe.Engine.Engine

/-!
# The forward pass (`engine/model_runner.py`, class `ModelRunner`)

`Transformer` is the arithmetic of the model, exact and the same in every shape of batch: what is
done with one position's state between two uses of the cache. The methods around it, which decide
the positions, the entries of the cache and the keys each query sees, are translated.
-/

namespace LlmServe

open Infra

structure Transformer (Hidden K V : Type) where
  /-- `len(self.layers)`. -/
  nLayers : Nat
  /-- `wte[token] + wpe[position]`. -/
  embed : Token → Nat → Hidden
  /-- `k` of `ln_1` and `c_attn`. -/
  key : Nat → Hidden → K
  /-- `v` of `ln_1` and `c_attn`. -/
  value : Nat → Hidden → V
  /-- The rest of a layer: attention over the given keys and values, projections and MLP. -/
  block : Nat → Hidden → List (K × V) → Hidden
  /-- `ln_f`, the logits and their `argmax`. -/
  argmax : Hidden → Token

/-- The state of the world when the model runs in it: the clock, the pool, `last_pad_frac`. -/
structure RunnerState (κ K V : Type) where
  clock : κ
  pool : Pool K V
  lastPadFrac : Rat

namespace Transformer

variable {Hidden K V : Type} (M : Transformer Hidden K V)

/-! ## `step_tokens` -/

/-- The body of the loop over the layers; `x` is indexed by row and column. -/
def layer (acc : CacheAccess) (st : KVStore K V × (Nat → Nat → Hidden)) (li : Nat) :
    KVStore K V × (Nat → Nat → Hidden) :=
  let x := st.2
  let store := st.1.write acc li (fun i c => M.key li (x i c)) (fun i c => M.value li (x i c))
  (store, fun i c => M.block li (x i c) ((acc.keys i c).map fun j => store.gather acc li i j))

/-- `wte[ids] + wpe[positions]`, where `ids` is padded with 0. -/
def inputs (acc : CacheAccess) (tokens : List (List Token)) (i c : Nat) : Hidden :=
  M.embed ((tokens.getD i []).getD c 0) (acc.positions i c)

def stepTokens (pool : Pool K V) (rows : List Row) :
    Except PyError (List Token × Pool K V × Rat) := do
  let acc ← pool.layout.access (rows.map Row.blockTable) (rows.map Row.start)
    (rows.map fun row => row.tokens.length)
  let st := (List.range M.nLayers).foldl (M.layer acc)
    (pool.store, M.inputs acc (rows.map Row.tokens))
  if acc.t = 0 then .error (.indexError "index -1 is out of bounds for dimension 0 with size 0")
  let padFrac : Rat := 1 - (acc.totals.sum : Rat) / (acc.b * acc.lk : Nat)
  return ((List.range acc.b).map fun i => M.argmax (st.2 i (acc.lastColumn i)),
    { pool with store := st.1 }, padFrac)

/-! ## `_forward_single` and `generate_cached` -/

/-- The body of the loop over the layers, for `t` tokens from `start` on. -/
def layerSingle (start t : Nat) (st : ContiguousKVCache K V × (Nat → Hidden)) (li : Nat) :
    ContiguousKVCache K V × (Nat → Hidden) :=
  let x := st.2
  let cache := st.1.write li start t (fun c => M.key li (x c)) (fun c => M.value li (x c))
  -- `is_causal` for a prefill, every key for a single token
  (cache, fun c => M.block li (x c) (((List.range (start + t)).filter fun j =>
    if 1 < t then j ≤ c else true).map fun j => cache.read li j))

/-- `wpe` has a row for each position of the context, and `x[:, -1]` needs a token. -/
def forwardSingle (ids : List Token) (start : Nat) (cache : ContiguousKVCache K V) :
    Except PyError (Token × ContiguousKVCache K V) :=
  if ids = [] ∨ maxContext < start + ids.length then .error (.indexError "index out of range")
  else
    let st := (List.range M.nLayers).foldl (M.layerSingle start ids.length)
      (cache, fun c => M.embed (ids.getD c 0) (start + c))
    .ok (M.argmax (st.2 (ids.length - 1)), st.1)

/-- The `while True` of `generate_cached`: `nxt` is the `argmax` of the last logits. -/
def generateLoop (prompt : List Token) (maxNew : Int) (ignoreEos : Bool) (nxt : Token)
    (out : List Token) (cache : ContiguousKVCache K V) : Except PyError (List Token) :=
  if maxNew ≤ (out ++ [nxt]).length ∨ maxContext ≤ prompt.length + (out ++ [nxt]).length then
    .ok (out ++ [nxt])
  else if nxt = eosTokenId ∧ ignoreEos = false then .ok (out ++ [nxt])
  else
    M.forwardSingle [nxt] (prompt.length + (out ++ [nxt]).length - 1) cache >>= fun p =>
      generateLoop prompt maxNew ignoreEos p.1 (out ++ [nxt]) p.2
termination_by maxContext - (prompt.length + out.length)
decreasing_by
  simp only [List.length_append, List.length_singleton, not_or] at *
  omega

/-- `generate_cached`; `cache` is the uninitialised `ContiguousKVCache()`. -/
def generateCached (cache : ContiguousKVCache K V) (prompt : List Token) (maxNew : Int)
    (ignoreEos : Bool) : Except PyError (List Token) :=
  M.forwardSingle prompt 0 cache >>= fun p => M.generateLoop prompt maxNew ignoreEos p.1 [] p.2

end Transformer

/-! ## The model as the outside of the scheduler -/

theorem BatchAccess.new_ok {starts ns : List Nat} {a : BatchAccess} (h : new starts ns = .ok a) :
    a.starts = starts ∧ a.ns = ns ∧ a.totals = List.zipWith (· + ·) starts ns ∧
      ns.max? = some a.t ∧ a.totals.max? = some a.lk := by
  unfold new at h
  dsimp only at h
  split at h
  · next t lk ht hlk =>
    cases h
    exact ⟨rfl, rfl, rfl, ht, hlk⟩
  · cases h

/-- Both accesses extend the `BatchAccess` of their arguments. -/
theorem Layout.access_new {lay : Layout} {tables : List (List Nat)} {starts ns : List Nat}
    {acc : CacheAccess} (h : lay.access tables starts ns = .ok acc) :
    BatchAccess.new starts ns = .ok acc.toBatchAccess := by
  cases lay with
  | slots nSlots maxLen =>
    obtain ⟨slots, -, h⟩ := exists_of_bind_ok h
    obtain ⟨a, ha, h⟩ := exists_of_bind_ok h
    dsimp only at h
    split at h
    · cases h
      exact ha
    · cases h
  | blocks numBlocks bs =>
    obtain ⟨a, ha, h⟩ := exists_of_bind_ok h
    obtain ⟨writes, -, h⟩ := exists_of_bind_ok h
    split at h
    · cases h
      exact ha
    · cases h

/-- The states of layer `li`, for the pool `step_tokens` starts from. -/
def Transformer.states {Hidden K V : Type} (M : Transformer Hidden K V) (acc : CacheAccess)
    (store : KVStore K V) (rows : List Row) (li : Nat) : KVStore K V × (Nat → Nat → Hidden) :=
  (List.range li).foldl (M.layer acc) (store, M.inputs acc (rows.map Row.tokens))

theorem Transformer.stepTokens_ok {Hidden K V : Type} {M : Transformer Hidden K V} {pool : Pool K V}
    {rows : List Row} {nxt : List Token} {pool' : Pool K V} {padFrac : Rat}
    (h : M.stepTokens pool rows = .ok (nxt, pool', padFrac)) :
    ∃ acc, pool.layout.access (rows.map Row.blockTable) (rows.map Row.start)
        (rows.map fun row => row.tokens.length) = .ok acc ∧
      nxt = (List.range rows.length).map (fun i =>
        M.argmax ((M.states acc pool.store rows M.nLayers).2 i (acc.lastColumn i))) ∧
      pool' = { pool with store := (M.states acc pool.store rows M.nLayers).1 } := by
  obtain ⟨acc, hacc, h⟩ := exists_of_bind_ok h
  dsimp only at h
  split at h
  · cases h
  · cases h
    have hb : acc.b = rows.length := by
      rw [BatchAccess.b, (BatchAccess.new_ok (Layout.access_new hacc)).1, List.length_map]
    exact ⟨acc, hacc, by rw [hb]; rfl, rfl⟩

/-- The world in which `step_tokens` runs the model. -/
def Env.ofModel {Hidden K V κ : Type} (M : Transformer Hidden K V) (clock : κ → Time × κ) :
    Env (RunnerState κ K V) where
  perfCounter w := ((clock w.clock).1, { w with clock := (clock w.clock).2 })
  stepTokens w rows := do
    let (nxt, pool, lastPadFrac) ← M.stepTokens w.pool rows
    return (nxt, { w with pool, lastPadFrac })
  lastPadFrac w := w.lastPadFrac
  stepTokens_length h := by
    obtain ⟨⟨nxt, pool, padFrac⟩, hstep, h⟩ := exists_of_bind_ok h
    cases h
    obtain ⟨acc, -, rfl, -⟩ := Transformer.stepTokens_ok hstep
    rw [List.length_map, List.length_range]

/-! ## The ids that index the embedding table -/

/-- The rows of `wte`. -/
def vocabSize : Nat := 50257

/-- An element of `torch.tensor(toks, dtype=torch.long)`. -/
def toLong (tok : Token) : Except PyError Token :=
  if -2 ^ 63 ≤ tok ∧ tok < 2 ^ 63 then .ok tok
  else .error (.runtimeError "Overflow when unpacking long")

/-- The row that `wte[id]` reads: a negative index counts from the end. -/
def wteRow (id : Token) : Except PyError Nat :=
  let i := if id < 0 then id + vocabSize else id
  if 0 ≤ i ∧ i < vocabSize then .ok i.toNat
  else .error (.indexError
    ("index " ++ toString id ++ " is out of bounds for dimension 0 with size 50257"))

/-- Every row, padded with 0 to the longest. -/
def padded (tokenLists : List (List Token)) : List (List Token) :=
  let t := (tokenLists.map List.length).max?.getD 0
  tokenLists.map fun toks => toks ++ List.replicate (t - toks.length) 0

/-- `ids` of `step_tokens`. -/
def idsTensor (tokenLists : List (List Token)) : Except PyError (List (List Token)) := do
  let tokenLists ← tokenLists.mapM fun toks => toks.mapM toLong
  return padded tokenLists

/-- The rows of the table that `wte[ids]` reads. -/
def embedRows (tokenLists : List (List Token)) : Except PyError (List (List Nat)) := do
  let ids ← idsTensor tokenLists
  ids.mapM fun row => row.mapM wteRow

/-- The same world, where `step_tokens` raises if a lookup does. -/
def Env.withLookup {σ : Type} (env : Env σ) : Env σ where
  perfCounter := env.perfCounter
  stepTokens w rows := do
    let _ ← embedRows (rows.map Row.tokens)
    env.stepTokens w rows
  lastPadFrac := env.lastPadFrac
  stepTokens_length h := by
    obtain ⟨_, -, h⟩ := exists_of_bind_ok h
    exact env.stepTokens_length h

/-- `step_tokens` as the server runs it. -/
def Env.ofRunner {Hidden K V κ : Type} (M : Transformer Hidden K V) (clock : κ → Time × κ) :
    Env (RunnerState κ K V) := (Env.ofModel M clock).withLookup

/-- An id that has a row of its own in the table. -/
def InVocab (tok : Token) : Prop := 0 ≤ tok ∧ tok < vocabSize

instance instDecidableInVocab (tok : Token) : Decidable (InVocab tok) :=
  inferInstanceAs (Decidable (_ ∧ _))

/-- The `argmax` of the logits is the number of a row. -/
def Transformer.InVocab {Hidden K V : Type} (M : Transformer Hidden K V) : Prop :=
  ∀ h, LlmServe.InVocab (M.argmax h)

/-- `Transformer.inputs` embeds these ids. -/
theorem getD_padded (tokenLists : List (List Token)) (i c : Nat) :
    ((padded tokenLists).getD i []).getD c 0 = (tokenLists.getD i []).getD c 0 := by
  unfold padded
  by_cases hi : i < tokenLists.length
  · simp only [List.getD_eq_getElem?_getD, List.getElem?_map, List.getElem?_eq_getElem hi,
      Option.map_some, Option.getD_some]
    by_cases hc : c < tokenLists[i].length
    · rw [List.getElem?_append_left hc]
    · rw [List.getElem?_append_right (Nat.le_of_not_lt hc), List.getElem?_replicate,
        List.getElem?_eq_none (Nat.le_of_not_lt hc)]
      split <;> rfl
  · simp [List.getD_eq_getElem?_getD, List.getElem?_eq_none (Nat.le_of_not_lt hi)]

theorem toLong_ok {tok : Int} (h : InVocab tok) : toLong tok = .ok tok := by
  have hsize : tok < 50257 := h.2
  have hpos : 0 ≤ tok := h.1
  have hlong : -2 ^ 63 ≤ tok ∧ tok < 2 ^ 63 := ⟨by omega, by omega⟩
  exact if_pos hlong

theorem wteRow_ok {tok : Token} (h : InVocab tok) : wteRow tok = .ok tok.toNat := by
  unfold wteRow
  rw [if_neg (Int.not_lt.mpr h.1)]
  exact if_pos h

theorem mem_padded {tokenLists : List (List Token)} {row : List Token}
    (h : ∀ toks ∈ tokenLists, ∀ tok ∈ toks, InVocab tok) (hrow : row ∈ padded tokenLists) :
    ∀ tok ∈ row, InVocab tok := by
  intro tok htok
  obtain ⟨toks, htoks, rfl⟩ := List.mem_map.mp hrow
  rcases List.mem_append.mp htok with hin | hpad
  · exact h toks htoks tok hin
  · rw [List.eq_of_mem_replicate hpad]
    decide

/-- **Ids of the vocabulary are looked up as they are**, and so is the padding. -/
theorem embedRows_ok {tokenLists : List (List Token)}
    (h : ∀ toks ∈ tokenLists, ∀ tok ∈ toks, InVocab tok) :
    embedRows tokenLists = .ok ((padded tokenLists).map fun row => row.map Int.toNat) := by
  have hlong : tokenLists.mapM (fun toks => toks.mapM toLong) = .ok tokenLists := by
    have hrow : ∀ toks ∈ tokenLists, toks.mapM toLong = .ok (id toks) := fun toks htoks => by
      have hmap := mapM_ok_of_forall (g := id) fun tok htok => toLong_ok (h toks htoks tok htok)
      rwa [List.map_id] at hmap
    rw [mapM_ok_of_forall hrow, List.map_id]
  unfold embedRows idsTensor
  rw [hlong]
  exact mapM_ok_of_forall fun row hrow =>
    mapM_ok_of_forall fun tok htok => wteRow_ok (mem_padded h hrow tok htok)

end LlmServe
