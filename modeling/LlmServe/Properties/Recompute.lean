import LlmServe.Properties.Greedy
import LlmServe.Properties.Storage

/-!
# The pool has what recomputing would give

With the transformer as the world the log of a run is known: at position `j` of a request it has the
keys and values that recomputing all its tokens gives there. A forward pass on top of such a pool
computes the recomputed states (`states_hidden`), so it tells the next token (`Computed.tellsNext`)
and leaves such a pool behind (`computed_op`).
-/

namespace LlmServe

open Infra Point

variable {Hidden K V κ : Type} {M : Transformer Hidden K V} {clock : κ → Time × κ}
  {cfg : EngineConfig} {m : Manager} {adm : Point (RunnerState κ K V) → Ref → Prop}
  {p p' : Point (RunnerState κ K V)} {lay : Layout} {rows : List Row} {acc : CacheAccess}

/-! ## The model without a cache -/

/-- The transformer as a causal stack: a cell is a key and a value. -/
def Transformer.causal (M : Transformer Hidden K V) : Causal Token Hidden (K × V) where
  embed := M.embed
  cell := fun l h => (M.key l h, M.value l h)
  block := M.block

/-- The next token, with everything recomputed. -/
def Transformer.next (M : Transformer Hidden K V) (toks : List Token) : Token :=
  M.argmax (M.causal.hidden (fun j => toks.getD j 0) M.nLayers (toks.length - 1))

/-! ## One forward pass -/

namespace Transformer

/-- The new keys and values of layer `l`. -/
def kv (M : Transformer Hidden K V) (acc : CacheAccess) (store : KVStore K V) (rows : List Row)
    (l i c : Nat) : K × V :=
  (M.key l ((M.states acc store rows l).2 i c), M.value l ((M.states acc store rows l).2 i c))

variable {store : KVStore K V}

theorem states_succ (l : Nat) :
    M.states acc store rows (l + 1) = M.layer acc (M.states acc store rows l) l := by
  rw [states, List.range_succ, List.foldl_append]
  rfl

theorem states_store : ∀ n : Nat,
    (M.states acc store rows n).1 = store.writeAll acc (M.kv acc store rows) n
  | 0 => rfl
  | n + 1 => by
    rw [states_succ, KVStore.writeAll, ← states_store n]
    rfl

end Transformer

/-- How the transformer uses the pool. -/
def PoolUse.ofModel (M : Transformer Hidden K V) (clock : κ → Time × κ) :
    PoolUse (Env.ofModel M clock) K V where
  nLayers := M.nLayers
  pool := RunnerState.pool
  kv := fun w rows acc => M.kv acc w.pool.store rows
  clock := fun _ => rfl
  forward := by
    intro w rows nxt w' h
    obtain ⟨⟨out, pool, padFrac⟩, hstep, h⟩ := exists_of_bind_ok h
    cases h
    obtain ⟨acc, hacc, -, rfl⟩ := Transformer.stepTokens_ok hstep
    exact ⟨acc, hacc, by rw [Transformer.states_store]⟩

/-! ## The states of a forward pass -/

/-- A row's request fits the context, and the row has a token. -/
structure Row.Sized (row : Row) : Prop where
  tokens_ne : row.tokens ≠ []
  total_le : row.total ≤ maxContext

/-- Column `c` of a row has the token of its position. -/
theorem getD_of_eq_take_append {toks row : List Token} {start c : Nat}
    (h : toks = toks.take start ++ row) (hlen : start + row.length = toks.length) :
    row.getD c 0 = toks.getD (start + c) 0 := by
  have htake : (toks.take start).length = start := by
    rw [List.length_take]
    omega
  conv_rhs => rw [h, List.getD_append_right _ _ _ _ (by omega), htake, Nat.add_sub_cancel_left]

/-- **The states on top of a pool that has what recomputing gives** are the recomputed ones. -/
theorem Transformer.states_hidden {store : KVStore K V} (hlaid : Laid lay rows acc)
    (hapart : Apart rows) {i : Nat} {row : Row} (hi : rows[i]? = some row) (hsized : row.Sized)
    {toks : List Token} (htoks : toks = toks.take row.start ++ row.tokens)
    (htotal : row.total = toks.length)
    (hcached : ∀ l < M.nLayers, ∀ j < row.start, store.entry l (lay.cell row.blockTable j)
      = M.causal.cellAt (fun j => toks.getD j 0) l j) :
    ∀ l ≤ M.nLayers, ∀ c < row.len, (M.states acc store rows l).2 i c
      = M.causal.hidden (fun j => toks.getD j 0) l (row.start + c) := by
  have hlen : row.total = row.start + row.len := rfl
  have hle := hsized.total_le
  refine Causal.chunk_hidden (x := fun l c => (M.states acc store rows l).2 i c)
    (fun c hc => ?_) (fun l hl c hc => ?_) hcached
  · have hpos : acc.positions i c = row.start + c := by
      rw [BatchAccess.positions, hlaid.getD_starts hi]
      simp only [maxLen, maxContext] at hle ⊢
      omega
    have hids : (rows.map Row.tokens).getD i [] = row.tokens := by
      rw [List.getD_eq_getElem?_getD, List.getElem?_map, hi]
      rfl
    show M.embed (((rows.map Row.tokens).getD i []).getD c 0) (acc.positions i c) = _
    rw [hpos, hids, getD_of_eq_take_append htoks htotal]
    rfl
  · have hgather : ∀ j ∈ List.range (row.start + c + 1),
        (M.states acc store rows (l + 1)).1.gather acc l i j =
          if j < row.start then store.entry l (lay.cell row.blockTable j)
          else M.kv acc store rows l i (j - row.start) := by
      intro j hj
      have hj := List.mem_range.mp hj
      rw [Transformer.states_store, KVStore.gather_writeAll hlaid hapart hi (by omega)]
    rw [Transformer.states_succ] at hgather ⊢
    show M.block l _ ((acc.keys i c).map _) = _
    rw [hlaid.keys hi hc]
    exact congrArg (M.block l _) (List.map_congr_left hgather)

/-! ## Every small step -/

/-- The tokens of a request, by position. -/
def Point.token (p : Point (RunnerState κ K V)) (r : Ref) (j : Nat) : Token :=
  (p.sched.heap r).tokens.getD j 0

/-- The log that recomputing everything gives. -/
def Transformer.log (M : Transformer Hidden K V) (p : Point (RunnerState κ K V)) : Log K V :=
  fun l x => some (M.causal.cellAt (p.token x.1) l x.2)

/-- The pool has what recomputing gives. -/
def Computed (M : Transformer Hidden K V) (clock : κ → Time × κ) (lay : Layout)
    (p : Point (RunnerState κ K V)) : Prop := Stored (PoolUse.ofModel M clock) lay (M.log p) p

/-- The submitted requests have a prompt, may produce a token, and stay within the context. -/
def InContext {σ : Type} (p : Point σ) : Prop := ∀ r, p.Submitted r →
  1 ≤ (p.sched.heap r).promptTokenIds.length ∧ 1 ≤ (p.sched.heap r).maxNewTokens ∧
    (p.sched.heap r).promptTokenIds.length + (p.sched.heap r).maxNewTokens ≤ maxContext

theorem InContext.back {σ : Type} {env : Env σ} {adm : Point σ → Ref → Prop} {p p' : Point σ}
    (h : Good cfg m p) (hops : Ops env cfg adm p p') (hctx : InContext p') : InContext p := by
  intro r hr
  obtain ⟨hev, hr'⟩ := h.submitted hops hr
  have hreq := hctx r hr'
  rwa [hev.promptTokenIds, hev.maxNewTokens] at hreq

variable {batch : List Ref} {nxt : List Token}

theorem Pass.sized {σ : Type} {env : Env σ} {p p' : Point σ} (h : Pass env p p' batch rows nxt)
    (hgood : Good cfg m p) (hctx : InContext p) {row : Row} (hr : row ∈ rows) : row.Sized := by
  obtain ⟨hof, hb⟩ := h.rowOf hr
  have hsub := hgood.submitted_of_mem (Or.inr (h.held _ hb))
  obtain ⟨hprompt, hmax, hcap⟩ := hctx _ hsub
  have hlen : (p.sched.heap row.req).seqLen = (p.sched.heap row.req).promptTokenIds.length
    + (p.sched.heap row.req).outputTokenIds.length := rfl
  refine ⟨fun hnil => ?_, ?_⟩
  · have hzero := hof.seqLen_eq_zero h.due hnil
    omega
  · have hout := (hgood.facts row.req).ending.output_le hmax
    change ((p.sched.heap row.req).outputTokenIds.length : Int) ≤ _ at hout
    change _ ≤ (p.sched.heap row.req).maxNewTokens at hout
    rw [hof.total, Request.length_tokens]
    omega

/-- **A forward pass computes the recomputed states.** -/
theorem Computed.hidden (h : Computed M clock lay p) (hgood : Good cfg m p)
    (hpass : Pass (Env.ofModel M clock) p p' batch rows nxt) (hctx : InContext p)
    (hlaid : Laid lay rows acc) {i : Nat} {row : Row} (hi : rows[i]? = some row) {l c : Nat}
    (hl : l ≤ M.nLayers) (hc : c < row.len) :
    (M.states acc p.sched.world.pool.store rows l).2 i c
      = M.causal.hidden (p.token row.req) l (row.start + c) := by
  have hr := List.mem_of_getElem? hi
  obtain ⟨hof, -⟩ := hpass.rowOf hr
  refine Transformer.states_hidden hlaid (hpass.apart hgood) hi (hpass.sized hgood hctx hr) hof.tokens
    hof.total (fun l hl j hj => ?_) l hl c hc
  obtain ⟨hfed, hcached⟩ := hof.lt_cached hj
  rw [hof.blockTable]
  exact (Option.some.inj ((h.entries row.req hfed j hcached).2 l hl)).symm

/-- **The transformer tells the next token.** -/
theorem Computed.tellsNext (h : Computed M clock lay p) (hgood : Good cfg m p)
    (hctx : InContext p) (hsize : 0 < lay.pageSize) : TellsNext (Env.ofModel M clock) M.next p := by
  intro p' batch rows nxt hpass
  have hne : ∀ row ∈ rows, row.tokens ≠ [] := fun row hr => (hpass.sized hgood hctx hr).tokens_ne
  obtain ⟨⟨out, pool, padFrac⟩, hstep, hans⟩ := exists_of_bind_ok hpass.answer
  obtain rfl : out = nxt := congrArg Prod.fst (Except.ok.inj hans)
  obtain ⟨acc, hacc, rfl, -⟩ := Transformer.stepTokens_ok hstep
  have hlay : p.sched.world.pool.layout = lay := h.layout
  have hlaid : Laid lay rows acc := laid_of_access hsize hne (hlay ▸ hacc)
  have hbatch : batch.map (fun r => M.next (p.sched.heap r).tokens)
      = rows.map fun row => M.next (p.sched.heap row.req).tokens := by
    rw [← hpass.rows_req, List.map_map]
    rfl
  rw [hbatch]
  refine List.ext_getElem (by simp) fun i hi hi' => ?_
  rw [List.length_map] at hi'
  have hrow := List.getElem?_eq_getElem hi'
  have hpos : 0 < rows[i].len := List.length_pos_of_ne_nil (hne _ (List.getElem_mem hi'))
  have hlast : acc.lastColumn i = rows[i].len - 1 := by
    have hns : acc.ns.getD i 0 = rows[i].len := by
      simp [hlaid.ns, List.getD_eq_getElem?_getD, hrow]
    rw [BatchAccess.lastColumn, hns, if_neg (by omega)]
  have htotal := (hpass.rowOf (List.getElem_mem hi')).1.total
  have hlen : rows[i].total = rows[i].start + rows[i].len := rfl
  rw [List.getElem_map, List.getElem_map, List.getElem_range, hlast,
    h.hidden hgood hpass hctx hlaid hrow le_rfl (by omega), Transformer.next]
  congr 2
  omega

/-- A forward pass leaves what recomputing gives. -/
theorem computed_pass (h : Computed M clock lay p) (hgood : Good cfg m p)
    (hpass : Pass (Env.ofModel M clock) p p' batch rows nxt) (hctx : InContext p)
    (hsize : 0 < lay.pageSize) : Computed M clock lay p' := by
  obtain ⟨acc, hw⟩ := hpass.written h.layout
  have hlaid : Laid lay rows acc := laid_of_access hsize
    (fun row hr => (hpass.sized hgood hctx hr).tokens_ne) hw.access
  have hnd : (rows.map Row.req).Nodup := hpass.rows_req ▸ hpass.nodup
  refine (stored_pass h hgood hpass hlaid hw).congr fun r hr j hj l hl => ?_
  have hlog : M.log p' = M.log p := by
    unfold Transformer.log token
    rw [hpass.heap]
  rw [hlog]
  rw [hpass.cached r] at hj
  by_cases hb : r ∈ batch
  · rw [if_pos hb] at hj
    obtain ⟨row, hrow, hof⟩ := exists_of_forall₂ hpass.row hb
    obtain ⟨i, hi⟩ := List.mem_iff_getElem?.mp hrow
    obtain rfl := hof.req
    rw [← hof.total] at hj
    by_cases hnew : row.start ≤ j
    · have htotal : row.total = row.start + row.len := rfl
      rw [Log.write_new hnd hi hnew hj]
      show some (M.causal.cell l (M.causal.hidden (p.token row.req) l j)) = some (M.causal.cell l _)
      rw [h.hidden hgood hpass hctx hlaid hi (Nat.le_of_lt hl) (by omega),
        Nat.add_sub_cancel' hnew]
    · exact (Log.write_old hnd hrow (Nat.not_le.mp hnew)).symm
  · refine (Log.write_frame fun row hrow he => ?_).symm
    have he : row.req = r := he
    exact absurd (he ▸ (hpass.rowOf hrow).2) hb

/-- What is remembered is the beginning of the tokens. -/
theorem token_of_lt_cached {r : Ref} {i : Nat} (hi : i < (p.view r).cached.length) :
    p.token r i = (p.view r).cached.getD i 0 := by
  rw [token]
  unfold View.cached at hi ⊢
  split at hi
  · next hdue =>
    rw [if_pos hdue]
    rfl
  · next hdue =>
    rw [if_neg hdue, List.getD_eq_getElem?_getD, List.getD_eq_getElem?_getD,
      List.getElem?_eq_getElem hi, List.getElem_dropLast, ← List.getElem?_eq_getElem]
    rfl

theorem computed_quiet (h : Computed M clock lay p) (hgood : Good cfg m p)
    (hop : Op (Env.ofModel M clock) cfg adm p p') (hq : Quiet (Env.ofModel M clock) p p') :
    Computed M clock lay p' := by
  refine (stored_quiet h hgood hop hq).congr fun r hr j hj l _ => ?_
  have hk := hgood.keeps hop hq hr
  refine congrArg some (Causal.cellAt_congr fun i hi => ?_)
  have hi' : i < (p'.view r).cached.length := Nat.lt_of_le_of_lt hi hj
  rw [token_of_lt_cached hi', hk.cached, token_of_lt_cached (hk.cached ▸ hi')]

/-- **Small steps keep the pool as recomputing would fill it**, and the outputs as it would
continue them. -/
theorem computed_ops (hm : m.Fresh) {w : RunnerState κ K V} (hlay : w.pool.layout = m.layout)
    (hctx : InContext p) (hops : Ops (Env.ofModel M clock) cfg adm (rest (.init cfg m w) []) p) :
    Good cfg m p ∧ Computed M clock m.layout p ∧ Follows M.next p := by
  have hsize : 0 < m.layout.pageSize := by
    cases m with
    | slot m => exact Nat.succ_pos _
    | block m => exact m.blockSize_pos
  induction hops with
  | refl =>
    refine ⟨.init hm w, ⟨hlay, fun r hr => ?_⟩, .init m w⟩
    rcases hr with hr | hr <;> cases hr
  | @tail p p' hops hop ih =>
    have hgood := (Good.init hm w).ops hops
    have hback := hctx.back hgood (.single hop)
    obtain ⟨-, hcomp, hfol⟩ := ih hback
    refine ⟨hgood.op hop, ?_, follows_op hop hgood (hcomp.tellsNext hgood hback hsize) hfol⟩
    rcases op_pass_or_quiet hop hgood with ⟨batch, rows, nxt, hpass⟩ | hq
    · exact computed_pass hcomp hgood hpass hback hsize
    · exact computed_quiet hcomp hgood hop hq

/-! ## A small transformer -/

/-- Two layers of integers; every key seen changes the state. -/
def tiny : Transformer Int Int Int where
  nLayers := 2
  embed tok pos := 3 * tok + pos
  key l h := h + l
  value l h := h - 2 * l
  block l h kvs := (h + l + (kvs.map fun kv => kv.1 * kv.2).sum) % 1000
  argmax h := h % 50

/-- A pool full of what earlier runs left, for this allocator. -/
def tinyWorld (m : Manager) : RunnerState Nat Int Int where
  clock := 0
  pool := { layout := m.layout, store := { k := fun _ _ => 77, v := fun _ _ => 88 } }
  lastPadFrac := 0

/-- A clock that counts its readings. -/
def tinyClock (t : Nat) : Time × Nat := (t, t + 1)

def tinyEnv : Env (RunnerState Nat Int Int) := .ofModel tiny tinyClock

def tinyUse : PoolUse tinyEnv Int Int := .ofModel tiny tinyClock

end LlmServe
