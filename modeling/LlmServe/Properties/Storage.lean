import LlmServe.Properties.CacheAccess
import LlmServe.Spec.ForwardPass

/-!
# The pool as one array for each request

A log has for each layer, request and position the entry that was written there. `Stored` says that
the pool has what the log has, for everything that is remembered of a request. A forward pass writes
its rows into both (`stored_pass`); the other small steps keep a request's pages (`stored_quiet`).

`PoolUse` is how the world uses the pool: nobody writes it but the forward pass, and the forward
pass writes some keys and values through the access of its rows, layer by layer.
-/

namespace LlmServe

open Infra Point

variable {σ : Type} {env : Env σ} {cfg : EngineConfig} {adm : Point σ → Ref → Prop} {m : Manager}
  {p p' : Point σ} {batch : List Ref} {rows : List Row} {nxt : List Token}

/-! ## The rows of a forward pass -/

theorem Pass.rowOf (h : Pass env p p' batch rows nxt) {row : Row} (hr : row ∈ rows) :
    RowOf p row.req row ∧ row.req ∈ batch := by
  have hreq : row.req ∈ batch := h.rows_req ▸ List.mem_map_of_mem hr
  obtain ⟨r, -, hof⟩ := exists_of_forall₂ h.row.flip hr
  have hr : row.req = r := hof.req
  exact ⟨hr ▸ hof, hreq⟩

theorem RowOf.total {r : Ref} {row : Row} (h : RowOf p r row) :
    row.total = (p.sched.heap r).tokens.length := by
  rw [Request.length_tokens]
  exact h.start

/-- An old position of a row is remembered. -/
theorem RowOf.lt_cached {r : Ref} {row : Row} (h : RowOf p r row) {j : Nat} (hj : j < row.start) :
    (p.phase r).Fed ∧ j < (p.view r).cached.length := by
  rcases h.cached with h0 | ⟨hfed, hcached⟩
  · omega
  · refine ⟨hfed, ?_⟩
    have hle := h.start
    rw [← hcached, List.length_take, Request.length_tokens]
    omega

/-- **The rows share no page**, and have none twice. -/
theorem Pass.apart (h : Pass env p p' batch rows nxt) (hgood : Good cfg m p) : Apart rows := by
  have hnd : p.units.Nodup := hgood.owned.nodup_iff.mpr List.nodup_range
  have hreq : rows.Pairwise fun a b => a.req ≠ b.req := by
    have hnodup := h.nodup
    rw [← h.rows_req, List.nodup_iff_pairwise_ne, List.pairwise_map] at hnodup
    exact hnodup
  constructor
  · intro row hr
    obtain ⟨hof, hb⟩ := h.rowOf hr
    have htable : (p.sched.heap row.req).blockTable.Nodup :=
      @nodup_of_owned _ _ _ _ (fun r => (p.sched.heap r).blockTable) _ hnd (h.held _ hb)
    exact hof.blockTable ▸ htable
  · refine hreq.imp_of_mem fun {x y} hx hy hne => ?_
    obtain ⟨hofx, hbx⟩ := h.rowOf hx
    obtain ⟨hofy, hby⟩ := h.rowOf hy
    rw [hofx.blockTable, hofy.blockTable]
    exact disjoint_of_owned hnd (h.held _ hbx) (h.held _ hby) hne

/-- A holder outside the batch shares no page with it. -/
theorem Pass.disjoint (h : Pass env p p' batch rows nxt) (hgood : Good cfg m p) {r : Ref}
    (hr : r ∈ p.held) (hno : r ∉ batch) {row : Row} (hrow : row ∈ rows) :
    row.blockTable.Disjoint (p.sched.heap r).blockTable := by
  have hnd : p.units.Nodup := hgood.owned.nodup_iff.mpr List.nodup_range
  obtain ⟨hof, hb⟩ := h.rowOf hrow
  rw [hof.blockTable]
  exact disjoint_of_owned hnd (h.held _ hb) hr fun he => hno (he ▸ hb)

/-- A row without tokens is the whole of a request without tokens. -/
theorem RowOf.seqLen_eq_zero {r : Ref} {row : Row} (h : RowOf p r row) (hdue : p.due = [])
    (hnil : row.tokens = []) : (p.sched.heap r).seqLen = 0 := by
  have hstart : row.start = (p.sched.heap r).seqLen := by
    have hle := h.start
    rw [hnil] at hle
    exact hle
  rcases h.cached with h0 | ⟨-, hcached⟩
  · omega
  · have hno : r ∉ p.dueRefs := by simp [Point.dueRefs, hdue]
    have hlen := congrArg List.length hcached
    rw [View.cached, if_neg (by simp [view, hno])] at hlen
    change _ = (p.sched.heap r).tokens.dropLast.length at hlen
    rw [List.length_take, List.length_dropLast, Request.length_tokens, hstart] at hlen
    omega

/-! ## How the world uses the pool -/

structure PoolUse (env : Env σ) (K V : Type) where
  nLayers : Nat
  pool : σ → Pool K V
  /-- The new `k` and `v` of a forward pass, by layer, row and column. -/
  kv : σ → List Row → CacheAccess → Nat → Nat → Nat → K × V
  clock : ∀ w, pool (env.perfCounter w).2 = pool w
  forward : ∀ {w rows nxt w'}, env.stepTokens w rows = .ok (nxt, w') →
    ∃ acc, (pool w).layout.access (rows.map Row.blockTable) (rows.map Row.start)
        (rows.map Row.len) = .ok acc ∧
      pool w' = { pool w with store := (pool w).store.writeAll acc (kv w rows acc) nLayers }

variable {K V : Type} {use : PoolUse env K V} {lay : Layout} {acc : CacheAccess}

/-- The entries of the pool at a point. -/
def PoolUse.entry (use : PoolUse env K V) (p : Point σ) : Nat → Nat × Nat → K × V :=
  (use.pool p.sched.world).store.entry

theorem Quiet.pool (use : PoolUse env K V) (h : Quiet env p p') :
    use.pool p'.sched.world = use.pool p.sched.world := by
  rcases h.world with he | he
  · rw [he]
  · rw [he, use.clock]

/-- The access of a forward pass, and what it leaves in the pool. -/
structure Written (use : PoolUse env K V) (lay : Layout) (p p' : Point σ) (rows : List Row)
    (acc : CacheAccess) : Prop where
  access : lay.access (rows.map Row.blockTable) (rows.map Row.start) (rows.map Row.len) = .ok acc
  pool : use.pool p'.sched.world = { use.pool p.sched.world with
    store := (use.pool p.sched.world).store.writeAll acc (use.kv p.sched.world rows acc) use.nLayers }

theorem Pass.written (h : Pass env p p' batch rows nxt)
    (hlay : (use.pool p.sched.world).layout = lay) : ∃ acc, Written use lay p p' rows acc := by
  obtain ⟨acc, hacc, hpool⟩ := use.forward h.answer
  exact ⟨acc, hlay ▸ hacc, hpool⟩

/-- **A holder outside the batch keeps all its entries**, used or not. -/
theorem Pass.entry_other (h : Pass env p p' batch rows nxt) (hgood : Good cfg m p)
    (hlaid : Laid lay rows acc) {r : Ref} (hr : r ∈ p.held) (hno : r ∉ batch) {j : Nat}
    (hj : lay.Reaches (p.sched.heap r).blockTable j) {s : KVStore K V}
    {kv : Nat → Nat → Nat → K × V} (l n : Nat) :
    (s.writeAll acc kv n).entry l (lay.cell (p.sched.heap r).blockTable j)
      = s.entry l (lay.cell (p.sched.heap r).blockTable j) := by
  refine KVStore.entry_writeAll_frame hlaid (fun row hrow j' _ hlt' => ?_) n
  exact address_ne (h.disjoint hgood hr hno hrow) (hlaid.reaches row hrow j' hlt') hj

/-! ## Logs -/

/-- By layer, request and position: the entry last written there. -/
abbrev Log (K V : Type) := Nat → Ref × Nat → Option (K × V)

/-- The batch writes its new entries. -/
def Log.write (L : Log K V) (rows : List Row) (kv : Nat → Nat → Nat → K × V) : Log K V :=
  fun l => assign (L l)
    (scatter Row.start Row.len (fun row j => (row.req, j)) rows fun i c => some (kv l i c))

variable {L L' : Log K V} {kv : Nat → Nat → Nat → K × V}

theorem log_scattered (hnd : (rows.map Row.req).Nodup) :
    Scattered Row.start Row.len (fun row j => (row.req, j)) rows where
  within := fun row _ c _ c' _ he => Nat.add_left_cancel (congrArg Prod.snd he)
  across := by
    rw [List.nodup_iff_pairwise_ne, List.pairwise_map] at hnd
    exact hnd.imp fun hne c _ c' _ he => hne (congrArg Prod.fst he)

theorem Log.write_new (hnd : (rows.map Row.req).Nodup) {i : Nat} {row : Row}
    (hi : rows[i]? = some row) {l j : Nat} (hle : row.start ≤ j) (hlt : j < row.total) :
    L.write rows kv l (row.req, j) = some (kv l i (j - row.start)) :=
  assign_scatter_mem (log_scattered hnd) hi hle hlt

theorem Log.write_frame {l : Nat} {x : Ref × Nat}
    (h : ∀ row ∈ rows, row.req = x.1 → x.2 < row.start ∨ row.total ≤ x.2) :
    L.write rows kv l x = L l x := by
  refine assign_scatter_frame fun row hr j hle hlt he => ?_
  subst he
  have htotal : row.total = row.start + row.len := rfl
  rcases h row hr rfl with hlt' | hge
  · exact absurd hle (Nat.not_le.mpr hlt')
  · omega

theorem Log.write_old (hnd : (rows.map Row.req).Nodup) {row : Row} (hr : row ∈ rows) {l j : Nat}
    (hlt : j < row.start) : L.write rows kv l (row.req, j) = L l (row.req, j) := by
  refine Log.write_frame fun x hx he => Or.inl ?_
  have hsame : x = row := List.inj_on_of_nodup_map hnd hx hr he
  exact hsame ▸ hlt

/-! ## The pool has what the log has -/

structure Stored (use : PoolUse env K V) (lay : Layout) (L : Log K V) (p : Point σ) : Prop where
  layout : (use.pool p.sched.world).layout = lay
  entries : ∀ r, (p.phase r).Fed → ∀ j < (p.view r).cached.length,
    lay.Reaches (p.sched.heap r).blockTable j ∧ ∀ l < use.nLayers,
      L l (r, j) = some (use.entry p l (lay.cell (p.sched.heap r).blockTable j))

theorem Stored.congr (h : Stored use lay L p)
    (hL : ∀ r, (p.phase r).Fed → ∀ j < (p.view r).cached.length, ∀ l < use.nLayers,
      L' l (r, j) = L l (r, j)) : Stored use lay L' p where
  layout := h.layout
  entries := fun r hr j hj => by
    obtain ⟨hreach, hl⟩ := h.entries r hr j hj
    exact ⟨hreach, fun l hlt => (hL r hr j hj l hlt).trans (hl l hlt)⟩

/-- **The other small steps** move no entry of a request, and take no page from it. -/
theorem stored_quiet (h : Stored use lay L p) (hgood : Good cfg m p) (hop : Op env cfg adm p p')
    (hq : Quiet env p p') : Stored use lay L p' where
  layout := by rw [hq.pool use, h.layout]
  entries := fun r hr j hj => by
    have hk := hgood.keeps hop hq hr
    rw [hk.cached] at hj
    obtain ⟨hreach, hl⟩ := h.entries r hk.phase j hj
    have hpre : (p.sched.heap r).blockTable <+: (p'.sched.heap r).blockTable := hk.blockTable
    have hcell : lay.cell (p'.sched.heap r).blockTable j = lay.cell (p.sched.heap r).blockTable j :=
      Infra.Reaches.address_prefix hreach hpre
    refine ⟨Nat.lt_of_lt_of_le hreach hpre.length_le, fun l hlt => ?_⟩
    rw [hl l hlt, hcell, PoolUse.entry, PoolUse.entry, hq.pool use]

/-- **A forward pass writes its rows into both**, and nothing else. -/
theorem stored_pass (h : Stored use lay L p) (hgood : Good cfg m p)
    (hpass : Pass env p p' batch rows nxt) (hlaid : Laid lay rows acc)
    (hw : Written use lay p p' rows acc) :
    Stored use lay (L.write rows (use.kv p.sched.world rows acc)) p' := by
  have hnd : (rows.map Row.req).Nodup := hpass.rows_req ▸ hpass.nodup
  have hentry : use.entry p' = ((use.pool p.sched.world).store.writeAll acc
      (use.kv p.sched.world rows acc) use.nLayers).entry := by rw [PoolUse.entry, hw.pool]
  refine ⟨by rw [hw.pool]; exact h.layout, fun r hr j hj => ?_⟩
  rw [hpass.heap, hentry]
  rw [hpass.cached r] at hj
  by_cases hb : r ∈ batch
  · rw [if_pos hb] at hj
    obtain ⟨row, hrow, hof⟩ := exists_of_forall₂ hpass.row hb
    obtain ⟨i, hi⟩ := List.mem_iff_getElem?.mp hrow
    obtain rfl := hof.req
    rw [← hof.total] at hj
    rw [← hof.blockTable]
    refine ⟨hlaid.reaches row hrow j hj, fun l hl => ?_⟩
    by_cases hnew : row.start ≤ j
    · rw [Log.write_new hnd hi hnew hj,
        KVStore.entry_writeAll_mem hlaid (hpass.apart hgood) hi hnew hj hl]
    · have hold := Nat.not_le.mp hnew
      obtain ⟨hfed, hcached⟩ := hof.lt_cached hold
      rw [Log.write_old hnd hrow hold,
        KVStore.entry_writeAll_old hlaid (hpass.apart hgood) hi hold, hof.blockTable]
      exact (h.entries row.req hfed j hcached).2 l hl
  · rw [if_neg hb] at hj
    have hfed := hpass.fed r hr hb
    obtain ⟨hreach, hl⟩ := h.entries r hfed j hj
    refine ⟨hreach, fun l hlt => ?_⟩
    have hheld : r ∈ p.held := mem_held_of_holds (hfed.elim (fun hp => Or.inr (Or.inl hp))
      fun hp => Or.inr (Or.inr hp))
    rw [hpass.entry_other hgood hlaid hheld hb hreach, Log.write_frame, hl l hlt]
    · rfl
    · intro row hrow he
      have he : row.req = r := he
      exact absurd (he ▸ (hpass.rowOf hrow).2) hb

end LlmServe
