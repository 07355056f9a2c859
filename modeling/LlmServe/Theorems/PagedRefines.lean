import LlmServe.Properties.Recompute
import LlmServe.Spec.Runs

/-!
# The paged pool refines the contiguous one

A log is one contiguous array for each request and layer. `Logged` keeps it beside a run: a forward
pass writes its new entries, and a request that holds no memory has none, so every allocation starts
with nothing. After any history the paged pool returns what the log has, and so does a slot pool
with the same arrays.
-/

namespace LlmServe

open Infra Point

variable {σ K V : Type} {env : Env σ} {cfg : EngineConfig} {w : σ}

/-! ## The log of a run -/

/-- Requests without memory have no entries. -/
def Log.forget (L : Log K V) (p : Point σ) : Log K V :=
  fun l x => if x.1 ∈ p.held then L l x else none

/-- A run of small steps, with the log of what it wrote. -/
inductive Logged (use : PoolUse env K V) (cfg : EngineConfig) (lay : Layout) (p₀ : Point σ) :
    Point σ → Log K V → Prop where
  | start : Logged use cfg lay p₀ p₀ fun _ _ => none
  | quiet {p p' : Point σ} {L : Log K V} (h : Logged use cfg lay p₀ p L)
      (hop : Op env cfg (fun _ _ => True) p p') (hq : Quiet env p p') :
      Logged use cfg lay p₀ p' (L.forget p)
  | pass {p p' : Point σ} {L : Log K V} {batch : List Ref} {rows : List Row} {nxt : List Token}
      {acc : CacheAccess} (h : Logged use cfg lay p₀ p L)
      (hop : Op env cfg (fun _ _ => True) p p') (hpass : Pass env p p' batch rows nxt)
      (hw : Written use lay p p' rows acc) :
      Logged use cfg lay p₀ p' (L.write rows (use.kv p.sched.world rows acc))

/-! ## One write -/

/-- What the write of layer `l` in a forward pass does, and what the gather after it returns. -/
structure LayerRefines (use : PoolUse env K V) (bs : Nat) (p : Point σ) (batch : List Ref)
    (rows : List Row) (acc : CacheAccess) (L : Log K V) (l : Nat) (before after : KVStore K V) :
    Prop where
  /-- Every row gets, at every position it has, the entry last written there. -/
  gather : ∀ (i : Nat) (row : Row), rows[i]? = some row → ∀ j < row.total,
    some (after.gather acc l i j)
      = L.write rows (use.kv p.sched.world rows acc) l (row.req, j)
  /-- Only the new positions of the rows change. -/
  changes : ∀ (l' : Nat) (a : Nat × Nat), after.entry l' a ≠ before.entry l' a → l' = l ∧
    ∃ row ∈ rows, ∃ j, row.start ≤ j ∧ j < row.start + row.tokens.length ∧
      row.blockTable[j / bs]? = some a.1 ∧ a.2 = j % bs
  /-- The other holders keep whatever is in their blocks. -/
  others : ∀ r ∈ p.held, r ∉ batch → ∀ (j block l' : Nat),
    (p.sched.heap r).blockTable[j / bs]? = some block →
      after.entry l' (block, j % bs) = before.entry l' (block, j % bs)
  /-- A slot pool whose slots have the same arrays returns the same at every visible key. -/
  slots : ∀ (n maxLen : Nat) (slots : List Nat) (acc' : CacheAccess) (s : KVStore K V),
    slots.Nodup → slots.length = rows.length →
    SlotAccess n maxLen (slots.map fun slot => [slot]) (rows.map Row.start) (rows.map Row.len)
      = .ok acc' →
    (∀ (i : Nat) (row : Row), rows[i]? = some row → ∀ j < row.start,
      some (s.entry l (slots.getD i 0, j)) = L l (row.req, j)) →
    ∀ (i c : Nat), i < rows.length → acc'.keys i c = acc.keys i c ∧
      ∀ j ∈ acc.keys i c,
        (s.writeAll acc' (use.kv p.sched.world rows acc) (l + 1)).gather acc' l i j
          = after.gather acc l i j

variable {use : PoolUse env K V} {m : BlockManager} {p p' : Point σ} {batch : List Ref}
  {rows : List Row} {nxt : List Token} {acc : CacheAccess} {L : Log K V}

/-- A request without tokens has no blocks, so the paged access rejects its row. -/
theorem Pass.tokens_ne_nil (h : Pass env p p' batch rows nxt) (hgood : Good cfg (.block m) p)
    (hw : Written use (Manager.block m).layout p p' rows acc) {row : Row} (hr : row ∈ rows) :
    row.tokens ≠ [] := by
  intro hnil
  obtain ⟨hof, hb⟩ := h.rowOf hr
  have hzero := hof.seqLen_eq_zero h.due hnil
  have hle := (hgood.facts row.req).table.le (hgood.holds_of_held (h.held _ hb))
  change ((p.sched.heap row.req).blockTable.length : Int)
    ≤ m.blocksNeeded (p.sched.heap row.req).seqLen at hle
  have hnone : m.blocksNeeded 0 ≤ 0 := m.blocksNeeded_le_iff.mpr (by simp)
  rw [hzero, Nat.cast_zero] at hle
  have hempty : (p.sched.heap row.req).blockTable = [] :=
    List.eq_nil_of_length_eq_zero (by omega)
  exact table_ne_nil_of_pagedAccess hw.access hr (hof.blockTable.trans hempty)

theorem Pass.laid (h : Pass env p p' batch rows nxt) (hgood : Good cfg (.block m) p)
    (hw : Written use (Manager.block m).layout p p' rows acc) :
    Laid (Manager.block m).layout rows acc :=
  laid_of_access m.blockSize_pos (fun _ hr => h.tokens_ne_nil hgood hw hr) hw.access

/-! ## A batch of slots -/

/-- The same rows, each in a slot. -/
def slotRows (rows : List Row) (slots : List Nat) : List Row :=
  List.zipWith (fun row slot => { row with blockTable := [slot] }) rows slots

theorem getElem?_slotRows {slots : List Nat} (hlen : slots.length = rows.length) {i : Nat}
    {row : Row} (hi : rows[i]? = some row) :
    (slotRows rows slots)[i]? = some { row with blockTable := [slots.getD i 0] } := by
  have hlt : i < slots.length := hlen ▸ (List.getElem?_eq_some_iff.mp hi).1
  rw [slotRows, List.getElem?_zipWith, hi, List.getElem?_eq_getElem hlt,
    List.getD_eq_getElem _ _ hlt]

theorem map_slotRows {α : Type} (f : Row → α)
    (hf : ∀ row slot, f { row with blockTable := [slot] } = f row) :
    ∀ {rows : List Row} {slots : List Nat}, slots.length = rows.length →
      (slotRows rows slots).map f = rows.map f
  | [], [], _ => rfl
  | row :: rows, slot :: slots, hlen => by
    have ih := map_slotRows f hf (Nat.succ_inj.mp hlen)
    rw [slotRows, List.zipWith_cons_cons, List.map_cons, List.map_cons, hf, ← ih, slotRows]

theorem tables_slotRows : ∀ {rows : List Row} {slots : List Nat}, slots.length = rows.length →
    (slotRows rows slots).map Row.blockTable = slots.map fun slot => [slot]
  | [], [], _ => rfl
  | row :: rows, slot :: slots, hlen => by
    have ih := tables_slotRows (Nat.succ_inj.mp hlen)
    rw [slotRows, List.zipWith_cons_cons, List.map_cons, List.map_cons, ← ih, slotRows]

theorem slotRows_ne_nil {slots : List Nat} (hlen : slots.length = rows.length)
    (hne : ∀ row ∈ rows, row.tokens ≠ []) : ∀ row ∈ slotRows rows slots, row.tokens ≠ [] := by
  intro row hr
  have hmem : row.tokens ∈ rows.map Row.tokens :=
    map_slotRows Row.tokens (fun _ _ => rfl) hlen ▸ List.mem_map_of_mem hr
  obtain ⟨row', hr', he⟩ := List.mem_map.mp hmem
  exact he ▸ hne row' hr'

/-- The access of the slots is the access of these rows. -/
theorem access_slotRows {n maxLen : Nat} {slots : List Nat} {acc' : CacheAccess}
    (hlen : slots.length = rows.length)
    (h : SlotAccess n maxLen (slots.map fun slot => [slot]) (rows.map Row.start)
      (rows.map Row.len) = .ok acc') :
    SlotAccess n maxLen ((slotRows rows slots).map Row.blockTable)
      ((slotRows rows slots).map Row.start) ((slotRows rows slots).map Row.len) = .ok acc' := by
  rw [tables_slotRows hlen, map_slotRows Row.start (fun _ _ => rfl) hlen,
    map_slotRows Row.len (fun _ _ => rfl) hlen]
  exact h

theorem apart_slotRows {slots : List Nat} (hlen : slots.length = rows.length)
    (hnd : slots.Nodup) : Apart (slotRows rows slots) := by
  have hpair : ((slotRows rows slots).map Row.blockTable).Pairwise List.Disjoint := by
    rw [tables_slotRows hlen, List.pairwise_map]
    refine hnd.imp fun hne => ?_
    simpa using hne.symm
  constructor
  · intro row hr
    have hmem : row.blockTable ∈ slots.map fun slot => [slot] :=
      tables_slotRows hlen ▸ List.mem_map_of_mem hr
    obtain ⟨slot, -, he⟩ := List.mem_map.mp hmem
    exact he ▸ List.nodup_singleton slot
  · exact List.pairwise_map.mp hpair

/-! ## Every write -/

/-- A page of the table, and where a position is. -/
theorem cell_blocks {n bs j block : Nat} {table : List Nat} (h : table[j / bs]? = some block) :
    (Layout.blocks n bs).Reaches table j ∧ (Layout.blocks n bs).cell table j = (block, j % bs) := by
  refine ⟨(List.getElem?_eq_some_iff.mp h).1, ?_⟩
  rw [Layout.cell, address, Layout.pageSize, List.getD_eq_getElem?_getD, h, Option.getD_some]

theorem layer_refines (hpass : Pass env p p' batch rows nxt) (hgood : Good cfg (.block m) p)
    (hw : Written use (Manager.block m).layout p p' rows acc)
    (hst : Stored use (Manager.block m).layout L p) {l : Nat} (hl : l < use.nLayers) :
    LayerRefines use m.blockSize p batch rows acc L l
      ((use.pool p.sched.world).store.writeAll acc (use.kv p.sched.world rows acc) l)
      ((use.pool p.sched.world).store.writeAll acc (use.kv p.sched.world rows acc) (l + 1)) := by
  have hlaid := hpass.laid hgood hw
  have hapart := hpass.apart hgood
  have hnd : (rows.map Row.req).Nodup := hpass.rows_req ▸ hpass.nodup
  -- what a row gathers is what the log has after this forward pass
  have hgather : ∀ (i : Nat) (row : Row), rows[i]? = some row → ∀ j < row.total,
      some (((use.pool p.sched.world).store.writeAll acc (use.kv p.sched.world rows acc)
        (l + 1)).gather acc l i j)
        = L.write rows (use.kv p.sched.world rows acc) l (row.req, j) := by
    intro i row hi j hj
    have hr := List.mem_of_getElem? hi
    rw [KVStore.gather_writeAll hlaid hapart hi hj]
    split
    · next hold =>
      have hof := (hpass.rowOf hr).1
      obtain ⟨hfed, hcached⟩ := hof.lt_cached hold
      rw [Log.write_old hnd hr hold, hof.blockTable]
      exact ((hst.entries row.req hfed j hcached).2 l hl).symm
    · next hnew => rw [Log.write_new hnd hi (Nat.not_lt.mp hnew) hj]
  refine ⟨hgather, fun l' a hne => ?_, fun r hr hno j block l' hblock => ?_,
    fun n maxLen slots acc' s hslots hlen hacc hsame i c hi => ?_⟩
  · by_contra hout
    refine hne ?_
    rw [KVStore.writeAll]
    by_cases hl' : l' = l
    · refine KVStore.entry_write_frame hlaid fun row hr j hle hlt he => ?_
      have hreach : j / m.blockSize < row.blockTable.length := hlaid.reaches row hr j hlt
      refine hout ⟨hl', row, hr, j, hle, hlt, ?_, ?_⟩
      · rw [← he]
        show _ = some (row.blockTable.getD (j / m.blockSize) 0)
        rw [List.getD_eq_getElem _ _ hreach, List.getElem?_eq_getElem hreach]
      · rw [← he]
        rfl
    · exact KVStore.entry_write_other hl' _ _ a
  · obtain ⟨hreach, hcell⟩ : (Manager.block m).layout.Reaches (p.sched.heap r).blockTable j ∧
        (Manager.block m).layout.cell (p.sched.heap r).blockTable j = (block, j % m.blockSize) :=
      cell_blocks hblock
    rw [← hcell, hpass.entry_other hgood hlaid hr hno hreach,
      hpass.entry_other hgood hlaid hr hno hreach]
  · have hne : ∀ row ∈ rows, row.tokens ≠ [] := fun row hr => hpass.tokens_ne_nil hgood hw hr
    have hrow := List.getElem?_eq_getElem hi
    have hbase : acc'.toBatchAccess = acc.toBatchAccess := by
      have hnew := Layout.access_new (show (Layout.slots n maxLen).access _ _ _ = .ok acc' from hacc)
      exact Except.ok.inj (hnew.symm.trans (Layout.access_new hw.access))
    refine ⟨by rw [hbase], fun j hj => ?_⟩
    have hlt := hlaid.lt_total_of_mem_keys hrow hj
    have hacc' := access_slotRows hlen hacc
    have hne' := slotRows_ne_nil hlen hne
    have hi' := getElem?_slotRows hlen hrow
    have hmax := lt_maxLen_of_slotAccess hne' hacc' (List.mem_of_getElem? hi') hlt
    rw [KVStore.gather_writeAll (laid_of_slotAccess hne' hacc') (apart_slotRows hlen hslots) hi' hlt,
      KVStore.gather_writeAll hlaid hapart hrow hlt]
    by_cases hold : j < rows[i].start
    · rw [if_pos hold, if_pos hold]
      -- both pools have what the log has
      have hof := (hpass.rowOf (List.getElem_mem hi)).1
      obtain ⟨hfed, hcached⟩ := hof.lt_cached hold
      have hlog := (hst.entries rows[i].req hfed j hcached).2 l hl
      rw [← hsame i rows[i] hrow j hold] at hlog
      rw [hof.blockTable, Layout.cell_slots hmax]
      exact Option.some.inj hlog
    · rw [if_neg hold, if_neg hold]

/-! ## Every run -/

theorem Phase.Fed.holds {ph : Phase} (h : ph.Fed) : ph.Holds := h.elim (fun hb => Or.inr (Or.inl hb))
  fun hr => Or.inr (Or.inr hr)

/-- **The pool has what the log has**, after any history. -/
theorem logged_stored (hm : (Manager.block m).Fresh)
    (hlay : (use.pool w).layout = (Manager.block m).layout)
    (h : Logged use cfg (Manager.block m).layout (rest (.init cfg (.block m) w) []) p L) :
    Good cfg (.block m) p ∧ Stored use (Manager.block m).layout L p := by
  induction h with
  | start =>
    refine ⟨.init hm w, hlay, fun r hr => ?_⟩
    rcases hr with hr | hr <;> cases hr
  | @quiet p p' L _ hop hq ih =>
    obtain ⟨hgood, hst⟩ := ih
    refine ⟨hgood.op hop, (stored_quiet hst hgood hop hq).congr fun r hr j _ l _ => ?_⟩
    have hfed : (p.view r).phase.Fed := (hgood.keeps hop hq hr).phase
    exact if_pos (mem_held_of_holds hfed.holds)
  | @pass p p' L batch rows nxt acc _ hop hpass hw ih =>
    obtain ⟨hgood, hst⟩ := ih
    exact ⟨hgood.op hop, stored_pass hst hgood hpass (hpass.laid hgood hw) hw⟩

theorem exists_logged (hm : (Manager.block m).Fresh)
    (hlay : (use.pool w).layout = (Manager.block m).layout)
    (h : Reach env cfg (rest (.init cfg (.block m) w) []) p) :
    ∃ L, Logged use cfg (Manager.block m).layout (rest (.init cfg (.block m) w) []) p L := by
  induction h with
  | refl => exact ⟨_, .start⟩
  | tail _ hop ih =>
    obtain ⟨L, hL⟩ := ih
    obtain ⟨hgood, hst⟩ := logged_stored hm hlay hL
    rcases op_pass_or_quiet hop hgood with ⟨batch, rows, nxt, hpass⟩ | hq
    · obtain ⟨acc, hw⟩ := hpass.written hst.layout
      exact ⟨_, hL.pass hop hpass hw⟩
    · exact ⟨_, hL.quiet hop hq⟩

/--
**The paged pool refines the contiguous one.** Every point a run reaches has a log. From there every
small step leaves the pool alone, or is a forward pass; then each layer's write changes only the
positions of the new tokens, and the gather after it returns what the log has, which is also what a
slot pool with the same arrays returns.
-/
theorem paged_pool_refines (hm : (Manager.block m).Fresh)
    (hlay : (use.pool w).layout = .blocks m.numBlocks m.blockSize) :
    (∀ p, Reach env cfg (rest (.init cfg (.block m) w) []) p →
      ∃ L, Logged use cfg (.blocks m.numBlocks m.blockSize)
        (rest (.init cfg (.block m) w) []) p L) ∧
    ∀ p L, Logged use cfg (.blocks m.numBlocks m.blockSize)
        (rest (.init cfg (.block m) w) []) p L →
      ∀ p', Op env cfg (fun _ _ => True) p p' →
        use.pool p'.sched.world = use.pool p.sched.world ∨
        ∃ batch rows nxt acc, Pass env p p' batch rows nxt ∧
          Written use (.blocks m.numBlocks m.blockSize) p p' rows acc ∧
          ∀ l < use.nLayers, LayerRefines use m.blockSize p batch rows acc L l
            ((use.pool p.sched.world).store.writeAll acc (use.kv p.sched.world rows acc) l)
            ((use.pool p.sched.world).store.writeAll acc (use.kv p.sched.world rows acc)
              (l + 1)) := by
  refine ⟨fun p hp => exists_logged hm hlay hp, fun p L hL p' hop => ?_⟩
  obtain ⟨hgood, hst⟩ := logged_stored hm hlay hL
  rcases op_pass_or_quiet hop hgood with ⟨batch, rows, nxt, hpass⟩ | hq
  · obtain ⟨acc, hw⟩ := hpass.written hst.layout
    exact Or.inr ⟨batch, rows, nxt, acc, hpass, hw, fun l hl => layer_refines hpass hgood hw hst hl⟩
  · exact Or.inl (hq.pool use)

/-- Two rows in three blocks, one of them evicted and given blocks again; its next forward pass is
one that the pool refines. -/
theorem paged_pool_refines_evicted :
    ∃ s p', run (Scheduler.act tinyEnv { preemption := true })
        (.init { preemption := true } (.block (.new 3 2 Nat.two_pos false))
          (tinyWorld (.block (.new 3 2 Nat.two_pos false))))
        [.submit { requestId := "a", promptTokenIds := [5, 6], maxNewTokens := 3 },
          .submit { requestId := "b", promptTokenIds := [7], maxNewTokens := 6 },
          .step, .step, .step, .step] = .ok s ∧
      (s.heap 1).preemptCount = 1 ∧ s.running = [1] ∧
      Op tinyEnv { preemption := true } (fun _ _ => True) (rest s []) p' ∧
      ∃ L, Logged tinyUse { preemption := true } (.blocks 3 2)
          (rest (.init { preemption := true } (.block (.new 3 2 Nat.two_pos false))
            (tinyWorld (.block (.new 3 2 Nat.two_pos false)))) []) (rest s []) L ∧
        ∃ batch rows nxt acc, Pass tinyEnv (rest s []) p' batch rows nxt ∧
          ∀ l < 2, LayerRefines tinyUse 2 (rest s []) batch rows acc L l
            ((tinyUse.pool s.world).store.writeAll acc (tinyUse.kv s.world rows acc) l)
            ((tinyUse.pool s.world).store.writeAll acc (tinyUse.kv s.world rows acc) (l + 1)) := by
  have hrun : ∃ s, run (Scheduler.act tinyEnv { preemption := true })
        (.init { preemption := true } (.block (.new 3 2 Nat.two_pos false))
          (tinyWorld (.block (.new 3 2 Nat.two_pos false))))
        [.submit { requestId := "a", promptTokenIds := [5, 6], maxNewTokens := 3 },
          .submit { requestId := "b", promptTokenIds := [7], maxNewTokens := 6 },
          .step, .step, .step, .step] = .ok s ∧
      (s.heap 1).preemptCount = 1 ∧ s.running = [1] ∧ (s.heap 1).finished = false ∧
      s.manager.unitsNeeded (s.heap 1).seqLen ≤ (s.heap 1).blockTable.length ∧
      ∃ rows, [1].mapM s.decodeRow = .ok rows ∧
      ∃ t, s.stepTokens tinyEnv rows = .ok t ∧
        (tinyUse.pool t.2.world).store.k 0 (1, 1) ≠ (tinyUse.pool s.world).store.k 0 (1, 1) := by
    decide +kernel
  obtain ⟨s, hs, hpre, hrunning, hfin, hcov, rows, hrows, ⟨nxt, s'⟩, hstep, hchanged⟩ := hrun
  have hm : (Manager.block (.new 3 2 Nat.two_pos false)).Fresh := Manager.fresh_block_new ..
  have hlay : (tinyUse.pool (tinyWorld (.block (.new 3 2 Nat.two_pos false)))).layout
      = .blocks 3 2 := rfl
  have hall : ∀ {P : Ref → Prop}, P 1 → ∀ r ∈ [1], P r := fun h r hr =>
    List.mem_singleton.mp hr ▸ h
  have hop : Op tinyEnv { preemption := true } (fun _ _ => True) (rest s [])
      { rest s [] with sched := s', due := [1].zip nxt, owed := [.recordStep 1] } :=
    .step (.decode _ s' [1] rows nxt (idle_rest s []) (List.nodup_singleton 1)
      (hall (hrunning ▸ List.mem_singleton_self 1)) (hall hfin) (hall fun _ => hcov) hrows hstep)
  obtain ⟨hlogs, hpasses⟩ :=
    @paged_pool_refines _ _ _ tinyEnv { preemption := true } _ tinyUse _ hm hlay
  obtain ⟨L, hL⟩ := hlogs _ (run_reach hm hs)
  rcases hpasses _ L hL _ hop with hquiet | ⟨batch, rows, nxt, acc, hpass, -, hlayers⟩
  · exact absurd (congrArg (fun pool => pool.store.k 0 (1, 1)) hquiet) hchanged
  · exact ⟨s, _, hs, hpre, hrunning, hop, L, hL, batch, rows, nxt, acc, hpass, hlayers⟩

end LlmServe
