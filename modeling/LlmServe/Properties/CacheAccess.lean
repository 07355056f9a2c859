import LlmServe.Engine.ModelRunner
import LlmServe.Infra.Causal
import Mathlib.Data.List.Pairwise

/-!
# What an access touches

The two accesses compute their indices in four ways. When every row has a token they all come to
the same (`laid_of_access`): row `i` writes its new tokens to the addresses of their positions, and
key `j` of row `i` is read at the address of position `j`. The visible keys of a token are the
positions up to its own (`Laid.keys`).
-/

namespace LlmServe

open Infra

/-! ## Addresses -/

namespace Layout

/-- Positions in a slot or a block. -/
def pageSize : Layout → Nat
  | slots _ maxLen => maxLen
  | blocks _ blockSize => blockSize

/-- Where position `j` of a request is stored; its slot, too, is a table of one page. -/
def cell (lay : Layout) (table : List Nat) (j : Nat) : Nat × Nat := address lay.pageSize table j

def Reaches (lay : Layout) (table : List Nat) (j : Nat) : Prop :=
  Infra.Reaches lay.pageSize table j

end Layout

namespace Row

def len (row : Row) : Nat := row.tokens.length

/-- The length of the request after the step. -/
def total (row : Row) : Nat := row.start + row.len

end Row

variable {lay : Layout} {rows : List Row} {acc : CacheAccess}

/-! ## A description of both accesses -/

structure Laid (lay : Layout) (rows : List Row) (acc : CacheAccess) : Prop where
  starts : acc.starts = rows.map Row.start
  ns : acc.ns = rows.map Row.len
  totals : acc.totals = rows.map Row.total
  t : (rows.map Row.len).max? = some acc.t
  lk : (rows.map Row.total).max? = some acc.lk
  reaches : ∀ row ∈ rows, ∀ j < row.total, lay.Reaches row.blockTable j
  writes : acc.writes =
    scatter Row.start Row.len (fun row => lay.cell row.blockTable) rows fun i c => (i, c)
  reads : ∀ (i : Nat) (row : Row), rows[i]? = some row → ∀ j < row.total,
    acc.reads i j = lay.cell row.blockTable j

/-- What the columns of a batch of non-empty rows have in common. -/
theorem laid_new {a : BatchAccess}
    (h : BatchAccess.new (rows.map Row.start) (rows.map Row.len) = .ok a) :
    a.starts = rows.map Row.start ∧ a.ns = rows.map Row.len ∧ a.totals = rows.map Row.total ∧
      (rows.map Row.len).max? = some a.t ∧ (rows.map Row.total).max? = some a.lk := by
  obtain ⟨hs, hn, htot, ht, hlk⟩ := BatchAccess.new_ok h
  have htotals : a.totals = rows.map Row.total := by
    rw [htot, List.zipWith_map, List.zipWith_self]
    rfl
  exact ⟨hs, hn, htotals, ht, htotals ▸ hlk⟩

theorem len_le_of_max {t : Nat} (h : (rows.map Row.len).max? = some t) {row : Row}
    (hr : row ∈ rows) : row.len ≤ t :=
  (List.max?_eq_some_iff.mp h).2 _ (List.mem_map_of_mem hr)

/-- With one column, a row that has a token has exactly one. -/
theorem len_eq_one {t : Nat} (h : (rows.map Row.len).max? = some t) (ht : t = 1)
    (hne : ∀ row ∈ rows, row.tokens ≠ []) {row : Row} (hr : row ∈ rows) : row.len = 1 := by
  have hle := len_le_of_max h hr
  have hpos : 0 < row.len := List.length_pos_of_ne_nil (hne row hr)
  omega

/-- The write of one column, as a write of runs of one position. -/
theorem scatter_one {β : Type} {addr : Row → Nat → Nat × Nat} {val : Nat → Nat → β}
    (h : ∀ row ∈ rows, row.len = 1) : scatter Row.start Row.len addr rows val
      = rows.zipIdx.map fun x => (addr x.1 x.1.start, val x.2 0) := by
  rw [scatter, ← List.flatMap_pure_eq_map]
  refine List.flatMap_congr fun x hx => ?_
  obtain ⟨row, i⟩ := x
  rw [h row (List.mem_of_getElem? (List.mem_zipIdx_iff_getElem?.mp hx))]
  rfl

/-! ### Slots -/

theorem slotWrites_eq {t : Nat} (slotOf : Row → Nat) (hne : ∀ row ∈ rows, row.tokens ≠ [])
    (ht : (rows.map Row.len).max? = some t) :
    slotWrites t (rows.map slotOf) (rows.map Row.start) (rows.map Row.len) =
      scatter Row.start Row.len (fun row j => (slotOf row, j)) rows fun i c => (i, c) := by
  unfold slotWrites
  split
  · next h1 =>
    rw [scatter_one fun row hr => len_eq_one ht h1 hne hr, List.zip_map', List.zipIdx_map,
      List.map_map]
    rfl
  · rw [List.zip_map', List.zip_map', List.zipIdx_map, List.flatMap_map]
    rfl

/-- In a slot the address of a position is the position. -/
theorem Layout.cell_slots {n maxLen slot j : Nat} {rest : List Nat} (hj : j < maxLen) :
    (slots n maxLen).cell (slot :: rest) j = (slot, j) := by
  rw [cell, pageSize, address, Nat.div_eq_of_lt hj, Nat.mod_eq_of_lt hj]
  rfl

/-- The slot of a table that `SlotPool.access` accepts. -/
theorem exists_slot {slots : List Nat}
    (h : ((rows.map Row.blockTable).mapM fun bt : List Nat => match bt with
      | [] => (.error (.indexError "list index out of range") : Except PyError Nat)
      | slot :: _ => .ok slot) = .ok slots) :
    slots = rows.map (fun row => row.blockTable.headD 0) ∧
      ∀ row ∈ rows, ∃ slot rest, row.blockTable = slot :: rest := by
  constructor
  · have hmap := eq_map_of_mapM_ok (g := fun bt => bt.headD 0) h fun bt _ slot hbt => by
      cases bt with
      | nil => cases hbt
      | cons x xs =>
        cases hbt
        rfl
    rw [hmap, List.map_map]
    rfl
  · intro row hr
    obtain ⟨slot, -, hbt⟩ := exists_of_forall₂ (forall₂_of_mapM_ok h) (List.mem_map_of_mem hr)
    cases htab : row.blockTable with
    | nil =>
      rw [htab] at hbt
      cases hbt
    | cons x xs => exact ⟨x, xs, rfl⟩

/-- The last new position of a row is in its slot, so all its positions are. -/
theorem lt_maxLen_of_slotAccess {n maxLen : Nat} (hne : ∀ row ∈ rows, row.tokens ≠ [])
    (h : SlotAccess n maxLen (rows.map Row.blockTable) (rows.map Row.start) (rows.map Row.len)
      = .ok acc) {row : Row} (hr : row ∈ rows) {j : Nat} (hj : j < row.total) : j < maxLen := by
  obtain ⟨slots, hslots, h⟩ := exists_of_bind_ok h
  obtain ⟨a, ha, h⟩ := exists_of_bind_ok h
  obtain ⟨rfl, -⟩ := exists_slot hslots
  obtain ⟨-, -, -, ht, -⟩ := laid_new ha
  dsimp only at h
  rw [slotWrites_eq _ hne ht] at h
  split at h
  · next hall =>
    obtain ⟨i, hi⟩ := List.mem_iff_getElem?.mp hr
    have hpos : 0 < row.len := List.length_pos_of_ne_nil (hne row hr)
    have hlast := List.all_eq_true.mp hall _
      (mem_scatter.mpr ⟨i, row, hi, row.len - 1, by omega, rfl, rfl⟩)
    simp only [Bool.and_eq_true, decide_eq_true_eq] at hlast
    have htotal : row.total = row.start + row.len := rfl
    omega
  · cases h

theorem laid_of_slotAccess {n maxLen : Nat} (hne : ∀ row ∈ rows, row.tokens ≠ [])
    (h : SlotAccess n maxLen (rows.map Row.blockTable) (rows.map Row.start) (rows.map Row.len)
      = .ok acc) : Laid (.slots n maxLen) rows acc := by
  have hin : ∀ row ∈ rows, ∀ {j : Nat}, j < row.total → j < maxLen :=
    fun _ hr _ hj => lt_maxLen_of_slotAccess hne h hr hj
  obtain ⟨slots, hslots, h⟩ := exists_of_bind_ok h
  obtain ⟨a, ha, h⟩ := exists_of_bind_ok h
  obtain ⟨rfl, hslot⟩ := exists_slot hslots
  obtain ⟨hstarts, hns, htotals, ht, hlk⟩ := laid_new ha
  dsimp only at h
  rw [slotWrites_eq _ hne ht] at h
  split at h
  · cases h
    have hcell : ∀ row ∈ rows, ∀ j < row.total,
        (row.blockTable.headD 0, j) = (Layout.slots n maxLen).cell row.blockTable j := by
      intro row hr j hj
      obtain ⟨slot, rest, htab⟩ := hslot row hr
      rw [htab, Layout.cell_slots (hin row hr hj)]
      rfl
    refine ⟨hstarts, hns, htotals, ht, hlk, fun row hr j hj => ?_, ?_, fun i row hi j hj => ?_⟩
    · obtain ⟨slot, rest, htab⟩ := hslot row hr
      rw [Layout.Reaches, Infra.Reaches, htab, Layout.pageSize, Nat.div_eq_of_lt (hin row hr hj)]
      exact Nat.succ_pos _
    · exact scatter_congr fun row hr c hc => hcell row hr _ (Nat.add_lt_add_left hc _)
    · rw [← hcell row (List.mem_of_getElem? hi) j hj]
      simp only [List.getD_eq_getElem?_getD, List.getElem?_map, hi, Option.map_some,
        Option.getD_some]
  · cases h

/-! ### Pages -/

theorem blockOf_ok {bs p : Nat} {bt : List Nat} {a : Nat × Nat} (h : blockOf bs bt p = .ok a) :
    Infra.Reaches bs bt p ∧ a = address bs bt p := by
  unfold blockOf at h
  split at h
  · next block hb =>
    cases h
    obtain ⟨hlt, hb⟩ := List.getElem?_eq_some_iff.mp hb
    exact ⟨hlt, by rw [address, List.getD_eq_getElem _ _ hlt, hb]⟩
  · cases h

/-- `zipIdx` of the arguments of `pagedWrites`, one element for each row. -/
theorem mem_zipIdx_row {i : Nat} {row : Row} (hi : rows[i]? = some row) :
    (row, i) ∈ rows.zipIdx := List.mem_zipIdx_iff_getElem?.mpr hi

/-- A paged write of one column. -/
theorem pagedDecode_ok {bs : Nat} {ws : List ((Nat × Nat) × (Nat × Nat))}
    (h : pagedWrites bs 1 (rows.map Row.blockTable) (rows.map Row.start) (rows.map Row.len)
      = .ok ws) :
    ws = rows.zipIdx.map (fun x => (address bs x.1.blockTable x.1.start, (x.2, 0))) ∧
      ∀ row ∈ rows, Infra.Reaches bs row.blockTable row.start := by
  rw [pagedWrites, if_pos rfl, List.zip_map', List.zipIdx_map] at h
  constructor
  · have hmap := eq_map_of_mapM_ok
      (g := fun x : (List Nat × Nat) × Nat => (address bs x.1.1 x.1.2, (x.2, 0))) h
      fun x _ w hw => by
        obtain ⟨a, ha, rfl⟩ := exists_of_map_ok hw
        rw [(blockOf_ok ha).2]
    rw [hmap, List.map_map]
    rfl
  · intro row hr
    obtain ⟨i, hi⟩ := List.mem_iff_getElem?.mp hr
    obtain ⟨w, -, hw⟩ := exists_of_forall₂ (forall₂_of_mapM_ok h)
      (List.mem_map_of_mem (mem_zipIdx_row hi))
    obtain ⟨a, ha, -⟩ := exists_of_map_ok hw
    exact (blockOf_ok ha).1

/-- The indices of one row of a prefill. -/
theorem pagedRow_ok {bs i n : Nat} {bt : List Nat} {pos : Nat → Nat}
    {ws : List ((Nat × Nat) × (Nat × Nat))}
    (h : ((List.range n).mapM fun c => (blockOf bs bt (pos c)).map fun a => (a, (i, c)))
      = .ok ws) :
    ws = (List.range n).map (fun c => (address bs bt (pos c), (i, c))) ∧
      ∀ c < n, Infra.Reaches bs bt (pos c) := by
  constructor
  · refine eq_map_of_mapM_ok h fun c _ w hw => ?_
    obtain ⟨a, ha, rfl⟩ := exists_of_map_ok hw
    rw [(blockOf_ok ha).2]
  · intro c hc
    obtain ⟨w, -, hw⟩ := exists_of_forall₂ (forall₂_of_mapM_ok h) (List.mem_range.mpr hc)
    obtain ⟨a, ha, -⟩ := exists_of_map_ok hw
    exact (blockOf_ok ha).1

/-- A paged write of several columns. -/
theorem pagedPrefill_ok {bs t : Nat} (h1 : t ≠ 1) {ws : List ((Nat × Nat) × (Nat × Nat))}
    (h : pagedWrites bs t (rows.map Row.blockTable) (rows.map Row.start) (rows.map Row.len)
      = .ok ws) :
    ws = scatter Row.start Row.len (fun row => address bs row.blockTable) rows
        (fun i c => (i, c)) ∧
      ∀ row ∈ rows, row.blockTable ≠ [] ∧
        ∀ c < row.len, Infra.Reaches bs row.blockTable (row.start + c) := by
  rw [pagedWrites, if_neg h1, List.zip_map', List.zip_map', List.zipIdx_map] at h
  obtain ⟨l, hl, rfl⟩ := exists_of_map_ok h
  have hrow : ∀ x ∈ (rows.zipIdx.map (Prod.map
      (fun row : Row => (row.blockTable, row.start, row.len)) id)), ∀ ws,
      (if x.1.1 = [] then
        (.error (.indexError "tensors used as indices must be long") :
          Except PyError (List ((Nat × Nat) × (Nat × Nat))))
      else (List.range x.1.2.2).mapM fun c =>
        (blockOf bs x.1.1 (x.1.2.1 + c)).map fun a => (a, (x.2, c))) = .ok ws →
      x.1.1 ≠ [] ∧ ws = (List.range x.1.2.2).map
        (fun c => (address bs x.1.1 (x.1.2.1 + c), (x.2, c))) ∧
        ∀ c < x.1.2.2, Infra.Reaches bs x.1.1 (x.1.2.1 + c) := by
    intro x _ ws hws
    split at hws
    · cases hws
    · next hne => exact ⟨hne, pagedRow_ok hws⟩
  constructor
  · rw [eq_map_of_mapM_ok hl fun x hx ws hws => (hrow x hx ws hws).2.1, List.map_map,
      ← List.flatMap_def]
    rfl
  · intro row hr
    obtain ⟨i, hi⟩ := List.mem_iff_getElem?.mp hr
    have hx := List.mem_map_of_mem (f := Prod.map
      (fun row : Row => (row.blockTable, row.start, row.len)) id) (mem_zipIdx_row hi)
    obtain ⟨ws, -, hws⟩ := exists_of_forall₂ (forall₂_of_mapM_ok hl) hx
    obtain ⟨hne, -, hreach⟩ := hrow _ hx ws hws
    exact ⟨hne, hreach⟩

/-- Position `j` of `n` is in one of the pages that cover them. -/
theorem div_lt_pages {bs n j : Nat} (hbs : 0 < bs) (hj : j < n) :
    j / bs < (-(-(n : Int) / bs)).toNat := by
  have hceil : -(n : Int) / bs * bs ≤ -n := Int.ediv_mul_le _ (by omega)
  rw [Nat.div_lt_iff_lt_mul hbs]
  have hpages : (n : Int) ≤ -(-(n : Int) / bs) * bs := by
    rw [Int.neg_mul]
    omega
  have hle : (n : Int) ≤ ((-(-(n : Int) / bs)).toNat * bs : Nat) := by
    rw [Int.natCast_mul]
    exact hpages.trans (Int.mul_le_mul_of_nonneg_right (Int.self_le_toNat _) (by omega))
  omega

theorem laid_of_pagedAccess {n bs : Nat} (hbs : 0 < bs) (hne : ∀ row ∈ rows, row.tokens ≠ [])
    (h : PagedAccess n bs (rows.map Row.blockTable) (rows.map Row.start) (rows.map Row.len)
      = .ok acc) : Laid (.blocks n bs) rows acc := by
  obtain ⟨a, ha, h⟩ := exists_of_bind_ok h
  obtain ⟨ws, hws, h⟩ := exists_of_bind_ok h
  obtain ⟨hstarts, hns, htotals, ht, hlk⟩ := laid_new ha
  split at h
  · next hall =>
    cases h
    have hwrites : ws = scatter Row.start Row.len (fun row => address bs row.blockTable) rows
          (fun i c => (i, c)) ∧
        ∀ row ∈ rows, ∀ c < row.len, Infra.Reaches bs row.blockTable (row.start + c) := by
      by_cases h1 : a.t = 1
      · rw [h1] at hws
        obtain ⟨rfl, hreach⟩ := pagedDecode_ok hws
        have hone : ∀ row ∈ rows, row.len = 1 := fun _ hr => len_eq_one ht h1 hne hr
        refine ⟨by rw [scatter_one hone], fun row hr c hc => ?_⟩
        rw [hone row hr] at hc
        obtain rfl := Nat.lt_one_iff.mp hc
        exact hreach row hr
      · obtain ⟨rfl, hreach⟩ := pagedPrefill_ok h1 hws
        exact ⟨rfl, fun row hr => (hreach row hr).2⟩
    have hreach : ∀ row ∈ rows, ∀ j < row.total, Infra.Reaches bs row.blockTable j := by
      intro row hr j hj
      have hpos : 0 < row.len := List.length_pos_of_ne_nil (hne row hr)
      have htotal : row.total = row.start + row.len := rfl
      exact (hwrites.2 row hr (row.len - 1) (by omega)).mono (by omega)
    refine ⟨hstarts, hns, htotals, ht, hlk, hreach, hwrites.1, fun i row hi j hj => ?_⟩
    have hr := List.mem_of_getElem? hi
    have hpage : j / bs < (-(-(a.lk : Int) / bs)).toNat :=
      div_lt_pages hbs (hj.trans_le
        ((List.max?_eq_some_iff.mp hlk).2 _ (List.mem_map_of_mem (f := Row.total) hr)))
    have htake : j / bs < (row.blockTable.take (-(-(a.lk : Int) / bs)).toNat).length := by
      rw [List.length_take]
      exact lt_min hpage (hreach row hr j hj)
    show (_, _) = (_, _)
    congr 1
    simp only [List.getD_eq_getElem?_getD, List.getElem?_map, hi, Option.map_some,
      Option.getD_some]
    rw [List.getElem?_append_left htake, List.getElem?_take_of_lt hpage]
    rfl
  · cases h

/-- A row without blocks is never written. -/
theorem table_ne_nil_of_pagedAccess {n bs : Nat}
    (h : PagedAccess n bs (rows.map Row.blockTable) (rows.map Row.start) (rows.map Row.len)
      = .ok acc) {row : Row} (hr : row ∈ rows) : row.blockTable ≠ [] := by
  obtain ⟨a, -, h⟩ := exists_of_bind_ok h
  obtain ⟨ws, hws, -⟩ := exists_of_bind_ok h
  by_cases h1 : a.t = 1
  · rw [h1] at hws
    exact List.ne_nil_of_length_pos (Nat.zero_lt_of_lt ((pagedDecode_ok hws).2 row hr))
  · exact ((pagedPrefill_ok h1 hws).2 row hr).1

/-- **Both accesses touch the addresses of the positions.** -/
theorem laid_of_access (hsize : 0 < lay.pageSize) (hne : ∀ row ∈ rows, row.tokens ≠ [])
    (h : lay.access (rows.map Row.blockTable) (rows.map Row.start) (rows.map Row.len) = .ok acc) :
    Laid lay rows acc := by
  cases lay with
  | slots n maxLen => exact laid_of_slotAccess hne h
  | blocks n bs => exact laid_of_pagedAccess hsize hne h

/-! ## The visible keys -/

namespace BatchAccess

variable {a : BatchAccess} {starts ns : List Nat} {i c s n : Nat}

/-- The keys that a mask with its causal flag lets query `c` of row `i` see. -/
def keysWith (a : BatchAccess) (mask : Option (Nat → Nat → Nat → Bool) × Bool) (i c : Nat) :
    List Nat :=
  (List.range a.lk).filter fun j =>
    match mask with
    | (some mask, _) => mask i c j
    | (none, true) => j ≤ c
    | (none, false) => true

/-- The mask of the last branch of `build_mask`. -/
def fullMask (a : BatchAccess) (i c j : Nat) : Bool :=
  j ≤ a.starts.getD i 0 + c && j < a.totals.getD i 0

/-- What the access knows of row `i`. -/
structure HasRow (a : BatchAccess) (i s n : Nat) : Prop where
  start : a.starts.getD i 0 = s
  total : a.totals.getD i 0 = s + n
  total_le : s + n ≤ a.lk
  /-- A row alone sets both widths. -/
  alone : a.b = 1 → i = 0 ∧ a.t = n ∧ a.lk = s + n

theorem hasRow_of_new (h : new starts ns = .ok a) (hlen : ns.length = starts.length)
    (hs : starts[i]? = some s) (hn : ns[i]? = some n) : HasRow a i s n := by
  obtain ⟨hstarts, -, htotals, ht, hlk⟩ := new_ok h
  have htotal : a.totals[i]? = some (s + n) := by rw [htotals, List.getElem?_zipWith, hs, hn]
  refine ⟨?_, ?_, ?_, fun hb => ?_⟩
  · rw [hstarts, List.getD_eq_getElem?_getD, hs]
    rfl
  · rw [List.getD_eq_getElem?_getD, htotal]
    rfl
  · exact (List.max?_eq_some_iff.mp hlk).2 _ (List.mem_of_getElem? htotal)
  · rw [b, hstarts] at hb
    obtain ⟨s', rfl⟩ := List.length_eq_one_iff.mp hb
    obtain ⟨n', rfl⟩ := List.length_eq_one_iff.mp (hlen.trans hb)
    have hi : i = 0 := by
      have hlt := (List.getElem?_eq_some_iff.mp hs).1
      rw [List.length_singleton] at hlt
      omega
    subst hi
    cases hs
    cases hn
    rw [htotals] at hlk
    exact ⟨rfl, (Option.some.inj ht).symm, (Option.some.inj hlk).symm⟩

theorem HasRow.mem_fullMask (h : HasRow a i s n) {j : Nat} :
    j ∈ a.keysWith (some a.fullMask, false) i c ↔ j ≤ s + c ∧ j < s + n := by
  have hle := h.total_le
  simp only [keysWith, fullMask, List.mem_filter, List.mem_range, h.start, h.total,
    Bool.and_eq_true, decide_eq_true_eq]
  omega

/-- **The mask is exact** on the column of a token. -/
theorem HasRow.fullMask_keys (h : HasRow a i s n) (hc : c < n) :
    a.keysWith (some a.fullMask, false) i c = List.range (s + c + 1) := by
  have hle := h.total_le
  refine filter_range (by omega) fun j hj => ?_
  simp only [fullMask, h.start, h.total, Bool.and_eq_true, decide_eq_true_eq]
  omega

/-- The causal flag is the mask of a row alone that starts at 0. -/
theorem HasRow.causal_keys (h : HasRow a i s n) (hb : a.b = 1) (h0 : s = 0) :
    a.keysWith (none, true) i c = a.keysWith (some a.fullMask, false) i c := by
  obtain ⟨-, ht, hlk⟩ := h.alone hb
  refine List.filter_congr fun j hj => ?_
  have hj := List.mem_range.mp hj
  rw [Bool.eq_iff_iff]
  simp only [fullMask, h.start, h.total, Bool.and_eq_true, decide_eq_true_eq]
  omega

/-- No mask is the mask of a row alone with one column. -/
theorem HasRow.unmasked_keys (h : HasRow a i s n) (hb : a.b = 1) (ht1 : a.t = 1) (hc : c < a.t) :
    a.keysWith (none, false) i c = a.keysWith (some a.fullMask, false) i c := by
  obtain ⟨-, ht, hlk⟩ := h.alone hb
  refine List.filter_congr fun j hj => ?_
  have hj := List.mem_range.mp hj
  rw [Bool.eq_iff_iff]
  simp only [fullMask, h.start, h.total, Bool.and_eq_true, decide_eq_true_eq,
    true_iff]
  omega

/-- **Whichever branch is taken, the mask of the last one is meant.** -/
theorem HasRow.keys_eq (h : HasRow a i s n) (hc : c < a.t) :
    a.keys i c = a.keysWith (some a.fullMask, false) i c := by
  show a.keysWith a.buildMask i c = _
  unfold buildMask
  split
  · next h1 =>
    have h0 : s = 0 := by
      have hi := (h.alone h1.1).1
      subst hi
      exact h.start.symm.trans h1.2.1
    exact h.causal_keys h1.1 h0
  · split
    · next h2 => exact h.unmasked_keys h2.1 h2.2 hc
    · rfl

end BatchAccess

namespace Laid

variable {i : Nat} {row : Row}

theorem hasRow (h : Laid lay rows acc) (hi : rows[i]? = some row) :
    acc.HasRow i row.start row.len := by
  have hnew : BatchAccess.new (rows.map Row.start) (rows.map Row.len) = .ok acc.toBatchAccess := by
    have htotals : List.zipWith (· + ·) (rows.map Row.start) (rows.map Row.len)
        = rows.map Row.total := by
      rw [List.zipWith_map, List.zipWith_self]
      rfl
    unfold BatchAccess.new
    simp only [htotals, h.t, h.lk]
    rw [← h.starts, ← h.ns, ← h.totals]
  exact BatchAccess.hasRow_of_new hnew (by simp) (by simp [hi]) (by simp [hi])

theorem getD_starts (h : Laid lay rows acc) (hi : rows[i]? = some row) :
    acc.starts.getD i 0 = row.start := (h.hasRow hi).start

theorem len_le (h : Laid lay rows acc) (hi : rows[i]? = some row) : row.len ≤ acc.t :=
  len_le_of_max h.t (List.mem_of_getElem? hi)

/-- **A token sees the positions up to its own**, whichever mask is used. -/
theorem keys (h : Laid lay rows acc) (hi : rows[i]? = some row) {c : Nat} (hc : c < row.len) :
    acc.keys i c = List.range (row.start + c + 1) := by
  rw [(h.hasRow hi).keys_eq (hc.trans_le (h.len_le hi)), (h.hasRow hi).fullMask_keys hc]

/-- No column, not even one of padding, sees a position the row does not have. -/
theorem lt_total_of_mem_keys (h : Laid lay rows acc) (hi : rows[i]? = some row) {c j : Nat}
    (hj : j ∈ acc.keys i c) : j < row.total := by
  obtain ⟨hlt, hmask⟩ := List.mem_filter.mp hj
  have hlt := List.mem_range.mp hlt
  have hrow := h.hasRow hi
  by_cases hb : acc.b = 1 ∧ (acc.starts.getD 0 0 = 0 ∧ 1 < acc.t ∨ acc.t = 1)
  · rw [(hrow.alone hb.1).2.2] at hlt
    exact hlt
  · unfold BatchAccess.buildMask at hmask
    rw [if_neg (by tauto), if_neg (by tauto)] at hmask
    simp only [hrow.total, Bool.and_eq_true, decide_eq_true_eq] at hmask
    exact hmask.2

end Laid

/-! ## Writing and gathering -/

/-- The rows of a batch share no page. -/
structure Apart (rows : List Row) : Prop where
  nodup : ∀ row ∈ rows, row.blockTable.Nodup
  disjoint : rows.Pairwise fun a b => a.blockTable.Disjoint b.blockTable

/-- No entry is assigned twice. -/
theorem Laid.scattered (h : Laid lay rows acc) (hapart : Apart rows) :
    Scattered Row.start Row.len (fun row => lay.cell row.blockTable) rows := by
  have hreach : ∀ row ∈ rows, ∀ c < row.len, lay.Reaches row.blockTable (row.start + c) :=
    fun row hr c hc => h.reaches row hr _ (Nat.add_lt_add_left hc _)
  constructor
  · intro row hr c hc c' hc' he
    have hinj := address_inj (hapart.nodup row hr) (hreach row hr c hc) (hreach row hr c' hc') he
    exact Nat.add_left_cancel hinj
  · refine hapart.disjoint.imp_of_mem fun {x y} hx hy hdis c hc c' hc' => ?_
    exact address_ne hdis (hreach x hx c hc) (hreach y hy c' hc')

namespace KVStore

variable {K V : Type} {s : KVStore K V}

/-- The keys and values at one entry. -/
def entry (s : KVStore K V) (layer : Nat) (a : Nat × Nat) : K × V := (s.k layer a, s.v layer a)

/-- The writes of the first layers; `kv` has the new `k` and `v`, by layer, row and column. -/
def writeAll (s : KVStore K V) (acc : CacheAccess) (kv : Nat → Nat → Nat → K × V) :
    Nat → KVStore K V
  | 0 => s
  | layer + 1 => (writeAll s acc kv layer).write acc layer (fun i c => (kv layer i c).1)
      fun i c => (kv layer i c).2

theorem entry_write_other {layer l : Nat} (hl : l ≠ layer) (k : Nat → Nat → K) (v : Nat → Nat → V)
    (a : Nat × Nat) : (s.write acc layer k v).entry l a = s.entry l a := by
  simp only [entry, write, Function.update_of_ne hl]

theorem entry_write_frame (h : Laid lay rows acc) {layer l : Nat} {k : Nat → Nat → K}
    {v : Nat → Nat → V} {a : Nat × Nat}
    (ha : ∀ row ∈ rows, ∀ j, row.start ≤ j → j < row.total → lay.cell row.blockTable j ≠ a) :
    (s.write acc layer k v).entry l a = s.entry l a := by
  by_cases hl : l = layer
  · subst hl
    simp only [entry, write, Function.update_self]
    rw [h.writes, scatter_map fun x : Nat × Nat => k x.1 x.2,
      scatter_map fun x : Nat × Nat => v x.1 x.2, assign_scatter_frame ha, assign_scatter_frame ha]
  · exact entry_write_other hl k v a

theorem entry_write_mem (h : Laid lay rows acc) (hapart : Apart rows) {layer i j : Nat} {row : Row}
    (hi : rows[i]? = some row) (hle : row.start ≤ j) (hlt : j < row.total) {k : Nat → Nat → K}
    {v : Nat → Nat → V} : (s.write acc layer k v).entry layer (lay.cell row.blockTable j)
      = (k i (j - row.start), v i (j - row.start)) := by
  simp only [entry, write, Function.update_self]
  rw [h.writes, scatter_map fun x : Nat × Nat => k x.1 x.2,
    scatter_map fun x : Nat × Nat => v x.1 x.2, assign_scatter_mem (h.scattered hapart) hi hle hlt,
    assign_scatter_mem (h.scattered hapart) hi hle hlt]

variable {kv : Nat → Nat → Nat → K × V}

/-- **A step changes nothing but the positions of its new tokens.** -/
theorem entry_writeAll_frame (h : Laid lay rows acc) {l : Nat} {a : Nat × Nat}
    (ha : ∀ row ∈ rows, ∀ j, row.start ≤ j → j < row.total → lay.cell row.blockTable j ≠ a) :
    ∀ n, (s.writeAll acc kv n).entry l a = s.entry l a
  | 0 => rfl
  | n + 1 => by rw [writeAll, entry_write_frame h ha, entry_writeAll_frame h ha n]

/-- **After its write a layer has the new entries**, and keeps them. -/
theorem entry_writeAll_mem (h : Laid lay rows acc) (hapart : Apart rows) {l i j : Nat} {row : Row}
    (hi : rows[i]? = some row) (hle : row.start ≤ j) (hlt : j < row.total) :
    ∀ {n : Nat}, l < n →
      (s.writeAll acc kv n).entry l (lay.cell row.blockTable j) = kv l i (j - row.start)
  | n + 1, hl => by
    rw [writeAll]
    rcases Nat.lt_succ_iff_lt_or_eq.mp hl with hl | rfl
    · rw [entry_write_other hl.ne, entry_writeAll_mem h hapart hi hle hlt hl]
    · rw [entry_write_mem h hapart hi hle hlt]

/-- An entry of a row that the step does not assign. -/
theorem entry_writeAll_old (h : Laid lay rows acc) (hapart : Apart rows) {l i j n : Nat} {row : Row}
    (hi : rows[i]? = some row) (hlt : j < row.start) :
    (s.writeAll acc kv n).entry l (lay.cell row.blockTable j)
      = s.entry l (lay.cell row.blockTable j) := by
  refine entry_writeAll_frame h (fun x hx j' hle' hlt' he => ?_) n
  have hr := List.mem_of_getElem? hi
  have hj : lay.Reaches row.blockTable j := h.reaches row hr j (Nat.lt_add_right _ hlt)
  have hj' := h.reaches x hx j' hlt'
  by_cases hxr : x = row
  · subst hxr
    have hinj := address_inj (hapart.nodup x hx) hj' hj he
    omega
  · have hsymm : Std.Symm fun a b : Row => a.blockTable.Disjoint b.blockTable :=
      ⟨fun _ _ hd => hd.symm⟩
    have hdis : x.blockTable.Disjoint row.blockTable := hapart.disjoint.forall hx hr hxr
    exact address_ne hdis hj' hj he

/-- **What a row gathers right after the write of layer `l`**: what was there, then what is new. -/
theorem gather_writeAll (h : Laid lay rows acc) (hapart : Apart rows) {l i j : Nat} {row : Row}
    (hi : rows[i]? = some row) (hlt : j < row.total) :
    (s.writeAll acc kv (l + 1)).gather acc l i j =
      if j < row.start then s.entry l (lay.cell row.blockTable j) else kv l i (j - row.start) := by
  have hgather : (s.writeAll acc kv (l + 1)).gather acc l i j
      = (s.writeAll acc kv (l + 1)).entry l (lay.cell row.blockTable j) := by
    rw [gather, h.reads i row hi j hlt]
    rfl
  rw [hgather]
  split
  · next hj => exact entry_writeAll_old h hapart hi hj
  · next hj => exact entry_writeAll_mem h hapart hi (Nat.not_lt.mp hj) hlt (Nat.lt_succ_self l)

end KVStore

end LlmServe
