import LlmServe.Properties.CacheAccess

/-!
# The attention mask is exact

`build_mask` has two shortcuts for a row alone: the kernel's causal flag, and no mask at all. Each
is the mask of the last branch where its condition holds (`ExactMask.causal`,
`ExactMask.unmasked`), so a token sees the same keys whichever branch is taken. What it gathers
for them comes from pages of its own row (`OwnCells`), never from the block that fills up a short
block table.
-/

namespace LlmServe

open Infra

variable {lay : Layout} {tables : List (List Nat)} {starts ns : List Nat} {a : BatchAccess}
  {acc : CacheAccess}

/-- A mask that is right for every query of the batch. -/
structure ExactMask (starts ns : List Nat) (a : BatchAccess) : Prop where
  real : ∀ i s n : Nat, starts[i]? = some s → ns[i]? = some n → ∀ c < n,
    a.keys i c = List.range (s + c + 1)
  /-- A column of padding sees some key, and none that its row does not have. -/
  padding : ∀ i s n : Nat, starts[i]? = some s → ns[i]? = some n → ∀ c, n ≤ c → c < a.t →
    a.keys i c ≠ [] ∧ ∀ j ∈ a.keys i c, j < s + n
  causal : a.b = 1 → a.starts.getD 0 0 = 0 → ∀ c < a.t,
    a.keysWith (none, true) 0 c = a.keysWith (some a.fullMask, false) 0 c
  unmasked : a.b = 1 → a.t = 1 → ∀ c < a.t,
    a.keysWith (none, false) 0 c = a.keysWith (some a.fullMask, false) 0 c

theorem exactMask_new (hlen : ns.length = starts.length) (hpos : ∀ n ∈ ns, 1 ≤ n)
    (h : BatchAccess.new starts ns = .ok a) : ExactMask starts ns a := by
  have hrow : ∀ {i s n : Nat}, starts[i]? = some s → ns[i]? = some n → a.HasRow i s n := fun hs hn =>
    BatchAccess.hasRow_of_new h hlen hs hn
  obtain ⟨hstarts, -, -, ht, -⟩ := BatchAccess.new_ok h
  have hle : ∀ {i n : Nat}, ns[i]? = some n → n ≤ a.t := fun hn =>
    (List.max?_eq_some_iff.mp ht).2 _ (List.mem_of_getElem? hn)
  have halone : a.b = 1 → ∃ s n, starts[0]? = some s ∧ ns[0]? = some n := by
    intro hb
    rw [BatchAccess.b, hstarts] at hb
    obtain ⟨s, rfl⟩ := List.length_eq_one_iff.mp hb
    obtain ⟨n, rfl⟩ := List.length_eq_one_iff.mp (hlen.trans hb)
    exact ⟨s, n, rfl, rfl⟩
  refine ⟨fun i s n hs hn c hc => ?_, fun i s n hs hn c hnc hc => ?_, fun hb h0 c hc => ?_,
    fun hb h1 c hc => ?_⟩
  · rw [(hrow hs hn).keys_eq (hc.trans_le (hle hn)), (hrow hs hn).fullMask_keys hc]
  · have hmem : ∀ {j}, j ∈ a.keys i c ↔ j ≤ s + c ∧ j < s + n := by
      rw [(hrow hs hn).keys_eq hc]
      exact (hrow hs hn).mem_fullMask
    have hn1 : 1 ≤ n := hpos n (List.mem_of_getElem? hn)
    refine ⟨List.ne_nil_of_mem (hmem.mpr ⟨Nat.zero_le _, ?_⟩), fun j hj => (hmem.mp hj).2⟩
    omega
  · obtain ⟨s, n, hs, hn⟩ := halone hb
    exact (hrow hs hn).causal_keys hb ((hrow hs hn).start.symm.trans h0)
  · obtain ⟨s, n, hs, hn⟩ := halone hb
    exact (hrow hs hn).unmasked_keys hb h1 hc

/-! ## Where the keys are gathered -/

/-- What a token of a row sees is in the pages of that row: an old position, or one that this step
writes. -/
structure OwnCells (lay : Layout) (table : List Nat) (acc : CacheAccess) (i s c : Nat) : Prop where
  page : ∀ j ∈ acc.keys i c, table[j / lay.pageSize]? = some (acc.reads i j).1 ∧
    (acc.reads i j).2 = j % lay.pageSize
  written : ∀ j ∈ acc.keys i c, s ≤ j → (acc.reads i j, (i, j - s)) ∈ acc.writes

theorem Laid.ownCells {rows : List Row} (h : Laid lay rows acc) {i c : Nat} {row : Row}
    (hi : rows[i]? = some row) : OwnCells lay row.blockTable acc i row.start c := by
  have hreads : ∀ j ∈ acc.keys i c, j < row.total ∧ acc.reads i j = lay.cell row.blockTable j :=
    fun j hj => ⟨h.lt_total_of_mem_keys hi hj, h.reads i row hi j (h.lt_total_of_mem_keys hi hj)⟩
  refine ⟨fun j hj => ?_, fun j hj hle => ?_⟩
  · obtain ⟨hlt, he⟩ := hreads j hj
    have hreach : j / lay.pageSize < row.blockTable.length :=
      h.reaches row (List.mem_of_getElem? hi) j hlt
    rw [he, Layout.cell, address, List.getD_eq_getElem _ _ hreach, List.getElem?_eq_getElem hreach]
    exact ⟨rfl, rfl⟩
  · obtain ⟨hlt, he⟩ := hreads j hj
    have htotal : row.total = row.start + row.len := rfl
    rw [he, h.writes]
    refine mem_scatter.mpr ⟨i, row, hi, j - row.start, by omega, ?_, rfl⟩
    rw [Nat.add_sub_cancel' hle]

/-- The rows of the three lists that `access` is called with. -/
def rowsOf (tables : List (List Nat)) (starts ns : List Nat) : List Row :=
  (tables.zip (starts.zip ns)).map fun x =>
    { req := 0, admitSeq := 0, tokens := List.replicate x.2.2 0, start := x.2.1, blockTable := x.1 }

theorem map_rowsOf (htables : tables.length = starts.length) (hlen : ns.length = starts.length) :
    (rowsOf tables starts ns).map Row.blockTable = tables ∧
      (rowsOf tables starts ns).map Row.start = starts ∧
      (rowsOf tables starts ns).map Row.len = ns := by
  have hzip : (starts.zip ns).length = tables.length := by simp [htables, hlen]
  refine ⟨?_, ?_, ?_⟩
  · rw [rowsOf, List.map_map]
    exact List.map_fst_zip hzip.ge
  · rw [rowsOf, List.map_map]
    show (tables.zip (starts.zip ns)).map (Prod.fst ∘ Prod.snd) = starts
    rw [← List.map_map, List.map_snd_zip hzip.le, List.map_fst_zip hlen.ge]
  · rw [rowsOf, List.map_map]
    have hsnd : (tables.zip (starts.zip ns)).map (Prod.snd ∘ Prod.snd) = ns := by
      rw [← List.map_map, List.map_snd_zip hzip.le, List.map_snd_zip hlen.le]
    conv_rhs => rw [← hsnd]
    exact List.map_congr_left fun x _ => List.length_replicate

/-- **The attention mask is exact on every path.** For every batch of rows that each get a token,
whichever branch of `build_mask` is taken, in slots or in blocks. -/
theorem attention_mask_exact (hne : starts ≠ []) (hlen : ns.length = starts.length)
    (hpos : ∀ n ∈ ns, 1 ≤ n) :
    (∃ a, BatchAccess.new starts ns = .ok a ∧ ExactMask starts ns a) ∧
    ∀ (lay : Layout) (tables : List (List Nat)) (acc : CacheAccess), 0 < lay.pageSize →
      tables.length = starts.length → lay.access tables starts ns = .ok acc →
      ExactMask starts ns acc.toBatchAccess ∧
      ∀ (i s n : Nat) (table : List Nat), starts[i]? = some s → ns[i]? = some n →
        tables[i]? = some table → ∀ c < n, OwnCells lay table acc i s c := by
  constructor
  · obtain ⟨s, ss, rfl⟩ := List.exists_cons_of_ne_nil hne
    obtain ⟨n, rest, rfl⟩ := List.exists_cons_of_length_eq_add_one hlen
    exact ⟨_, rfl, exactMask_new hlen hpos rfl⟩
  · intro lay tables acc hpage htables hacc
    refine ⟨exactMask_new hlen hpos (Layout.access_new hacc), fun i s n table hs hn hi c _ => ?_⟩
    obtain ⟨hbt, hst, hns⟩ := map_rowsOf htables hlen
    have htokens : ∀ row ∈ rowsOf tables starts ns, row.tokens ≠ [] := fun row hr =>
      List.ne_nil_of_length_pos (hpos row.len (hns ▸ List.mem_map_of_mem hr))
    have hlaid : Laid lay (rowsOf tables starts ns) acc :=
      laid_of_access hpage htokens (by rw [hbt, hst, hns]; exact hacc)
    have hrow : (rowsOf tables starts ns)[i]? = some
        { req := 0, admitSeq := 0, tokens := List.replicate n 0, start := s, blockTable := table } := by
      have hzip : (tables.zip (starts.zip ns))[i]? = some (table, s, n) := by
        rw [List.getElem?_zip_eq_some, List.getElem?_zip_eq_some]
        exact ⟨hi, hs, hn⟩
      rw [rowsOf, List.getElem?_map, hzip]
      rfl
    exact hlaid.ownCells hrow

/-- A prefill and two decode rows in blocks of two, and a prefill alone. -/
theorem attention_mask_exact_rows :
    (∃ acc, (Layout.blocks 9 2).access [[1, 2], [3, 4, 5, 6], [7, 8]] [0, 7, 3] [4, 1, 1] = .ok acc ∧
      ExactMask [0, 7, 3] [4, 1, 1] acc.toBatchAccess) ∧
      ∃ a, BatchAccess.new [0] [5] = .ok a ∧ ExactMask [0] [5] a := by
  have hrows := @attention_mask_exact [0, 7, 3] [4, 1, 1] (by decide) rfl (by decide)
  have hsingle := @attention_mask_exact [0] [5] (by decide) rfl (by decide)
  refine ⟨exists_ok_and (by decide) fun acc hacc => ?_, hsingle.1⟩
  exact (hrows.2 (.blocks 9 2) _ acc Nat.two_pos rfl hacc).1

end LlmServe
