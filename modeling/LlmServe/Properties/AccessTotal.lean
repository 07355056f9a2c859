import LlmServe.Properties.CacheAccess

/-!
# When an access does not raise

`laid_of_access` reads a successful access; here is when it succeeds: every row has a token, and its
table has a page of the pool for each of its positions (`access_isOk`).
-/

namespace LlmServe

open Infra

variable {lay : Layout} {rows : List Row}

/-- The pool has a place for every position of the row. -/
def Layout.Fits : Layout → Row → Prop
  | .slots n maxLen, row =>
    (∃ slot rest, row.blockTable = slot :: rest ∧ slot < n) ∧ row.total ≤ maxLen
  | .blocks n bs, row =>
    (∀ j < row.total, Infra.Reaches bs row.blockTable j) ∧ ∀ block ∈ row.blockTable, block < n

theorem exists_max? {l : List Nat} (h : l ≠ []) : ∃ a, l.max? = some a :=
  Option.ne_none_iff_exists'.mp fun hnone => h (List.max?_eq_none_iff.mp hnone)

theorem batchAccess_isOk (hne : rows ≠ []) :
    ∃ a, BatchAccess.new (rows.map Row.start) (rows.map Row.len) = .ok a := by
  obtain ⟨t, ht⟩ := exists_max? (l := rows.map Row.len) (by simpa using hne)
  obtain ⟨lk, hlk⟩ := exists_max?
    (l := List.zipWith (· + ·) (rows.map Row.start) (rows.map Row.len)) (by
      rw [List.zipWith_map, List.zipWith_self]
      simpa using hne)
  unfold BatchAccess.new
  dsimp only
  rw [ht, hlk]
  exact ⟨_, rfl⟩

/-! ## Slots -/

theorem slotAccess_isOk {n maxLen : Nat} (hne : rows ≠ []) (htoks : ∀ row ∈ rows, row.tokens ≠ [])
    (hfits : ∀ row ∈ rows, (Layout.slots n maxLen).Fits row) :
    ∃ acc, SlotAccess n maxLen (rows.map Row.blockTable) (rows.map Row.start) (rows.map Row.len)
      = .ok acc := by
  obtain ⟨a, ha⟩ := batchAccess_isOk hne
  have hwrites := slotWrites_eq (fun row => row.blockTable.headD 0) htoks (laid_new ha).2.2.2.1
  have hall : (slotWrites a.t (rows.map fun row => row.blockTable.headD 0) (rows.map Row.start)
      (rows.map Row.len)).all (fun w => w.1.1 < n && w.1.2 < maxLen) = true := by
    rw [hwrites, List.all_eq_true]
    rintro ⟨addr, val⟩ hw
    obtain ⟨i, row, hi, c, hc, rfl, -⟩ := mem_scatter.mp hw
    obtain ⟨⟨slot, rest, htable, hslot⟩, htotal⟩ := hfits row (List.mem_of_getElem? hi)
    have hlt : row.start + c < maxLen := Nat.lt_of_lt_of_le (Nat.add_lt_add_left hc _) htotal
    rw [htable]
    simpa using ⟨hslot, hlt⟩
  refine exists_bind_ok (mapM_ok_of_forall (g := fun bt => bt.headD 0) fun bt hbt => ?_)
    (exists_bind_ok ha ?_)
  · obtain ⟨row, hrow, rfl⟩ := List.mem_map.mp hbt
    obtain ⟨⟨slot, rest, htable, -⟩, -⟩ := hfits row hrow
    rw [htable]
    rfl
  · rw [List.map_map]
    exact ⟨_, if_pos hall⟩

/-! ## Pages -/

theorem blockOf_of_reaches {bs p : Nat} {bt : List Nat} (h : Infra.Reaches bs bt p) :
    blockOf bs bt p = .ok (address bs bt p) := by
  unfold blockOf address
  rw [List.getElem?_eq_getElem h, List.getD_eq_getElem _ _ h]

theorem pagedWrites_isOk {bs t : Nat} (htoks : ∀ row ∈ rows, row.tokens ≠ [])
    (hreach : ∀ row ∈ rows, ∀ j < row.total, Infra.Reaches bs row.blockTable j) :
    ∃ ws, pagedWrites bs t (rows.map Row.blockTable) (rows.map Row.start) (rows.map Row.len)
      = .ok ws := by
  have hpos : ∀ row ∈ rows, 0 < row.len := fun row hr => List.length_pos_of_ne_nil (htoks row hr)
  unfold pagedWrites
  split
  · rw [List.zip_map', List.zipIdx_map]
    refine ⟨_, mapM_ok_of_forall
      (g := fun x : (List Nat × Nat) × Nat => (address bs x.1.1 x.1.2, (x.2, 0))) ?_⟩
    intro x hx
    obtain ⟨⟨row, i⟩, hrow, rfl⟩ := List.mem_map.mp hx
    have hr := List.mem_of_getElem? (List.mem_zipIdx_iff_getElem?.mp hrow)
    have hstart : row.start < row.total := Nat.lt_add_of_pos_right (hpos row hr)
    simp only [Prod.map, blockOf_of_reaches (hreach row hr _ hstart)]
    rfl
  · rw [List.zip_map', List.zip_map', List.zipIdx_map]
    have hmap := mapM_ok_of_forall (l := rows.zipIdx.map (Prod.map
        (fun row : Row => (row.blockTable, row.start, row.len)) id))
      (f := fun x => if x.1.1 = [] then
          (.error (.indexError "tensors used as indices must be long") :
            Except PyError (List ((Nat × Nat) × (Nat × Nat))))
        else (List.range x.1.2.2).mapM fun c =>
          (blockOf bs x.1.1 (x.1.2.1 + c)).map fun a => (a, (x.2, c)))
      (g := fun x => (List.range x.1.2.2).map fun c => (address bs x.1.1 (x.1.2.1 + c), (x.2, c)))
      fun x hx => by
        obtain ⟨⟨row, i⟩, hrow, rfl⟩ := List.mem_map.mp hx
        have hr := List.mem_of_getElem? (List.mem_zipIdx_iff_getElem?.mp hrow)
        have hzero : 0 < row.total := Nat.add_pos_right _ (hpos row hr)
        have htable : row.blockTable ≠ [] :=
          List.ne_nil_of_length_pos (Nat.zero_lt_of_lt (hreach row hr 0 hzero))
        show (if row.blockTable = [] then _ else _) = _
        rw [if_neg htable]
        refine mapM_ok_of_forall fun c hc => ?_
        have hc : row.start + c < row.total := Nat.add_lt_add_left (List.mem_range.mp hc) _
        show (blockOf bs row.blockTable (row.start + c)).map _ = _
        rw [blockOf_of_reaches (hreach row hr _ hc)]
        rfl
    rw [hmap]
    exact ⟨_, rfl⟩

/-- The blocks a paged write goes to. -/
theorem pagedWrites_mem {bs t : Nat} {ws : List ((Nat × Nat) × (Nat × Nat))}
    (h : pagedWrites bs t (rows.map Row.blockTable) (rows.map Row.start) (rows.map Row.len)
      = .ok ws) {w : (Nat × Nat) × (Nat × Nat)} (hw : w ∈ ws) :
    ∃ row ∈ rows, w.1.1 ∈ row.blockTable := by
  by_cases h1 : t = 1
  · rw [h1] at h
    obtain ⟨rfl, hreach⟩ := pagedDecode_ok h
    obtain ⟨⟨row, i⟩, hrow, rfl⟩ := List.mem_map.mp hw
    have hr := List.mem_of_getElem? (List.mem_zipIdx_iff_getElem?.mp hrow)
    exact ⟨row, hr, (hreach row hr).mem⟩
  · obtain ⟨rfl, hreach⟩ := pagedPrefill_ok h1 h
    obtain ⟨addr, val⟩ := w
    obtain ⟨i, row, hi, c, hc, rfl, -⟩ := mem_scatter.mp hw
    have hr := List.mem_of_getElem? hi
    exact ⟨row, hr, ((hreach row hr).2 c hc).mem⟩

theorem pagedAccess_isOk {n bs : Nat} (hne : rows ≠ []) (htoks : ∀ row ∈ rows, row.tokens ≠ [])
    (hfits : ∀ row ∈ rows, (Layout.blocks n bs).Fits row) :
    ∃ acc, PagedAccess n bs (rows.map Row.blockTable) (rows.map Row.start) (rows.map Row.len)
      = .ok acc := by
  obtain ⟨a, ha⟩ := batchAccess_isOk hne
  obtain ⟨ws, hws⟩ := pagedWrites_isOk (t := a.t) htoks fun row hr => (hfits row hr).1
  have hall : ws.all (fun w => decide (w.1.1 < n)) = true := by
    rw [List.all_eq_true]
    intro w hw
    obtain ⟨row, hr, hmem⟩ := pagedWrites_mem hws hw
    simpa using (hfits row hr).2 _ hmem
  unfold PagedAccess
  rw [ha]
  change ∃ acc, (pagedWrites bs a.t (rows.map Row.blockTable) (rows.map Row.start)
    (rows.map Row.len) >>= _) = Except.ok acc
  rw [hws]
  exact ⟨_, if_pos hall⟩

/-- **An access to positions the pool has a place for does not raise.** -/
theorem access_isOk (hne : rows ≠ []) (htoks : ∀ row ∈ rows, row.tokens ≠ [])
    (hfits : ∀ row ∈ rows, lay.Fits row) :
    ∃ acc, lay.access (rows.map Row.blockTable) (rows.map Row.start) (rows.map Row.len)
      = .ok acc := by
  cases lay with
  | slots n maxLen => exact slotAccess_isOk hne htoks hfits
  | blocks n bs => exact pagedAccess_isOk hne htoks hfits

/-- Neither does the forward pass. -/
theorem Transformer.stepTokens_isOk {Hidden K V : Type} (M : Transformer Hidden K V)
    (pool : Pool K V) (hne : rows ≠ []) (htoks : ∀ row ∈ rows, row.tokens ≠ [])
    (hfits : ∀ row ∈ rows, pool.layout.Fits row) : ∃ b, M.stepTokens pool rows = .ok b := by
  obtain ⟨acc, hacc⟩ := access_isOk hne htoks hfits
  have ht : acc.t ≠ 0 := by
    obtain ⟨row, hr⟩ := List.exists_mem_of_ne_nil _ hne
    have hmax := (laid_new (Layout.access_new hacc)).2.2.2.1
    have hle := len_le_of_max hmax hr
    have hpos : 0 < row.len := List.length_pos_of_ne_nil (htoks row hr)
    omega
  change pool.layout.access (rows.map Row.blockTable) (rows.map Row.start)
    (rows.map fun row => row.tokens.length) = .ok acc at hacc
  unfold stepTokens
  rw [hacc]
  exact ⟨_, if_neg ht⟩

end LlmServe
