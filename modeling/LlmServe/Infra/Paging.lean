import Mathlib.Data.List.GetD
import Mathlib.Data.List.Nodup
import Mathlib.Logic.Function.Basic

/-!
# Pages of a flat memory

A memory is a function from addresses. `assign` writes many cells at once; when no address occurs
twice, each cell gets the value written to it and every other keeps its own. `scatter` lists the
cells that a batch of rows writes, each row a run of consecutive positions.

`address` finds a position of a paged object: the page from the object's table, the offset within
the page. Tables without common pages give different positions different addresses.
-/

namespace Infra

/-! ## Writing many cells -/

section Assign

variable {α β : Type} [DecidableEq α]

/-- `m[a₁] = b₁, m[a₂] = b₂, …`. -/
def assign (m : α → β) (ws : List (α × β)) : α → β :=
  ws.foldl (fun m w => Function.update m w.1 w.2) m

theorem assign_notMem {a : α} : ∀ {ws : List (α × β)} {m : α → β}, a ∉ ws.map Prod.fst →
    assign m ws a = m a
  | [], _, _ => rfl
  | w :: ws, m, h => by
    rw [List.map_cons, List.mem_cons, not_or] at h
    rw [assign, List.foldl_cons]
    exact (assign_notMem h.2).trans (Function.update_of_ne h.1 _ _)

theorem assign_mem {a : α} {b : β} : ∀ {ws : List (α × β)} {m : α → β},
    (ws.map Prod.fst).Nodup → (a, b) ∈ ws → assign m ws a = b
  | w :: ws, m, hnd, h => by
    obtain ⟨hw, hnd⟩ := List.nodup_cons.mp hnd
    rw [assign, List.foldl_cons]
    rcases List.mem_cons.mp h with rfl | h
    · exact (assign_notMem hw).trans (Function.update_self ..)
    · exact assign_mem hnd h

end Assign

/-! ## Writing a batch of rows -/

section Scatter

variable {α β ρ : Type} (start len : ρ → Nat) (addr : ρ → Nat → α)

/-- Row `i` writes `val i c` at its position `start + c`, for `c < len`. -/
def scatter (rows : List ρ) (val : Nat → Nat → β) : List (α × β) :=
  rows.zipIdx.flatMap fun x =>
    (List.range (len x.1)).map fun c => (addr x.1 (start x.1 + c), val x.2 c)

/-- No cell is written twice. -/
structure Scattered (rows : List ρ) : Prop where
  within : ∀ x ∈ rows, ∀ c < len x, ∀ c' < len x,
    addr x (start x + c) = addr x (start x + c') → c = c'
  across : rows.Pairwise fun x y => ∀ c < len x, ∀ c' < len y,
    addr x (start x + c) ≠ addr y (start y + c')

variable {start len addr} {rows : List ρ} {val : Nat → Nat → β}

theorem scatter_map {γ : Type} (f : β → γ) :
    (scatter start len addr rows val).map (fun w => (w.1, f w.2))
      = scatter start len addr rows fun i c => f (val i c) := by
  simp only [scatter, List.map_flatMap, List.map_map, Function.comp_def]

theorem scatter_congr {addr' : ρ → Nat → α}
    (h : ∀ x ∈ rows, ∀ c < len x, addr x (start x + c) = addr' x (start x + c)) :
    scatter start len addr rows val = scatter start len addr' rows val := by
  refine List.flatMap_congr fun x hx => List.map_congr_left fun c hc => ?_
  rw [h x.1 (List.mem_of_getElem? (List.mem_zipIdx_iff_getElem?.mp hx)) c (List.mem_range.mp hc)]

theorem mem_scatter {a : α} {b : β} : (a, b) ∈ scatter start len addr rows val ↔
    ∃ i x, rows[i]? = some x ∧ ∃ c < len x, a = addr x (start x + c) ∧ b = val i c := by
  simp only [scatter, List.mem_flatMap, List.mem_map, List.mem_range, Prod.exists,
    List.mem_zipIdx_iff_getElem?, Prod.mk.injEq]
  constructor
  · rintro ⟨x, i, hx, c, hc, rfl, rfl⟩
    exact ⟨i, x, hx, c, hc, rfl, rfl⟩
  · rintro ⟨i, x, hx, c, hc, rfl, rfl⟩
    exact ⟨x, i, hx, c, hc, rfl, rfl⟩

theorem Scattered.nodup (h : Scattered start len addr rows) :
    ((scatter start len addr rows val).map Prod.fst).Nodup := by
  have hcells : (scatter start len addr rows val).map Prod.fst
      = (rows.map fun x => (List.range (len x)).map fun c => addr x (start x + c)).flatten := by
    simp only [scatter, List.map_flatMap, List.map_map, Function.comp_def]
    conv_rhs => rw [← List.zipIdx_map_fst 0 rows, List.map_map]
    rw [List.flatMap_def]
    rfl
  rw [hcells, List.nodup_flatten]
  constructor
  · intro l hl
    obtain ⟨x, hx, rfl⟩ := List.mem_map.mp hl
    refine List.Nodup.map_on (fun c hc c' hc' he => ?_) List.nodup_range
    exact h.within x hx c (List.mem_range.mp hc) c' (List.mem_range.mp hc') he
  · rw [List.pairwise_map]
    refine h.across.imp fun {x y} hxy a hx hy => ?_
    obtain ⟨c, hc, rfl⟩ := List.mem_map.mp hx
    obtain ⟨c', hc', he⟩ := List.mem_map.mp hy
    exact hxy c (List.mem_range.mp hc) c' (List.mem_range.mp hc') he.symm

variable [DecidableEq α] {m : α → β}

/-- The cell of a position that is written. -/
theorem assign_scatter_mem (h : Scattered start len addr rows) {i : Nat} {x : ρ}
    (hx : rows[i]? = some x) {j : Nat} (hle : start x ≤ j) (hlt : j < start x + len x) :
    assign m (scatter start len addr rows val) (addr x j) = val i (j - start x) := by
  refine assign_mem h.nodup (mem_scatter.mpr ⟨i, x, hx, j - start x, by omega, ?_, rfl⟩)
  rw [Nat.add_sub_cancel' hle]

/-- A cell that no row writes. -/
theorem assign_scatter_frame {a : α}
    (h : ∀ x ∈ rows, ∀ j, start x ≤ j → j < start x + len x → addr x j ≠ a) :
    assign m (scatter start len addr rows val) a = m a := by
  refine assign_notMem fun hmem => ?_
  obtain ⟨⟨a', b⟩, hw, rfl⟩ := List.mem_map.mp hmem
  obtain ⟨i, x, hx, c, hc, ha, -⟩ := mem_scatter.mp hw
  exact h x (List.mem_of_getElem? hx) (start x + c) (by omega) (by omega) ha.symm

end Scatter

/-! ## Addresses -/

/-- Page and offset of position `j`, for pages of `size` positions. -/
def address (size : Nat) (table : List Nat) (j : Nat) : Nat × Nat :=
  (table.getD (j / size) 0, j % size)

/-- The table has a page for position `j`. -/
def Reaches (size : Nat) (table : List Nat) (j : Nat) : Prop := j / size < table.length

variable {size : Nat} {table table' : List Nat} {i j : Nat}

theorem Reaches.mem (h : Reaches size table j) : (address size table j).1 ∈ table := by
  rw [address, List.getD_eq_getElem _ _ h]
  exact List.getElem_mem h

/-- A longer table keeps the addresses. -/
theorem Reaches.address_prefix (h : Reaches size table j) (hpre : table <+: table') :
    address size table' j = address size table j := by
  obtain ⟨rest, rfl⟩ := hpre
  have hlt : j / size < (table ++ rest).length := by
    rw [List.length_append]
    exact Nat.lt_add_right _ h
  rw [address, address, List.getD_eq_getElem _ _ h, List.getD_eq_getElem _ _ hlt, List.getElem_append_left h]

theorem Reaches.mono (h : Reaches size table j) (hle : i ≤ j) : Reaches size table i :=
  Nat.lt_of_le_of_lt (Nat.div_le_div_right hle) h

/-- Two positions of one object. -/
theorem address_inj (hnd : table.Nodup) (hi : Reaches size table i) (hj : Reaches size table j)
    (h : address size table i = address size table j) : i = j := by
  rw [address, address, List.getD_eq_getElem _ _ hi, List.getD_eq_getElem _ _ hj] at h
  obtain ⟨hpage, hoff⟩ := Prod.mk.inj h
  have hdiv : i / size = j / size := (List.Nodup.getElem_inj_iff hnd).mp hpage
  rw [← Nat.div_add_mod i size, ← Nat.div_add_mod j size, hdiv, hoff]

/-- Positions of two objects without a common page. -/
theorem address_ne (hdis : table.Disjoint table') (hi : Reaches size table i)
    (hj : Reaches size table' j) : address size table i ≠ address size table' j :=
  fun h => hdis hi.mem ((congrArg Prod.fst h) ▸ hj.mem)

end Infra
