import Mathlib.Algebra.GroupWithZero.Nat
import Mathlib.Algebra.BigOperators.Group.List.Basic
import Mathlib.Data.List.Nodup
import Mathlib.Data.List.Perm.Basic

/-!
# Who owns what

A pool of units is split between a free list and holders, each with a table of the units it has.
`owned` lists every unit with its owners; an allocator that neither leaks a unit nor hands one out
twice keeps this list the same up to order. There is one lemma for each way units move:

* `owned_congr`    : nothing moves;
* `owned_take`     : a new holder takes units from the free list;
* `owned_extend`   : a holder takes more;
* `owned_giveBack` : a holder leaves and its units go back.
-/

namespace Infra

variable {H U : Type}

/-- Every unit of the pool, once for each owner. -/
def owned (free : List U) (holders : List H) (table : H → List U) : List U :=
  free ++ holders.flatMap table

variable {free free' : List U} {holders holders' rest : List H} {table table' : H → List U}
  {x : H} {blocks : List U}

theorem flatMap_congr {l : List H} (h : ∀ y ∈ l, table' y = table y) :
    l.flatMap table' = l.flatMap table := by
  rw [List.flatMap_def, List.flatMap_def, List.map_congr_left h]

theorem owned_congr (hh : holders'.Perm holders) (ht : ∀ y ∈ holders, table' y = table y) :
    (owned free holders' table').Perm (owned free holders table) := by
  refine List.Perm.append_left _ ?_
  rw [← flatMap_congr ht]
  exact hh.flatMap_right _

theorem owned_take (hh : holders'.Perm (x :: holders)) (hfree : free = blocks ++ free')
    (hx : table' x = blocks) (ht : ∀ y ∈ holders, table' y = table y) :
    (owned free' holders' table').Perm (owned free holders table) := by
  have hperm : (holders'.flatMap table').Perm (blocks ++ holders.flatMap table) := by
    rw [← hx, ← flatMap_congr ht, ← List.flatMap_cons]
    exact hh.flatMap_right _
  rw [owned, owned, hfree, List.append_assoc]
  exact (hperm.append_left free').trans (List.perm_append_comm_assoc ..)

theorem owned_extend (hh : holders.Perm (x :: rest)) (hfree : free = blocks ++ free')
    (hx : table' x = table x ++ blocks) (ht : ∀ y ∈ rest, table' y = table y) :
    (owned free' holders table').Perm (owned free holders table) := by
  have hnew : (holders.flatMap table').Perm (table x ++ (blocks ++ rest.flatMap table)) := by
    rw [← List.append_assoc, ← hx, ← flatMap_congr ht, ← List.flatMap_cons]
    exact hh.flatMap_right _
  have hold : (table x ++ rest.flatMap table).Perm (holders.flatMap table) := by
    rw [← List.flatMap_cons]
    exact (hh.flatMap_right _).symm
  rw [owned, owned, hfree, List.append_assoc]
  refine (hnew.append_left free').trans ?_
  have hswap : (table x ++ (blocks ++ rest.flatMap table)).Perm
      (blocks ++ holders.flatMap table) :=
    (List.perm_append_comm_assoc ..).trans (hold.append_left _)
  exact (hswap.append_left _).trans (List.perm_append_comm_assoc ..)

theorem owned_giveBack (hh : holders.Perm (x :: rest)) (hfree : free' = table x ++ free)
    (ht : ∀ y ∈ rest, table' y = table y) :
    (owned free' rest table').Perm (owned free holders table) := by
  have hold : (table x ++ rest.flatMap table).Perm (holders.flatMap table) := by
    rw [← List.flatMap_cons]
    exact (hh.flatMap_right _).symm
  rw [owned, owned, hfree, flatMap_congr ht, List.append_assoc]
  exact (List.perm_append_comm_assoc ..).trans (hold.append_left _)

/-- When no unit is listed twice, no holder has one twice. -/
theorem nodup_of_owned (hnd : (owned free holders table).Nodup) (hx : x ∈ holders) :
    (table x).Nodup := (List.nodup_flatMap.mp hnd.of_append_right).1 x hx

/-- When no unit is listed twice, two holders share none. -/
theorem disjoint_of_owned [DecidableEq H] (hnd : (owned free holders table).Nodup) {y : H}
    (hx : x ∈ holders) (hy : y ∈ holders) (hxy : x ≠ y) : (table x).Disjoint (table y) := by
  have hperm : holders.Perm (x :: y :: (holders.erase x).erase y) :=
    (List.perm_cons_erase hx).trans
      ((List.perm_cons_erase ((List.mem_erase_of_ne hxy.symm).mpr hy)).cons x)
  have htabs := ((hperm.flatMap_right table).nodup_iff.mp hnd.of_append_right)
  rw [List.flatMap_cons, List.flatMap_cons, ← List.append_assoc] at htabs
  exact List.disjoint_of_nodup_append htabs.of_append_left

/-! ## Amounts -/

/-- When the amounts of some holders grow, the sum over all holders grows by as much. -/
theorem sum_map_add_of_mem [DecidableEq H] {batch : List H} {f g d : H → Nat}
    (hholders : holders.Nodup) (hnd : batch.Nodup) (hsub : ∀ x ∈ batch, x ∈ holders)
    (hin : ∀ x ∈ batch, g x = f x + d x) (hout : ∀ x, x ∉ batch → g x = f x) :
    (holders.map g).sum = (holders.map f).sum + (batch.map d).sum := by
  have hperm : holders.Perm (batch ++ holders.filter fun x => x ∉ batch) := by
    have hsplit := List.filter_append_perm (fun x => decide (x ∈ batch)) holders
    have hbatch : (holders.filter fun x => x ∈ batch).Perm batch := by
      refine (List.perm_ext_iff_of_nodup (hholders.filter _) hnd).mpr fun x => ?_
      simpa using hsub x
    have hrest : (holders.filter fun x => !decide (x ∈ batch)) =
        holders.filter fun x => x ∉ batch := by simp
    exact hsplit.symm.trans (hrest ▸ hbatch.append_right _)
  have hg : (batch.map g).sum = (batch.map f).sum + (batch.map d).sum := by
    rw [← List.sum_map_add]
    exact congrArg List.sum (List.map_congr_left hin)
  have hrest : (holders.filter fun x => x ∉ batch).map g =
      (holders.filter fun x => x ∉ batch).map f :=
    List.map_congr_left fun x hx => hout x (by simpa using (List.mem_filter.mp hx).2)
  rw [(hperm.map g).sum_eq, (hperm.map f).sum_eq]
  simp only [List.map_append, List.sum_append, hg, hrest]
  omega

end Infra
