import LlmServe.Infra.SortKey

/-!
# Order statistics

The element at a place of a sorted list is at most `v` exactly if enough elements of the list are
(`getElem?_le_iff`). How many are does not depend on the order, so the elements at one place of two
lists compare as the lists do element by element (`orderStat_le`).
-/

namespace Infra

variable {α : Type} [LinearOrder α]

theorem countP_le_of_lt_head {l : List α} {a v : α} (hl : ∀ b ∈ l, a ≤ b) (hv : v < a) :
    l.countP (· ≤ v) = 0 := by
  rw [List.countP_eq_zero]
  intro b hb
  simpa using hv.trans_le (hl b hb)

theorem getElem?_le_iff : ∀ {l : List α}, l.Pairwise (· ≤ ·) → ∀ {k : Nat} {x v : α},
    l[k]? = some x → (x ≤ v ↔ k < l.countP (· ≤ v))
  | [], _, k, x, v, h => by simp at h
  | a :: l, hs, k, x, v, h => by
    obtain ⟨ha, hs⟩ := List.pairwise_cons.mp hs
    by_cases hav : a ≤ v
    · rw [List.countP_cons_of_pos (by simpa using hav)]
      cases k with
      | zero =>
        simp only [List.getElem?_cons_zero, Option.some.injEq] at h
        simp [← h, hav]
      | succ k =>
        simp only [List.getElem?_cons_succ] at h
        rw [getElem?_le_iff hs h]
        omega
    · -- nothing behind the head is smaller
      have hzero := countP_le_of_lt_head ha (not_le.mp hav)
      rw [List.countP_cons_of_neg (by simpa using hav), hzero]
      have hax : a ≤ x := by
        cases k with
        | zero =>
          simp only [List.getElem?_cons_zero, Option.some.injEq] at h
          exact h.le
        | succ k => exact ha x (List.mem_of_getElem? (by simpa using h))
      simpa using (not_le.mp hav).trans_le hax

theorem sorted_le {l : List α} (hs : l.Pairwise (· ≤ ·)) {i j : Nat} {x y : α} (hij : i ≤ j)
    (hx : l[i]? = some x) (hy : l[j]? = some y) : x ≤ y :=
  (getElem?_le_iff hs hx).mpr (hij.trans_lt ((getElem?_le_iff hs hy).mp le_rfl))

theorem countP_le_of_forall₂ {xs ys : List α} (h : List.Forall₂ (· ≤ ·) xs ys) (v : α) :
    ys.countP (· ≤ v) ≤ xs.countP (· ≤ v) := by
  induction h with
  | nil => exact le_rfl
  | @cons x y xs ys hxy _ ih =>
    by_cases hy : y ≤ v
    · rw [List.countP_cons_of_pos (by simpa using hy),
        List.countP_cons_of_pos (by simpa using hxy.trans hy)]
      exact Nat.succ_le_succ ih
    · rw [List.countP_cons_of_neg (by simpa using hy)]
      exact ih.trans (List.sublist_cons_self x xs).countP_le

/-- **Smaller elements have smaller order statistics.** -/
theorem orderStat_le {xs ys : List α} (h : List.Forall₂ (· ≤ ·) xs ys) {k : Nat} {x y : α}
    (hx : (sortKey id xs)[k]? = some x) (hy : (sortKey id ys)[k]? = some y) : x ≤ y := by
  rw [getElem?_le_iff (sortKey_sorted id xs) hx, (sortKey_perm id xs).countP_eq]
  have hk := (getElem?_le_iff (sortKey_sorted id ys) hy).mp (le_refl y)
  rw [(sortKey_perm id ys).countP_eq] at hk
  exact hk.trans_le (countP_le_of_forall₂ h y)

/-- An order statistic is an element. -/
theorem orderStat_mem {xs : List α} {k : Nat} {x : α} (hx : (sortKey id xs)[k]? = some x) :
    x ∈ xs := (mem_sortKey id).mp (List.mem_of_getElem? hx)

end Infra
