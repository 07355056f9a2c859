import Mathlib.Data.List.MinMax
import Mathlib.Data.List.Sort

/-!
# Sorting by a key

`list.sort(key=f)` and `sorted(xs, key=f)` of the source language are stable sorts. They are
`insertionSort` with the order that the key induces, which is total and transitive but not
antisymmetric: two elements with equal keys keep their order. `min(xs, key=f)` is `argmin`: the
first of the smallest.
-/

namespace Infra

variable {α κ : Type} [LinearOrder κ] (f : α → κ)

instance total_key : Std.Total fun a b : α => f a ≤ f b := ⟨fun a b => le_total (f a) (f b)⟩

instance isTrans_key : IsTrans α fun a b => f a ≤ f b := ⟨fun _ _ _ h h' => h.trans h'⟩

/-- `sorted(l, key=f)`. -/
def sortKey (l : List α) : List α := l.insertionSort fun a b => f a ≤ f b

theorem sortKey_perm (l : List α) : (sortKey f l).Perm l := List.perm_insertionSort _ _

@[simp] theorem mem_sortKey {l : List α} {a : α} : a ∈ sortKey f l ↔ a ∈ l :=
  (sortKey_perm f l).mem_iff

theorem sortKey_sorted (l : List α) : (sortKey f l).Pairwise fun a b => f a ≤ f b :=
  List.pairwise_insertionSort _ l

/-- Stability. -/
theorem pair_sublist_sortKey {l : List α} {a b : α} (hab : f a ≤ f b) (h : [a, b].Sublist l) :
    [a, b].Sublist (sortKey f l) := List.pair_sublist_insertionSort hab h

/-- `min(l, key=f)`. -/
def minKey (l : List α) : Option α := l.argmin f

theorem mem_of_minKey {l : List α} {a : α} (h : minKey f l = some a) : a ∈ l := List.argmin_mem h

theorem minKey_eq_none {l : List α} : minKey f l = none ↔ l = [] := List.argmin_eq_none

/-! ## Who comes first

`[a, b].Sublist l` says that `a` comes before `b` in `l`.
-/

/-- Of two elements one comes first. -/
theorem pair_sublist_or {a b : α} : ∀ {l : List α}, a ∈ l → b ∈ l → a ≠ b →
    [a, b].Sublist l ∨ [b, a].Sublist l
  | x :: l, ha, hb, hab => by
    rcases List.mem_cons.mp ha with rfl | ha'
    · have hb' := (List.mem_cons.mp hb).resolve_left hab.symm
      exact Or.inl ((List.singleton_sublist.mpr hb').cons_cons a)
    · rcases List.mem_cons.mp hb with rfl | hb'
      · exact Or.inr ((List.singleton_sublist.mpr ha').cons_cons b)
      · exact (pair_sublist_or ha' hb' hab).imp (·.cons x) (·.cons x)

/-- Nothing comes before the head. -/
theorem not_pair_sublist_head {a x : α} {l : List α} (hnd : (x :: l).Nodup) :
    ¬[a, x].Sublist (x :: l) := by
  have hx : x ∉ l := (List.nodup_cons.mp hnd).1
  intro h
  cases h with
  | cons _ h => exact hx (h.subset (by simp))
  | cons_cons _ h => exact hx (h.subset (by simp))

/-- Only one of two elements comes first. -/
theorem pair_sublist_asymm {a b : α} : ∀ {l : List α}, l.Nodup → [a, b].Sublist l →
    ¬[b, a].Sublist l
  | x :: l, hnd, hab, hba => by
    cases hab with
    | cons _ hab =>
      cases hba with
      | cons _ hba => exact pair_sublist_asymm (List.nodup_cons.mp hnd).2 hab hba
      | cons_cons _ hba => exact (List.nodup_cons.mp hnd).1 (hab.subset (by simp))
    | cons_cons _ hab => exact not_pair_sublist_head hnd hba

/-- What is not before `a` comes after it, with a key that is no smaller; among equal keys the
order is that of the list before sorting. -/
theorem after_of_notMem_takeWhile [DecidableEq α] {l : List α} {a b : α} (hnd : l.Nodup)
    (ha : a ∈ l) (hb : b ∈ l) (hab : b ≠ a) (hno : b ∉ (sortKey f l).takeWhile (· ≠ a)) :
    f a < f b ∨ f a = f b ∧ [a, b].Sublist l := by
  have hsplit := List.takeWhile_append_dropWhile (p := (· ≠ a)) (l := sortKey f l)
  have hmem : b ∈ (sortKey f l).dropWhile (· ≠ a) := by
    have hb' := (mem_sortKey f).mpr hb
    rw [← hsplit, List.mem_append] at hb'
    exact hb'.resolve_left hno
  have hpair : [a, b].Sublist (sortKey f l) := by
    have hdrop : [a, b].Sublist ((sortKey f l).dropWhile (· ≠ a)) := by
      cases hd : (sortKey f l).dropWhile (· ≠ a) with
      | nil =>
        rw [hd] at hmem
        cases hmem
      | cons x rest =>
        have hx : x = a := by
          have hhead := List.head_dropWhile_not (fun x => decide (x ≠ a)) (l := sortKey f l)
            (by rw [hd]; nofun)
          simpa only [hd, List.head_cons, decide_eq_false_iff_not, not_not] using hhead
        rw [hd, hx] at hmem
        rw [hx]
        exact (List.singleton_sublist.mpr ((List.mem_cons.mp hmem).resolve_left hab)).cons_cons a
    exact hdrop.trans (List.dropWhile_sublist _)
  have hle : f a ≤ f b := by
    have hsorted := (sortKey_sorted f l).sublist hpair
    simpa using hsorted
  rcases hle.lt_or_eq with hlt | heq
  · exact Or.inl hlt
  · refine Or.inr ⟨heq, (pair_sublist_or ha hb hab.symm).resolve_right fun hba => ?_⟩
    -- stability would keep `b` first
    exact pair_sublist_asymm ((sortKey_perm f l).nodup_iff.mpr hnd) hpair
      (pair_sublist_sortKey f heq.ge hba)

end Infra
