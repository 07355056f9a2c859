import LlmServe.Infra.SortKey

/-!
# Folds over a list whose order does not matter

Two steps of a fold may commute only up to a relation: a step that appends to a list does, up to
the order of that list. Then the results on two permutations are related. Sorting is what makes
them equal again.
-/

namespace Infra

/-! ## Folds up to a relation -/

section Fold

variable {α β : Type} {R : β → β → Prop} {f : β → α → β}

theorem foldl_rel (hcongr : ∀ {b b'} a, R b b' → R (f b a) (f b' a)) :
    ∀ (l : List α) {b b' : β}, R b b' → R (l.foldl f b) (l.foldl f b')
  | [], _, _, hb => hb
  | a :: l, _, _, hb => foldl_rel hcongr l (hcongr a hb)

theorem foldl_perm (hR : Equivalence R) (hcongr : ∀ {b b'} a, R b b' → R (f b a) (f b' a))
    (hcomm : ∀ b a a', R (f (f b a) a') (f (f b a') a)) {l l' : List α} (h : l.Perm l') :
    ∀ b, R (l.foldl f b) (l'.foldl f b) := by
  induction h with
  | nil => exact fun b => hR.refl b
  | cons a _ ih => exact fun b => ih (f b a)
  | swap a a' l => exact fun b => foldl_rel hcongr l (hcomm b a' a)
  | trans _ _ ih ih' => exact fun b => hR.trans (ih b) (ih' b)

/-- What the step ignores can be left out. -/
theorem foldl_of_ignores {p : α → Bool} (h : ∀ b a, p a = false → f b a = b) (l : List α) (b : β) :
    (l.filter p).foldl f b = l.foldl f b := by
  have hf : (fun b a => if p a = true then f b a else b) = f := by
    funext b a
    cases hp : p a with
    | true => rfl
    | false => exact (h b a hp).symm
  rw [List.foldl_filter, hf]

end Fold

/-! ## Sorted lists -/

section Sorted

variable {κ : Type} [LinearOrder κ]

theorem sortKey_id_congr {l l' : List κ} (h : l.Perm l') : sortKey id l = sortKey id l' := by
  have hperm : (sortKey id l).Perm (sortKey id l') :=
    ((sortKey_perm id l).trans h).trans (sortKey_perm id l').symm
  exact hperm.eq_of_pairwise (fun _ _ _ _ hab hba => le_antisymm hab hba) (sortKey_sorted id l)
    (sortKey_sorted id l')

/-- Up to an element of a sorted list nothing is larger than it. -/
theorem lt_countP_of_sorted {s : List κ} (hs : s.Pairwise (· ≤ ·)) {i : Nat} (hi : i < s.length)
    {x : κ} (hx : s[i] ≤ x) : i + 1 ≤ s.countP (fun y => decide (y ≤ x)) := by
  have hall : ∀ y ∈ s.take (i + 1), decide (y ≤ x) = true := by
    intro y hy
    obtain ⟨j, hj, rfl⟩ := List.mem_take_iff_getElem.mp hy
    have hji : s[j] ≤ s[i] := by
      rcases (show j ≤ i by omega).lt_or_eq with hlt | rfl
      · exact List.pairwise_iff_getElem.mp hs j i (by omega) hi hlt
      · exact le_refl _
    exact decide_eq_true (hji.trans hx)
  calc i + 1 = (s.take (i + 1)).length := by rw [List.length_take]; omega
    _ = (s.take (i + 1)).countP (fun y => decide (y ≤ x)) := (List.countP_eq_length.mpr hall).symm
    _ ≤ s.countP (fun y => decide (y ≤ x)) := (List.take_sublist _ s).countP_le

end Sorted

end Infra
