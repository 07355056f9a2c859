import LlmServe.Engine.Metrics
import LlmServe.Bench.Report

/-!
# The two percentiles

`engine/metrics.py` and `bench/report.go` take the element at the rank `p/100 * (n - 1)`, rounded.
One rounds a half to even, the other away from zero, so at a rank half-way above an even one they
take neighbours.
-/

namespace LlmServe

open Infra

/-! ## Ranks -/

theorem rank_nonneg {n : Nat} {p : Rat} (hn : 0 < n) (h0 : 0 ≤ p) :
    0 ≤ p / 100 * ((n : Rat) - 1) := by
  have h1 : (1 : Rat) ≤ n := by exact_mod_cast hn
  apply mul_nonneg
  · linarith
  · linarith

theorem rank_le {n : Nat} {p : Rat} (hn : 0 < n) (h100 : p ≤ 100) :
    p / 100 * ((n : Rat) - 1) ≤ ((n - 1 : Int) : Rat) := by
  have h1 : (1 : Rat) ≤ n := by exact_mod_cast hn
  have hp : p / 100 ≤ 1 := by linarith
  push_cast
  nlinarith

/-- The rank is half-way above the even rank `2 * k`. -/
def HalfAbove (n : Nat) (p : Rat) (k : Nat) : Prop := p / 100 * ((n : Rat) - 1) = 2 * k + 1 / 2

theorem floor_of_halfAbove {x : Rat} {k : Nat} (h : x = 2 * k + 1 / 2) :
    ⌊x⌋ = 2 * k ∧ x - ⌊x⌋ = 1 / 2 := by
  have hfl : ⌊x⌋ = 2 * k := by
    apply Int.floor_eq_iff.mpr
    push_cast
    constructor <;> linarith
  refine ⟨hfl, ?_⟩
  rw [hfl, h]
  push_cast
  ring

/-- Both roundings, where they differ and where they do not. -/
theorem rounded_rank {n : Nat} {p : Rat} (hn : 0 < n) (h0 : 0 ≤ p) :
    (∃ k, HalfAbove n p k ∧ roundHalfEven (p / 100 * ((n : Rat) - 1)) = (2 * k : Nat) ∧
      roundHalfAway (p / 100 * ((n : Rat) - 1)) = (2 * k + 1 : Nat)) ∨
    (∀ k, ¬HalfAbove n p k) ∧
      roundHalfAway (p / 100 * ((n : Rat) - 1)) = roundHalfEven (p / 100 * ((n : Rat) - 1)) := by
  have hr := rank_nonneg hn h0
  by_cases hex : ∃ k, HalfAbove n p k
  · obtain ⟨k, hk⟩ := hex
    obtain ⟨hfl, hhalf⟩ := floor_of_halfAbove hk
    obtain ⟨ha, he⟩ := roundHalfAway_of_floor_even hr hhalf (by omega)
    left
    refine ⟨k, hk, ?_, ?_⟩
    · rw [he, hfl]
      push_cast
      rfl
    · rw [ha, hfl]
      push_cast
      rfl
  · have hno := not_exists.mp hex
    right
    refine ⟨hno, roundHalfAway_eq_roundHalfEven hr ?_⟩
    rintro ⟨hhalf, heven⟩
    obtain ⟨f, hf⟩ := Int.eq_ofNat_of_zero_le (Int.floor_nonneg.mpr hr)
    rw [hf] at hhalf heven
    have hk : f = 2 * (f / 2) := by omega
    have hkq : (f : Rat) = 2 * ((f / 2 : Nat) : Rat) := by exact_mod_cast hk
    refine hno (f / 2) ?_
    rw [Int.cast_natCast] at hhalf
    unfold HalfAbove
    linarith

/-! ## Elements -/

theorem getItem_natCast {α : Type} {s : List α} {i : Nat} (hi : i < s.length) : getItem s i = .ok s[i] := by
  have h1 : ¬(i : Int) < 0 := by omega
  unfold getItem
  simp only [if_neg h1, Int.toNat_natCast, List.getElem?_eq_getElem hi]

theorem bench_percentile_eq {α : Type} {nan : α} {s : List α} {p : Rat} {i : Nat}
    (hi : roundHalfAway (p / 100 * ((s.length : Rat) - 1)) = i) (hlt : i < s.length) :
    Bench.percentile nan s p = some s[i] := by
  have hne : s.length ≠ 0 := by omega
  have h1 : ¬(i : Int) < 0 := by omega
  unfold Bench.percentile
  simp only [if_neg hne, hi, if_neg h1, Int.toNat_natCast, List.getElem?_eq_getElem hlt]

variable {α : Type} [LinearOrder α]

theorem percentile_eq {xs : List α} {p : Rat} {i : Nat}
    (hi : roundHalfEven (p / 100 * ((xs.length : Rat) - 1)) = i)
    (hlt : i < (sortKey id xs).length) : percentile xs p = .ok (some (sortKey id xs)[i]) := by
  have hlen : (sortKey id xs).length = xs.length := (sortKey_perm id xs).length_eq
  have hne : xs ≠ [] := by
    rintro rfl
    rw [hlen] at hlt
    cases hlt
  have hmin : min ((xs.length : Int) - 1) i = i := by omega
  unfold percentile
  simp only [if_neg hne, hlen, hi, hmin, getItem_natCast hlt]
  rfl

/--
**When the two percentiles agree.** Both ranks are in range. The elements are the same exactly if
the exact rank is not half-way above an even rank, or the two elements there are equal.
-/
theorem percentiles_agree_iff (nan : α) (xs : List α) (p : Rat) (hne : xs ≠ []) (h0 : 0 ≤ p)
    (h100 : p ≤ 100) :
    ∃ x y, percentile xs p = .ok (some x) ∧ Bench.percentile nan (sortKey id xs) p = some y ∧
      (x = y ↔ ∀ k, HalfAbove xs.length p k →
        (sortKey id xs)[2 * k]? = (sortKey id xs)[2 * k + 1]?) := by
  have hn : 0 < xs.length := List.length_pos_iff.mpr hne
  have hlen : (sortKey id xs).length = xs.length := (sortKey_perm id xs).length_eq
  have hr := rank_nonneg hn h0
  have hle := rank_le hn h100
  obtain ⟨he0, hen⟩ := roundHalfEven_mem (m := 0) (by exact_mod_cast hr) hle
  obtain ⟨ha0, han⟩ := roundHalfAway_mem (m := 0) hr (by exact_mod_cast hr) hle
  rcases rounded_rank hn h0 with ⟨k, hk, hke, hka⟩ | ⟨hno, heq⟩
  · have hlt : 2 * k + 1 < (sortKey id xs).length := by omega
    refine ⟨(sortKey id xs)[2 * k], (sortKey id xs)[2 * k + 1], percentile_eq hke (by omega),
      bench_percentile_eq (by rw [hlen]; exact hka) hlt, ?_⟩
    constructor
    · intro hxy k' hk'
      obtain rfl : k' = k := by
        have : (2 * (k' : Rat)) + 1 / 2 = 2 * k + 1 / 2 := hk'.symm.trans hk
        have : (k' : Rat) = k := by linarith
        exact_mod_cast this
      rw [List.getElem?_eq_getElem (by omega), List.getElem?_eq_getElem hlt, hxy]
    · intro h
      have hxy := h k hk
      rw [List.getElem?_eq_getElem (by omega), List.getElem?_eq_getElem hlt] at hxy
      exact Option.some.inj hxy
  · obtain ⟨i, hi⟩ := Int.eq_ofNat_of_zero_le he0
    have hlt : i < (sortKey id xs).length := by omega
    refine ⟨(sortKey id xs)[i], (sortKey id xs)[i], percentile_eq hi hlt,
      bench_percentile_eq (by rw [hlen, heq]; exact hi) hlt, ?_⟩
    exact ⟨fun _ k hk => absurd hk (hno k), fun _ => rfl⟩

theorem percentiles_agree_iff_median :
    ∃ x y, percentile [(30 : Rat), 10, 20] 50 = .ok (some x) ∧
      Bench.percentile 0 (sortKey id [(30 : Rat), 10, 20]) 50 = some y ∧
      (x = y ↔ ∀ k, HalfAbove 3 50 k →
        (sortKey id [(30 : Rat), 10, 20])[2 * k]? = (sortKey id [(30 : Rat), 10, 20])[2 * k + 1]?) :=
  percentiles_agree_iff (0 : Rat) [30, 10, 20] 50 (List.cons_ne_nil _ _) (by norm_num) (by norm_num)

/-- **The medians of two numbers differ.** -/
theorem percentiles_differ :
    percentile [(0 : Rat), 1] 50 = .ok (some 0) ∧
    Bench.percentile 0 (sortKey id [(0 : Rat), 1]) 50 = some 1 := by
  decide +kernel

end LlmServe
