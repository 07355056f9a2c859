import LlmServe.Infra.OrderStatistics
import LlmServe.Properties.Clock
import LlmServe.Theorems.Percentiles

/-!
# The latencies of a summary

`summary` reports percentiles of three latencies. They exist once there is a record, and the order of
the times of each record carries over to them: the median is at most the 99th percentile, and at the
99th TTFT is at most E2E. At the 50th it need not be: `percentile` takes one of the two elements in
the middle where `statistics.median` takes their mean.
-/

namespace LlmServe

open Infra

/-! ## Ranks -/

/-- The rank that `percentile` takes. -/
def rank (n : Nat) (p : Rat) : Nat := (roundHalfEven (p / 100 * ((n : Rat) - 1))).toNat

theorem rank_cast {n : Nat} {p : Rat} (hn : 0 < n) (h0 : 0 ≤ p) (h100 : p ≤ 100) :
    roundHalfEven (p / 100 * ((n : Rat) - 1)) = rank n p ∧ rank n p < n := by
  have hr := rank_nonneg hn h0
  obtain ⟨hlo, hhi⟩ := roundHalfEven_mem (m := 0) (by exact_mod_cast hr) (rank_le hn h100)
  unfold rank
  omega

theorem rank_mono {n : Nat} {p q : Rat} (hn : 0 < n) (hpq : p ≤ q) : rank n p ≤ rank n q := by
  have h1 : (1 : Rat) ≤ n := by exact_mod_cast hn
  apply Int.toNat_le_toNat
  apply roundHalfEven_mono
  apply mul_le_mul_of_nonneg_right <;> linarith

/-- The 99th percentile is not below the middle. -/
theorem half_le_rank {n : Nat} (hn : 0 < n) : n / 2 ≤ rank n 99 := by
  rcases Nat.lt_or_ge n 2 with hlt | hge
  · omega
  · have h2 : (2 : Rat) ≤ n := by exact_mod_cast hge
    have hhalf : ((n / 2 : Nat) : Rat) ≤ n / 2 := by
      rw [le_div_iff₀ two_pos]
      exact_mod_cast Nat.div_mul_le_self n 2
    have hle : ((n / 2 : Nat) : Int) ≤ roundHalfEven ((99 : Rat) / 100 * (n - 1)) := by
      apply le_roundHalfEven
      rw [Int.cast_natCast]
      linarith
    unfold rank
    omega

/-- Of two elements in the middle, `percentile` takes the lower one, if their ranks are `2 * k` and
`2 * k + 1`. -/
theorem rank_le_half {n : Nat} (hn : n % 4 ≠ 0) : rank n 50 ≤ (n - 1) / 2 := by
  have hn0 : 0 < n := by omega
  have h1 : (1 : Rat) ≤ n := by exact_mod_cast hn0
  suffices h : roundHalfEven ((50 : Rat) / 100 * (n - 1)) ≤ ((n - 1) / 2 : Nat) by
    unfold rank
    omega
  rcases Nat.even_or_odd n with ⟨j, hj⟩ | ⟨j, hj⟩
  · -- a half, which is rounded to the even neighbour
    obtain ⟨k, hk⟩ : ∃ k, n = 4 * k + 2 := ⟨n / 4, by omega⟩
    have hx : (50 : Rat) / 100 * (n - 1) = 2 * k + 1 / 2 := by
      rw [hk]
      push_cast
      ring
    obtain ⟨hfl, hhalf⟩ := floor_of_halfAbove hx
    rw [(roundHalfAway_of_floor_even (by rw [hx]; positivity) hhalf (by omega)).2, hfl]
    omega
  · have hx : (50 : Rat) / 100 * (n - 1) ≤ (((n - 1) / 2 : Nat) : Int) := by
      have hj2 : (n - 1) / 2 = j := by omega
      rw [hj2, hj]
      push_cast
      linarith
    have h0 : ((0 : Int) : Rat) ≤ (50 : Rat) / 100 * (n - 1) := by
      exact_mod_cast rank_nonneg hn0 (by norm_num)
    exact (roundHalfEven_mem h0 hx).2

/-! ## Elements -/

variable {α : Type} [LinearOrder α]

theorem percentile_isSome {xs : List α} {p : Rat} (hne : xs ≠ []) (h0 : 0 ≤ p) (h100 : p ≤ 100) :
    ∃ x, percentile xs p = .ok (some x) ∧ (sortKey id xs)[rank xs.length p]? = some x := by
  obtain ⟨hr, hlt⟩ := rank_cast (List.length_pos_iff.mpr hne) h0 h100
  have hlen : (sortKey id xs).length = xs.length := (sortKey_perm id xs).length_eq
  have hlt : rank xs.length p < (sortKey id xs).length := hlen ▸ hlt
  exact ⟨_, percentile_eq hr hlt, List.getElem?_eq_getElem hlt⟩

/-- `median` is the mean of the two elements in the middle; of an odd number they are the same. -/
theorem median_isOk {xs : List Rat} (hne : xs ≠ []) :
    ∃ lo hi, median xs = .ok ((lo + hi) / 2) ∧
      (sortKey id xs)[(xs.length - 1) / 2]? = some lo ∧
      (sortKey id xs)[xs.length / 2]? = some hi := by
  have hn : 0 < xs.length := List.length_pos_iff.mpr hne
  have hlen : (sortKey id xs).length = xs.length := (sortKey_perm id xs).length_eq
  have hlo : (xs.length - 1) / 2 < (sortKey id xs).length := by omega
  have hhi : xs.length / 2 < (sortKey id xs).length := by omega
  refine ⟨_, _, ?_, List.getElem?_eq_getElem hlo, List.getElem?_eq_getElem hhi⟩
  have hgethi : getItem (sortKey id xs) ((sortKey id xs).length / 2 : Int) =
      .ok (sortKey id xs)[xs.length / 2] := by
    rw [← getItem_natCast hhi]
    congr 1
    omega
  unfold median
  dsimp only
  rw [if_neg (by omega)]
  split
  · next hodd =>
    have hsame : (sortKey id xs)[(xs.length - 1) / 2] = (sortKey id xs)[xs.length / 2] := by
      congr 1
      omega
    rw [hgethi, hsame, add_self_div_two]
  · next heven =>
    have hgetlo : getItem (sortKey id xs) ((sortKey id xs).length / 2 - 1 : Int) =
        .ok (sortKey id xs)[(xs.length - 1) / 2] := by
      rw [← getItem_natCast hlo]
      congr 1
      omega
    rw [hgethi, hgetlo]
    rfl

theorem percentiles_le {xs : List α} (hne : xs ≠ []) :
    ∃ x y, percentile xs 50 = .ok (some x) ∧ percentile xs 99 = .ok (some y) ∧ x ∈ xs ∧ x ≤ y := by
  obtain ⟨x, hx, hgetx⟩ := percentile_isSome (p := 50) hne (by norm_num) (by norm_num)
  obtain ⟨y, hy, hgety⟩ := percentile_isSome (p := 99) hne (by norm_num) (by norm_num)
  have hrank := rank_mono (p := 50) (q := 99) (List.length_pos_iff.mpr hne) (by norm_num)
  exact ⟨x, y, hx, hy, orderStat_mem hgetx, sorted_le (sortKey_sorted id xs) hrank hgetx hgety⟩

/-! ## Records -/

/-- The latencies that `summary` reports of these records. -/
structure Latencies (recs : List RequestMetrics) (ttft50 ttft99 : Time) (e2e50 : Rat)
    (e2e99 : Time) : Prop where
  ttftP50S : percentile (recs.map RequestMetrics.ttft) 50 = .ok (some ttft50)
  ttftP99S : percentile (recs.map RequestMetrics.ttft) 99 = .ok (some ttft99)
  e2eP50S : median ((recs.map RequestMetrics.e2e).map Int.cast) = .ok e2e50
  e2eP99S : percentile (recs.map RequestMetrics.e2e) 99 = .ok (some e2e99)
  nonneg : 0 ≤ ttft50 ∧ 0 ≤ e2e50
  ttft_le : ttft50 ≤ ttft99
  e2e_le : e2e50 ≤ e2e99
  le99 : ttft99 ≤ e2e99
  le50 : recs.length % 4 ≠ 0 → ttft50 ≤ e2e50

/-- Times are sorted alike as integers and as rationals. -/
theorem sortKey_cast (xs : List Time) :
    sortKey id (xs.map (Int.cast : Time → Rat)) = (sortKey id xs).map Int.cast := by
  unfold sortKey
  exact (List.map_insertionSort _ _ Int.cast xs fun a _ b _ => by simp).symm

theorem getElem?_sortKey_cast {xs : List Time} {k : Nat} {x : Time}
    (h : (sortKey id xs)[k]? = some x) :
    (sortKey id (xs.map (Int.cast : Time → Rat)))[k]? = some (x : Rat) := by
  rw [sortKey_cast, List.getElem?_map, h]
  rfl

/-- **Records in order have latencies in order.** -/
theorem latencies_of_ordered {recs : List RequestMetrics} (hne : recs ≠ [])
    (hrecs : ∀ rec ∈ recs, rec.Ordered) : ∃ t50 t99 e50 e99, Latencies recs t50 t99 e50 e99 := by
  have hn : 0 < recs.length := List.length_pos_iff.mpr hne
  have httfts : recs.map RequestMetrics.ttft ≠ [] := by simpa using hne
  have he2es : recs.map RequestMetrics.e2e ≠ [] := by simpa using hne
  have hcasts : (recs.map RequestMetrics.e2e).map (Int.cast : Time → Rat) ≠ [] := by simpa using hne
  obtain ⟨t50, ht50, hget50⟩ := percentile_isSome (p := 50) httfts (by norm_num) (by norm_num)
  obtain ⟨t99, ht99, hget99⟩ := percentile_isSome (p := 99) httfts (by norm_num) (by norm_num)
  obtain ⟨e99, he99, hgete⟩ := percentile_isSome (p := 99) he2es (by norm_num) (by norm_num)
  obtain ⟨c50, -, hgetc⟩ := percentile_isSome (p := 50) hcasts (by norm_num) (by norm_num)
  obtain ⟨lo, hi, hmed, hlo, hhi⟩ := median_isOk hcasts
  simp only [List.length_map] at hget50 hget99 hgete hgetc hlo hhi
  have hsorted := sortKey_sorted id ((recs.map RequestMetrics.e2e).map (Int.cast : Time → Rat))
  have hpairs : List.Forall₂ (· ≤ ·) (recs.map RequestMetrics.ttft) (recs.map RequestMetrics.e2e) := by
    rw [List.forall₂_map_left_iff, List.forall₂_map_right_iff, List.forall₂_same]
    exact fun rec hrec => (hrecs rec hrec).e2e
  have hcastPairs : List.Forall₂ (· ≤ ·)
      ((recs.map RequestMetrics.ttft).map (Int.cast : Time → Rat))
      ((recs.map RequestMetrics.e2e).map (Int.cast : Time → Rat)) := by
    rw [List.forall₂_map_left_iff, List.forall₂_map_right_iff]
    exact hpairs.imp fun _ _ h => Int.cast_le.mpr h
  have hlohi : lo ≤ hi := sorted_le hsorted (by omega) hlo hhi
  have hlo0 : 0 ≤ lo := by
    obtain ⟨e, he, rfl⟩ := List.mem_map.mp (orderStat_mem hlo)
    obtain ⟨rec, hrec, rfl⟩ := List.mem_map.mp he
    exact_mod_cast (hrecs rec hrec).ttft.trans (hrecs rec hrec).e2e
  have ht0 : 0 ≤ t50 := by
    obtain ⟨rec, hrec, rfl⟩ := List.mem_map.mp (orderStat_mem hget50)
    exact (hrecs rec hrec).ttft
  have htle : t50 ≤ t99 := sorted_le (sortKey_sorted id _) (rank_mono hn (by norm_num)) hget50 hget99
  have hhie : hi ≤ e99 := sorted_le hsorted (half_le_rank hn) hhi (getElem?_sortKey_cast hgete)
  have hmid : recs.length % 4 ≠ 0 → (t50 : Rat) ≤ lo := fun hmod =>
    (orderStat_le hcastPairs (getElem?_sortKey_cast hget50) hgetc).trans
      (sorted_le hsorted (rank_le_half hmod) hgetc hlo)
  exact ⟨t50, t99, (lo + hi) / 2, e99, {
    ttftP50S := ht50
    ttftP99S := ht99
    e2eP50S := hmed
    e2eP99S := he99
    nonneg := ⟨ht0, by linarith⟩
    ttft_le := htle
    e2e_le := by linarith
    le99 := orderStat_le hpairs hget99 hgete
    le50 := fun hmod => by linarith [hmid hmod] }⟩

/-- Four requests that end with their first token: at the 50th percentile TTFT is above E2E. -/
example : percentile [(0 : Time), 0, 10, 10] 50 = .ok (some 10) ∧
    median [0, 0, 10, 10] = .ok 5 := by decide +kernel

end LlmServe
