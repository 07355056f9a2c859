import Mathlib.Algebra.Order.Floor.Ring
import Mathlib.Tactic.Linarith

/-!
# Two ways to round a half

To the nearest integer, a half away from zero or to the even neighbour. On numbers that are not
negative the two differ at `2 k + 1/2` and nowhere else.
-/

namespace Infra

variable {K : Type} [Field K] [LinearOrder K] [IsStrictOrderedRing K] [FloorRing K]

/-- Half away from zero. -/
def roundHalfAway (x : K) : ℤ := if 0 ≤ x then ⌊x + 1 / 2⌋ else -⌊-x + 1 / 2⌋

/-- Half to even. -/
def roundHalfEven (x : K) : ℤ :=
  if x - ⌊x⌋ < 1 / 2 then ⌊x⌋
  else if 1 / 2 < x - ⌊x⌋ then ⌊x⌋ + 1
  else if ⌊x⌋ % 2 = 0 then ⌊x⌋
  else ⌊x⌋ + 1

/-- `⌊x + 1/2⌋` by the fractional part of `x`. -/
theorem floor_add_half (x : K) :
    ⌊x + 1 / 2⌋ = if x - ⌊x⌋ < 1 / 2 then ⌊x⌋ else ⌊x⌋ + 1 := by
  have hlo := Int.floor_le x
  have hhi := Int.lt_floor_add_one x
  split_ifs with h
  · apply Int.floor_eq_iff.mpr
    constructor <;> linarith
  · apply Int.floor_eq_iff.mpr
    rw [Int.cast_add, Int.cast_one]
    constructor <;> linarith

/-- The one case in which the two differ: the fractional part is a half and the integer below is
even. -/
theorem roundHalfAway_of_floor_even {x : K} (h0 : 0 ≤ x) (hhalf : x - ⌊x⌋ = 1 / 2)
    (heven : ⌊x⌋ % 2 = 0) : roundHalfAway x = ⌊x⌋ + 1 ∧ roundHalfEven x = ⌊x⌋ := by
  constructor
  · unfold roundHalfAway
    rw [if_pos h0, floor_add_half, hhalf, if_neg (lt_irrefl _)]
  · unfold roundHalfEven
    rw [hhalf, if_neg (lt_irrefl _), if_neg (lt_irrefl _), if_pos heven]

theorem roundHalfAway_eq_roundHalfEven {x : K} (h0 : 0 ≤ x)
    (h : ¬(x - ⌊x⌋ = 1 / 2 ∧ ⌊x⌋ % 2 = 0)) : roundHalfAway x = roundHalfEven x := by
  unfold roundHalfAway roundHalfEven
  rw [if_pos h0, floor_add_half]
  split_ifs with hlt hgt heven
  · rfl
  · rfl
  · exact absurd ⟨le_antisymm (not_lt.mp hgt) (not_lt.mp hlt), heven⟩ h
  · rfl

/-- Rounding to even stays between integers. -/
theorem roundHalfEven_mem {x : K} {m n : ℤ} (hm : (m : K) ≤ x) (hn : x ≤ n) :
    m ≤ roundHalfEven x ∧ roundHalfEven x ≤ n := by
  have hlo : m ≤ ⌊x⌋ := Int.le_floor.mpr hm
  have hhi : ⌊x⌋ ≤ n := Int.cast_le.mp ((Int.floor_le x).trans hn)
  have hup : ¬x - ⌊x⌋ < 1 / 2 → ⌊x⌋ + 1 ≤ n := by
    intro h
    have hlt : (⌊x⌋ : K) < n := by
      rw [not_lt] at h
      linarith
    exact Int.cast_lt.mp hlt
  unfold roundHalfEven
  split_ifs with hlt hgt heven
  · exact ⟨hlo, hhi⟩
  · have := hup hlt
    omega
  · exact ⟨hlo, hhi⟩
  · have := hup hlt
    omega

theorem roundHalfAway_mem {x : K} {m n : ℤ} (h0 : 0 ≤ x) (hm : (m : K) ≤ x) (hn : x ≤ n) :
    m ≤ roundHalfAway x ∧ roundHalfAway x ≤ n := by
  by_cases h : x - ⌊x⌋ = 1 / 2 ∧ ⌊x⌋ % 2 = 0
  · have hlo : m ≤ ⌊x⌋ := Int.le_floor.mpr hm
    have hlt : (⌊x⌋ : K) < n := by
      have := h.1
      linarith
    have hhi : ⌊x⌋ < n := Int.cast_lt.mp hlt
    rw [(roundHalfAway_of_floor_even h0 h.1 h.2).1]
    omega
  · rw [roundHalfAway_eq_roundHalfEven h0 h]
    exact roundHalfEven_mem hm hn

omit [IsStrictOrderedRing K] in
theorem roundHalfEven_cases (x : K) :
    roundHalfEven x = ⌊x⌋ ∧ x - ⌊x⌋ ≤ 1 / 2 ∨ roundHalfEven x = ⌊x⌋ + 1 ∧ 1 / 2 ≤ x - ⌊x⌋ := by
  unfold roundHalfEven
  split_ifs with hlt hgt heven
  · exact Or.inl ⟨rfl, hlt.le⟩
  · exact Or.inr ⟨rfl, hgt.le⟩
  · exact Or.inl ⟨rfl, not_lt.mp hgt⟩
  · exact Or.inr ⟨rfl, not_lt.mp hlt⟩

/-- Rounding to even is monotone. -/
theorem roundHalfEven_mono {x y : K} (h : x ≤ y) : roundHalfEven x ≤ roundHalfEven y := by
  have hfloor : ⌊x⌋ ≤ ⌊y⌋ := Int.floor_le_floor h
  rcases hfloor.lt_or_eq with hlt | heq
  · rcases roundHalfEven_cases x with ⟨hx, -⟩ | ⟨hx, -⟩ <;>
      rcases roundHalfEven_cases y with ⟨hy, -⟩ | ⟨hy, -⟩ <;> omega
  · -- the same integer below: the fractional parts decide
    have hfrac : x - ⌊x⌋ ≤ y - ⌊y⌋ := by
      rw [heq]
      linarith
    unfold roundHalfEven
    rw [heq] at hfrac ⊢
    split_ifs <;> first | omega | linarith

/-- More than half-way to `n`, the number is rounded to `n` at least. -/
theorem le_roundHalfEven {x : K} {n : ℤ} (h : (n : K) - 1 / 2 < x) : n ≤ roundHalfEven x := by
  have hup := Int.lt_floor_add_one x
  rcases roundHalfEven_cases x with ⟨hx, hfrac⟩ | ⟨hx, -⟩
  · have hlt : (n : K) < ⌊x⌋ + 1 := by linarith
    have hlt' : n < ⌊x⌋ + 1 := by exact_mod_cast hlt
    omega
  · have hlt : (n : K) < (⌊x⌋ + 1 : ℤ) + 1 := by
      push_cast
      linarith
    have hlt' : n < ⌊x⌋ + 1 + 1 := by exact_mod_cast hlt
    omega

end Infra
