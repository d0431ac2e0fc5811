/-
  Subject:   Rounding to the nearest integer, and to the even one of two.

  * **`RoundsEven.of_near`** -- rounding twice is rounding once: what is rounded to a fine grid first, and is
    not halfway between two integers then, rounds like the exact number.
-/
import Mathlib.Algebra.Order.Field.Basic
import Mathlib.Tactic.FieldSimp
import Mathlib.Tactic.Linarith
import Mathlib.Tactic.Ring

namespace MlmForge

variable {K : Type} [Field K] [LinearOrder K]

/-- `n` is `x` rounded half to even. -/
def RoundsEven (x : K) (n : ℤ) : Prop := |x - n| < 1 / 2 ∨ (|x - n| = 1 / 2 ∧ Even n)

namespace RoundsEven

variable {x y : K} {m n : ℤ}

theorem le_half (h : RoundsEven x n) : |x - n| ≤ 1 / 2 := by
  rcases h with h | h
  · exact h.le
  · exact h.1.le

theorem neg (h : RoundsEven x n) : RoundsEven (-x) (-n) := by
  have habs : |-x - ((-n : ℤ) : K)| = |x - n| := by rw [Int.cast_neg, neg_sub_neg, abs_sub_comm]
  unfold RoundsEven
  rw [habs, even_neg]
  exact h

variable [IsStrictOrderedRing K]

theorem intCast (n : ℤ) : RoundsEven (n : K) n := .inl (by rw [sub_self, abs_zero]; norm_num)

/-- **There is one integer to round to.** -/
theorem unique (h : RoundsEven x m) (h' : RoundsEven x n) : m = n := by
  have htriangle : |(m : K) - n| ≤ |x - m| + |x - n| := by
    rw [abs_sub_comm x]
    exact abs_sub_le _ _ _
  have hm := h.le_half
  have hn := h'.le_half
  have hle : |m - n| ≤ 1 := by
    have : |(m : K) - n| ≤ 1 := by linarith
    exact_mod_cast this
  by_contra hne
  -- they are one apart, so both are half a unit away, and both would be even
  have hone : |m - n| = 1 := le_antisymm hle (Int.one_le_abs (sub_ne_zero.mpr hne))
  have hcast : |(m : K) - n| = 1 := by exact_mod_cast hone
  have hm' : Even m := (h.resolve_left fun hlt => by linarith).2
  have hn' : Even n := (h'.resolve_left fun hlt => by linarith).2
  have heven : Even |m - n| := even_abs.mpr (hm'.sub hn')
  rw [hone] at heven
  exact absurd heven (by decide)

/-- **Rounding twice is rounding once**: `y` is a point of the grid of step `1 / N` that is nearest to `x`,
    where `N` is even, and is not halfway between two integers. -/
theorem of_near {N : ℤ} (hN : 0 < N) (heven : Even N) (hgrid : ∃ k : ℤ, y * N = k)
    (hnear : |x - y| * N ≤ 1 / 2) (hmid : ∀ k : ℤ, 2 * y ≠ 2 * k + 1) (h : RoundsEven y n) :
    RoundsEven x n := by
  obtain ⟨k, hk⟩ := hgrid
  obtain ⟨half, rfl⟩ := heven
  have hNq : (0 : K) < (half + half : ℤ) := by exact_mod_cast hN
  have hlt : |y - n| < 1 / 2 := by
    refine h.resolve_right fun ⟨hhalf, _⟩ => ?_
    rcases abs_cases (y - n) with ⟨habs, -⟩ | ⟨habs, -⟩
    · exact hmid n (by linarith)
    · refine hmid (n - 1) ?_
      push_cast
      linarith
  -- on the grid, less than half a unit away is at least one step less
  have hstep : |k - n * (half + half)| + 1 ≤ half := by
    have hcast : ((|k - n * (half + half)| : ℤ) : K) < half := by
      push_cast at hk hNq ⊢
      rw [← hk, ← sub_mul, abs_mul, abs_of_pos hNq]
      nlinarith
    have : |k - n * (half + half)| < half := by exact_mod_cast hcast
    omega
  have hfar : |y - n| * (half + half : ℤ) + 1 ≤ half := by
    have hcast : ((|k - n * (half + half)| + 1 : ℤ) : K) ≤ half := by exact_mod_cast hstep
    push_cast at hk hcast hNq ⊢
    rwa [← hk, ← sub_mul, abs_mul, abs_of_pos hNq] at hcast
  refine .inl ?_
  have htriangle : |x - n| ≤ |x - y| + |y - n| := abs_sub_le _ _ _
  push_cast at hfar hnear hNq
  have hscaled : |x - n| * (half + half) < 1 / 2 * (half + half) := by nlinarith
  exact lt_of_mul_lt_mul_right hscaled hNq.le

end RoundsEven

/-- A quotient of natural numbers, rounded half to even. -/
def halfEvenDiv (num den : ℕ) : ℕ :=
  if den < num % den * 2 ∨ (num % den * 2 = den ∧ num / den % 2 = 1) then num / den + 1 else num / den

theorem div_le_halfEvenDiv (num den : ℕ) : num / den ≤ halfEvenDiv num den := by
  unfold halfEvenDiv
  split <;> omega

theorem halfEvenDiv_le (num den : ℕ) : halfEvenDiv num den ≤ num / den + 1 := by
  unfold halfEvenDiv
  split <;> omega

theorem roundsEven_halfEvenDiv [IsStrictOrderedRing K] (num : ℕ) {den : ℕ} (hden : 0 < den) :
    RoundsEven ((num : K) / den) (halfEvenDiv num den : ℕ) := by
  have hq : (0 : K) < den := by exact_mod_cast hden
  have hsplit : (num : K) / den = (num / den : ℕ) + ((num % den : ℕ) : K) / den := by
    have hnum : (num : K) = den * (num / den : ℕ) + (num % den : ℕ) := by
      exact_mod_cast (Nat.div_add_mod num den).symm
    rw [eq_comm, ← mul_right_inj' hq.ne', mul_add, mul_div_cancel₀ _ hq.ne', mul_div_cancel₀ _ hq.ne', hnum]
  have hpart0 : 0 ≤ ((num % den : ℕ) : K) / den := by positivity
  have hpart1 : ((num % den : ℕ) : K) / den < 1 := by
    rw [div_lt_one hq]
    exact_mod_cast Nat.mod_lt num hden
  have hmore : den < num % den * 2 ↔ 1 / 2 < ((num % den : ℕ) : K) / den := by
    rw [lt_div_iff₀ hq, ← Nat.cast_lt (α := K), Nat.cast_mul, Nat.cast_two]
    constructor <;> intro h <;> linarith
  have hhalf : num % den * 2 = den ↔ ((num % den : ℕ) : K) / den = 1 / 2 := by
    rw [div_eq_iff hq.ne', ← Nat.cast_inj (R := K), Nat.cast_mul, Nat.cast_two]
    constructor <;> intro h <;> linarith
  unfold halfEvenDiv
  simp only [hsplit, hmore, hhalf]
  generalize ((num % den : ℕ) : K) / den = part at hpart0 hpart1
  generalize num / den = kept
  split
  · rename_i hup
    have habs : |(kept : K) + part - ((kept + 1 : ℕ) : ℤ)| = 1 - part := by
      push_cast
      rw [add_sub_add_left_eq_sub, abs_sub_comm, abs_of_pos (by linarith)]
    unfold RoundsEven
    rw [habs]
    rcases hup with hup | ⟨hup, hodd⟩
    · exact .inl (by linarith)
    · refine .inr ⟨by linarith, ?_⟩
      rw [Int.even_coe_nat, Nat.even_iff]
      omega
  · rename_i hdown
    rw [not_or, not_lt] at hdown
    have habs : |(kept : K) + part - ((kept : ℕ) : ℤ)| = part := by
      rw [Int.cast_natCast, add_sub_cancel_left, abs_of_nonneg hpart0]
    unfold RoundsEven
    rw [habs]
    rcases hdown.1.lt_or_eq with hlt | heq
    · exact .inl hlt
    · refine .inr ⟨heq, ?_⟩
      have hodd : ¬ kept % 2 = 1 := fun h => hdown.2 ⟨heq, h⟩
      rw [Int.even_coe_nat, Nat.even_iff]
      omega

end MlmForge
