/-
  Subject:   Numbered intervals that tile the integers.

  * **`Tiling.le_index_iff`** -- an interval is at or after another exactly when its numbers are at or after
    the other's start; everything else follows from it.
-/
import Mathlib.Order.SuccPred.IntervalSucc
import Mathlib.Tactic.Linarith

namespace MlmForge

/-- Consecutive intervals, each named by its number. -/
structure Tiling where
  start : ℤ → ℤ
  index : ℤ → ℤ
  rises : ∀ k, start k < start (k + 1)
  start_le : ∀ n, start (index n) ≤ n
  lt_next : ∀ n, n < start (index n + 1)

namespace Tiling

variable (T : Tiling) {k j n m : ℤ}

theorem start_lt (h : k < j) : T.start k < T.start j := strictMono_int_of_lt_succ T.rises h

theorem start_mono (h : k ≤ j) : T.start k ≤ T.start j := (strictMono_int_of_lt_succ T.rises).monotone h

/-- **Where a number lies**, against the start of an interval. -/
theorem le_index_iff : k ≤ T.index n ↔ T.start k ≤ n := by
  constructor
  · exact fun h => (T.start_mono h).trans (T.start_le n)
  · intro h
    by_contra hlt
    have hnext := T.start_mono (show T.index n + 1 ≤ k by omega)
    exact absurd (T.lt_next n) (not_lt.mpr (hnext.trans h))

theorem index_lt_iff : T.index n < k ↔ n < T.start k := by
  rw [← not_le, T.le_index_iff, not_le]

theorem index_eq_iff : T.index n = k ↔ T.start k ≤ n ∧ n < T.start (k + 1) := by
  rw [← T.le_index_iff, ← T.index_lt_iff]
  omega

@[simp] theorem index_start (k : ℤ) : T.index (T.start k) = k := T.index_eq_iff.mpr ⟨le_refl _, T.rises k⟩

theorem index_mono (h : n ≤ m) : T.index n ≤ T.index m :=
  T.le_index_iff.mpr ((T.start_le n).trans h)

theorem sub_le_start (h : k ≤ j) : j - k ≤ T.start j - T.start k := by
  induction j, h using Int.leInduction with
  | base => omega
  | succ j _ ih =>
    have hrises := T.rises j
    omega

theorem not_between (k j : ℤ) : ¬ (T.start k < T.start j ∧ T.start j < T.start (k + 1)) := by
  intro h
  have hk := T.index_lt_iff.mpr h.1
  have hj := T.index_lt_iff.mpr h.2
  rw [T.index_start] at hk hj
  omega

/-- The intervals that meet a range are those from its first number's to its last number's. -/
theorem meets_iff (h : n ≤ m) : (∃ x, n ≤ x ∧ x ≤ m ∧ T.index x = k) ↔ T.index n ≤ k ∧ k ≤ T.index m := by
  constructor
  · intro hx
    obtain ⟨x, hn, hm, rfl⟩ := hx
    exact ⟨T.index_mono hn, T.index_mono hm⟩
  · intro hk
    by_cases hstart : n ≤ T.start k
    · exact ⟨T.start k, hstart, T.le_index_iff.mp hk.2, T.index_start k⟩
    · -- the interval starts before the range, so it is the first one
      refine ⟨n, le_refl n, h, le_antisymm hk.1 ?_⟩
      exact T.le_index_iff.mpr (not_le.mp hstart).le

/-- Each `c` intervals together. -/
def coarser (c : ℤ) (hc : 0 < c) : Tiling where
  start k := T.start (c * k)
  index n := T.index n / c
  rises k := T.start_lt (by rw [mul_add]; linarith)
  start_le n := T.le_index_iff.mp (Int.mul_ediv_self_le hc.ne')
  lt_next n := by
    rw [← T.index_lt_iff, mul_add, mul_one]
    have hdiv := Int.lt_mul_ediv_self_add hc (x := T.index n)
    exact hdiv

/-- Intervals of `c` numbers, from a first one on. -/
def even (first c : ℤ) (hc : 0 < c) : Tiling where
  start k := first + c * k
  index n := (n - first) / c
  rises k := by
    rw [mul_add]
    linarith
  start_le n := by
    have hdiv := Int.mul_ediv_self_le hc.ne' (x := n - first)
    linarith
  lt_next n := by
    have hdiv := Int.lt_mul_ediv_self_add hc (x := n - first)
    rw [mul_add]
    linarith

end Tiling

end MlmForge
