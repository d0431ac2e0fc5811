/-
  Subject:   The method of largest remainders, over any finite index set and any ordered field.

  * **`largestRemainder_of_order`** -- one more for the first ones of the order, as many as are left over,
    is that choice.
-/
import Mathlib.Algebra.Order.BigOperators.Ring.Finset
import Mathlib.Algebra.Order.Floor.Ring
import Mathlib.Data.Fintype.BigOperators

namespace MlmForge

open List Finset

variable {ι K : Type} [Field K] [LinearOrder K] [FloorRing K]

/-! ## 1. The method -/

/-- Those that got one more. -/
def raised [Fintype ι] (exact : ι → K) (parts : ι → ℤ) : Finset ι := {i | parts i = ⌊exact i⌋ + 1}

theorem mem_raised [Fintype ι] {exact : ι → K} {parts : ι → ℤ} {i : ι} :
    i ∈ raised exact parts ↔ parts i = ⌊exact i⌋ + 1 := by
  simp [raised]

variable [LinearOrder ι]

/-- The order in which what is left over is handed out: by remainder, and of equal ones the first. -/
def Before (exact : ι → K) (i j : ι) : Prop :=
  Int.fract (exact j) < Int.fract (exact i) ∨ (Int.fract (exact j) = Int.fract (exact i) ∧ i < j)

theorem Before.asymm {exact : ι → K} {i j : ι} (h : Before exact i j) : ¬ Before exact j i := by
  intro h'
  rcases h with h | ⟨heq, h⟩
  · rcases h' with h' | ⟨heq', -⟩
    · exact lt_asymm h h'
    · exact h.ne' heq'
  · rcases h' with h' | ⟨-, h'⟩
    · exact h'.ne' heq
    · exact lt_asymm h h'

variable [Fintype ι]

/-- Whole parts in place of exact ones, by largest remainder. -/
structure LargestRemainder (exact : ι → K) (parts : ι → ℤ) : Prop where
  sum_eq : ((∑ i, parts i : ℤ) : K) = ∑ i, exact i
  near : ∀ i, parts i = ⌊exact i⌋ ∨ parts i = ⌊exact i⌋ + 1
  largest : ∀ i j, parts i = ⌊exact i⌋ + 1 → parts j = ⌊exact j⌋ → Before exact i j

section Parts

variable {exact : ι → K} {parts other : ι → ℤ}

namespace LargestRemainder

theorem not_mem_raised (h : LargestRemainder exact parts) {i : ι} :
    i ∉ raised exact parts ↔ parts i = ⌊exact i⌋ := by
  rw [mem_raised]
  rcases h.near i with hi | hi <;> omega

theorem part_eq (h : LargestRemainder exact parts) (i : ι) :
    parts i = ⌊exact i⌋ + if i ∈ raised exact parts then 1 else 0 := by
  split
  · rename_i hi
    exact mem_raised.mp hi
  · rename_i hi
    rw [add_zero]
    exact h.not_mem_raised.mp hi

variable [IsStrictOrderedRing K]

variable (h : LargestRemainder exact parts)
include h

theorem card_raised : ((raised exact parts).card : K) = ∑ i, Int.fract (exact i) := by
  have hsum := h.sum_eq
  rw [sum_congr rfl fun i _ => h.part_eq i, sum_add_distrib] at hsum
  simp only [sum_ite_mem, univ_inter, sum_const, mul_one,
    nsmul_eq_mul, Int.cast_add, Int.cast_sum, Int.cast_natCast] at hsum
  have hsplit : ∑ i, exact i = ∑ i, (⌊exact i⌋ : K) + ∑ i, Int.fract (exact i) := by
    rw [← sum_add_distrib]
    exact sum_congr rfl fun i _ => (Int.floor_add_fract (exact i)).symm
  rw [hsplit] at hsum
  exact add_left_cancel hsum

/-- **An exact part that is whole is kept.** -/
theorem whole {i : ι} (hi : Int.fract (exact i) = 0) : parts i = ⌊exact i⌋ := by
  rw [← h.not_mem_raised]
  intro hraised
  -- all remainders are then handed out in full, and each of them is less than what it got
  have hrest : ∀ j ∉ raised exact parts, Int.fract (exact j) = 0 := by
    intro j hj
    rcases h.largest i j (mem_raised.mp hraised) (h.not_mem_raised.mp hj) with hlt | ⟨heq, -⟩
    · rw [hi] at hlt
      exact absurd hlt (not_lt.mpr (Int.fract_nonneg _))
    · rw [heq, hi]
  have hsum : ∑ j ∈ raised exact parts, Int.fract (exact j) = ((raised exact parts).card : K) := by
    rw [h.card_raised]
    exact sum_subset (subset_univ _) fun j _ hj => hrest j hj
  have hlt : ∑ j ∈ raised exact parts, Int.fract (exact j) < ∑ j ∈ raised exact parts, 1 :=
    sum_lt_sum_of_nonempty ⟨i, hraised⟩ fun j _ => Int.fract_lt_one _
  rw [hsum, sum_const, nsmul_one] at hlt
  exact lt_irrefl _ hlt

theorem raised_subset (h' : LargestRemainder exact other) : raised exact parts ⊆ raised exact other := by
  by_contra hsub
  obtain ⟨i, hi, hi'⟩ := not_subset.mp hsub
  -- as many are raised on either side, so the other raises one that this one does not
  have hcard : (raised exact other).card = (raised exact parts).card := by
    have := h'.card_raised.trans h.card_raised.symm
    exact_mod_cast this
  obtain ⟨j, hj, hj'⟩ : ∃ j ∈ raised exact other, j ∉ raised exact parts := by
    by_contra hno
    have hle : raised exact other ⊆ raised exact parts := fun j hj => by
      by_contra hj'
      exact hno ⟨j, hj, hj'⟩
    rw [eq_of_subset_of_card_le hle hcard.ge] at hi'
    exact hi' hi
  exact (h.largest i j (mem_raised.mp hi) (h.not_mem_raised.mp hj')).asymm
    (h'.largest j i (mem_raised.mp hj) (h'.not_mem_raised.mp hi'))

/-- **There is at most one choice.** -/
theorem unique (h' : LargestRemainder exact other) : parts = other := by
  have hraised : raised exact parts = raised exact other :=
    Finset.Subset.antisymm (h.raised_subset h') (h'.raised_subset h)
  funext i
  rw [h.part_eq, h'.part_eq, hraised]

end LargestRemainder

/-! ## 2. Handing out what is left over -/

/-- **One more for the first ones of the order**, as many as the remainders add up to. -/
theorem largestRemainder_of_order [IsStrictOrderedRing K] {order : List ι} {k : ℕ} (hnodup : order.Nodup)
    (hall : ∀ i, i ∈ order) (hsorted : order.Pairwise (Before exact))
    (hk : (k : K) = ∑ i, Int.fract (exact i)) :
    LargestRemainder exact fun i => ⌊exact i⌋ + if i ∈ order.take k then 1 else 0 := by
  have hlength : order.length = Fintype.card ι := by
    rw [← toFinset_card_of_nodup hnodup, card_eq_iff_eq_univ, eq_univ_iff_forall]
    exact fun i => mem_toFinset.mpr (hall i)
  have hle : k ≤ order.length := by
    have : (k : K) ≤ (order.length : K) := by
      rw [hk, hlength, ← card_univ, ← nsmul_one, ← sum_const]
      exact Finset.sum_le_sum fun i _ => (Int.fract_lt_one _).le
    exact_mod_cast this
  have hcard : ∑ i, (if i ∈ order.take k then 1 else 0 : ℤ) = k := by
    have hfilter : (univ.filter fun i => i ∈ order.take k) = (order.take k).toFinset := by
      ext i
      simp
    rw [sum_ite, sum_const_zero, add_zero, sum_const, hfilter,
      toFinset_card_of_nodup ((take_sublist _ _).nodup hnodup), length_take, min_eq_left hle, nsmul_one]
  refine ⟨?_, fun i => ?_, fun i j hi hj => ?_⟩
  · rw [sum_add_distrib, hcard, Int.cast_add, Int.cast_natCast, hk, Int.cast_sum, ← sum_add_distrib]
    exact sum_congr rfl fun i _ => Int.floor_add_fract (exact i)
  · by_cases hi : i ∈ order.take k
    · exact .inr (by rw [if_pos hi])
    · exact .inl (by rw [if_neg hi, add_zero])
  · have hi' : i ∈ order.take k := by
      by_contra hno
      rw [if_neg hno] at hi
      omega
    have hj' : j ∈ order.drop k := by
      have hmem := hall j
      rw [← take_append_drop k order, mem_append] at hmem
      refine hmem.resolve_left fun hyes => ?_
      rw [if_pos hyes] at hj
      omega
    rw [← take_append_drop k order] at hsorted
    exact (pairwise_append.mp hsorted).2.2 i hi' j hj'

end Parts

end MlmForge
