/-
  Subject:   Ladders of thresholds that are climbed again and again.

  Each step of a ladder has a threshold and an amount. A height pays every step that it reaches; what is above
  the top starts at the bottom again.

  * **`Ladder.pays_add_cycles`** -- full climbs may be paid apart from the rest;
  * **`Ladder.pays_mono`** -- a greater height pays no less.
-/
import Mathlib.Algebra.Order.Archimedean.Basic
import Mathlib.Algebra.Order.BigOperators.Group.List

namespace MlmForge

open List

variable {α : Type} [Field α] [LinearOrder α]

/-- Steps with their amounts, up to a top. -/
structure Ladder (α : Type) [Field α] [LinearOrder α] where
  steps : List (α × α)
  top : α
  top_pos : 0 < top
  le_top : ∀ step ∈ steps, step.1 ≤ top
  amount_nonneg : ∀ step ∈ steps, 0 ≤ step.2

namespace Ladder

variable (L : Ladder α)

/-! ## 1. One climb -/

/-- The amounts of the steps that a height reaches. -/
def reached (m : α) : α := ((L.steps.filter fun step => step.1 ≤ m).map Prod.snd).sum

/-- The amounts of all steps. -/
def full : α := (L.steps.map Prod.snd).sum

variable {m : α}

theorem reached_of_top_le (h : L.top ≤ m) : L.reached m = L.full := by
  unfold reached full
  rw [filter_eq_self.mpr fun step hstep => decide_eq_true ((L.le_top step hstep).trans h)]

theorem reached_of_lt (h : ∀ step ∈ L.steps, m < step.1) : L.reached m = 0 := by
  unfold reached
  rw [filter_eq_nil_iff.mpr fun step hstep => by simpa using h step hstep]
  rfl

variable [IsStrictOrderedRing α] {m' : α}

theorem reached_mono (h : m ≤ m') : L.reached m ≤ L.reached m' := by
  refine List.Sublist.sum_le_sum ?_ fun a ha => ?_
  · exact (monotone_filter_right _ fun step hstep => decide_eq_true ((of_decide_eq_true hstep).trans h)).map _
  · obtain ⟨step, hstep, rfl⟩ := mem_map.mp ha
    exact L.amount_nonneg step (mem_of_mem_filter hstep)

theorem reached_nonneg (m : α) : 0 ≤ L.reached m := by
  refine sum_nonneg fun a ha => ?_
  obtain ⟨step, hstep, rfl⟩ := mem_map.mp ha
  exact L.amount_nonneg step (mem_of_mem_filter hstep)

theorem reached_le_full (m : α) : L.reached m ≤ L.full := by
  rw [← L.reached_of_top_le (le_max_right m L.top)]
  exact L.reached_mono (le_max_left m L.top)

theorem full_nonneg : 0 ≤ L.full := (L.reached_nonneg L.top).trans (L.reached_le_full L.top)

/-! ## 2. Climbing again -/

variable [FloorRing α]

/-- How often a height climbs the whole ladder. -/
def cycles (m : α) : ℤ := ⌊m / L.top⌋

/-- What is left of a height after its full climbs. -/
def rest (m : α) : α := m - L.cycles m * L.top

/-- What a height pays. -/
def pays (m : α) : α := L.cycles m * L.full + L.reached (L.rest m)

theorem rest_nonneg (m : α) : 0 ≤ L.rest m := by
  have hfloor := (le_div_iff₀ L.top_pos).mp (Int.floor_le (m / L.top))
  exact sub_nonneg.mpr hfloor

theorem rest_lt_top (m : α) : L.rest m < L.top := by
  have hfloor := (div_lt_iff₀ L.top_pos).mp (Int.lt_floor_add_one (m / L.top))
  unfold rest cycles
  linarith

theorem cycles_eq_zero (h0 : 0 ≤ m) (h : m < L.top) : L.cycles m = 0 :=
  Int.floor_eq_zero_iff.mpr ⟨div_nonneg h0 L.top_pos.le, (div_lt_one L.top_pos).mpr h⟩

theorem pays_of_lt_top (h0 : 0 ≤ m) (h : m < L.top) : L.pays m = L.reached m := by
  unfold pays rest
  rw [L.cycles_eq_zero h0 h, Int.cast_zero, zero_mul, zero_mul, zero_add, sub_zero]

theorem cycles_add_mul (m : α) (k : ℤ) : L.cycles (m + k * L.top) = L.cycles m + k := by
  unfold cycles
  rw [add_div, mul_div_cancel_right₀ _ L.top_pos.ne', Int.floor_add_intCast]

/-- **Full climbs may be paid apart from the rest.** -/
theorem pays_add_cycles (m : α) (k : ℤ) : L.pays (m + k * L.top) = L.pays m + k * L.full := by
  have hcycles := L.cycles_add_mul m k
  have hrest : L.rest (m + k * L.top) = L.rest m := by
    unfold rest
    rw [hcycles]
    push_cast
    ring
  unfold pays
  rw [hcycles, hrest]
  push_cast
  ring

/-- **A greater height pays no less.** -/
theorem pays_mono (h : m ≤ m') : L.pays m ≤ L.pays m' := by
  have hcycles : L.cycles m ≤ L.cycles m' := Int.floor_mono (div_le_div_of_nonneg_right h L.top_pos.le)
  unfold pays
  rcases hcycles.eq_or_lt with heq | hlt
  · have hrest : L.rest m ≤ L.rest m' := by
      unfold rest
      rw [heq]
      linarith
    rw [heq]
    linarith [L.reached_mono hrest]
  · -- one full climb more pays at least what the rest of the lower height reaches
    have hsucc : ((L.cycles m : α) + 1) * L.full ≤ L.cycles m' * L.full :=
      mul_le_mul_of_nonneg_right (by exact_mod_cast hlt) L.full_nonneg
    linarith [L.reached_le_full (L.rest m), L.reached_nonneg (L.rest m')]

end Ladder

end MlmForge
