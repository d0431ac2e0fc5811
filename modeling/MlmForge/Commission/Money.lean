/-
  Subject:   The decimal operations of commissions that may round.

  Division and rounding to a number of places are the decimal library's; they are given as `DecimalLib`, and
  what a result relies on is stated where it does. The wide integers of the source (1024 bits) hold every
  number that four decimals can lead to, and are unbounded here.

  * `floorDiv` -- a quotient rounded down; **`floorDiv_value`** -- it is the floor of the exact one.
-/
import Mathlib.Data.List.Sort
import Mathlib.Data.Rat.Floor
import MlmForge.Rank.Decimal

namespace MlmForge.Rank

/-- How a value halfway between two others is rounded. -/
inductive RoundingStrategy where
  | midpointNearestEven
  | midpointAwayFromZero
  deriving DecidableEq

/-- What the decimal library computes. -/
structure DecimalLib where
  checkedDiv : Dec → Dec → Option Dec
  roundDpWithStrategy : Dec → Nat → RoundingStrategy → Dec
  normalize : Dec → Dec

/-- The decimal-place limit of an inexact volume-ratio quotient. -/
def payoutScale : Nat := 13

namespace Dec

variable (lib : DecimalLib)

/-- Equality of decimals is equality of their values. -/
def same (a b : Dec) : Prop := a ≤ b ∧ b ≤ a

instance (a b : Dec) : Decidable (a.same b) := inferInstanceAs (Decidable (a ≤ b ∧ b ≤ a))

/-- `Ord::max`. -/
protected def max (a b : Dec) : Dec := if a ≤ b then b else a

/-- The value rounded to `places` decimal places, ties away from zero. -/
def roundMinor (d : Dec) (places : Nat) : Dec := lib.roundDpWithStrategy d places .midpointAwayFromZero

/-! ## 1. Division -/

/-- The quotient as the library holds it. -/
def divRatio (a b : Dec) : Query NumericError Dec :=
  if b.isZero then .error (.err ⟨.divRatio, a, b, .divisionByZero⟩)
  else
    match lib.checkedDiv a b with
    | some quotient => .ok quotient
    | none => .error (.err ⟨.divRatio, a, b, .overflow⟩)

/-- The rounded quotient, or none when the narrow path cannot decide it. -/
def roundHeldQuotient (product divisor : Dec) : Option Dec := do
  let quotient ← lib.checkedDiv product divisor
  if quotient.scale ≤ payoutScale then some quotient
  else
    let unit := 10 ^ (quotient.scale - payoutScale)
    if (quotient.mantissa.tmod unit).natAbs * 2 = unit then none
    else some (lib.roundDpWithStrategy quotient payoutScale .midpointNearestEven)

/-- One scale that `roundQuotient` tries: the coefficient that is kept when `drop` places are dropped. -/
def keptCoefficient (quotient remainder den drop : Nat) : Option Nat :=
  let unit := 10 ^ drop
  let kept := quotient / unit
  if 2 ^ 96 ≤ kept / 10 then none
  else
    let twiceDropped := ((quotient % unit) * den + remainder) * 2
    let wholeUnit := unit * den
    some (if wholeUnit < twiceDropped ∨ (twiceDropped = wholeUnit ∧ kept % 2 = 1) then kept + 1 else kept)

/-- A magnitude `num / 10 ^ numScale` over `den / 10 ^ denScale`, rounded half to even at the largest scale of
    `maxScale` or below whose coefficient fits. -/
def roundQuotient (negative : Bool) (num : Nat) (numScale : Int) (den : Nat) (denScale : Int) (limit : Nat) :
    Except NumericErrorKind Dec :=
  let shift : Int := limit + denScale - numScale
  let (num, den) := if 0 ≤ shift then (num * 10 ^ shift.toNat, den) else (num, den * 10 ^ (-shift).toNat)
  let quotient := num / den
  let remainder := num % den
  match (List.range (limit + 1)).findSome? fun drop => do
    let kept ← keptCoefficient quotient remainder den drop
    tryFromI128WithScale (if negative then -(kept : Int) else kept) (limit - drop) with
  | some d => .ok d
  | none => .error .overflow

/-- The product of `factors` over `divisor`, in wide integers. -/
def wideMulDivRatio (factors : List Dec) (divisor : Dec) (limit : Nat) : Except NumericErrorKind Dec :=
  let negative : Bool := (factors.filter isNegative).length % 2 = 1
  let num := (factors.map fun f => f.mantissa.natAbs).prod
  let numScale := (factors.map fun f => f.scale).sum
  roundQuotient (negative != divisor.isNegative) num numScale divisor.mantissa.natAbs divisor.scale limit

/-- `a * b * c * d` over `divisor`, with the product held exactly and the quotient rounded once. -/
def mulDivRatio (a b c d divisor : Dec) : Query NumericError Dec :=
  let error := fun kind => Stop.err (NumericError.mk (.mulDivRatio a b divisor) c d kind)
  if divisor.isZero then .error (error .divisionByZero)
  else
    let held : Option Dec := do
      let p ← (a.tryMul b).toOption
      let p ← (p.tryMul c).toOption
      let p ← (p.tryMul d).toOption
      roundHeldQuotient lib p divisor
    match held with
    | some quotient => .ok (lib.normalize quotient)
    | none =>
      match wideMulDivRatio [a, b, c, d] divisor payoutScale with
      | .ok quotient => .ok (lib.normalize quotient)
      | .error kind => .error (error kind)

/-- The numerator and the denominator of a quotient of decimals, as integers. -/
def overCommon (a b : Dec) : Int × Int :=
  if a.scale ≤ b.scale then (a.mantissa * 10 ^ (b.scale - a.scale), b.mantissa)
  else (a.mantissa, b.mantissa * 10 ^ (a.scale - b.scale))

/-- A truncated quotient, less one when the signs differ and something is left over. -/
def roundedDown (num den : Int) : Int :=
  if num.tmod den ≠ 0 ∧ (num < 0 ↔ ¬ den < 0) then num.tdiv den - 1 else num.tdiv den

/-- The quotient, rounded down to an integer. -/
def floorDiv (a b : Dec) : Query NumericError Dec :=
  if b.isZero then .error (.err ⟨.floorDiv, a, b, .divisionByZero⟩)
  else (fit (roundedDown (overCommon a b).1 (overCommon a b).2) 0).mapError fun kind =>
    .err ⟨.floorDiv, a, b, kind⟩

/-! ## 2. Splitting a cap -/

/-- A mantissa brought to a larger scale. -/
def atCommon (common : Nat) (d : Dec) : Int := d.mantissa * 10 ^ (common - d.scale)

/-- Whether the exact sum of `values` is greater than `bound`. -/
def sumExceeds (values : List Dec) (bound : Dec) : Bool :=
  let common := (values.map scale ++ [bound.scale]).foldl Nat.max 0
  atCommon common bound < (values.map (atCommon common)).sum

/-- Which shares get one unit more, by their remainders: the largest first, and of equal ones the first. -/
def remainderOrder (remainders : List Int) : List Nat :=
  (List.range remainders.length).insertionSort fun a b =>
    remainders.getD b 0 < remainders.getD a 0 ∨ (remainders.getD a 0 = remainders.getD b 0 ∧ a ≤ b)

/-- Hands out what is left, one unit each in an order. -/
def handOut : List Nat → Int → List Int → List Int
  | [], _, units => units
  | i :: rest, leftover, units =>
    if leftover = 0 then units else handOut rest (leftover - 1) (units.modify i (· + 1))

/-- Splits `cap` across `shares` in proportion to them, in whole units of `10 ^ -scale`, by largest
    remainder. -/
def allocateLargestRemainder (shares : List Dec) (cap : Dec) (scale : Nat) :
    Query NumericError (List Dec) :=
  let count := (tryFromI128WithScale shares.length 0).getD zero
  let error := fun kind => Stop.err (NumericError.mk (.allocate scale) cap count kind)
  if maxScale < scale then .error (error .precision)
  else if cap.isNegative ∨ shares.any isNegative then .error (error .negative)
  else
    let common := (shares.map Dec.scale ++ [cap.scale, scale]).foldl Nat.max 0
    let total := (shares.map (atCommon common)).sum
    if total = 0 then .error (error .divisionByZero)
    else
      let unit : Int := 10 ^ (common - scale)
      let capInt := atCommon common cap
      if capInt.tmod unit ≠ 0 then .error (error .notWholeUnits)
      else
        let capUnits := capInt.tdiv unit
        let numerators := shares.map fun share => atCommon common share * capUnits
        let units := numerators.map (·.tdiv total)
        let remainders := numerators.map (·.tmod total)
        let units := handOut (remainderOrder remainders) (units.foldl (· - ·) capUnits) units
        units.mapM fun u => (fit u scale).mapError error

/-! ## 3. Values -/

theorem value_max (a b : Dec) : (a.max b).value = Max.max a.value b.value := by
  unfold Dec.max
  split
  · rename_i h
    exact (max_eq_right (le_iff.mp h)).symm
  · rename_i h
    exact (max_eq_left (le_of_not_ge fun hab => h (le_iff.mpr hab))).symm

theorem isZero_iff {d : Dec} : d.isZero = true ↔ d.value = 0 := by
  have hpow : (10 : ℚ) ^ d.scale ≠ 0 := by positivity
  rw [isZero, decide_eq_true_iff, value, div_eq_zero_iff, or_iff_left hpow, Int.cast_eq_zero]

theorem isNegative_iff {d : Dec} : d.isNegative = true ↔ d.value < 0 := by
  have hpow : (0 : ℚ) < 10 ^ d.scale := by positivity
  rw [isNegative, decide_eq_true_iff, value, div_lt_iff₀ hpow, zero_mul, Int.cast_lt_zero]

@[simp] theorem value_one : one.value = 1 := by
  simp [one, whole, value]

theorem atCommon_value {d : Dec} {c : Nat} (h : d.scale ≤ c) : (atCommon c d : ℚ) = d.value * 10 ^ c := by
  obtain ⟨k, hk⟩ := Nat.le.dest h
  unfold atCommon value
  rw [← hk, Nat.add_sub_cancel_left, pow_add]
  push_cast
  field_simp

theorem overCommon_value {a b : Dec} (hb : b.value ≠ 0) :
    (((overCommon a b).1 : Int) : ℚ) / (overCommon a b).2 = a.value / b.value := by
  have hm : (b.mantissa : ℚ) ≠ 0 := by
    intro h
    rw [value, h, zero_div] at hb
    exact hb rfl
  unfold overCommon value
  split
  · rename_i hscale
    obtain ⟨k, hk⟩ := Nat.le.dest hscale
    rw [← hk, Nat.add_sub_cancel_left, pow_add]
    push_cast
    field_simp
  · rename_i hscale
    obtain ⟨k, hk⟩ := Nat.le.dest (Nat.le_of_not_le hscale)
    rw [← hk, Nat.add_sub_cancel_left, pow_add]
    push_cast
    field_simp

theorem roundedDown_eq {n d : Int} (hd : 0 < d) : roundedDown n d = n / d := by
  have hmod : n.tmod d = 0 ↔ d ∣ n := ⟨Int.dvd_of_tmod_eq_zero, Int.tmod_eq_zero_of_dvd⟩
  have hsign : ¬ d < 0 := not_lt.mpr hd.le
  unfold roundedDown
  rw [Int.tdiv_eq_ediv, Int.sign_eq_one_of_pos hd]
  simp only [ne_eq, hmod, hsign, not_false_eq_true, iff_true]
  by_cases hdvd : d ∣ n
  · simp [hdvd]
  · by_cases hn : n < 0
    · simp [hdvd, hn, not_le.mpr hn]
    · simp [hdvd, hn, not_lt.mp hn]

/-- **A quotient rounded down is the floor of the exact one.** -/
theorem floorDiv_value {a b c : Dec} (hb : 0 < b.value) (h : a.floorDiv b = .ok c) :
    c.value = ⌊a.value / b.value⌋ := by
  unfold floorDiv at h
  split at h
  · cases h
  · have hm : 0 < b.mantissa := by
      have hpow : (0 : ℚ) < 10 ^ b.scale := by positivity
      exact_mod_cast (div_pos_iff_of_pos_right hpow).mp hb
    have hden : 0 < (overCommon a b).2 := by
      unfold overCommon
      split
      · exact hm
      · exact mul_pos hm (by positivity)
    obtain ⟨d, hd⟩ := Int.eq_ofNat_of_zero_le hden.le
    have hfloor : ⌊a.value / b.value⌋ = (overCommon a b).1 / (overCommon a b).2 := by
      rw [← overCommon_value hb.ne', hd]
      exact Rat.floor_intCast_div_natCast _ _
    rw [fit_value (mapError_eq_ok.mp h), pow_zero, div_one, roundedDown_eq hden, hfloor]

end Dec

/-! ## 4. A library -/

/-- A magnitude in units, rounded to the nearest. -/
def nearestUnits (strategy : RoundingStrategy) (m unit : Nat) : Nat :=
  let kept := m / unit
  let twice := 2 * (m % unit)
  if unit < twice ∨ (twice = unit ∧ (strategy = .midpointAwayFromZero ∨ kept % 2 = 1)) then kept + 1 else kept

/-- The zeros at the end of a decimal, dropped. -/
def stripped (m : Int) : Nat → Int × Nat
  | 0 => (m, 0)
  | s + 1 => if m.tmod 10 = 0 then stripped (m.tdiv 10) s else (m, s + 1)

/-- What the library documents: quotients are the nearest decimal of at most 28 places, and a value is rounded
    to the nearest one with the given number of places. -/
def documentedLib : DecimalLib where
  checkedDiv a b := (Dec.roundQuotient (a.isNegative != b.isNegative) a.mantissa.natAbs a.scale
    b.mantissa.natAbs b.scale maxScale).toOption
  roundDpWithStrategy d places strategy :=
    if d.scale ≤ places then d
    else
      let units := nearestUnits strategy d.mantissa.natAbs (10 ^ (d.scale - places))
      (Dec.tryFromI128WithScale (if d.isNegative then -(units : Int) else units) places).getD d
  normalize d := (Dec.tryFromI128WithScale (stripped d.mantissa d.scale).1 (stripped d.mantissa d.scale).2).getD d

/-- Rounding to a number of places leaves a value alone that needs no more. -/
def KeepsWholeUnits (lib : DecimalLib) : Prop :=
  ∀ (d : Dec) (places : Nat) (k : Int), d.value = k / 10 ^ places → (d.roundMinor lib places).value = d.value

theorem nearestUnits_of_dvd (strategy : RoundingStrategy) (k unit : Nat) (h : 0 < unit) :
    nearestUnits strategy (k * unit) unit = k := by
  unfold nearestUnits
  simp only [Nat.mul_mod_left, Nat.mul_zero]
  rw [if_neg (by omega), Nat.mul_div_cancel k h]

theorem documentedLib_keepsWholeUnits : KeepsWholeUnits documentedLib := by
  intro d places k hd
  unfold Dec.roundMinor documentedLib
  dsimp only
  split
  · rfl
  · rename_i hscale
    obtain ⟨drop, hdrop⟩ : ∃ drop, d.scale = places + drop := Nat.exists_eq_add_of_le (by omega)
    have hmantissa : d.mantissa = k * 10 ^ drop := by
      have hpow : (10 : ℚ) ^ places ≠ 0 := by positivity
      have hpow' : (10 : ℚ) ^ drop ≠ 0 := by positivity
      rw [Dec.value, hdrop, pow_add] at hd
      field_simp at hd
      rw [mul_comm] at hd
      exact_mod_cast hd
    have habs : d.mantissa.natAbs = k.natAbs * 10 ^ drop := by
      rw [hmantissa, Int.natAbs_mul, Int.natAbs_pow]
      rfl
    have hsign : (if d.isNegative = true then -(k.natAbs : Int) else k.natAbs) = k := by
      have hpos : (0 : Int) < 10 ^ drop := by positivity
      unfold Dec.isNegative
      by_cases hk : k < 0
      · have hneg : d.mantissa < 0 := by
          rw [hmantissa]
          exact mul_neg_of_neg_of_pos hk hpos
        rw [if_pos (decide_eq_true hneg)]
        omega
      · have hnneg : ¬ d.mantissa < 0 := by
          rw [hmantissa, not_lt]
          exact mul_nonneg (not_lt.mp hk) hpos.le
        rw [if_neg (by simpa using hnneg)]
        omega
    have hfits : fits96Bits k = true := by
      have hd96 := d.fits
      unfold fits96Bits at hd96 ⊢
      rw [decide_eq_true_iff] at hd96 ⊢
      rw [habs] at hd96
      exact (Nat.le_mul_of_pos_right _ (by positivity)).trans_lt hd96
    rw [hdrop, Nat.add_sub_cancel_left, habs, nearestUnits_of_dvd _ _ _ (by positivity), hsign]
    unfold Dec.tryFromI128WithScale
    rw [dif_pos ⟨by have := d.short; omega, hfits⟩, hd]
    rfl

end MlmForge.Rank
