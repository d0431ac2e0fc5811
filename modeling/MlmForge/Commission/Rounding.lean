/-
  Subject:   A product over a decimal is rounded once.

  * **`roundQuotient_spec`** -- the wide path finds it;
  * **`roundHeldQuotient_spec`** -- the narrow path rounds a quotient that is rounded already, and finds it
    too: it does not decide a quotient that is halfway between two results;
  * `wideMulDivRatioIn1024Bits` -- the wide path with every integer held to 1024 bits, and
    **`wideMulDivRatioIn1024Bits_eq`**: none of them is out of range;
  * **`ratio_rounds_once`** -- what the whole operation returns, on either path.
-/
import Mathlib.Algebra.BigOperators.Ring.Finset
import Mathlib.Tactic.LinearCombination
import MlmForge.Basis.HalfEven
import MlmForge.Basis.Wide
import MlmForge.Commission.Money
import MlmForge.Rank.Exactness

namespace MlmForge.Rank

open Query List Wide

/-! ## 1. Rounding once -/

/-- `m` at scale `s` is `q`, rounded half to even at the largest scale whose coefficient fits. -/
structure RoundedOnce (limit : Nat) (q : ℚ) (s : Nat) (m : ℤ) : Prop where
  short : s ≤ limit
  nearest : RoundsEven (q * 10 ^ s) m
  fits : |m| < 2 ^ 96
  largest : ∀ s' m', s < s' → s' ≤ limit → RoundsEven (q * 10 ^ s') m' → 2 ^ 96 ≤ |m'|

/-- No scale has a coefficient that fits. -/
def NoScaleFits (limit : Nat) (q : ℚ) : Prop :=
  ∀ s m, s ≤ limit → RoundsEven (q * 10 ^ s) m → 2 ^ 96 ≤ |m|

theorem RoundedOnce.unique {limit s s' : Nat} {q : ℚ} {m m' : ℤ} (h : RoundedOnce limit q s m)
    (h' : RoundedOnce limit q s' m') : s = s' ∧ m = m' := by
  rcases lt_trichotomy s s' with hlt | rfl | hlt
  · exact absurd h'.fits (not_lt.mpr (h.largest s' m' hlt h'.short h'.nearest))
  · exact ⟨rfl, h.nearest.unique h'.nearest⟩
  · exact absurd h.fits (not_lt.mpr (h'.largest s m hlt h.short h.nearest))

/-- What the library documents of its rounding: a quotient is rounded half to even at the largest scale of 28
    or below that fits, a value is rounded half to even to a number of places, and zeros at the end can be
    dropped. In which of several ways a value is written is left open. -/
structure DecimalLib.Rounds (lib : DecimalLib) : Prop where
  checkedDiv : ∀ {a b d : Dec}, b.value ≠ 0 → lib.checkedDiv a b = some d →
    ∃ s m, RoundedOnce maxScale (a.value / b.value) s m ∧ d.value = m / 10 ^ s
  roundDp : ∀ (d : Dec) (places : Nat), ∃ m : ℤ, RoundsEven (d.value * 10 ^ places) m ∧
    (lib.roundDpWithStrategy d places .midpointNearestEven).value = m / 10 ^ places
  normalize : ∀ d : Dec, (lib.normalize d).value = d.value

namespace Dec

/-! ## 2. The wide path -/

/-- A magnitude with a sign. -/
def withSign (negative : Bool) (x : ℚ) : ℚ := if negative then -x else x

theorem withSign_mul (b c : Bool) (x y : ℚ) : withSign b x * withSign c y = withSign (b != c) (x * y) := by
  cases b <;> cases c <;> simp [withSign]

theorem withSign_div (b c : Bool) (x y : ℚ) : withSign b x / withSign c y = withSign (b != c) (x / y) := by
  cases b <;> cases c <;> simp [withSign, neg_div, div_neg]

theorem roundsEven_withSign (b : Bool) {x : ℚ} {n : Nat} (h : RoundsEven x n) :
    RoundsEven (withSign b x) (if b then -(n : ℤ) else n) := by
  cases b with
  | false => exact h
  | true => exact h.neg

theorem natAbs_signed (b : Bool) (n : Nat) : (if b then -(n : ℤ) else n).natAbs = n := by
  cases b <;> simp

theorem withSign_scale (b : Bool) (x y : ℚ) : withSign b x * y = withSign b (x * y) := by
  cases b <;> simp [withSign]

theorem value_eq_withSign (d : Dec) :
    d.value = withSign d.isNegative ((d.mantissa.natAbs : ℚ) / 10 ^ d.scale) := by
  unfold value isNegative withSign
  rw [Nat.cast_natAbs, Int.cast_abs]
  by_cases hneg : d.mantissa < 0
  · rw [if_pos (decide_eq_true hneg), abs_of_neg (by exact_mod_cast hneg), neg_div, neg_neg]
  · rw [if_neg (by simpa using hneg), abs_of_nonneg (by exact_mod_cast not_lt.mp hneg)]

section WidePath

variable {num den limit drop : Nat} {negative : Bool} {q : ℚ}

theorem keptCoefficient_eq : keptCoefficient (num / den) (num % den) den drop =
    if 2 ^ 96 ≤ num / (den * 10 ^ drop) / 10 then none else some (halfEvenDiv num (den * 10 ^ drop)) := by
  have hmod : num / den % 10 ^ drop * den + num % den = num % (den * 10 ^ drop) := by
    rw [Nat.mod_mul, Nat.mul_comm den, Nat.add_comm]
  simp only [keptCoefficient, halfEvenDiv, Nat.div_div_eq_div_mul, hmod, Nat.mul_comm (10 ^ drop) den]

/-- What one round of the loop tries. -/
def tryDrop (negative : Bool) (quotient remainder den limit drop : Nat) : Option Dec := do
  let kept ← keptCoefficient quotient remainder den drop
  tryFromI128WithScale (if negative then -(kept : Int) else kept) (limit - drop)

theorem tryDrop_cases (hden : 0 < den) (hlimit : limit ≤ maxScale) (hdrop : drop ≤ limit)
    (hq : q * 10 ^ limit = withSign negative ((num : ℚ) / den)) :
    (∃ d, tryDrop negative (num / den) (num % den) den limit drop = some d ∧ d.scale = limit - drop ∧
        RoundsEven (q * 10 ^ (limit - drop)) d.mantissa) ∨
      (tryDrop negative (num / den) (num % den) den limit drop = none ∧
        ∀ m, RoundsEven (q * 10 ^ (limit - drop)) m → 2 ^ 96 ≤ |m|) := by
  have hunit : 0 < den * 10 ^ drop := by positivity
  have hx : q * 10 ^ (limit - drop) = withSign negative ((num : ℚ) / (den * 10 ^ drop : ℕ)) := by
    obtain ⟨k, rfl⟩ := Nat.exists_eq_add_of_le hdrop
    have hpow : (10 : ℚ) ^ drop ≠ 0 := by positivity
    have hscale : q * 10 ^ k = q * 10 ^ (drop + k) * (10 ^ drop)⁻¹ := by
      rw [pow_add]
      field_simp
    rw [Nat.add_sub_cancel_left, hscale, hq, withSign_scale, ← div_eq_mul_inv, div_div, Nat.cast_mul,
      Nat.cast_pow, Nat.cast_ofNat]
  have hround := roundsEven_withSign negative (roundsEven_halfEvenDiv (K := ℚ) num hunit)
  rw [← hx] at hround
  have habs := natAbs_signed negative (halfEvenDiv num (den * 10 ^ drop))
  by_cases hfits : halfEvenDiv num (den * 10 ^ drop) < 2 ^ 96
  · have hkeep : ¬ 2 ^ 96 ≤ num / (den * 10 ^ drop) / 10 := by
      have := div_le_halfEvenDiv num (den * 10 ^ drop)
      omega
    have hbits : fits96Bits (if negative then -(halfEvenDiv num (den * 10 ^ drop) : ℤ)
        else halfEvenDiv num (den * 10 ^ drop)) = true := by
      unfold fits96Bits
      rw [habs]
      exact decide_eq_true hfits
    refine .inl ⟨⟨_, limit - drop, hbits, by omega⟩, ?_, rfl, hround⟩
    unfold tryDrop
    rw [keptCoefficient_eq, if_neg hkeep]
    exact dif_pos ⟨by omega, hbits⟩
  · refine .inr ⟨?_, fun m hm => ?_⟩
    · unfold tryDrop
      rw [keptCoefficient_eq]
      split
      · rfl
      · refine dif_neg fun h => hfits ?_
        have := h.2
        unfold fits96Bits at this
        rwa [habs, decide_eq_true_iff] at this
    · rw [hm.unique hround, Int.abs_eq_natAbs, habs]
      omega

theorem findSome?_range {α : Type} (f : Nat → Option α) (n : Nat) :
    (∃ i a, i < n ∧ f i = some a ∧ (∀ j < i, f j = none) ∧ (range n).findSome? f = some a) ∨
      ((∀ i < n, f i = none) ∧ (range n).findSome? f = none) := by
  induction n with
  | zero => exact .inr ⟨by omega, rfl⟩
  | succ n ih =>
    rw [range_succ, findSome?_append]
    rcases ih with ⟨i, a, hi, hf, hbefore, hfind⟩ | ⟨hnone, hfind⟩
    · exact .inl ⟨i, a, by omega, hf, hbefore, by rw [hfind]; rfl⟩
    · rw [hfind]
      cases hn : f n with
      | some a => exact .inl ⟨n, a, by omega, hn, hnone, by simp [hn]⟩
      | none =>
        refine .inr ⟨fun i hi => ?_, by simp [hn]⟩
        rcases Nat.lt_succ_iff_lt_or_eq.mp hi with hlt | rfl
        · exact hnone i hlt
        · exact hn

theorem roundQuotient_eq (negative : Bool) (num numScale denScale limit : Nat) (hden : 0 < den) :
    ∃ num' den' : Nat, 0 < den' ∧
      (num' : ℚ) / den' = (num : ℚ) / 10 ^ numScale / (den / 10 ^ denScale) * 10 ^ limit ∧
      roundQuotient negative num numScale den denScale limit =
        match (range (limit + 1)).findSome? (tryDrop negative (num' / den') (num' % den') den' limit) with
        | some d => .ok d
        | none => .error .overflow := by
  have hq : (den : ℚ) ≠ 0 := by exact_mod_cast hden.ne'
  unfold roundQuotient
  by_cases hshift : 0 ≤ (limit : Int) + denScale - numScale
  · obtain ⟨j, hj⟩ := Int.eq_ofNat_of_zero_le hshift
    have hpow : (10 : ℚ) ^ limit * 10 ^ denScale = 10 ^ numScale * 10 ^ j := by
      rw [← pow_add, ← pow_add]
      congr 1
      omega
    refine ⟨num * 10 ^ j, den, hden, ?_, ?_⟩
    · push_cast
      field_simp
      linear_combination (num : ℚ) * hpow.symm
    · simp only [hj, Int.toNat_natCast]
      rfl
  · obtain ⟨j, hj⟩ : ∃ j : Nat, -((limit : Int) + denScale - numScale) = j :=
      Int.eq_ofNat_of_zero_le (by omega)
    have hpow : (10 : ℚ) ^ numScale = 10 ^ limit * 10 ^ denScale * 10 ^ j := by
      rw [← pow_add, ← pow_add]
      congr 1
      omega
    refine ⟨num, den * 10 ^ j, by positivity, ?_, ?_⟩
    · push_cast
      rw [hpow]
      field_simp
    · simp only [if_neg hshift, hj, Int.toNat_natCast]
      rfl

/-- **The wide path rounds once**, at the largest scale that fits. -/
theorem roundQuotient_spec {numScale denScale : Nat} (hden : 0 < den) (hlimit : limit ≤ maxScale)
    (hq : q = withSign negative ((num : ℚ) / 10 ^ numScale / (den / 10 ^ denScale))) :
    (∃ d, roundQuotient negative num numScale den denScale limit = .ok d ∧
        RoundedOnce limit q d.scale d.mantissa) ∨
      (roundQuotient negative num numScale den denScale limit = .error .overflow ∧ NoScaleFits limit q) := by
  obtain ⟨num', den', hden', hvalue, hrun⟩ := roundQuotient_eq negative num numScale denScale limit hden
  have hq' : q * 10 ^ limit = withSign negative ((num' : ℚ) / den') := by
    rw [hq, hvalue, withSign_scale]
  have htry := fun (drop : Nat) (hdrop : drop ≤ limit) => tryDrop_cases hden' hlimit hdrop hq'
  rw [hrun]
  rcases findSome?_range (tryDrop negative (num' / den') (num' % den') den' limit) (limit + 1) with
    ⟨drop, d, hdrop, hd, hbefore, hfind⟩ | ⟨hnone, hfind⟩
  · refine .inl ⟨d, by rw [hfind], ?_⟩
    rcases htry drop (by omega) with ⟨d', hd', hscale, hround⟩ | ⟨hno, -⟩
    · rw [hd] at hd'
      cases hd'
      refine ⟨by omega, by rw [hscale]; exact hround, fits96Bits_iff.mp d.fits, fun s' m' hs hs' hm' => ?_⟩
      -- a larger scale is one that was tried before
      rcases htry (limit - s') (by omega) with ⟨d', hd', -⟩ | ⟨-, hbig⟩
      · rw [hbefore (limit - s') (by omega)] at hd'
        cases hd'
      · refine hbig m' ?_
        rwa [Nat.sub_sub_self hs']
    · rw [hno] at hd
      cases hd
  · refine .inr ⟨by rw [hfind], fun s m hs hm => ?_⟩
    rcases htry (limit - s) (by omega) with ⟨d', hd', -⟩ | ⟨-, hbig⟩
    · rw [hnone (limit - s) (by omega)] at hd'
      cases hd'
    · refine hbig m ?_
      rwa [Nat.sub_sub_self hs]

theorem prod_eq_withSign (factors : List Dec) :
    (factors.map value).prod = withSign (decide ((factors.filter isNegative).length % 2 = 1))
      (((factors.map fun f => f.mantissa.natAbs).prod : ℕ) / 10 ^ (factors.map fun f => f.scale).sum) := by
  induction factors with
  | nil => simp [withSign]
  | cons f factors ih =>
    have hparity : decide (((f :: factors).filter isNegative).length % 2 = 1) =
        (f.isNegative != decide ((factors.filter isNegative).length % 2 = 1)) := by
      rw [filter_cons]
      cases f.isNegative with
      | false => simp
      | true =>
        rw [if_pos rfl, length_cons]
        by_cases hodd : (factors.filter isNegative).length % 2 = 1
        · rw [decide_eq_false (by omega), decide_eq_true hodd]
          rfl
        · rw [decide_eq_true (by omega), decide_eq_false hodd]
          rfl
    simp only [map_cons, prod_cons, sum_cons]
    rw [ih, value_eq_withSign f, withSign_mul, hparity, pow_add, Nat.cast_mul, div_mul_div_comm]

theorem wideMulDivRatio_eq (factors : List Dec) (divisor : Dec) (limit : Nat) :
    wideMulDivRatio factors divisor limit =
      roundQuotient (decide ((factors.filter isNegative).length % 2 = 1) != divisor.isNegative)
        (factors.map fun f => f.mantissa.natAbs).prod ((factors.map fun f => f.scale).sum : Nat)
        divisor.mantissa.natAbs divisor.scale limit := by
  rw [Nat.cast_list_sum, map_map]
  rfl

theorem natAbs_mantissa_pos {d : Dec} (hd : d.value ≠ 0) : 0 < d.mantissa.natAbs := by
  rw [Int.natAbs_pos]
  intro hzero
  rw [value, hzero, Int.cast_zero, zero_div] at hd
  exact hd rfl

/-- **The product of some decimals over another one, on the wide path.** -/
theorem wideMulDivRatio_spec (factors : List Dec) {divisor : Dec} (hdivisor : divisor.value ≠ 0)
    (hlimit : limit ≤ maxScale) : (∃ d, wideMulDivRatio factors divisor limit = .ok d ∧
        RoundedOnce limit ((factors.map value).prod / divisor.value) d.scale d.mantissa) ∨
      (wideMulDivRatio factors divisor limit = .error .overflow ∧
        NoScaleFits limit ((factors.map value).prod / divisor.value)) := by
  have hq := withSign_div (decide ((factors.filter isNegative).length % 2 = 1)) divisor.isNegative
    (((factors.map fun f => f.mantissa.natAbs).prod : ℕ) / 10 ^ (factors.map fun f => f.scale).sum)
    ((divisor.mantissa.natAbs : ℚ) / 10 ^ divisor.scale)
  rw [← prod_eq_withSign, ← value_eq_withSign] at hq
  rw [wideMulDivRatio_eq]
  exact roundQuotient_spec (natAbs_mantissa_pos hdivisor) hlimit hq

end WidePath

/-! ## 3. The narrow path -/

theorem half_remains {M k unit : ℤ} (hunit : 0 < unit) (heven : 2 ∣ unit)
    (h : 2 * M = (2 * k + 1) * unit) : ((M.tmod unit).natAbs : ℤ) * 2 = unit := by
  obtain ⟨half, rfl⟩ := heven
  obtain ⟨n, rfl⟩ := Int.eq_ofNat_of_zero_le (show 0 ≤ half by omega)
  have habs : 2 * M.natAbs = (2 * k + 1).natAbs * (2 * n) := by
    have := congrArg Int.natAbs h
    rwa [Int.natAbs_mul, Int.natAbs_mul, Int.natAbs_mul, Int.natAbs_natCast] at this
  obtain ⟨t, ht⟩ : ∃ t, (2 * k + 1).natAbs = 2 * t + 1 := ⟨(2 * k + 1).natAbs / 2, by omega⟩
  have hM : M.natAbs = n + t * (2 * n) := by
    rw [ht] at habs
    linarith
  have hmod : (M.tmod (2 * n)).natAbs = n := by
    rw [Int.natAbs_tmod, Int.natAbs_mul, Int.natAbs_natCast, hM]
    show (n + t * (2 * n)) % (2 * n) = n
    rw [Nat.add_mul_mod_self_right, Nat.mod_eq_of_lt (by omega)]
  rw [hmod, Int.mul_comm]

section NarrowPath

variable {lib : DecimalLib} {product divisor r : Dec}

/-- What the narrow path does with the library's quotient: it is rounded to 13 places, and is not halfway
    between two of them. -/
theorem roundHeldQuotient_cases (hlib : lib.Rounds) (h : roundHeldQuotient lib product divisor = some r) :
    ∃ quotient n, lib.checkedDiv product divisor = some quotient ∧
      RoundsEven (quotient.value * 10 ^ payoutScale) n ∧ r.value = n / 10 ^ payoutScale ∧
      ∀ k : ℤ, 2 * (quotient.value * 10 ^ payoutScale) ≠ 2 * k + 1 := by
  unfold roundHeldQuotient at h
  obtain ⟨quotient, hquotient, h⟩ := Option.bind_eq_some_iff.mp h
  refine ⟨quotient, ?_⟩
  split at h
  · rename_i hscale
    obtain rfl : quotient = r := Option.some.inj h
    -- a multiple of the last place
    have hvalue := atCommon_value hscale
    rw [← hvalue]
    refine ⟨atCommon payoutScale quotient, hquotient, RoundsEven.intCast _, ?_, fun k hk => ?_⟩
    · rw [hvalue, mul_div_cancel_right₀ _ (by positivity)]
    · have : 2 * atCommon payoutScale quotient = 2 * k + 1 := by exact_mod_cast hk
      omega
  · rename_i hscale
    dsimp only at h
    split at h
    · cases h
    · rename_i htie
      cases h
      obtain ⟨n, hn, hvalue⟩ := hlib.roundDp quotient payoutScale
      refine ⟨n, hquotient, hn, hvalue, fun k hk => htie (half_remains (k := k) (by positivity) ?_ ?_)⟩
      · exact Dvd.dvd.trans (by norm_num) (dvd_pow_self 10 (by omega))
      · obtain ⟨j, hj⟩ := Nat.exists_eq_add_of_le (not_le.mp hscale).le
        have hpow : (10 : ℚ) ^ payoutScale ≠ 0 := by positivity
        have hpow' : (10 : ℚ) ^ j ≠ 0 := by positivity
        rw [value, hj, pow_add] at hk
        rw [hj, Nat.add_sub_cancel_left]
        field_simp at hk
        rw [mul_comm ((10 : ℚ) ^ j)] at hk
        exact_mod_cast hk

/-- **The narrow path rounds once**: the library's quotient is rounded already, but at a scale so much finer,
    or no finer, that its rounding and the exact quotient's are one. -/
theorem roundHeldQuotient_spec (hlib : lib.Rounds) (hdivisor : divisor.value ≠ 0)
    (h : roundHeldQuotient lib product divisor = some r) :
    ∃ s m, RoundedOnce payoutScale (product.value / divisor.value) s m ∧ r.value = m / 10 ^ s := by
  obtain ⟨quotient, n, hquotient, hn, hr, hmid⟩ := roundHeldQuotient_cases hlib h
  obtain ⟨s, m, hround, hvalue⟩ := hlib.checkedDiv hdivisor hquotient
  rw [hvalue] at hn hmid
  generalize product.value / divisor.value = q at hround
  rcases le_or_gt s payoutScale with hs | hs
  · -- no larger scale fits, so the library has rounded at the scale of the result
    refine ⟨s, m, ⟨hs, hround.nearest, hround.fits, fun s' m' hlt hle => ?_⟩, ?_⟩
    · exact hround.largest s' m' hlt (hle.trans (by decide))
    · obtain ⟨j, hj⟩ := Nat.exists_eq_add_of_le hs
      have hwhole : (m : ℚ) / 10 ^ s * 10 ^ payoutScale = (m * 10 ^ j : ℤ) := by
        rw [hj, pow_add]
        push_cast
        field_simp
      rw [hwhole] at hn
      rw [hr, hn.unique (RoundsEven.intCast _), ← hwhole, mul_div_cancel_right₀ _ (by positivity)]
  · obtain ⟨j, hj⟩ := Nat.exists_eq_add_of_le hs.le
    have hj0 : j ≠ 0 := by omega
    have hpow : (0 : ℚ) < (10 ^ j : ℤ) := by positivity
    have hgrid : (m : ℚ) / 10 ^ s * 10 ^ payoutScale * (10 ^ j : ℤ) = m := by
      rw [hj, pow_add]
      push_cast
      field_simp
    have hnear : |q * 10 ^ payoutScale - m / 10 ^ s * 10 ^ payoutScale| * (10 ^ j : ℤ) ≤ 1 / 2 := by
      have hscaled : (q * 10 ^ payoutScale - m / 10 ^ s * 10 ^ payoutScale) * (10 ^ j : ℤ) =
          q * 10 ^ s - m := by
        rw [sub_mul, hgrid, hj, pow_add]
        push_cast
        ring
      have hle := hround.nearest.le_half
      rwa [← hscaled, abs_mul, abs_of_pos hpow] at hle
    have heven : Even ((10 : ℤ) ^ j) := (by decide : Even (10 : ℤ)).pow_of_ne_zero hj0
    refine ⟨payoutScale, n, ⟨le_refl _, ?_, ?_, fun s' m' hlt hle => by omega⟩, hr⟩
    · exact RoundsEven.of_near (by positivity) heven ⟨m, hgrid⟩ hnear hmid hn
    · -- the coefficient has lost at least one place
      have hten : (10 : ℚ) ≤ (10 ^ j : ℤ) := by exact_mod_cast Nat.le_self_pow hj0 10
      have hm : |(m : ℚ)| < 2 ^ 96 := by exact_mod_cast hround.fits
      have hy : |(m : ℚ) / 10 ^ s * 10 ^ payoutScale| * 10 ≤ |(m : ℚ)| := by
        have habs := congrArg abs hgrid
        rw [abs_mul, abs_of_pos hpow] at habs
        rw [← habs]
        exact mul_le_mul_of_nonneg_left hten (abs_nonneg _)
      have hnq : |(n : ℚ)| ≤ 1 / 2 + |(m : ℚ) / 10 ^ s * 10 ^ payoutScale| := by
        have := abs_sub_abs_le_abs_sub (n : ℚ) ((m : ℚ) / 10 ^ s * 10 ^ payoutScale)
        rw [abs_sub_comm] at this
        linarith [hn.le_half]
      have : |(n : ℚ)| < 2 ^ 96 := by linarith
      exact_mod_cast this

end NarrowPath

/-! ## 4. In 1024 bits -/

/-- `keptCoefficient`, with its integers held to 1024 bits. -/
def keptCoefficientIn1024Bits (quotient remainder den drop : Nat) : Query NumericErrorKind (Option Nat) := do
  let unit ← Wide.unsigned 1024 (10 ^ drop)
  let kept := quotient / unit
  if 2 ^ 96 ≤ kept / 10 then .ok none
  else
    let dropped ← Wide.unsigned 1024 ((quotient % unit) * den)
    let dropped ← Wide.unsigned 1024 (dropped + remainder)
    let twiceDropped ← Wide.unsigned 1024 (dropped * 2)
    let wholeUnit ← Wide.unsigned 1024 (unit * den)
    if wholeUnit < twiceDropped ∨ (twiceDropped = wholeUnit ∧ kept % 2 = 1) then
      let kept ← Wide.unsigned 1024 (kept + 1)
      .ok (some kept)
    else .ok (some kept)

/-- The loop of `roundQuotient` over the places to drop. -/
def tryDropsIn1024Bits (negative : Bool) (quotient remainder den limit : Nat) :
    List Nat → Query NumericErrorKind Dec
  | [] => .error (.err .overflow)
  | drop :: rest => do
      let kept ← keptCoefficientIn1024Bits quotient remainder den drop
      match kept.bind fun kept => tryFromI128WithScale (if negative then -(kept : Int) else kept) (limit - drop) with
      | some d => .ok d
      | none => tryDropsIn1024Bits negative quotient remainder den limit rest

/-- `roundQuotient`, with its integers held to 1024 bits. -/
def roundQuotientIn1024Bits (negative : Bool) (num : Nat) (numScale : Int) (den : Nat) (denScale : Int)
    (limit : Nat) : Query NumericErrorKind Dec := do
  let shift : Int := limit + denScale - numScale
  let (num, den) ← (if 0 ≤ shift then do
      let power ← Wide.unsigned 1024 (10 ^ shift.toNat)
      let num ← Wide.unsigned 1024 (num * power)
      pure (num, den)
    else do
      let power ← Wide.unsigned 1024 (10 ^ (-shift).toNat)
      let den ← Wide.unsigned 1024 (den * power)
      pure (num, den))
  tryDropsIn1024Bits negative (num / den) (num % den) den limit (range (limit + 1))

/-- `wideMulDivRatio`, with its integers held to 1024 bits. -/
def wideMulDivRatioIn1024Bits (factors : List Dec) (divisor : Dec) (limit : Nat) :
    Query NumericErrorKind Dec := do
  let negative : Bool := (factors.filter isNegative).length % 2 = 1
  let num ← factors.foldlM (fun num f => Wide.unsigned 1024 (num * f.mantissa.natAbs)) 1
  let numScale := (factors.map fun f => f.scale).sum
  roundQuotientIn1024Bits (negative != divisor.isNegative) num numScale divisor.mantissa.natAbs divisor.scale limit

section Bits

theorem power_le (j : Nat) : 10 ^ j ≤ 2 ^ (4 * j) := by
  rw [pow_mul]
  exact Nat.pow_le_pow_left (by norm_num) j

theorem unsigned_power {j : Nat} (hj : 4 * j < 1024) :
    (Wide.unsigned 1024 (10 ^ j) : Query NumericErrorKind Nat) = .ok (10 ^ j) :=
  unsigned_ok ((power_le j).trans_lt (Nat.pow_lt_pow_right Nat.one_lt_two (Nat.lt_succ_self _))) hj

theorem mul_lt_pow {a b i j k : Nat} (ha : a < 2 ^ i) (hb : b ≤ 2 ^ j) (hk : i + j = k) : a * b < 2 ^ k := by
  rw [← hk, pow_add]
  exact Nat.mul_lt_mul_of_lt_of_le ha hb (by positivity)

variable {num den quotient remainder limit drop : Nat} {negative : Bool}

theorem keptCoefficientIn1024Bits_eq (hdrop : drop ≤ maxScale) (hquotient : quotient < 2 ^ 609)
    (hden : den < 2 ^ 544) (hremainder : remainder < den) :
    keptCoefficientIn1024Bits quotient remainder den drop = .ok (keptCoefficient quotient remainder den drop) := by
  have hunit : 10 ^ drop ≤ 2 ^ 112 :=
    (power_le drop).trans (Nat.pow_le_pow_right Nat.two_pos (by unfold maxScale at hdrop; omega))
  have hunit0 : 0 < 10 ^ drop := by positivity
  have hwhole : 10 ^ drop * den < 2 ^ 656 := by
    rw [Nat.mul_comm]
    exact mul_lt_pow hden hunit (by norm_num)
  -- what is dropped is less than a unit
  have hsum : quotient % 10 ^ drop * den + remainder < 10 ^ drop * den := by
    calc quotient % 10 ^ drop * den + remainder < quotient % 10 ^ drop * den + den := by omega
      _ = (quotient % 10 ^ drop + 1) * den := by ring
      _ ≤ 10 ^ drop * den := Nat.mul_le_mul_right _ (Nat.mod_lt _ hunit0)
  have htwice : (quotient % 10 ^ drop * den + remainder) * 2 < 2 ^ 657 := by
    rw [pow_succ]
    omega
  have hkept : quotient / 10 ^ drop + 1 < 2 ^ 610 := by
    have := Nat.div_le_self quotient (10 ^ drop)
    rw [pow_succ]
    omega
  unfold keptCoefficientIn1024Bits keptCoefficient
  dsimp only
  rw [bind_ok (unsigned_power (by unfold maxScale at hdrop; omega))]
  split
  · rfl
  · rw [bind_ok (unsigned_ok (((Nat.le_add_right _ _).trans_lt hsum).trans hwhole) (by norm_num)),
      bind_ok (unsigned_ok (hsum.trans hwhole) (by norm_num)),
      bind_ok (unsigned_ok htwice (by norm_num)),
      bind_ok (unsigned_ok hwhole (by norm_num))]
    split
    · rw [bind_ok (unsigned_ok hkept (by norm_num))]
    · rfl

theorem tryDropsIn1024Bits_eq {drops : List Nat} (hdrops : ∀ drop ∈ drops, drop ≤ maxScale)
    (hquotient : quotient < 2 ^ 609) (hden : den < 2 ^ 544) (hremainder : remainder < den) :
    tryDropsIn1024Bits negative quotient remainder den limit drops =
      match drops.findSome? (tryDrop negative quotient remainder den limit) with
      | some d => .ok d
      | none => .error (.err .overflow) := by
  induction drops with
  | nil => rfl
  | cons drop rest ih =>
    have hrest := ih fun d hd => hdrops d (mem_cons_of_mem _ hd)
    rw [tryDropsIn1024Bits,
      bind_ok (keptCoefficientIn1024Bits_eq (hdrops drop mem_cons_self) hquotient hden hremainder),
      findSome?_cons]
    show (match tryDrop negative quotient remainder den limit drop with
      | some d => .ok d
      | none => tryDropsIn1024Bits negative quotient remainder den limit rest : Query NumericErrorKind Dec) = _
    cases tryDrop negative quotient remainder den limit drop with
    | some d => rfl
    | none => exact hrest

theorem tryAllDropsIn1024Bits_eq (hnum : num < 2 ^ 609) (hden0 : 0 < den) (hden : den < 2 ^ 544)
    (hlimit : limit ≤ maxScale) :
    tryDropsIn1024Bits negative (num / den) (num % den) den limit (range (limit + 1)) =
      (match (range (limit + 1)).findSome? (tryDrop negative (num / den) (num % den) den limit) with
        | some d => .ok d
        | none => .error .overflow : Except NumericErrorKind Dec).mapError .err := by
  have hdrops : ∀ drop ∈ range (limit + 1), drop ≤ maxScale := fun drop hdrop =>
    (Nat.lt_succ_iff.mp (mem_range.mp hdrop)).trans hlimit
  rw [tryDropsIn1024Bits_eq hdrops ((Nat.div_le_self _ _).trans_lt hnum) hden (Nat.mod_lt _ hden0)]
  cases (range (limit + 1)).findSome? (tryDrop negative (num / den) (num % den) den limit) <;> rfl

theorem roundQuotientIn1024Bits_eq {numScale denScale : Nat} (hnum : num < 2 ^ 385) (hden0 : 0 < den)
    (hden : den < 2 ^ 96) (hnumScale : numScale ≤ 112) (hdenScale : denScale ≤ 28) (hlimit : limit ≤ maxScale) :
    roundQuotientIn1024Bits negative num numScale den denScale limit =
      (roundQuotient negative num numScale den denScale limit).mapError .err := by
  have hlimit28 : limit ≤ 28 := hlimit
  have hpower : ∀ {j k : Nat}, 4 * j ≤ k → 10 ^ j ≤ 2 ^ k := fun {j k} hjk =>
    (power_le j).trans (Nat.pow_le_pow_right Nat.two_pos hjk)
  unfold roundQuotientIn1024Bits roundQuotient
  by_cases hshift : 0 ≤ (limit : Int) + denScale - numScale
  · obtain ⟨j, hj⟩ := Int.eq_ofNat_of_zero_le hshift
    have hj56 : 10 ^ j ≤ 2 ^ 224 := hpower (by omega)
    have hscaled : num * 10 ^ j < 2 ^ 609 := mul_lt_pow hnum hj56 (by norm_num)
    simp only [hj, Int.natCast_nonneg, if_true, Int.toNat_natCast]
    rw [bind_assoc, bind_ok (unsigned_power (by omega)), bind_assoc,
      bind_ok (unsigned_ok hscaled (by norm_num)), pure_bind]
    exact tryAllDropsIn1024Bits_eq hscaled hden0 (lt_of_bits hden (by norm_num)) hlimit
  · obtain ⟨j, hj⟩ : ∃ j : Nat, -((limit : Int) + denScale - numScale) = j :=
      Int.eq_ofNat_of_zero_le (by omega)
    have hj112 : 10 ^ j ≤ 2 ^ 448 := hpower (by omega)
    have hscaled : den * 10 ^ j < 2 ^ 544 := mul_lt_pow hden hj112 (by norm_num)
    simp only [hj, if_neg hshift, Int.toNat_natCast]
    rw [bind_assoc, bind_ok (unsigned_power (by omega)), bind_assoc,
      bind_ok (unsigned_ok hscaled (by norm_num)), pure_bind]
    exact tryAllDropsIn1024Bits_eq (lt_of_bits hnum (by norm_num)) (by positivity) hscaled hlimit

theorem productIn1024Bits (factors : List Dec) {start i : Nat} (hstart : start ≤ 2 ^ i)
    (hbits : i + 96 * factors.length ≤ 1024) :
    (factors.foldlM (fun num f => Wide.unsigned 1024 (num * f.mantissa.natAbs)) start :
        Query NumericErrorKind Nat) = .ok (start * (factors.map fun f => f.mantissa.natAbs).prod) ∧
      start * (factors.map fun f => f.mantissa.natAbs).prod ≤ 2 ^ (i + 96 * factors.length) := by
  induction factors generalizing start i with
  | nil => exact ⟨by rw [map_nil, prod_nil, Nat.mul_one]; rfl, by simpa using hstart⟩
  | cons f factors ih =>
    rw [length_cons] at hbits
    have hf : f.mantissa.natAbs < 2 ^ 96 := of_decide_eq_true f.fits
    have hnext : f.mantissa.natAbs * start < 2 ^ (i + 96) := mul_lt_pow hf hstart (Nat.add_comm _ _)
    rw [Nat.mul_comm] at hnext
    obtain ⟨hrun, hle⟩ := ih hnext.le (by omega)
    rw [foldlM_cons, bind_ok (unsigned_ok hnext (by omega)), hrun, map_cons,
      prod_cons, ← Nat.mul_assoc, length_cons]
    have hexp : i + 96 + 96 * factors.length = i + 96 * (factors.length + 1) := by ring
    rw [hexp] at hle
    exact ⟨rfl, hle⟩

/-- **No wide integer overflows**: four factors and a divisor leave room in 1024 bits. -/
theorem wideMulDivRatioIn1024Bits_eq (a b c d : Dec) {divisor : Dec} (hdivisor : divisor.value ≠ 0)
    (hlimit : limit ≤ maxScale) : wideMulDivRatioIn1024Bits [a, b, c, d] divisor limit =
      (wideMulDivRatio [a, b, c, d] divisor limit).mapError .err := by
  obtain ⟨hrun, hle⟩ := productIn1024Bits [a, b, c, d] (i := 0) (le_refl 1) (by simp)
  rw [Nat.one_mul] at hrun hle
  have hnum : ([a, b, c, d].map fun f => f.mantissa.natAbs).prod < 2 ^ 385 := by
    rw [pow_succ]
    have : 0 + 96 * [a, b, c, d].length = 384 := by simp
    rw [this] at hle
    omega
  have hscales : ([a, b, c, d].map fun f => f.scale).sum ≤ 112 := by
    have := a.short
    have := b.short
    have := c.short
    have := d.short
    unfold maxScale at *
    simp only [map_cons, map_nil, sum_cons, sum_nil]
    omega
  rw [wideMulDivRatio_eq]
  unfold wideMulDivRatioIn1024Bits
  rw [bind_ok hrun]
  exact roundQuotientIn1024Bits_eq hnum (natAbs_mantissa_pos hdivisor) (of_decide_eq_true divisor.fits) hscales
    divisor.short hlimit

end Bits

/-! ## 5. The operation -/

/-- **A product over a decimal is rounded once**, at 13 places or at the largest smaller scale that fits, or
    there is none and it overflows; where the narrow path decides, the wide one agrees, and nothing overflows
    on the wide one. -/
theorem ratio_rounds_once {lib : DecimalLib} (hlib : lib.Rounds) (a b c d : Dec) {divisor : Dec}
    (hdivisor : divisor.value ≠ 0) : ((∃ r s m, mulDivRatio lib a b c d divisor = .ok r ∧
          RoundedOnce 13 (a.value * b.value * c.value * d.value / divisor.value) s m ∧ r.value = m / 10 ^ s) ∨
        (mulDivRatio lib a b c d divisor = .error (.err ⟨.mulDivRatio a b divisor, c, d, .overflow⟩) ∧
          NoScaleFits 13 (a.value * b.value * c.value * d.value / divisor.value))) ∧
      (∀ p q product r, a.tryMul b = .ok p → p.tryMul c = .ok q → q.tryMul d = .ok product →
        roundHeldQuotient lib product divisor = some r →
        ∃ r', wideMulDivRatio [a, b, c, d] divisor payoutScale = .ok r' ∧ r'.value = r.value) ∧
      wideMulDivRatioIn1024Bits [a, b, c, d] divisor payoutScale =
        (wideMulDivRatio [a, b, c, d] divisor payoutScale).mapError .err := by
  have hprod : ([a, b, c, d].map value).prod = a.value * b.value * c.value * d.value := by
    simp only [map_cons, map_nil, prod_cons, prod_nil]
    ring
  have hwide := wideMulDivRatio_spec [a, b, c, d] hdivisor (show payoutScale ≤ maxScale by decide)
  rw [hprod] at hwide
  -- the product that the narrow path holds is exact
  have hnarrow : ∀ {p q product r}, a.tryMul b = .ok p → p.tryMul c = .ok q → q.tryMul d = .ok product →
      roundHeldQuotient lib product divisor = some r →
      ∃ s m, RoundedOnce payoutScale (a.value * b.value * c.value * d.value / divisor.value) s m ∧
        r.value = m / 10 ^ s := by
    intro p q product r hp hq hproduct hr
    rw [← tryMul_value hp, ← tryMul_value hq, ← tryMul_value hproduct]
    exact roundHeldQuotient_spec hlib hdivisor hr
  refine ⟨?_, fun p q product r hp hq hproduct hr => ?_,
    wideMulDivRatioIn1024Bits_eq a b c d hdivisor (by decide)⟩
  · have hzero : ¬ divisor.isZero = true := fun h => hdivisor (isZero_iff.mp h)
    unfold mulDivRatio
    dsimp only
    rw [if_neg hzero]
    split
    · rename_i r hr
      obtain ⟨p, hp, hr⟩ := Option.bind_eq_some_iff.mp hr
      obtain ⟨q, hq, hr⟩ := Option.bind_eq_some_iff.mp hr
      obtain ⟨product, hproduct, hr⟩ := Option.bind_eq_some_iff.mp hr
      obtain ⟨s, m, hround, hvalue⟩ := hnarrow (toOption_eq_some.mp hp) (toOption_eq_some.mp hq)
        (toOption_eq_some.mp hproduct) hr
      exact .inl ⟨_, s, m, rfl, hround, (hlib.normalize r).trans hvalue⟩
    · rcases hwide with ⟨r, hr, hround⟩ | ⟨herror, hnone⟩
      · rw [hr]
        exact .inl ⟨_, _, _, rfl, hround, hlib.normalize r⟩
      · rw [herror]
        exact .inr ⟨rfl, hnone⟩
  · obtain ⟨s, m, hround, hvalue⟩ := hnarrow hp hq hproduct hr
    rcases hwide with ⟨r', hr', hround'⟩ | ⟨-, hnone⟩
    · obtain ⟨rfl, rfl⟩ := hround.unique hround'
      exact ⟨r', hr', hvalue.symm⟩
    · exact absurd hround.fits (not_lt.mpr (hnone s m hround.short hround.nearest))

end Dec

/-! ## 6. The documented library -/

theorem stripped_value (m : Int) (s : Nat) :
    ((stripped m s).1 : ℚ) / 10 ^ (stripped m s).2 = m / 10 ^ s ∧ (stripped m s).2 ≤ s ∧
      (stripped m s).1.natAbs ≤ m.natAbs := by
  induction s generalizing m with
  | zero => exact ⟨rfl, le_refl _, le_refl _⟩
  | succ s ih =>
    unfold stripped
    split
    · rename_i hlast
      obtain ⟨hvalue, hscale, habs⟩ := ih (m.tdiv 10)
      refine ⟨hvalue.trans (Dec.value_drop hlast), hscale.trans (Nat.le_succ s), habs.trans ?_⟩
      rw [Int.natAbs_tdiv]
      exact Nat.div_le_self _ _
    · exact ⟨rfl, le_refl _, le_refl _⟩

theorem documentedLib_rounds : documentedLib.Rounds where
  checkedDiv := by
    intro a b d hb h
    have hq := Dec.withSign_div a.isNegative b.isNegative ((a.mantissa.natAbs : ℚ) / 10 ^ a.scale)
      ((b.mantissa.natAbs : ℚ) / 10 ^ b.scale)
    rw [← Dec.value_eq_withSign, ← Dec.value_eq_withSign] at hq
    rcases Dec.roundQuotient_spec (Dec.natAbs_mantissa_pos hb) (le_refl maxScale) hq with
      ⟨d', hd', hround⟩ | ⟨herror, -⟩
    · have hrun : documentedLib.checkedDiv a b = some d' := by
        unfold documentedLib
        dsimp only
        rw [hd']
        rfl
      obtain rfl := Option.some.inj (hrun.symm.trans h)
      exact ⟨_, _, hround, rfl⟩
    · have hrun : documentedLib.checkedDiv a b = none := by
        unfold documentedLib
        dsimp only
        rw [herror]
        rfl
      rw [hrun] at h
      cases h
  roundDp := by
    intro d places
    unfold documentedLib
    dsimp only
    split
    · rename_i hscale
      -- nothing to round
      have hvalue := Dec.atCommon_value hscale
      refine ⟨Dec.atCommon places d, by rw [← hvalue]; exact RoundsEven.intCast _, ?_⟩
      rw [hvalue, mul_div_cancel_right₀ _ (by positivity)]
    · rename_i hscale
      obtain ⟨drop, hdrop⟩ := Nat.exists_eq_add_of_le (not_le.mp hscale).le
      have hunit : 0 < 10 ^ (d.scale - places) := by positivity
      have hunits : nearestUnits .midpointNearestEven d.mantissa.natAbs (10 ^ (d.scale - places)) =
          halfEvenDiv d.mantissa.natAbs (10 ^ (d.scale - places)) := by
        simp [nearestUnits, halfEvenDiv, Nat.mul_comm 2]
      rw [hunits]
      generalize hmantissa : d.mantissa.natAbs = n
      have hround := Dec.roundsEven_withSign d.isNegative (roundsEven_halfEvenDiv (K := ℚ) n hunit)
      have hx : d.value * 10 ^ places = Dec.withSign d.isNegative ((n : ℚ) / (10 ^ (d.scale - places) : ℕ)) := by
        rw [Dec.value_eq_withSign, Dec.withSign_scale, hmantissa, hdrop, Nat.add_sub_cancel_left, pow_add]
        push_cast
        field_simp
      have hfits : fits96Bits (if d.isNegative then -(halfEvenDiv n (10 ^ (d.scale - places)) : ℤ)
          else halfEvenDiv n (10 ^ (d.scale - places))) = true := by
        have hn : n < 2 ^ 96 := hmantissa ▸ of_decide_eq_true d.fits
        have hle := halfEvenDiv_le n (10 ^ (d.scale - places))
        have hten : n / 10 ^ (d.scale - places) ≤ n / 10 :=
          Nat.div_le_div_left (Nat.le_self_pow (by omega) 10) (by norm_num)
        refine decide_eq_true ?_
        rw [Dec.natAbs_signed]
        omega
      refine ⟨_, by rw [hx]; exact hround, ?_⟩
      unfold Dec.tryFromI128WithScale
      rw [dif_pos ⟨by have := d.short; omega, hfits⟩]
      rfl
  normalize := by
    intro d
    obtain ⟨hvalue, hscale, habs⟩ := stripped_value d.mantissa d.scale
    have hfits : fits96Bits (stripped d.mantissa d.scale).1 = true :=
      decide_eq_true (habs.trans_lt (of_decide_eq_true d.fits))
    have hrun : documentedLib.normalize d = ⟨_, _, hfits, hscale.trans d.short⟩ := by
      unfold documentedLib Dec.tryFromI128WithScale
      dsimp only
      rw [dif_pos ⟨hscale.trans d.short, hfits⟩]
      rfl
    rw [hrun]
    exact hvalue

namespace Dec

def three : Dec := whole 3 rfl

theorem ratio_rounds_once_third : ∃ r s m, mulDivRatio documentedLib one one one one three = .ok r ∧
    RoundedOnce 13 (one.value * one.value * one.value * one.value / three.value) s m ∧ r.value = m / 10 ^ s := by
  have hthree : three.value ≠ 0 := by norm_num [three, whole, value]
  have hok : mulDivRatio documentedLib one one one one three = .ok ⟨3333333333333, 13, rfl, by decide⟩ := by
    decide +kernel
  refine (ratio_rounds_once documentedLib_rounds one one one one hthree).1.resolve_right fun h => ?_
  rw [hok] at h
  cases h.1

end Dec

end MlmForge.Rank
