/-
  Subject:   A cap is split exactly, by largest remainder.

  * **`splitUnits_largestRemainder`** -- the integers of the split are the parts by largest remainder;
  * `allocateIn512Bits` -- the same with every wide integer held to 512 bits, and **`allocateIn512Bits_eq`**:
    none of them is out of range;
  * **`allocation_is_exact`** -- what a split is, when there is one, and that nothing overflows on the way.
-/
import Mathlib.Algebra.BigOperators.Field
import Mathlib.Algebra.BigOperators.Fin
import MlmForge.Basis.Apportion
import MlmForge.Basis.Wide
import MlmForge.Commission.Money
import MlmForge.Rank.Exactness

namespace MlmForge.Rank.Dec

open Query List Wide

/-! ## 1. Handing out what is left over -/

variable {order : List Nat}

/-- What is handed out in an order without repetitions is one more for each of its first indices. -/
theorem handOut_eq (hnodup : order.Nodup) (k : Nat) (units : List Int) :
    handOut order k units = units.mapIdx fun i u => u + if i ∈ order.take k then 1 else 0 := by
  have hnone : ∀ units : List Int, units.mapIdx (fun _ u => u) = units := fun units =>
    ext_getElem (by simp) (by simp)
  induction order generalizing k units with
  | nil => simp [handOut, hnone]
  | cons i rest ih =>
    obtain ⟨hi, hrest⟩ := nodup_cons.mp hnodup
    cases k with
    | zero => simp [handOut, hnone]
    | succ k =>
      have hpos : ((k + 1 : Nat) : Int) ≠ 0 := by omega
      have hleft : ((k + 1 : Nat) : Int) - 1 = k := by omega
      rw [handOut, if_neg hpos, hleft, ih hrest]
      refine ext_getElem (by simp) fun j hj hj' => ?_
      rw [getElem_mapIdx, getElem_mapIdx, getElem_modify]
      simp only [take_succ_cons, mem_cons]
      by_cases hij : i = j
      · subst hij
        have hnot : i ∉ rest.take k := fun h => hi (mem_of_mem_take h)
        simp only [hnot, if_true, if_false, true_or, add_zero]
      · simp only [hij, Ne.symm hij, if_false, false_or]

theorem remainderOrder_perm (remainders : List Int) :
    (remainderOrder remainders).Perm (range remainders.length) :=
  perm_insertionSort _ _

theorem remainderOrder_nodup (remainders : List Int) : (remainderOrder remainders).Nodup :=
  (remainderOrder_perm remainders).nodup_iff.mpr nodup_range

theorem remainderOrder_sorted (remainders : List Int) : (remainderOrder remainders).Pairwise fun a b =>
    remainders.getD b 0 < remainders.getD a 0 ∨ (remainders.getD b 0 = remainders.getD a 0 ∧ a < b) := by
  let before : Nat → Nat → Prop := fun a b =>
    remainders.getD b 0 < remainders.getD a 0 ∨ (remainders.getD a 0 = remainders.getD b 0 ∧ a ≤ b)
  have : Std.Total before := ⟨fun a b => by dsimp only [before]; omega⟩
  have : IsTrans Nat before := ⟨fun a b c hab hbc => by dsimp only [before] at hab hbc ⊢; omega⟩
  have hsorted : (remainderOrder remainders).Pairwise before := pairwise_insertionSort before _
  refine (hsorted.and (remainderOrder_nodup remainders)).imp fun {a b} h => ?_
  obtain ⟨hbefore, hne⟩ := h
  dsimp only [before] at hbefore
  omega

theorem exists_indexOrder {n : Nat} (rem : Fin n → Int) :
    ∃ order : List (Fin n), order.map Fin.val = remainderOrder (ofFn rem) ∧ order.Nodup ∧
      (∀ i, i ∈ order) ∧ order.Pairwise fun i j => rem j < rem i ∨ (rem j = rem i ∧ i < j) := by
  have hperm := remainderOrder_perm (ofFn rem)
  rw [length_ofFn] at hperm
  obtain ⟨order, horder⟩ : ∃ order : List (Fin n), order.map Fin.val = remainderOrder (ofFn rem) := by
    have hlt : ∀ i ∈ remainderOrder (ofFn rem), i < n := fun i hi => mem_range.mp (hperm.mem_iff.mp hi)
    lift remainderOrder (ofFn rem) to List (Fin n) using hlt with order
    exact ⟨order, rfl⟩
  refine ⟨order, horder, ?_, fun i => ?_, ?_⟩
  · refine List.Nodup.of_map Fin.val ?_
    rw [horder]
    exact remainderOrder_nodup _
  · have hi : i.val ∈ order.map Fin.val := by
      rw [horder]
      exact hperm.mem_iff.mpr (mem_range.mpr i.isLt)
    obtain ⟨j, hj, hij⟩ := mem_map.mp hi
    rwa [← Fin.ext hij]
  · have hpairs := remainderOrder_sorted (ofFn rem)
    rw [← horder, pairwise_map] at hpairs
    refine hpairs.imp fun {i j} hij => ?_
    have hget : ∀ i : Fin n, (ofFn rem).getD i 0 = rem i := by
      intro i
      simp
    rwa [hget, hget] at hij

/-! ## 2. Integer weights -/

/-- What the call does with its integers: `k` units over the weights. -/
def splitUnits (weights : List Int) (k : Int) : List Int :=
  let numerators := weights.map (· * k)
  let units := numerators.map (·.tdiv weights.sum)
  handOut (remainderOrder (numerators.map (·.tmod weights.sum))) (units.foldl (· - ·) k) units

section Weights

variable {n : Nat} {w : Fin n → Int} {k : Int}

def exactPart (w : Fin n → Int) (k : Int) (i : Fin n) : ℚ := ((w i * k : Int) : ℚ) / (∑ i, w i : Int)

theorem sum_exactPart (hpos : 0 < ∑ i, w i) : ∑ i, exactPart w k i = k := by
  have hq : ((∑ i, w i : Int) : ℚ) ≠ 0 := by exact_mod_cast hpos.ne'
  unfold exactPart
  rw [← Finset.sum_div, ← Int.cast_sum, ← Finset.sum_mul, Int.cast_mul, mul_comm, mul_div_assoc,
    div_self hq, mul_one]

theorem leftover_eq (hpos : 0 < ∑ i, w i) :
    ((k - ∑ i, ⌊exactPart w k i⌋ : Int) : ℚ) = ∑ i, Int.fract (exactPart w k i) := by
  rw [Int.cast_sub, ← sum_exactPart hpos, Int.cast_sum, ← Finset.sum_sub_distrib]
  rfl

theorem leftover_nonneg (hpos : 0 < ∑ i, w i) : 0 ≤ k - ∑ i, ⌊exactPart w k i⌋ := by
  have : (0 : ℚ) ≤ (k - ∑ i, ⌊exactPart w k i⌋ : Int) := by
    rw [leftover_eq hpos]
    exact Finset.sum_nonneg fun i _ => Int.fract_nonneg _
  exact_mod_cast this

variable (hw : ∀ i, 0 ≤ w i) (hpos : 0 < ∑ i, w i) (hk : 0 ≤ k)

include hw hpos hk

/-- Truncated division finds the whole part of an exact part, and what it leaves is its remainder. -/
theorem exactPart_div (i : Fin n) : (w i * k).tdiv (∑ i, w i) = ⌊exactPart w k i⌋ ∧
      (((w i * k).tmod (∑ i, w i) : Int) : ℚ) / (∑ i, w i : Int) = Int.fract (exactPart w k i) := by
  have hnum : 0 ≤ w i * k := mul_nonneg (hw i) hk
  unfold exactPart
  obtain ⟨total, htotal⟩ := Int.eq_ofNat_of_zero_le hpos.le
  rw [Int.tdiv_eq_ediv_of_nonneg hnum, Int.tmod_eq_emod_of_nonneg hnum, htotal]
  exact ⟨(Rat.floor_intCast_div_natCast _ _).symm, Int.fract_div_intCast_eq_div_intCast_mod.symm⟩

theorem floors_eq : ((ofFn w).map (· * k)).map (·.tdiv (ofFn w).sum) = ofFn fun i => ⌊exactPart w k i⌋ := by
  rw [map_map, map_ofFn, sum_ofFn]
  exact congrArg ofFn (funext fun i => (exactPart_div hw hpos hk i).1)

/-- **The integers of a split are the parts by largest remainder.** -/
theorem splitUnits_largestRemainder :
    ∃ units, LargestRemainder (exactPart w k) units ∧ splitUnits (ofFn w) k = ofFn units := by
  have hrems : ((ofFn w).map (· * k)).map (·.tmod (ofFn w).sum) =
      ofFn fun i => (w i * k).tmod (∑ i, w i) := by
    rw [map_map, map_ofFn, sum_ofFn]
    rfl
  obtain ⟨order, horder, hnodup, hall, hpairs⟩ := exists_indexOrder fun i => (w i * k).tmod (∑ i, w i)
  have hsorted : order.Pairwise (Before (exactPart w k)) := by
    have hq : (0 : ℚ) < (∑ i, w i : Int) := by exact_mod_cast hpos
    refine hpairs.imp fun {i j} hij => ?_
    unfold Before
    rwa [← (exactPart_div hw hpos hk i).2, ← (exactPart_div hw hpos hk j).2,
      div_lt_div_iff_of_pos_right hq, div_left_inj' hq.ne', Int.cast_lt, Int.cast_inj]
  obtain ⟨left, hleft⟩ := Int.eq_ofNat_of_zero_le (leftover_nonneg (k := k) hpos)
  refine ⟨_, largestRemainder_of_order hnodup hall hsorted (k := left) ?_, ?_⟩
  · rw [← leftover_eq hpos, hleft]
    rfl
  · unfold splitUnits
    dsimp only
    rw [floors_eq hw hpos hk, hrems, foldl_sub, sum_ofFn, hleft,
      handOut_eq (remainderOrder_nodup _), ← horder]
    refine ext_getElem (by simp) fun i hi hi' => ?_
    rw [getElem_mapIdx, List.getElem_ofFn, List.getElem_ofFn]
    simp only [← map_take, mem_map]
    congr 2
    exact propext ⟨fun ⟨j, hj, hij⟩ => by simpa [← hij] using hj, fun h => ⟨_, h, rfl⟩⟩

end Weights

/-! ## 3. Decimals at a common scale -/

/-- The scale that shares and cap are brought to. -/
def commonScale (shares : List Dec) (cap : Dec) (scale : Nat) : Nat :=
  (shares.map Dec.scale ++ [cap.scale, scale]).foldl Nat.max 0

variable {c : Nat}

theorem foldl_max_le {l : List Nat} {b : Nat} : l.foldl Nat.max b ≤ c ↔ b ≤ c ∧ ∀ n ∈ l, n ≤ c := by
  induction l generalizing b with
  | nil => simp
  | cons n l ih =>
    rw [foldl_cons, ih, forall_mem_cons, ← and_assoc]
    exact and_congr_left' (Nat.max_le)

variable {shares : List Dec}

theorem commonScale_le {cap : Dec} {scale : Nat} :
    commonScale shares cap scale ≤ c ↔ (∀ s ∈ shares, s.scale ≤ c) ∧ cap.scale ≤ c ∧ scale ≤ c := by
  unfold commonScale
  rw [foldl_max_le]
  simp [or_imp, forall_and]

theorem sum_atCommon (h : ∀ s ∈ shares, s.scale ≤ c) :
    (((shares.map (atCommon c)).sum : Int) : ℚ) = (shares.map value).sum * 10 ^ c := by
  induction shares with
  | nil => simp
  | cons s shares ih =>
    rw [map_cons, sum_cons, map_cons, sum_cons, Int.cast_add, add_mul,
      atCommon_value (h s mem_cons_self), ih fun s' hs' => h s' (mem_cons_of_mem _ hs')]

/-- Shares and a cap that can be split: nothing is negative, there is something to share by, and the cap is
    a whole number of minor units. -/
structure Splittable (shares : List Dec) (cap : Dec) (scale : Nat) : Prop where
  share_nonneg : ∀ share ∈ shares, 0 ≤ share.value
  total_pos : 0 < (shares.map value).sum
  cap_nonneg : 0 ≤ cap.value
  whole : ∃ k : Int, cap.value = k / 10 ^ scale

/-- The exact part of a share, in minor units. -/
def exactUnits (shares : List Dec) (cap : Dec) (scale : Nat) (share : Dec) : ℚ :=
  share.value * cap.value / (shares.map value).sum * 10 ^ scale

def allocateError (shares : List Dec) (cap : Dec) (scale : Nat) (kind : NumericErrorKind) : Stop NumericError :=
  .err ⟨.allocate scale, cap, (tryFromI128WithScale shares.length 0).getD zero, kind⟩

section Split

variable {shares : List Dec} {cap : Dec} {scale : Nat}

namespace Splittable

theorem cap_units (h : Splittable shares cap scale) {c : Nat} (hcap : cap.scale ≤ c) (hscale : scale ≤ c) :
    ∃ k : Int, 0 ≤ k ∧ cap.value = k / 10 ^ scale ∧ atCommon c cap = k * 10 ^ (c - scale) := by
  obtain ⟨k, hk⟩ := h.whole
  have hpow : (0 : ℚ) < 10 ^ scale := by positivity
  refine ⟨k, ?_, hk, ?_⟩
  · have := h.cap_nonneg
    rw [hk, le_div_iff₀ hpow, zero_mul] at this
    exact_mod_cast this
  · obtain ⟨j, hj⟩ := Nat.le.dest hscale
    have hvalue := atCommon_value hcap
    rw [hk, ← hj, pow_add] at hvalue
    rw [← hj, Nat.add_sub_cancel_left]
    field_simp at hvalue
    exact_mod_cast hvalue

end Splittable

theorem atCommon_nonneg {d : Dec} {c : Nat} (h : ¬ d.isNegative = true) : 0 ≤ atCommon c d := by
  have hm : 0 ≤ d.mantissa := by
    unfold isNegative at h
    rw [decide_eq_true_iff] at h
    omega
  exact mul_nonneg hm (by positivity)

theorem map_eq_ofFn {α : Type} (shares : List Dec) (f : Dec → α) :
    shares.map f = ofFn fun i : Fin shares.length => f shares[i] :=
  (congrArg (map _) ofFn_getElem.symm).trans map_ofFn

theorem allocate_unfold (shares : List Dec) (cap : Dec) (scale : Nat) :
    allocateLargestRemainder shares cap scale =
      let error := allocateError shares cap scale
      let common := commonScale shares cap scale
      let unit : Int := 10 ^ (common - scale)
      if maxScale < scale then .error (error .precision)
      else if cap.isNegative ∨ shares.any isNegative then .error (error .negative)
      else if (shares.map (atCommon common)).sum = 0 then .error (error .divisionByZero)
      else if (atCommon common cap).tmod unit ≠ 0 then .error (error .notWholeUnits)
      else (splitUnits (shares.map (atCommon common)) ((atCommon common cap).tdiv unit)).mapM fun u =>
        (fit u scale).mapError error := by
  simp only [allocateLargestRemainder, splitUnits, map_map]
  rfl

/-- **What the call does** for shares and a cap that can be split. -/
theorem allocate_eq (h : Splittable shares cap scale) (hscale : scale ≤ maxScale) :
    ∃ units : Fin shares.length → ℤ, LargestRemainder (fun i => exactUnits shares cap scale shares[i]) units ∧
      allocateLargestRemainder shares cap scale =
        (ofFn units).mapM fun u => (fit u scale).mapError (allocateError shares cap scale) := by
  obtain ⟨hshares, hcap, hc⟩ := commonScale_le.mp (le_refl (commonScale shares cap scale))
  obtain ⟨k, hk, hvalue, hunits⟩ := h.cap_units hcap hc
  have hnegative : ∀ share ∈ shares, ¬ share.isNegative = true := fun share hs hneg =>
    not_lt.mpr (h.share_nonneg share hs) (isNegative_iff.mp hneg)
  have hguard : ¬ (cap.isNegative = true ∨ shares.any isNegative = true) := by
    intro hneg
    rcases hneg with hneg | hneg
    · exact not_lt.mpr h.cap_nonneg (isNegative_iff.mp hneg)
    · obtain ⟨share, hs, hneg⟩ := any_eq_true.mp hneg
      exact hnegative share hs hneg
  have hsum := sum_atCommon hshares
  have hpos : 0 < (shares.map (atCommon (commonScale shares cap scale))).sum := by
    have : (0 : ℚ) < ((shares.map (atCommon (commonScale shares cap scale))).sum : Int) := by
      rw [hsum]
      exact mul_pos h.total_pos (by positivity)
    exact_mod_cast this
  have hunit : (10 : Int) ^ (commonScale shares cap scale - scale) ≠ 0 := by positivity
  rw [allocate_unfold]
  dsimp only
  rw [if_neg (not_lt.mpr hscale), if_neg hguard, if_neg hpos.ne', hunits,
    if_neg (not_not.mpr (Int.mul_tmod_left _ _)), Int.mul_tdiv_cancel _ hunit]
  rw [map_eq_ofFn] at hpos hsum ⊢
  rw [sum_ofFn] at hpos hsum
  obtain ⟨units, hlargest, hsplit⟩ := splitUnits_largestRemainder
    (w := fun i : Fin shares.length => atCommon (commonScale shares cap scale) shares[i]) (fun i => atCommon_nonneg (hnegative _ (getElem_mem i.isLt))) hpos hk
  refine ⟨units, ?_, by rw [hsplit]⟩
  have hexact : (fun i : Fin shares.length => exactUnits shares cap scale shares[i]) =
      exactPart (fun i => atCommon (commonScale shares cap scale) shares[i]) k := by
    funext i
    have hpow : (10 : ℚ) ^ scale ≠ 0 := by positivity
    have hpow' : (10 : ℚ) ^ commonScale shares cap scale ≠ 0 := by positivity
    have htotal := h.total_pos.ne'
    have hvalue' := atCommon_value (hshares shares[i] (getElem_mem i.isLt))
    unfold exactPart exactUnits
    rw [hsum, hvalue, Int.cast_mul, hvalue']
    field_simp
  rw [hexact]
  exact hlargest

end Split

/-! ## 4. In 512 bits -/

/-- A mantissa brought to a larger scale. -/
def wideAtCommon (common : Nat) (d : Dec) : Query NumericError Int := do
  let power ← Wide.signed 511 (10 ^ (common - d.scale))
  Wide.signed 511 (d.mantissa * power)

/-- Hands out what is left, one unit each in an order. -/
def handOutIn512Bits : List Nat → Int → List Int → Query NumericError (List Int)
  | [], _, units => .ok units
  | i :: rest, leftover, units =>
    if leftover = 0 then .ok units
    else do
      let _ ← Wide.signed 511 (units.getD i 0 + 1)
      let leftover ← Wide.signed 511 (leftover - 1)
      handOutIn512Bits rest leftover (units.modify i (· + 1))

/-- `allocateLargestRemainder`, with its wide integers held to 512 bits. -/
def allocateIn512Bits (shares : List Dec) (cap : Dec) (scale : Nat) : Query NumericError (List Dec) :=
  let error := allocateError shares cap scale
  if maxScale < scale then .error (error .precision)
  else if cap.isNegative ∨ shares.any isNegative then .error (error .negative)
  else do
    let common := commonScale shares cap scale
    let total ← shares.foldlM (fun t s => do let m ← wideAtCommon common s; Wide.signed 511 (t + m)) 0
    if total = 0 then .error (error .divisionByZero)
    else
      let unit ← Wide.signed 511 (10 ^ (common - scale))
      let capInt ← wideAtCommon common cap
      if capInt.tmod unit ≠ 0 then .error (error .notWholeUnits)
      else
        let capUnits := capInt.tdiv unit
        let numerators ← shares.mapM fun share => do
          let m ← wideAtCommon common share
          Wide.signed 511 (m * capUnits)
        let units := numerators.map (·.tdiv total)
        let leftover ← units.foldlM (fun left u => Wide.signed 511 (left - u)) capUnits
        let units ← handOutIn512Bits (remainderOrder (numerators.map (·.tmod total))) leftover units
        units.mapM fun u => (fit u scale).mapError error

theorem wide_lt {j : Nat} (hj : j < 511) : (2 : Int) ^ j < 2 ^ 511 := pow_lt_pow_right₀ (by norm_num) hj

theorem power_lt {j : Nat} (hj : j ≤ maxScale) : (10 : Int) ^ j < 2 ^ 94 :=
  (pow_le_pow_right₀ (by norm_num) hj).trans_lt (by norm_num [maxScale])

theorem atCommon_lt {d : Dec} (hc : c ≤ maxScale) : atCommon c d < 2 ^ 190 := by
  have hm : d.mantissa < 2 ^ 96 := (le_abs_self _).trans_lt (fits96Bits_iff.mp d.fits)
  have hpow : (10 : Int) ^ (c - d.scale) < 2 ^ 94 := power_lt (by omega)
  have hpow0 : (0 : Int) < 10 ^ (c - d.scale) := by positivity
  unfold atCommon
  nlinarith

theorem wideAtCommon_ok {d : Dec} (hc : c ≤ maxScale) (hd : ¬ d.isNegative = true) :
    wideAtCommon c d = .ok (atCommon c d) := by
  have hpow : (10 : Int) ^ (c - d.scale) < 2 ^ 94 := power_lt (by omega)
  have hlt := atCommon_lt (d := d) hc
  unfold wideAtCommon
  rw [bind_ok (signed_ok (by positivity) (hpow.trans (wide_lt (by norm_num))))]
  exact signed_ok (atCommon_nonneg hd) (hlt.trans (wide_lt (by norm_num)))

/-- Every unit that is handed out is one less to hand out, so a part and what is left stay within their sum. -/
theorem handOutIn512Bits_ok {left : Int} {units : List Int} (hleft : 0 ≤ left)
    (hsmall : left < 2 ^ 511) (hunits : ∀ u ∈ units, 0 ≤ u ∧ u + left < 2 ^ 511) :
    handOutIn512Bits order left units = .ok (handOut order left units) := by
  induction order generalizing left units with
  | nil => rfl
  | cons i rest ih =>
    unfold handOutIn512Bits handOut
    split
    · rfl
    · rename_i hne
      have hget : 0 ≤ units.getD i 0 ∧ units.getD i 0 + left < 2 ^ 511 := by
        by_cases hi : i < units.length
        · rw [getD_eq_getElem?_getD, getElem?_eq_getElem hi]
          exact hunits _ (getElem_mem hi)
        · rw [getD_eq_getElem?_getD, getElem?_eq_none (by omega), Option.getD_none, zero_add]
          exact ⟨le_refl _, hsmall⟩
      rw [bind_ok (signed_ok (by omega) (by omega)), bind_ok (signed_ok (by omega) (by omega))]
      refine ih (by omega) (by omega) fun u hu => ?_
      obtain ⟨j, hj, rfl⟩ := getElem_of_mem hu
      rw [getElem_modify]
      have hj' := hunits _ (getElem_mem (by simpa using hj))
      split <;> omega

section Wide

variable {n : Nat} {w : Fin n → Int} {k : Int}

theorem product_lt {a b : Int} (ha : 0 ≤ a) (ha190 : a < 2 ^ 190) (hb : 0 ≤ b) (hb190 : b < 2 ^ 190) :
    a * b < 2 ^ 380 :=
  (mul_lt_mul'' ha190 hb190 ha hb).trans_eq (pow_add 2 190 190).symm

theorem splitIn512Bits (hw : ∀ i, 0 ≤ w i) (hw190 : ∀ i, w i < 2 ^ 190) (hpos : 0 < ∑ i, w i) (hk : 0 ≤ k)
    (hk190 : k < 2 ^ 190) (next : List Int → Query NumericError (List Dec)) :
    (do
      let leftover ← (((ofFn w).map (· * k)).map fun m => m.tdiv (ofFn w).sum).foldlM
        (fun left u => Wide.signed 511 (left - u)) k
      let units ← handOutIn512Bits
        (remainderOrder (((ofFn w).map (· * k)).map fun m => m.tmod (ofFn w).sum)) leftover
        (((ofFn w).map (· * k)).map fun m => m.tdiv (ofFn w).sum)
      next units) = next (splitUnits (ofFn w) k) := by
  have hfloors := floors_eq hw hpos hk
  have hunits : ∀ u ∈ ofFn fun i => ⌊exactPart w k i⌋, 0 ≤ u ∧ u < 2 ^ 380 := by
    intro u hu
    obtain ⟨i, rfl⟩ := mem_ofFn.mp hu
    rw [← (exactPart_div hw hpos hk i).1]
    have hnum := mul_nonneg (hw i) hk
    refine ⟨Int.tdiv_nonneg hnum hpos.le, (Int.tdiv_le_self _ hnum).trans_lt ?_⟩
    exact product_lt (hw i) (hw190 i) hk hk190
  have hleft : 0 ≤ k - (ofFn fun i => ⌊exactPart w k i⌋).sum := by
    rw [sum_ofFn]
    exact leftover_nonneg hpos
  have hsum : 0 ≤ (ofFn fun i => ⌊exactPart w k i⌋).sum := sum_nonneg fun u hu => (hunits u hu).1
  have h190 : (2 : Int) ^ 190 < 2 ^ 380 := pow_lt_pow_right₀ (by norm_num) (by norm_num)
  have h380 : (2 : Int) ^ 380 + 2 ^ 380 < 2 ^ 511 := by
    rw [← two_mul, ← pow_succ']
    exact wide_lt (by norm_num)
  unfold splitUnits
  dsimp only
  rw [hfloors, bind_ok (foldlM_sub (fun u hu => (hunits u hu).1) hleft (by omega)),
    bind_ok (handOutIn512Bits_ok _ _ _)]
  · rw [foldl_sub]
    exact hleft
  · rw [foldl_sub]
    omega
  · intro u hu
    obtain ⟨hu0, hu380⟩ := hunits u hu
    rw [foldl_sub]
    exact ⟨hu0, by omega⟩

/-- **No wide integer of the call overflows.** -/
theorem allocateIn512Bits_eq {shares : List Dec} (hlength : shares.length < 2 ^ 64) (cap : Dec)
    (scale : Nat) : allocateIn512Bits shares cap scale = allocateLargestRemainder shares cap scale := by
  rw [allocate_unfold]
  unfold allocateIn512Bits
  dsimp only
  split
  · rfl
  · rename_i hscale
    split
    · rfl
    · rename_i hguard
      rw [not_or, any_eq_true] at hguard
      have hshares : ∀ share ∈ shares, ¬ share.isNegative = true := fun share hs hneg =>
        hguard.2 ⟨share, hs, hneg⟩
      have hc : commonScale shares cap scale ≤ maxScale :=
        commonScale_le.mpr ⟨fun s _ => s.short, cap.short, not_lt.mp hscale⟩
      generalize commonScale shares cap scale = c at hc ⊢
      have hread : ∀ share ∈ shares, wideAtCommon c share = .ok (atCommon c share) := fun share hs =>
        wideAtCommon_ok hc (hshares share hs)
      have hnonneg : ∀ share ∈ shares, 0 ≤ atCommon c share := fun share hs =>
        atCommon_nonneg (hshares share hs)
      have htotal : (shares.map (atCommon c)).sum < 2 ^ 511 := by
        have hsum := sum_le_card_nsmul (shares.map (atCommon c)) (2 ^ 190) fun m hm => by
          obtain ⟨share, -, rfl⟩ := mem_map.mp hm
          exact (atCommon_lt hc).le
        have hbound : (shares.length : Int) * 2 ^ 190 < 2 ^ 254 := by
          have : (shares.length : Int) < 2 ^ 64 := by exact_mod_cast hlength
          omega
        rw [length_map, nsmul_eq_mul] at hsum
        exact (hsum.trans_lt hbound).trans (wide_lt (by norm_num))
      have hadd : (shares.foldlM (fun t s => do let m ← wideAtCommon c s; Wide.signed 511 (t + m)) 0) =
          .ok (0 + (shares.map (atCommon c)).sum) :=
        foldlM_add hread hnonneg le_rfl (by rwa [zero_add])
      rw [bind_ok hadd, zero_add]
      split
      · rfl
      · rename_i hne
        have hunit : (10 : Int) ^ (c - scale) < 2 ^ 511 := (power_lt (by omega)).trans (wide_lt (by norm_num))
        have hcap := atCommon_nonneg (c := c) hguard.1
        rw [bind_ok (signed_ok (by positivity) hunit), bind_ok (wideAtCommon_ok hc hguard.1)]
        split
        · rfl
        · have hk : 0 ≤ (atCommon c cap).tdiv (10 ^ (c - scale)) := Int.tdiv_nonneg hcap (by positivity)
          have hk190 : (atCommon c cap).tdiv (10 ^ (c - scale)) < 2 ^ 190 :=
            (Int.tdiv_le_self _ hcap).trans_lt (atCommon_lt hc)
          generalize (atCommon c cap).tdiv (10 ^ (c - scale)) = k at hk hk190 ⊢
          have hnumerators : (shares.mapM fun share => do
              let m ← wideAtCommon c share
              Wide.signed 511 (m * k)) = .ok ((shares.map (atCommon c)).map (· * k)) := by
            rw [map_map]
            refine mapM_eq_ok fun share hs => ?_
            rw [bind_ok (hread share hs)]
            exact signed_ok (mul_nonneg (hnonneg share hs) hk)
              ((product_lt (hnonneg share hs) (atCommon_lt hc) hk hk190).trans (wide_lt (by norm_num)))
          have hpos : 0 < (shares.map (atCommon c)).sum := by
            refine lt_of_le_of_ne (sum_nonneg fun m hm => ?_) (Ne.symm hne)
            obtain ⟨share, hs, rfl⟩ := mem_map.mp hm
            exact hnonneg share hs
          rw [bind_ok hnumerators]
          rw [map_eq_ofFn] at hpos ⊢
          rw [sum_ofFn] at hpos
          exact splitIn512Bits (fun i => hnonneg _ (getElem_mem i.isLt)) (fun i => atCommon_lt hc) hpos
            hk hk190 _

end Wide

/-! ## 5. The parts -/

/-- The parts of a cap: they add up to it, each is its exact part rounded down or one minor unit more, the
    ones with one more have the largest remainders and of equal ones come first, and nothing goes to a share
    of nothing. -/
structure Allocated (shares : List Dec) (cap : Dec) (scale : Nat) (parts : List Dec) : Prop where
  length_eq : parts.length = shares.length
  sum_eq : (parts.map value).sum = cap.value
  near : ∀ (i : Nat) (share part : Dec), shares[i]? = some share → parts[i]? = some part →
    part.value = ⌊exactUnits shares cap scale share⌋ / 10 ^ scale ∨
      part.value = (⌊exactUnits shares cap scale share⌋ + 1) / 10 ^ scale
  largest : ∀ (i j : Nat) (share share' part part' : Dec), shares[i]? = some share → parts[i]? = some part →
    shares[j]? = some share' → parts[j]? = some part' →
    part.value = (⌊exactUnits shares cap scale share⌋ + 1) / 10 ^ scale →
    part'.value = ⌊exactUnits shares cap scale share'⌋ / 10 ^ scale →
    Int.fract (exactUnits shares cap scale share') < Int.fract (exactUnits shares cap scale share) ∨
      (Int.fract (exactUnits shares cap scale share') = Int.fract (exactUnits shares cap scale share) ∧ i < j)
  zero : ∀ (i : Nat) (share part : Dec), shares[i]? = some share → parts[i]? = some part →
    share.value = 0 → part.value = 0

section Parts

variable {shares : List Dec} {cap : Dec} {scale : Nat} {parts : List Dec} {units : Fin shares.length → ℤ}

theorem sum_exactUnits (h : Splittable shares cap scale) :
    ∑ i : Fin shares.length, exactUnits shares cap scale shares[i] = cap.value * 10 ^ scale := by
  have hsum : ∑ i : Fin shares.length, shares[i].value = (shares.map value).sum := by
    rw [map_eq_ofFn, sum_ofFn]
  have htotal := h.total_pos.ne'
  unfold exactUnits
  rw [← Finset.sum_mul, ← Finset.sum_div, ← Finset.sum_mul, hsum]
  field_simp

theorem allocated_of_units (h : Splittable shares cap scale)
    (hunits : LargestRemainder (fun i : Fin shares.length => exactUnits shares cap scale shares[i]) units)
    (hparts : parts.map value = ofFn fun i => (units i : ℚ) / 10 ^ scale) :
    Allocated shares cap scale parts := by
  have hpow : (10 : ℚ) ^ scale ≠ 0 := by positivity
  have hlength : parts.length = shares.length := by
    have := congrArg length hparts
    rwa [length_map, length_ofFn] at this
  -- the index, the share and the part that an entry is about
  have hentry : ∀ {i : Nat} {share part : Dec}, shares[i]? = some share → parts[i]? = some part →
      ∃ j : Fin shares.length, j.val = i ∧ shares[j] = share ∧ part.value = units j / 10 ^ scale := by
    intro i share part hs hp
    obtain ⟨hi, rfl⟩ := List.getElem?_eq_some_iff.mp hs
    have hvalue : (parts.map value)[i]? = some part.value := by rw [getElem?_map, hp, Option.map_some]
    rw [hparts, List.getElem?_ofFn, dif_pos hi] at hvalue
    exact ⟨⟨i, hi⟩, rfl, rfl, (Option.some.inj hvalue).symm⟩
  have hinj : ∀ {m n : ℤ}, (m : ℚ) / 10 ^ scale = n / 10 ^ scale ↔ m = n := by
    intro m n
    rw [div_left_inj' hpow, Int.cast_inj]
  refine ⟨hlength, ?_, ?_, ?_, ?_⟩
  · rw [hparts, sum_ofFn, ← Finset.sum_div, ← Int.cast_sum, hunits.sum_eq, sum_exactUnits h,
      mul_div_cancel_right₀ _ hpow]
  · intro i share part hs hp
    obtain ⟨j, -, rfl, hj⟩ := hentry hs hp
    rcases hunits.near j with hn | hn
    · exact .inl (by rw [hj, hn])
    · exact .inr (by rw [hj, hn, Int.cast_add, Int.cast_one])
  · intro i i' share share' part part' hs hp hs' hp' hraised hkept
    obtain ⟨j, rfl, rfl, hj⟩ := hentry hs hp
    obtain ⟨j', rfl, rfl, hj'⟩ := hentry hs' hp'
    rw [hj, ← Int.cast_one, ← Int.cast_add, hinj] at hraised
    rw [hj', hinj] at hkept
    exact hunits.largest j j' hraised hkept
  · intro i share part hs hp hzero
    obtain ⟨j, -, rfl, hj⟩ := hentry hs hp
    have hexact : exactUnits shares cap scale shares[j] = 0 := by
      unfold exactUnits
      rw [hzero, zero_mul, zero_div, zero_mul]
    have hkept := hunits.whole (i := j) (by rw [hexact, Int.fract_zero])
    rw [hj, hkept, hexact, Int.floor_zero, Int.cast_zero, zero_div]

theorem units_holdable (h : Splittable shares cap scale) (hcap : cap.value < 10 ^ 15) (hscale : scale ≤ 13)
    (hunits : LargestRemainder (fun i : Fin shares.length => exactUnits shares cap scale shares[i]) units)
    (i : Fin shares.length) : Holdable (units i / 10 ^ scale) := by
  have hnonneg : ∀ j, 0 ≤ units j := by
    intro j
    have hexact : 0 ≤ exactUnits shares cap scale shares[j] := by
      have hs := h.share_nonneg shares[j] (getElem_mem j.isLt)
      have hc := h.cap_nonneg
      have ht := h.total_pos
      unfold exactUnits
      positivity
    have hfloor := Int.floor_nonneg.mpr hexact
    rcases hunits.near j with hn | hn <;> omega
  have hsum : ∑ j, units j < 2 ^ 96 := by
    have hq : ((∑ j, units j : ℤ) : ℚ) < 2 ^ 96 := by
      have hpow : (10 : ℚ) ^ scale ≤ 10 ^ 13 := pow_le_pow_right₀ (by norm_num) hscale
      have hc := h.cap_nonneg
      rw [hunits.sum_eq, sum_exactUnits h]
      calc cap.value * 10 ^ scale ≤ cap.value * 10 ^ 13 := by gcongr
        _ ≤ 10 ^ 15 * 10 ^ 13 := by gcongr
        _ < 2 ^ 96 := by norm_num
    exact_mod_cast hq
  have hle := Finset.single_le_sum (fun j _ => hnonneg j) (Finset.mem_univ i)
  refine ⟨units i, scale, ?_, by omega, rfl⟩
  rw [abs_of_nonneg (hnonneg i)]
  omega

theorem scale_of_ok (hok : allocateLargestRemainder shares cap scale = .ok parts) : scale ≤ maxScale := by
  by_contra hlong
  rw [allocate_unfold] at hok
  dsimp only at hok
  rw [if_pos (not_le.mp hlong)] at hok
  cases hok

theorem ok_of_holdable (h : Splittable shares cap scale) (hscale : scale ≤ maxScale)
    (hunits : LargestRemainder (fun i : Fin shares.length => exactUnits shares cap scale shares[i]) units)
    (hhold : ∀ i, Holdable (units i / 10 ^ scale)) :
    ∃ parts, allocateLargestRemainder shares cap scale = .ok parts := by
  obtain ⟨units', hunits', hcall⟩ := allocate_eq h hscale
  obtain rfl := hunits.unique hunits'
  rw [hcall]
  refine exists_mapM fun u hu => ?_
  obtain ⟨i, rfl⟩ := mem_ofFn.mp hu
  obtain ⟨part, hpart⟩ := fit_ok_iff.mpr (hhold i)
  exact ⟨part, mapError_eq_ok.mpr hpart⟩

/-- **A cap is split exactly**, by largest remainder, whenever its parts can be held, and no wide integer
    overflows on the way. -/
theorem allocation_is_exact (h : Splittable shares cap scale) :
    (∀ parts, allocateLargestRemainder shares cap scale = .ok parts → Allocated shares cap scale parts) ∧
      ((∃ parts, allocateLargestRemainder shares cap scale = .ok parts) ↔
        scale ≤ 28 ∧ ∃ units : Fin shares.length → ℤ,
          LargestRemainder (fun i => exactUnits shares cap scale shares[i]) units ∧
          ∀ i, Holdable (units i / 10 ^ scale)) ∧
      (cap.InEnvelope → scale ≤ 13 → ∃ parts, allocateLargestRemainder shares cap scale = .ok parts) ∧
      (shares.length < 2 ^ 64 →
        allocateIn512Bits shares cap scale = allocateLargestRemainder shares cap scale) := by
  refine ⟨fun parts hok => ?_, ⟨fun hok => ?_, fun hhold => ?_⟩, fun hcap hscale => ?_,
    fun hlength => allocateIn512Bits_eq hlength cap scale⟩
  · obtain ⟨units, hunits, hcall⟩ := allocate_eq h (scale_of_ok hok)
    refine allocated_of_units h hunits ?_
    rw [hcall] at hok
    have hvalues := map_of_mapM (g := value) (k := fun u : ℤ => (u : ℚ) / 10 ^ scale) hok
      fun u part hpart => fit_value (mapError_eq_ok.mp hpart)
    rw [hvalues, map_ofFn]
    rfl
  · obtain ⟨parts, hok⟩ := hok
    obtain ⟨units, hunits, hcall⟩ := allocate_eq h (scale_of_ok hok)
    refine ⟨scale_of_ok hok, units, hunits, fun i => ?_⟩
    rw [hcall] at hok
    obtain ⟨part, -, hpart⟩ := exists_mem_of_mapM hok (mem_ofFn.mpr ⟨i, rfl⟩)
    exact fit_ok_iff.mp ⟨part, mapError_eq_ok.mp hpart⟩
  · obtain ⟨hscale, units, hunits, hhold⟩ := hhold
    exact ok_of_holdable h hscale hunits hhold
  · have hsmall : cap.value < 10 ^ 15 := by
      have hlimit : envelopeLimit.value = 10 ^ 15 := by norm_num [envelopeLimit, whole, value]
      rw [← hlimit]
      exact (le_abs_self _).trans_lt hcap.2
    have hshort : scale ≤ maxScale := hscale.trans (by decide)
    obtain ⟨units, hunits, -⟩ := allocate_eq h hshort
    exact ok_of_holdable h hshort hunits (units_holdable h hsmall hscale hunits)

/-- What the witness below divides, and by what. -/
def two : Dec := whole 2 rfl

def twoHundred : Dec := whole 200 rfl

theorem splittable_two : Splittable [one, one, one] two 2 :=
  ⟨by simp, by norm_num, by norm_num [two, whole, value], 200, by norm_num [two, whole, value]⟩

theorem allocation_is_exact_thirds : Allocated [one, one, one] two 2
    [⟨67, 2, rfl, by decide⟩, ⟨67, 2, rfl, by decide⟩, ⟨66, 2, rfl, by decide⟩] :=
  (allocation_is_exact splittable_two).1 _ (by decide +kernel)

/-- **Some splits are refused**: in more than 28 decimal places there is none, and with 28 a third of two hundred
    takes too many digits. -/
theorem allocation_of_envelope_cap_refused : (Splittable [one] one 29 ∧ one.InEnvelope ∧
        allocateLargestRemainder [one] one 29 = .error (.err ⟨.allocate 29, one, one, .precision⟩)) ∧
      Splittable [one, two] twoHundred 28 ∧ twoHundred.InEnvelope ∧
        allocateLargestRemainder [one, two] twoHundred 28 =
          .error (.err ⟨.allocate 28, twoHundred, two, .precision⟩) := by
  refine ⟨⟨⟨by simp, by simp, by simp, 10 ^ 29, ?_⟩, ⟨⟨10 ^ 10, ?_⟩, ?_⟩, by decide +kernel⟩,
    ⟨?_, ?_, ?_, 2 * 10 ^ 30, ?_⟩, ⟨⟨2 * 10 ^ 12, ?_⟩, ?_⟩, by decide +kernel⟩
  all_goals norm_num [one, two, twoHundred, envelopeMaxScale, envelopeLimit, whole, value]

end Parts

end MlmForge.Rank.Dec
