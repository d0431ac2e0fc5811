/-
  Subject:   Decimal arithmetic is exact or refused.

  * **`fit_ok_iff`** -- dropping zeros at the end while a number is too long finds a decimal whenever there
    is one;
  * **`arithmetic_exact_or_refused`** -- sums, differences and products: when there is a result, that it is
    exact, that both paths find the same one, and which error is reported.
-/
import Mathlib.Data.Rat.Floor
import MlmForge.Rank.Decimal

namespace MlmForge.Rank

/-- A number that can be written with a coefficient of 96 bits and at most 28 decimal places. -/
def Holdable (q : ℚ) : Prop := ∃ (m : Int) (s : Nat), |m| < 2 ^ 96 ∧ s ≤ 28 ∧ q = m / 10 ^ s

namespace Dec

/-! ## 1. Numbers that can be held -/

theorem fits96Bits_iff {m : Int} : fits96Bits m = true ↔ |m| < 2 ^ 96 := by
  rw [fits96Bits, decide_eq_true_iff, Int.abs_eq_natAbs]
  omega

theorem holdable_iff {q : ℚ} : Holdable q ↔ ∃ d : Dec, d.value = q := by
  constructor
  · intro h
    obtain ⟨m, s, hm, hs, rfl⟩ := h
    exact ⟨⟨m, s, fits96Bits_iff.mpr hm, hs⟩, rfl⟩
  · intro h
    obtain ⟨d, rfl⟩ := h
    exact ⟨d.mantissa, d.scale, fits96Bits_iff.mp d.fits, d.short, rfl⟩

theorem cross_mul {m n : Int} {s t : Nat} (h : (m : ℚ) / 10 ^ s = n / 10 ^ t) : m * 10 ^ t = n * 10 ^ s := by
  have hs : (10 : ℚ) ^ s ≠ 0 := by positivity
  have ht : (10 : ℚ) ^ t ≠ 0 := by positivity
  rw [div_eq_div_iff hs ht] at h
  exact_mod_cast h

theorem fits96Bits_of_mul {m : Int} {k : Nat} (h : fits96Bits (m * 10 ^ k) = true) : fits96Bits m = true := by
  rw [fits96Bits, decide_eq_true_iff] at h ⊢
  refine lt_of_le_of_lt ?_ h
  rw [Int.natAbs_mul]
  exact Nat.le_mul_of_pos_right _ (Int.natAbs_pos.mpr (by positivity))

/-! ## 2. Fitting -/

section Fit

variable {m : Int} {s : Nat}

theorem fit_of_fits (hs : s ≤ maxScale) (hm : fits96Bits m = true) : fit m s = .ok ⟨m, s, hm, hs⟩ := by
  cases s with
  | zero => exact dif_pos ⟨hs, hm⟩
  | succ s =>
    have hkeep : ¬ ((maxScale < s + 1 ∨ fits96Bits m = false) ∧ m.tmod 10 = 0) := by
      intro h
      rcases h.1 with h | h
      · omega
      · rw [hm] at h
        cases h
    rw [fit, if_neg hkeep]
    exact dif_pos ⟨hs, hm⟩

/-- A number with no zero to drop is written at the least scale, so if a decimal stands for it, it is short
    enough as it is. -/
theorem fits_of_value {d : Dec} (hlast : s = 0 ∨ m.tmod 10 ≠ 0) (hd : d.value = m / 10 ^ s) :
    s ≤ maxScale ∧ fits96Bits m = true := by
  have hcross := cross_mul hd
  have hscale : s ≤ d.scale := by
    by_contra hlt
    -- the power of ten that is left over would divide `m`
    obtain ⟨k, hk⟩ : ∃ k, s = d.scale + (k + 1) := ⟨s - d.scale - 1, by omega⟩
    have hpow : (0 : Int) < 10 ^ d.scale := by positivity
    have hm : m = d.mantissa * 10 ^ (k + 1) := by
      refine Int.eq_of_mul_eq_mul_right hpow.ne' ?_
      rw [← hcross, hk, pow_add]
      ring
    have hdvd : (10 : Int) ∣ m := ⟨d.mantissa * 10 ^ k, by rw [hm, pow_succ]; ring⟩
    rcases hlast with h0 | h0
    · omega
    · exact h0 (Int.tmod_eq_zero_of_dvd hdvd)
  obtain ⟨k, hk⟩ := Nat.le.dest hscale
  have hpow : (0 : Int) < 10 ^ s := by positivity
  have hm : d.mantissa = m * 10 ^ k := by
    refine Int.eq_of_mul_eq_mul_right hpow.ne' ?_
    rw [hcross, ← hk, pow_add]
    ring
  exact ⟨hscale.trans d.short, fits96Bits_of_mul (hm ▸ d.fits)⟩

/-- **Fitting finds a decimal whenever there is one.** -/
theorem fit_ok_iff : (∃ d, fit m s = .ok d) ↔ Holdable (m / 10 ^ s) := by
  rw [holdable_iff]
  constructor
  · intro h
    obtain ⟨d, hd⟩ := h
    exact ⟨d, fit_value hd⟩
  · intro h
    obtain ⟨d, hd⟩ := h
    -- on the number of places; each round keeps the number
    induction s generalizing m with
    | zero =>
      obtain ⟨hs, hm⟩ := fits_of_value (.inl rfl) hd
      exact ⟨_, fit_of_fits hs hm⟩
    | succ s ih =>
      by_cases hdrop : (maxScale < s + 1 ∨ fits96Bits m = false) ∧ m.tmod 10 = 0
      · rw [fit, if_pos hdrop]
        exact ih (hd.trans (value_drop hdrop.2).symm)
      · have hshort : s + 1 ≤ maxScale ∧ fits96Bits m = true := by
          by_cases hlast : m.tmod 10 = 0
          · have hkeep : ¬ (maxScale < s + 1 ∨ fits96Bits m = false) := fun h => hdrop ⟨h, hlast⟩
            rw [not_or, Bool.not_eq_false, Nat.not_lt] at hkeep
            exact hkeep
          · exact fits_of_value (.inr hlast) hd
        exact ⟨_, fit_of_fits hshort.1 hshort.2⟩

theorem integerPart_fits : fits96Bits (m.tdiv (10 ^ s)) = false ↔ 2 ^ 96 ≤ ⌊|(m : ℚ) / 10 ^ s|⌋ := by
  have hpow : (0 : ℚ) < 10 ^ s := by positivity
  have hnat : ((10 : Int) ^ s).natAbs = 10 ^ s := by
    rw [Int.natAbs_pow]
    rfl
  rw [fits96Bits, decide_eq_false_iff_not, Nat.not_lt, Int.natAbs_tdiv, hnat]
  show 2 ^ 96 ≤ m.natAbs / 10 ^ s ↔ _
  have habs : |(m : ℚ)| = (m.natAbs : ℚ) := by rw [Nat.cast_natAbs, Int.cast_abs]
  rw [Nat.le_div_iff_mul_le (by positivity), Int.le_floor, abs_div, abs_of_pos hpow, le_div_iff₀ hpow,
    habs, ← Nat.cast_le (α := ℚ)]
  simp only [Nat.cast_mul, Nat.cast_pow, Nat.cast_ofNat, Int.cast_pow, Int.cast_ofNat]

/-- Which error a number that cannot be held has. -/
def ErrorOf (q : ℚ) (kind : NumericErrorKind) : Prop :=
  (kind = .overflow ↔ 2 ^ 96 ≤ ⌊|q|⌋) ∧ (kind = .precision ↔ ¬ 2 ^ 96 ≤ ⌊|q|⌋)

/-- **The error of a number that cannot be held**: it is too large exactly when its integer part is. -/
theorem fit_error {kind : NumericErrorKind} (h : fit m s = .error kind) :
    ErrorOf ((m : ℚ) / 10 ^ s) kind := by
  have hhold : ∀ {n : Int} {t : Nat}, hold n t = .error kind → ErrorOf ((n : ℚ) / 10 ^ t) kind := by
    intro n t h
    unfold ErrorOf
    rw [← integerPart_fits]
    unfold hold at h
    split at h
    · cases h
    · split at h <;> cases h <;> simp_all
  induction s generalizing m with
  | zero => exact hhold h
  | succ s ih =>
    rw [fit] at h
    split at h
    · rename_i hdrop
      rw [← value_drop hdrop.2]
      exact ih h
    · exact hhold h

end Fit

/-! ## 3. Arithmetic -/

/-- The operations that are exact. -/
inductive Operation where
  | add
  | sub
  | mul
  deriving DecidableEq

def Operation.numericOp : Operation → NumericOp
  | .add => .add
  | .sub => .sub
  | .mul => .mul

def operate : Operation → Dec → Dec → Query NumericError Dec
  | .add => tryAdd
  | .sub => trySub
  | .mul => tryMul

/-- The path in native integers. -/
def fastPath : Operation → Dec → Dec → Option Dec
  | .add, a, b => a.fastAdd b false
  | .sub, a, b => a.fastAdd b true
  | .mul, a, b => a.fastMul b

/-- The path in wide integers. -/
def widePath : Operation → Dec → Dec → Query NumericError Dec
  | .add, a, b => a.wideAdd b .add
  | .sub, a, b => a.wideAdd b .sub
  | .mul, a, b => (fit (a.mantissa * b.mantissa) (a.scale + b.scale)).mapError fun kind =>
    .err ⟨.mul, a, b, kind⟩

/-- The exact result. -/
def exactly : Operation → ℚ → ℚ → ℚ
  | .add, x, y => x + y
  | .sub, x, y => x - y
  | .mul, x, y => x * y

section Operations

variable {op : Operation} {a b c : Dec}

/-- The exact integer and the scale that an operation leads to. -/
def exactInteger : Operation → Dec → Dec → Int × Nat
  | .add, a, b => (a.sumAt b false, max a.scale b.scale)
  | .sub, a, b => (a.sumAt b true, max a.scale b.scale)
  | .mul, a, b => (a.mantissa * b.mantissa, a.scale + b.scale)

theorem exactInteger_value (op : Operation) (a b : Dec) :
    ((exactInteger op a b).1 : ℚ) / 10 ^ (exactInteger op a b).2 = exactly op a.value b.value := by
  cases op with
  | add => exact value_sumAt a b false
  | sub => exact value_sumAt a b true
  | mul =>
    unfold exactInteger exactly value
    push_cast
    rw [pow_add, div_mul_div_comm]

theorem fastPath_eq_some (h : fastPath op a b = some c) :
    c.mantissa = (exactInteger op a b).1 ∧ c.scale = (exactInteger op a b).2 := by
  cases op with
  | add => exact fastAdd_eq_some h
  | sub => exact fastAdd_eq_some h
  | mul =>
    unfold fastPath fastMul at h
    obtain ⟨m, hm, h⟩ := Option.bind_eq_some_iff.mp h
    obtain ⟨hmantissa, hscale⟩ := tryFromI128WithScale_eq_some h
    exact ⟨hmantissa.trans (checked_eq_some hm), hscale⟩

theorem widePath_eq (op : Operation) (a b : Dec) : widePath op a b =
    (fit (exactInteger op a b).1 (exactInteger op a b).2).mapError fun kind => .err ⟨op.numericOp, a, b, kind⟩ := by
  cases op with
  | add => exact wideAdd_eq a b false
  | sub => exact wideAdd_eq a b true
  | mul => rfl

/-- **The paths agree**: what the fast path finds, the wide one finds too. -/
theorem widePath_of_fastPath (h : fastPath op a b = some c) : widePath op a b = .ok c := by
  obtain ⟨hmantissa, hscale⟩ := fastPath_eq_some h
  have hfit := fit_of_fits c.short c.fits
  rw [widePath_eq, mapError_eq_ok, ← hmantissa, ← hscale]
  exact hfit

theorem operate_eq (op : Operation) (a b : Dec) : operate op a b = widePath op a b := by
  have hpaths : operate op a b = (fastPath op a b).elim (widePath op a b) .ok := by
    cases op with
    | add =>
      show a.tryAdd b = (a.fastAdd b false).elim (a.wideAdd b .add) .ok
      unfold tryAdd
      cases a.fastAdd b false <;> rfl
    | sub =>
      show a.trySub b = (a.fastAdd b true).elim (a.wideAdd b .sub) .ok
      unfold trySub
      cases a.fastAdd b true <;> rfl
    | mul =>
      show a.tryMul b = (a.fastMul b).elim (widePath .mul a b) .ok
      unfold tryMul
      cases a.fastMul b <;> rfl
  rw [hpaths]
  cases hfast : fastPath op a b with
  | none => rfl
  | some d => exact (widePath_of_fastPath hfast).symm

theorem tryMul_value (h : a.tryMul b = .ok c) : c.value = a.value * b.value := by
  have hwide : widePath .mul a b = .ok c := (operate_eq .mul a b).symm.trans h
  rw [widePath_eq, mapError_eq_ok] at hwide
  exact (fit_value hwide).trans (exactInteger_value .mul a b)

/-- **Decimal arithmetic is exact or refused.** -/
theorem arithmetic_exact_or_refused (op : Operation) (a b : Dec) :
    ((∃ c, operate op a b = .ok c) ↔ Holdable (exactly op a.value b.value)) ∧
      (∀ c, operate op a b = .ok c → c.value = exactly op a.value b.value) ∧
      (∀ c, fastPath op a b = some c → widePath op a b = .ok c) ∧
      ∀ stop, operate op a b = .error stop → ∃ kind, stop = .err ⟨op.numericOp, a, b, kind⟩ ∧
        (kind = .overflow ↔ 2 ^ 96 ≤ ⌊|exactly op a.value b.value|⌋) ∧
        (kind = .precision ↔ ¬ 2 ^ 96 ≤ ⌊|exactly op a.value b.value|⌋) := by
  rw [operate_eq, widePath_eq, ← exactInteger_value]
  refine ⟨?_, fun c hc => ?_, fun c hc => ?_, fun stop hstop => ?_⟩
  · simp only [mapError_eq_ok]
    exact fit_ok_iff
  · exact fit_value (mapError_eq_ok.mp hc)
  · rw [← widePath_eq]
    exact widePath_of_fastPath hc
  · cases hfit : fit (exactInteger op a b).1 (exactInteger op a b).2 with
    | ok d =>
      rw [hfit] at hstop
      cases hstop
    | error kind =>
      rw [hfit] at hstop
      cases hstop
      exact ⟨kind, rfl, fit_error hfit⟩

/-- One tenth, and the largest whole number. -/
def tenth : Dec := ⟨1, 1, one.fits, by decide⟩

def largest : Dec := whole (2 ^ 96 - 1) rfl

theorem arithmetic_exact_or_refused_samples : ¬ Holdable (exactly .sub tenth.value largest.value) ∧
      exactly .mul tenth.value tenth.value = value ⟨1, 2, rfl, by decide⟩ ∧
      widePath .add tenth tenth = .ok ⟨2, 1, rfl, by decide⟩ ∧
      2 ^ 96 ≤ ⌊|exactly .add largest.value largest.value|⌋ := by
  have hsub := arithmetic_exact_or_refused .sub tenth largest
  have hmul := arithmetic_exact_or_refused .mul tenth tenth
  have hadd := arithmetic_exact_or_refused .add tenth tenth
  have hover := arithmetic_exact_or_refused .add largest largest
  refine ⟨fun h => ?_, (hmul.2.1 _ rfl).symm, hadd.2.2.1 _ rfl, ?_⟩
  · obtain ⟨c, hc⟩ := hsub.1.mpr h
    have hno : operate .sub tenth largest = .error (.err ⟨.sub, tenth, largest, .precision⟩) := rfl
    rw [hno] at hc
    cases hc
  · obtain ⟨kind, hstop, hkind, -⟩ := hover.2.2.2 (.err ⟨.add, largest, largest, .overflow⟩) rfl
    cases hstop
    exact hkind.mp rfl

end Operations

end Dec

end MlmForge.Rank
