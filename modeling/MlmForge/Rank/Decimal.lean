/-
  Subject:   The exact decimals of volume, money and rates.

  * **`Dec.tryAdd_value`**, **`Dec.trySub_value`** -- a sum or difference that is returned is exact.

  The narrow path of the source works in 128-bit integers and falls back to the wide one; its wide
  integers (512 bits) hold every operand that two decimals can lead to, and are unbounded here.
-/
import Mathlib.Tactic.FieldSimp
import Mathlib.Tactic.Linarith
import Mathlib.Tactic.Positivity
import Mathlib.Tactic.Ring
import MlmForge.Basis.Outcome

namespace MlmForge.Rank

open Option List

/-! ## 1. Decimals -/

/-- The most decimal places. -/
def maxScale : Nat := 28

/-- The most decimal places of an authored value. -/
def envelopeMaxScale : Nat := 10

def fits96Bits (m : Int) : Bool := m.natAbs < 2 ^ 96

/-- A decimal: `mantissa` in units of `10 ^ -scale`. -/
structure Dec where
  mantissa : Int
  scale : Nat
  fits : fits96Bits mantissa = true
  short : scale ≤ maxScale
  deriving DecidableEq

/-- A decimal authored by a plan or a caller. The envelope it is held to is checked where its text is
    read. -/
abbrev AuthoredDec := Dec

/-- The operation that failed. -/
inductive NumericOp where
  | add
  | sub
  | mul
  | divRatio
  | mulDivTrunc (divisor : Dec) (scale : Nat)
  | mulDivRatio (first second divisor : Dec)
  | floorDiv
  | allocate (scale : Nat)
  deriving DecidableEq

inductive NumericErrorKind where
  | overflow
  | precision
  | divisionByZero
  | negative
  | notWholeUnits
  deriving DecidableEq

/-- An arithmetic operation without an exact result that a decimal holds. -/
structure NumericError where
  op : NumericOp
  lhs : Dec
  rhs : Dec
  kind : NumericErrorKind
  deriving DecidableEq

namespace Dec

/-- A whole number of at most 96 bits. -/
def whole (n : Int) (h : fits96Bits n = true) : Dec := ⟨n, 0, h, Nat.zero_le _⟩

def zero : Dec := whole 0 rfl

def one : Dec := whole 1 rfl

/-- What an authored value stays below. -/
def envelopeLimit : Dec := whole (10 ^ 15) rfl

instance : LE Dec := ⟨fun a b => a.mantissa * 10 ^ b.scale ≤ b.mantissa * 10 ^ a.scale⟩

instance (a b : Dec) : Decidable (a ≤ b) :=
  inferInstanceAs (Decidable (a.mantissa * 10 ^ b.scale ≤ b.mantissa * 10 ^ a.scale))

/-- `Ord::min`. -/
def min (a b : Dec) : Dec := if a ≤ b then a else b

def isZero (d : Dec) : Bool := d.mantissa = 0

def isNegative (d : Dec) : Bool := d.mantissa < 0

/-! ## 2. Arithmetic -/

/-- Hold an integer at a scale as it is, or say why it cannot be held. -/
def hold (m : Int) (s : Nat) : Except NumericErrorKind Dec :=
  if h : s ≤ maxScale ∧ fits96Bits m = true then .ok ⟨m, s, h.2, h.1⟩
  else if fits96Bits (m.tdiv (10 ^ s)) then .error .precision else .error .overflow

/-- Hold the exact integer `m` at scale `s`, or say why it cannot be held: zeros at its end are
    dropped while it is too long. -/
def fit (m : Int) : Nat → Except NumericErrorKind Dec
  | 0 => hold m 0
  | s + 1 =>
    if (maxScale < s + 1 ∨ fits96Bits m = false) ∧ m.tmod 10 = 0 then fit (m.tdiv 10) s
    else hold m (s + 1)

/-- A result of 128-bit arithmetic. -/
def checked (n : Int) : Option Int := if -2 ^ 127 ≤ n ∧ n < 2 ^ 127 then some n else none

/-- `Decimal::try_from_i128_with_scale`. -/
def tryFromI128WithScale (m : Int) (s : Nat) : Option Dec :=
  if h : s ≤ maxScale ∧ fits96Bits m = true then some ⟨m, s, h.2, h.1⟩ else none

/-- The sum, or the difference when `b` is negated first. -/
def fastAdd (a b : Dec) (negateB : Bool) : Option Dec := do
  let s := max a.scale b.scale
  let ma ← checked (a.mantissa * 10 ^ (s - a.scale))
  let mb ← checked (b.mantissa * 10 ^ (s - b.scale))
  let mb ← (if negateB then checked (-mb) else some mb)
  let m ← checked (ma + mb)
  tryFromI128WithScale m s

def wideAdd (a b : Dec) (op : NumericOp) : Query NumericError Dec :=
  let s := max a.scale b.scale
  let wa := a.mantissa * 10 ^ (s - a.scale)
  let wb := b.mantissa * 10 ^ (s - b.scale)
  let m := if op = .sub then wa - wb else wa + wb
  (fit m s).mapError fun kind => .err ⟨op, a, b, kind⟩

/-- The exact sum, or an error when it cannot be held. -/
def tryAdd (a b : Dec) : Query NumericError Dec :=
  match a.fastAdd b false with
  | some sum => .ok sum
  | none => a.wideAdd b .add

/-- The exact difference, or an error when it cannot be held. -/
def trySub (a b : Dec) : Query NumericError Dec :=
  match a.fastAdd b true with
  | some diff => .ok diff
  | none => a.wideAdd b .sub

def fastMul (a b : Dec) : Option Dec := do
  let m ← checked (a.mantissa * b.mantissa)
  tryFromI128WithScale m (a.scale + b.scale)

/-- The exact product, or an error when it cannot be held. -/
def tryMul (a b : Dec) : Query NumericError Dec :=
  match a.fastMul b with
  | some product => .ok product
  | none => (fit (a.mantissa * b.mantissa) (a.scale + b.scale)).mapError fun kind =>
    .err ⟨.mul, a, b, kind⟩

/-! ## 3. Values -/

/-- The number a decimal stands for. -/
def value (d : Dec) : ℚ := d.mantissa / 10 ^ d.scale

def InEnvelope (d : Dec) : Prop :=
  (∃ k : Int, d.value = k / 10 ^ envelopeMaxScale) ∧ |d.value| < envelopeLimit.value

variable {a b : Dec}

theorem le_iff : a ≤ b ↔ a.value ≤ b.value := by
  have ha : (0 : ℚ) < 10 ^ a.scale := by positivity
  have hb : (0 : ℚ) < 10 ^ b.scale := by positivity
  unfold value
  rw [div_le_div_iff₀ ha hb]
  show a.mantissa * 10 ^ b.scale ≤ b.mantissa * 10 ^ a.scale ↔ _
  exact_mod_cast Iff.rfl

theorem decide_le_mono {required v v' : Dec} (h : decide (required ≤ v) = true)
    (hle : v.value ≤ v'.value) : decide (required ≤ v') = true :=
  decide_eq_true (le_iff.mpr ((le_iff.mp (of_decide_eq_true h)).trans hle))

@[simp] theorem value_zero : zero.value = 0 := by
  simp [zero, whole, value]

theorem value_min (a b : Dec) : (a.min b).value = Min.min a.value b.value := by
  unfold min
  split
  · rename_i h
    exact (min_eq_left (le_iff.mp h)).symm
  · rename_i h
    exact (min_eq_right (le_of_not_ge fun hab => h (le_iff.mpr hab))).symm

variable {m : Int} {s : Nat} {d : Dec}

theorem hold_value (h : hold m s = .ok d) : d.value = m / 10 ^ s := by
  unfold hold at h
  split at h
  · cases h
    rfl
  · split at h <;> cases h

theorem value_drop (h : m.tmod 10 = 0) : ((m.tdiv 10 : Int) : ℚ) / 10 ^ s = m / 10 ^ (s + 1) := by
  have hm : (m.tdiv 10) * 10 = m := Int.tdiv_mul_cancel (Int.dvd_of_tmod_eq_zero h)
  have hq : ((m.tdiv 10 : Int) : ℚ) * 10 = m := by exact_mod_cast hm
  rw [← hq, pow_succ]
  field_simp

theorem fit_value (h : fit m s = .ok d) : d.value = m / 10 ^ s := by
  induction s generalizing m with
  | zero => exact hold_value h
  | succ s ih =>
    unfold fit at h
    split at h
    · rename_i hdrop
      rw [ih h, value_drop hdrop.2]
    · exact hold_value h

theorem value_add (a b : Dec) (ha : a.scale ≤ s) (hb : b.scale ≤ s) :
    ((a.mantissa * 10 ^ (s - a.scale) + b.mantissa * 10 ^ (s - b.scale) : Int) : ℚ) / 10 ^ s =
      a.value + b.value := by
  have hsa : (10 : ℚ) ^ s = 10 ^ (s - a.scale) * 10 ^ a.scale := by
    rw [← pow_add, Nat.sub_add_cancel ha]
  have hsb : (10 : ℚ) ^ s = 10 ^ (s - b.scale) * 10 ^ b.scale := by
    rw [← pow_add, Nat.sub_add_cancel hb]
  push_cast
  rw [add_div]
  unfold value
  congr 1
  · rw [hsa]
    field_simp
  · rw [hsb]
    field_simp

theorem checked_eq_some {n : Int} (h : checked n = some m) : m = n := by
  unfold checked at h
  split at h
  · exact (some.inj h).symm
  · cases h

variable {c : Dec}

theorem tryFromI128WithScale_eq_some
    (h : tryFromI128WithScale m s = some c) : c.mantissa = m ∧ c.scale = s := by
  unfold tryFromI128WithScale at h
  split at h
  · cases h
    exact ⟨rfl, rfl⟩
  · cases h

/-- What is added in the end. -/
def addend (b : Dec) (negateB : Bool) : Int := if negateB then -b.mantissa else b.mantissa

/-- The exact integer of a sum or difference at the larger scale. -/
def sumAt (a b : Dec) (negateB : Bool) : Int :=
  a.mantissa * 10 ^ (max a.scale b.scale - a.scale) +
    b.addend negateB * 10 ^ (max a.scale b.scale - b.scale)

theorem value_sumAt (a b : Dec) (negateB : Bool) :
    ((a.sumAt b negateB : Int) : ℚ) / 10 ^ max a.scale b.scale =
      if negateB then a.value - b.value else a.value + b.value := by
  cases negateB with
  | false => exact value_add a b (le_max_left _ _) (le_max_right _ _)
  | true =>
    have hneg : fits96Bits (-b.mantissa) = true := by
      rw [fits96Bits, Int.natAbs_neg]
      exact b.fits
    have hsum := value_add a ⟨-b.mantissa, b.scale, hneg, b.short⟩ (le_max_left _ _)
      (le_max_right a.scale b.scale)
    refine hsum.trans ?_
    rw [if_pos rfl, sub_eq_add_neg]
    unfold value
    push_cast
    rw [neg_div]

variable {negateB : Bool}

theorem fastAdd_eq_some (h : a.fastAdd b negateB = some c) :
    c.mantissa = a.sumAt b negateB ∧ c.scale = max a.scale b.scale := by
  unfold fastAdd at h
  obtain ⟨ma, hma, h⟩ := bind_eq_some_iff.mp h
  obtain ⟨mb, hmb, h⟩ := bind_eq_some_iff.mp h
  obtain ⟨mb', hmb', h⟩ := bind_eq_some_iff.mp h
  obtain ⟨m, hm, h⟩ := bind_eq_some_iff.mp h
  have hadd : mb' = b.addend negateB * 10 ^ (max a.scale b.scale - b.scale) := by
    unfold addend
    cases negateB with
    | false => exact (some.inj hmb').symm.trans (checked_eq_some hmb)
    | true =>
      rw [if_pos rfl] at hmb' ⊢
      rw [checked_eq_some hmb', checked_eq_some hmb, Int.neg_mul]
  obtain ⟨hmantissa, hscale⟩ := tryFromI128WithScale_eq_some h
  rw [hmantissa, checked_eq_some hm, checked_eq_some hma, hadd]
  exact ⟨rfl, hscale⟩

theorem fastAdd_value (h : a.fastAdd b negateB = some c) :
    c.value = if negateB then a.value - b.value else a.value + b.value := by
  obtain ⟨hm, hs⟩ := fastAdd_eq_some h
  rw [← value_sumAt, value, hm, hs]

theorem wideAdd_eq (a b : Dec) (negateB : Bool) : a.wideAdd b (if negateB then .sub else .add) =
      (fit (a.sumAt b negateB) (max a.scale b.scale)).mapError fun kind =>
        .err ⟨if negateB then .sub else .add, a, b, kind⟩ := by
  cases negateB with
  | false => rfl
  | true =>
    have hm : a.sumAt b true = a.mantissa * 10 ^ (max a.scale b.scale - a.scale) -
        b.mantissa * 10 ^ (max a.scale b.scale - b.scale) := by
      rw [sumAt, addend, if_pos rfl, Int.neg_mul, ← Int.sub_eq_add_neg]
    rw [hm]
    rfl

theorem mapError_eq_ok {ε ε' α : Type} {m : Except ε α} {f : ε → ε'} {a : α} :
    m.mapError f = .ok a ↔ m = .ok a := by
  cases m <;> simp [Except.mapError]

theorem wideAdd_value (negateB : Bool) (h : a.wideAdd b (if negateB then .sub else .add) = .ok c) :
    c.value = if negateB then a.value - b.value else a.value + b.value := by
  rw [wideAdd_eq, mapError_eq_ok] at h
  exact (fit_value h).trans (value_sumAt a b negateB)

/-- **A sum that is returned is exact.** -/
theorem tryAdd_value (h : a.tryAdd b = .ok c) : c.value = a.value + b.value := by
  unfold tryAdd at h
  split at h
  · rename_i hfast
    cases h
    exact fastAdd_value hfast
  · exact wideAdd_value false h

/-- **A difference that is returned is exact.** -/
theorem trySub_value (h : a.trySub b = .ok c) : c.value = a.value - b.value := by
  unfold trySub at h
  split at h
  · rename_i hfast
    cases h
    exact fastAdd_value hfast
  · exact wideAdd_value true h

/-- A running sum. -/
def addAll (start : Dec) (l : List Dec) : Query NumericError Dec := l.foldlM tryAdd start

theorem addAll_value {start total : Dec} {l : List Dec} (h : start.addAll l = .ok total) :
    total.value = start.value + (l.map value).sum := by
  induction l generalizing start with
  | nil =>
    cases h
    simp
  | cons d l ih =>
    unfold addAll at h
    rw [foldlM_cons] at h
    obtain ⟨next, hnext, h⟩ := Query.bind_eq_ok.mp h
    rw [ih h, tryAdd_value hnext, map_cons, sum_cons]
    ring

end Dec

end MlmForge.Rank
