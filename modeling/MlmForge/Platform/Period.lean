/-
  Subject:   The periods of a compensation plan and their labels.

  Times are day numbers at UTC midnight, as `dateOnly` reduces them; the clock time and the location of a caller
  play no part. Counts of days, months and periods are unbounded integers: between dates of four-digit years
  they stay below `2 ^ 23`. The duration between two days is in nanoseconds and saturates at 64 bits.

  * **`labels_form_a_calendar`** -- labels name periods and compare as the periods do.
-/
import MlmForge.Basis.Calendar
import MlmForge.Basis.Numerals
import MlmForge.Basis.Outcome

namespace MlmForge.Platform

open Calendar Text List

/-! ## 1. Times -/

/-- `time.Duration` between two days, in nanoseconds. -/
def sub (n m : ℤ) : ℤ := max (-2 ^ 63) (min (2 ^ 63 - 1) ((n - m) * (24 * 3600 * 10 ^ 9)))

def dateOnly (t : ℤ) : ℤ := date (year t) (month t) (day t)

/-- `time.Format` of a number, with zeros up to a width. -/
def appendInt (width : ℕ) (n : ℤ) : Text :=
  (if n < 0 then ascii "-" else []) ++ zeroPadded width n.natAbs

/-- The verb `%0<width>d`; the sign counts for the width. -/
def sprintfD (width : ℕ) (n : ℤ) : Text :=
  if n < 0 then ascii "-" ++ zeroPadded (width - 1) n.natAbs else zeroPadded width n.natAbs

/-- `start.Format("2006-01")` -/
def formatYearMonth (n : ℤ) : Text := appendInt 4 (year n) ++ ascii "-" ++ appendInt 2 (month n)

/-! ## 2. The sequence -/

inductive Length where
  | week
  | semiMonth
  | month
  | quarter
  deriving DecidableEq

/-- A plan's periods; `anchor` is its start date. -/
structure Sequence where
  length : Length
  anchor : ℤ
  deriving DecidableEq

namespace Sequence

variable (s : Sequence)

/-- The start of the period that contains `t`. -/
def periodStart (t : ℤ) : ℤ :=
  let d := dateOnly t
  match s.length with
  | .month => date (year d) (Calendar.month d) 1
  | .quarter => date (year d) ((Calendar.month d - 1).tdiv 3 * 3 + 1) 1
  | .semiMonth =>
    if day d ≤ 15 then date (year d) (Calendar.month d) 1 else date (year d) (Calendar.month d) 16
  | .week =>
    let days := (sub d s.anchor).tdiv (24 * 3600 * 10 ^ 9)
    let bucket := days.tdiv 7
    -- floor toward negative infinity for dates before the anchor
    let bucket := if days < 0 ∧ days.tmod 7 ≠ 0 then bucket - 1 else bucket
    addDate s.anchor 0 0 (bucket * 7)

/-- The half of its month that starts at `start`. -/
def half (start : ℤ) : ℤ := if day start = 16 then 1 else 0

/-- The months in `total` halves; the truncated quotient of a negative number is normalized. -/
def monthDelta (total : ℤ) : ℤ := if total.tmod 2 < 0 then total.tdiv 2 - 1 else total.tdiv 2

def newHalf (total : ℤ) : ℤ := if total.tmod 2 < 0 then total.tmod 2 + 2 else total.tmod 2

/-- The start of the period `n` steps from `start`. -/
def advance (start n : ℤ) : ℤ :=
  match s.length with
  | .month => addDate start 0 n 0
  | .quarter => addDate start 0 (3 * n) 0
  | .semiMonth =>
    let total := half start + n
    let base := addDate (date (year start) (Calendar.month start) 1) 0 (monthDelta total) 0
    if newHalf total = 1 then date (year base) (Calendar.month base) 16 else base
  | .week => addDate start 0 0 (7 * n)

/-- The label of the period that starts at `start`. -/
def labelOfStart (start : ℤ) : Text :=
  match s.length with
  | .month => formatYearMonth start
  | .quarter => sprintfD 4 (year start) ++ ascii "-Q" ++ sprintfD 0 ((Calendar.month start - 1).tdiv 3 + 1)
  | .semiMonth => formatYearMonth start ++ ascii "-H" ++ sprintfD 0 (if day start = 16 then 2 else 1)
  | .week => sprintfD 4 (isoYear start) ++ ascii "-W" ++ sprintfD 2 (isoWeek start)

/-- The label of the period that contains `t`. -/
def label (t : ℤ) : Text := s.labelOfStart (s.periodStart t)

/-- The labels of the `n` periods before the one that contains `t`, the most recent first. -/
def priorLabels (t n : ℤ) : List Text :=
  if n ≤ 0 then []
  else (range n.toNat).map fun i : ℕ => s.label (s.advance (s.periodStart t) (-(i + 1)))

/-- The loop over the starts up to `last`. -/
def startsUpTo (last : ℤ) : ℕ → ℤ → Query Empty (List ℤ)
  | 0, cur => if last < cur then .ok [] else .error .loop
  | fuel + 1, cur =>
    if last < cur then .ok []
    else do
      let starts ← startsUpTo last fuel (s.advance cur 1)
      .ok (cur :: starts)

/-- The start of each period from the one that contains `first` to the one that contains `last`. -/
def periodStartsInRange (first last : ℤ) : Query Empty (List ℤ) :=
  if dateOnly last < dateOnly first then .ok []
  else
    let start := s.periodStart first
    let stop := s.periodStart last
    s.startsUpTo stop (stop - start + 1).toNat start

/-! ## 3. The periods -/

/-- The periods of a plan: months, quarters, halves of months, or weeks from its start date. -/
def tiling : Tiling :=
  match s.length with
  | .month => months
  | .quarter => months.coarser 3 (by decide)
  | .semiMonth => halfMonths
  | .week => Tiling.even s.anchor 7 (by decide)

/-- The whole days that a duration can hold. -/
def maxDays : ℤ := 106751

/-- Dates of the years 1 to 9998; for weeks, within what a duration can hold of the plan's start. -/
structure InRange (d : ℤ) : Prop where
  first : 1 ≤ year d
  last : year d ≤ 9998
  reach : s.length = .week → |d - s.anchor| ≤ maxDays

/-- A period some of whose dates are in range. -/
def PeriodInRange (k : ℤ) : Prop := ∃ d, s.InRange d ∧ s.tiling.index d = k

/-! ## 4. The code goes through the periods -/

theorem dateOnly_eq (t : ℤ) : dateOnly t = t := date_civil t

theorem tdiv_eq_ite (y c : ℤ) : y.tdiv c = if 0 ≤ y then y / c else -(-y / c) := by
  split
  · rename_i h
    exact Int.tdiv_eq_ediv_of_nonneg h
  · rename_i h
    rw [← Int.tdiv_eq_ediv_of_nonneg (by omega), Int.neg_tdiv, neg_neg]

theorem tmod_eq_ite (y c : ℤ) : y.tmod c = if 0 ≤ y then y % c else -(-y % c) := by
  split
  · rename_i h
    exact Int.tmod_eq_emod_of_nonneg h
  · rename_i h
    rw [← Int.tmod_eq_emod_of_nonneg (by omega), Int.neg_tmod, neg_neg]

theorem sub_days (n m : ℤ) : (sub n m).tdiv (24 * 3600 * 10 ^ 9) = max (-maxDays) (min maxDays (n - m)) := by
  unfold sub maxDays
  rw [tdiv_eq_ite]
  norm_num
  split_ifs <;> omega

/-- The days are still those of the same week when they saturate. -/
def WithinReach (d : ℤ) : Prop := s.length = .week → -106757 ≤ d - s.anchor ∧ d - s.anchor ≤ 106756

theorem bucket_eq {days : ℤ} :
    (if days < 0 ∧ days.tmod 7 ≠ 0 then days.tdiv 7 - 1 else days.tdiv 7) = days / 7 := by
  rw [tdiv_eq_ite, tmod_eq_ite]
  split_ifs <;> omega

variable {d : ℤ}

/-- **The start that the code finds is the start of the date's period.** -/
theorem periodStart_eq (h : s.WithinReach d) : s.periodStart d = s.tiling.start (s.tiling.index d) := by
  obtain ⟨length, anchor⟩ := s
  unfold periodStart
  rw [dateOnly_eq]
  cases length with
  | month =>
    show date (year d) (Calendar.month d) 1 = monthStart (monthIndex d)
    rw [date_same_month]
    omega
  | quarter =>
    have hmonth : 0 ≤ monthIndex d % 12 := by omega
    show date (monthIndex d / 12) ((monthIndex d % 12 + 1 - 1).tdiv 3 * 3 + 1) 1 =
      monthStart (3 * (monthIndex d / 3))
    rw [add_sub_cancel_right, Int.tdiv_eq_ediv_of_nonneg hmonth]
    unfold date
    rw [show 12 * (monthIndex d / 12) + (monthIndex d % 12 / 3 * 3 + 1 - 1) = 3 * (monthIndex d / 3) by omega]
    omega
  | semiMonth =>
    show (if day d ≤ 15 then date (year d) (Calendar.month d) 1 else date (year d) (Calendar.month d) 16) =
      monthStart ((2 * monthIndex d + if day d ≤ 15 then 0 else 1) / 2) +
        15 * ((2 * monthIndex d + if day d ≤ 15 then 0 else 1) % 2)
    rw [date_same_month, date_same_month]
    split
    · rw [show (2 * monthIndex d + 0) / 2 = monthIndex d by omega]
      omega
    · rw [show (2 * monthIndex d + 1) / 2 = monthIndex d by omega]
      omega
  | week =>
    have hreach : -106757 ≤ d - anchor ∧ d - anchor ≤ 106756 := h rfl
    show addDate anchor 0 0 (_ * 7) = anchor + 7 * ((d - anchor) / 7)
    rw [addDate_days, bucket_eq, sub_days]
    unfold maxDays
    show anchor + max (-106751) (min 106751 (d - anchor)) / 7 * 7 = _
    omega

theorem monthIndex_half (h : ℤ) : monthIndex (halfMonths.start h) = h / 2 :=
  monthIndex_monthStart_add (h / 2) (by omega) (by omega)

theorem day_half (h : ℤ) : day (halfMonths.start h) = 15 * (h % 2) + 1 := by
  unfold day
  rw [monthIndex_half]
  show monthStart (h / 2) + 15 * (h % 2) - monthStart (h / 2) + 1 = _
  omega

theorem half_start (h : ℤ) : half (halfMonths.start h) = h % 2 := by
  unfold half
  rw [day_half]
  split <;> omega

theorem monthDelta_eq (total : ℤ) : monthDelta total = total / 2 := by
  unfold monthDelta
  rw [tdiv_eq_ite, tmod_eq_ite]
  split_ifs <;> omega

theorem newHalf_eq (total : ℤ) : newHalf total = total % 2 := by
  unfold newHalf
  rw [tmod_eq_ite]
  split_ifs <;> omega

/-- **Advancing goes from period to period.** -/
theorem advance_start (k n : ℤ) : s.advance (s.tiling.start k) n = s.tiling.start (k + n) := by
  obtain ⟨length, anchor⟩ := s
  cases length with
  | month => exact addDate_months k n
  | quarter =>
    show addDate (monthStart (3 * k)) 0 (3 * n) 0 = monthStart (3 * (k + n))
    rw [addDate_months, mul_add]
  | semiMonth =>
    have hbase : addDate (date (year (halfMonths.start k)) (Calendar.month (halfMonths.start k)) 1) 0
        ((k % 2 + n) / 2) 0 = monthStart ((k + n) / 2) := by
      rw [date_same_month, monthIndex_half, sub_self, add_zero, addDate_months]
      congr 1
      omega
    have hindex : monthIndex (monthStart ((k + n) / 2)) = (k + n) / 2 := months.index_start _
    have hstart : halfMonths.start (k + n) = monthStart ((k + n) / 2) + 15 * ((k + n) % 2) := rfl
    simp only [advance, tiling, half_start, monthDelta_eq, newHalf_eq, hbase, hstart]
    split
    · rw [date_same_month, hindex]
      omega
    · omega
  | week =>
    show addDate (anchor + 7 * k) 0 0 (7 * n) = anchor + 7 * (k + n)
    rw [addDate_days]
    omega

/-! ## 5. Labels -/

variable {width : ℕ} {n : ℤ}

theorem appendInt_eq (hw : 0 < width) (h0 : 0 ≤ n) (h : n.toNat < 10 ^ width) :
    appendInt width n = fixed width n.toNat := by
  have habs : n.natAbs = n.toNat := by omega
  unfold appendInt
  rw [if_neg (by omega), nil_append, habs, zeroPadded_eq_fixed hw h]

theorem sprintfD_eq (hw : 0 < width) (h0 : 0 ≤ n) (h : n.toNat < 10 ^ width) :
    sprintfD width n = fixed width n.toNat := by
  have habs : n.natAbs = n.toNat := by omega
  unfold sprintfD
  rw [if_neg (by omega), habs, zeroPadded_eq_fixed hw h]

theorem sprintfD_digit (h0 : 0 ≤ n) (h : n < 10) : sprintfD 0 n = fixed 1 n.toNat := by
  have hsmall : n.natAbs < 10 := by omega
  have habs : n.natAbs = n.toNat := by omega
  unfold sprintfD zeroPadded decimal
  rw [if_neg (by omega), Nat.zero_sub, digits, if_pos hsmall, habs, fixed, Nat.mod_eq_of_lt (by omega)]
  rfl

theorem formatYearMonth_eq (h0 : 0 ≤ monthIndex n / 12) (h : monthIndex n / 12 < 10000) : formatYearMonth n =
      fixed 4 (monthIndex n / 12).toNat ++ ascii "-" ++ fixed 2 (monthIndex n % 12 + 1).toNat := by
  unfold formatYearMonth year Calendar.month
  rw [appendInt_eq (by decide) h0 (by norm_num; omega), appendInt_eq (by decide) (by omega) (by norm_num; omega)]

/-- What the labels of periods say: they compare as the periods, and differ where the periods do. -/
structure Names (k k' : ℤ) : Prop where
  lt_iff : s.labelOfStart (s.tiling.start k) < s.labelOfStart (s.tiling.start k') ↔ k < k'
  eq_iff : s.labelOfStart (s.tiling.start k) = s.labelOfStart (s.tiling.start k') ↔ k = k'

/-- The fields of the label of the `k`th period: its year, and what of the year it is. -/
structure Fields (sep : Text) (width : ℕ) (k y m : ℤ) : Prop where
  label : s.labelOfStart (s.tiling.start k) = fixed 4 y.toNat ++ sep ++ fixed width m.toNat
  year : 0 ≤ y ∧ y < 10000
  part : 0 ≤ m ∧ m < 10 ^ width

variable {k k' : ℤ}

theorem names_of_fields {s : Sequence} {sep : Text} {y m y' m' : ℤ}
    (h : s.Fields sep width k y m) (h' : s.Fields sep width k' y' m')
    (hlt : (y < y' ∨ (y = y' ∧ m < m')) ↔ k < k') (heq : (y = y' ∧ m = m') ↔ k = k') : s.Names k k' := by
  have hfour : ∀ {y : ℤ}, 0 ≤ y ∧ y < 10000 → y.toNat < 10 ^ 4 := fun hy => by norm_num; omega
  have hpart : ∀ {m : ℤ}, 0 ≤ m ∧ m < 10 ^ width → m.toNat < 10 ^ width := by
    intro m hm
    rw [Int.toNat_lt hm.1]
    exact_mod_cast hm.2
  obtain ⟨hy, hy'⟩ := And.intro h.year h'.year
  obtain ⟨hm, hm'⟩ := And.intro h.part h'.part
  constructor
  · rw [h.label, h'.label, fields_lt_iff _ (hfour hy) (hfour hy') (hpart hm) (hpart hm'), ← hlt]
    omega
  · rw [h.label, h'.label, fields_eq_iff _ (hfour hy) (hfour hy') (hpart hm) (hpart hm'), ← heq]
    omega

variable {anchor : ℤ}

theorem fields_month (hk : 0 ≤ k / 12 ∧ k / 12 < 10000) :
    (Sequence.mk .month anchor).Fields (ascii "-") 2 k (k / 12) (k % 12 + 1) := by
  refine ⟨?_, hk, by norm_num; omega⟩
  have hindex : monthIndex (monthStart k) = k := months.index_start k
  have hformat : formatYearMonth (monthStart k) = _ :=
    formatYearMonth_eq (by rw [hindex]; exact hk.1) (by rw [hindex]; exact hk.2)
  rw [hindex] at hformat
  exact hformat

theorem fields_quarter (hk : 0 ≤ k / 4 ∧ k / 4 < 10000) :
    (Sequence.mk .quarter anchor).Fields (ascii "-Q") 1 k (k / 4) (k % 4 + 1) := by
  refine ⟨?_, hk, by norm_num; omega⟩
  have hindex : monthIndex (monthStart (3 * k)) = 3 * k := months.index_start (3 * k)
  show sprintfD 4 (year (monthStart (3 * k))) ++ ascii "-Q" ++
    sprintfD 0 ((Calendar.month (monthStart (3 * k)) - 1).tdiv 3 + 1) = _
  unfold year Calendar.month
  rw [hindex, add_sub_cancel_right, Int.tdiv_eq_ediv_of_nonneg (by omega), show 3 * k / 12 = k / 4 by omega,
    show 3 * k % 12 / 3 = k % 4 by omega, sprintfD_eq (by decide) hk.1 (by norm_num; omega),
    sprintfD_digit (by omega) (by omega)]

/-- The year of a week's Thursday has four digits where the week starts in the years 1 to 9998, or just before
    them. -/
theorem fields_week (hk : 0 ≤ isoYear (anchor + 7 * k) ∧ isoYear (anchor + 7 * k) < 10000) :
    (Sequence.mk .week anchor).Fields (ascii "-W") 2 k (isoYear (anchor + 7 * k)) (isoWeek (anchor + 7 * k)) := by
  have hweek := isoWeek_range (anchor + 7 * k)
  refine ⟨?_, hk, by norm_num; omega⟩
  show sprintfD 4 (isoYear (anchor + 7 * k)) ++ ascii "-W" ++ sprintfD 2 (isoWeek (anchor + 7 * k)) = _
  rw [sprintfD_eq (by decide) hk.1 (by norm_num; omega), sprintfD_eq (by decide) (by omega) (by norm_num; omega)]

theorem names_semiMonth (hk : 0 ≤ k / 2 / 12 ∧ k / 2 / 12 < 10000)
    (hk' : 0 ≤ k' / 2 / 12 ∧ k' / 2 / 12 < 10000) : (Sequence.mk .semiMonth anchor).Names k k' := by
  have hlabel : ∀ {k : ℤ}, 0 ≤ k / 2 / 12 ∧ k / 2 / 12 < 10000 →
      (Sequence.mk .semiMonth anchor).labelOfStart ((Sequence.mk .semiMonth anchor).tiling.start k) =
        (fixed 4 (k / 2 / 12).toNat ++ ascii "-" ++ fixed 2 (k / 2 % 12 + 1).toNat) ++
          (ascii "-H" ++ fixed 1 (k % 2 + 1).toNat) := by
    intro k hk
    have hformat := formatYearMonth_eq (n := halfMonths.start k) (by rw [monthIndex_half]; exact hk.1)
      (by rw [monthIndex_half]; exact hk.2)
    have hhalf : (if day (halfMonths.start k) = 16 then (2 : ℤ) else 1) = k % 2 + 1 := by
      rw [day_half]
      split <;> omega
    rw [monthIndex_half] at hformat
    show formatYearMonth (halfMonths.start k) ++ ascii "-H" ++
      sprintfD 0 (if day (halfMonths.start k) = 16 then 2 else 1) = _
    rw [hformat, hhalf, sprintfD_digit (by omega) (by omega), append_assoc]
  have hyear : ∀ {y : ℤ}, 0 ≤ y ∧ y < 10000 → y.toNat < 10 ^ 4 := fun hy => by norm_num; omega
  have hmonth : ∀ m : ℤ, (m % 12 + 1).toNat < 10 ^ 2 := fun m => by norm_num; omega
  have hhalf : ∀ h : ℤ, (h % 2 + 1).toNat < 10 ^ 1 := fun h => by norm_num; omega
  have hsep : ¬ ascii "-H" < ascii "-H" := List.lt_irrefl _
  constructor
  · rw [hlabel hk, hlabel hk', append_lt_iff (by simp), append_lt_iff rfl,
      fields_lt_iff _ (hyear hk) (hyear hk') (hmonth _) (hmonth _),
      fields_eq_iff _ (hyear hk) (hyear hk') (hmonth _) (hmonth _), fixed_lt_iff (hhalf _) (hhalf _)]
    simp only [hsep, false_or, true_and]
    omega
  · rw [hlabel hk, hlabel hk', append_eq_iff (by simp), append_eq_iff rfl,
      fields_eq_iff _ (hyear hk) (hyear hk') (hmonth _) (hmonth _), fixed_inj (hhalf _) (hhalf _)]
    simp only [true_and]
    omega

theorem isoYear_range (h1 : 1 ≤ year d) (h2 : year d ≤ 9998) (hle : n ≤ d) (hlt : d < n + 7) :
    0 ≤ isoYear n ∧ isoYear n < 10000 := by
  rw [year_eq] at h1 h2
  have hfirst : yearStart 1 ≤ d := years.le_index_iff.mp h1
  have hlast : d < yearStart 9999 := years.index_lt_iff.mp (Int.lt_add_one_of_le h2)
  have hthursday := thursday_eq n
  refine ⟨years.le_index_iff.mpr ?_, years.index_lt_iff.mpr ?_⟩
  · show yearStart 0 ≤ thursday n
    unfold yearStart at *
    omega
  · show thursday n < yearStart 10000
    unfold yearStart at *
    omega

/-- **Labels of periods in range compare as the periods do.** -/
theorem names (hk : s.PeriodInRange k) (hk' : s.PeriodInRange k') : s.Names k k' := by
  obtain ⟨length, anchor⟩ := s
  obtain ⟨d, hd, rfl⟩ := hk
  obtain ⟨d', hd', rfl⟩ := hk'
  have hyear : 1 ≤ monthIndex d / 12 ∧ monthIndex d / 12 ≤ 9998 := ⟨hd.first, hd.last⟩
  have hyear' : 1 ≤ monthIndex d' / 12 ∧ monthIndex d' / 12 ≤ 9998 := ⟨hd'.first, hd'.last⟩
  cases length with
  | month =>
    show (Sequence.mk .month anchor).Names (monthIndex d) (monthIndex d')
    exact names_of_fields (fields_month (by omega)) (fields_month (by omega)) (by omega) (by omega)
  | quarter =>
    show (Sequence.mk .quarter anchor).Names (monthIndex d / 3) (monthIndex d' / 3)
    exact names_of_fields (fields_quarter (by omega)) (fields_quarter (by omega)) (by omega) (by omega)
  | semiMonth =>
    have hindex : ∀ n, halfMonths.index n / 2 = monthIndex n := by
      intro n
      show (2 * monthIndex n + if day n ≤ 15 then 0 else 1) / 2 = _
      split <;> omega
    show (Sequence.mk .semiMonth anchor).Names (halfMonths.index d) (halfMonths.index d')
    exact names_semiMonth (by rw [hindex]; omega) (by rw [hindex]; omega)
  | week =>
    show (Sequence.mk .week anchor).Names ((d - anchor) / 7) ((d' - anchor) / 7)
    refine names_of_fields (fields_week (isoYear_range hd.first hd.last (by omega) (by omega)))
      (fields_week (isoYear_range hd'.first hd'.last (by omega) (by omega))) ?_ ?_
    · rw [iso_lt_iff]
      omega
    · rw [iso_eq_iff]
      omega

/-! ## 6. The calendar of a plan -/

variable {s}

theorem PeriodInRange.withinReach (h : s.PeriodInRange (s.tiling.index d)) : s.WithinReach d := by
  intro hweek
  obtain ⟨x, hx, hindex⟩ := h
  have hreach := abs_le.mp (hx.reach hweek)
  obtain ⟨length, anchor⟩ := s
  cases hweek
  have hreach : -106751 ≤ x - anchor ∧ x - anchor ≤ 106751 := hreach
  have hsame : (x - anchor) / 7 = (d - anchor) / 7 := hindex
  show -106757 ≤ d - anchor ∧ d - anchor ≤ 106756
  omega

theorem InRange.period (h : s.InRange d) : s.PeriodInRange (s.tiling.index d) := ⟨d, h, rfl⟩

theorem label_eq (h : s.PeriodInRange (s.tiling.index d)) :
    s.label d = s.labelOfStart (s.tiling.start (s.tiling.index d)) := by
  rw [label, periodStart_eq s h.withinReach]

theorem label_start (h : s.PeriodInRange k) :
    s.label (s.tiling.start k) = s.labelOfStart (s.tiling.start k) := by
  have hlabel := label_eq (s := s) (d := s.tiling.start k) (by rw [Tiling.index_start]; exact h)
  rw [Tiling.index_start] at hlabel
  exact hlabel

theorem InRange.between {d' x : ℤ} (h : s.InRange d) (h' : s.InRange d') (hd : d ≤ x) (hd' : x ≤ d') :
    s.InRange x := by
  have hyear : ∀ {n m : ℤ}, n ≤ m → year n ≤ year m := by
    intro n m hnm
    rw [year_eq, year_eq]
    exact years.index_mono hnm
  refine ⟨h.first.trans (hyear hd), (hyear hd').trans h'.last, fun hweek => ?_⟩
  have hlow := abs_le.mp (h.reach hweek)
  have hhigh := abs_le.mp (h'.reach hweek)
  exact abs_le.mpr ⟨by omega, by omega⟩

theorem PeriodInRange.between {j : ℤ} (h : s.PeriodInRange k) (h' : s.PeriodInRange k') (hk : k ≤ j)
    (hk' : j ≤ k') : s.PeriodInRange j := by
  obtain ⟨d, hd, rfl⟩ := h
  obtain ⟨d', hd', rfl⟩ := h'
  rcases le_total d d' with hle | hle
  · obtain ⟨x, hx, hx', hindex⟩ := (s.tiling.meets_iff hle).mpr ⟨hk, hk'⟩
    exact ⟨x, hd.between hd' hx hx', hindex⟩
  · have hback := s.tiling.index_mono hle
    exact ⟨d, hd, by omega⟩

theorem startsUpTo_eq (k : ℤ) : ∀ (fuel n : ℕ), n ≤ fuel → ∀ j, k - j + 1 = n →
    s.startsUpTo (s.tiling.start k) fuel (s.tiling.start j) =
      .ok ((range n).map fun i : ℕ => s.tiling.start (j + i)) := by
  intro fuel
  induction fuel with
  | zero =>
    intro n hn j hj
    obtain rfl := Nat.le_zero.mp hn
    have hlt : s.tiling.start k < s.tiling.start j := s.tiling.start_lt (by omega)
    rw [startsUpTo, if_pos hlt]
    rfl
  | succ fuel ih =>
    intro n hn j hj
    rw [startsUpTo]
    cases n with
    | zero =>
      have hlt : s.tiling.start k < s.tiling.start j := s.tiling.start_lt (by omega)
      rw [if_pos hlt]
      rfl
    | succ n =>
      have hle : ¬ s.tiling.start k < s.tiling.start j :=
        not_lt.mpr (s.tiling.start_mono (by push_cast at hj; omega))
      rw [if_neg hle, advance_start, Query.bind_ok (ih n (by omega) (j + 1) (by push_cast at hj; omega)),
        range_succ_eq_map, map_cons, map_map]
      congr 2
      · simp
      · refine map_congr_left fun i _ => congrArg s.tiling.start ?_
        simp only [Nat.succ_eq_add_one]
        push_cast
        ring

theorem periodStartsInRange_eq {first last : ℤ} (hfirst : s.InRange first) (hlast : s.InRange last)
    (h : first ≤ last) : s.periodStartsInRange first last =
      .ok ((range (s.tiling.index last - s.tiling.index first + 1).toNat).map
        fun i : ℕ => s.tiling.start (s.tiling.index first + i)) := by
  have hindex := s.tiling.index_mono h
  have hfuel := s.tiling.sub_le_start hindex
  unfold periodStartsInRange
  rw [dateOnly_eq, dateOnly_eq, if_neg (not_lt.mpr h), periodStart_eq s hfirst.period.withinReach,
    periodStart_eq s hlast.period.withinReach]
  exact startsUpTo_eq (s.tiling.index last) _ _ (by omega) _ (by omega)

theorem priorLabels_eq (hd : s.InRange d) (h0 : 0 ≤ n) (hn : s.PeriodInRange (s.tiling.index d - n)) :
    s.priorLabels d n = (range n.toNat).map fun i : ℕ =>
      s.labelOfStart (s.tiling.start (s.tiling.index d - (i + 1))) := by
  unfold priorLabels
  rw [periodStart_eq s hd.period.withinReach]
  split
  · rw [show n.toNat = 0 by omega]
    rfl
  · refine map_congr_left fun i hi => ?_
    have hi := mem_range.mp hi
    rw [advance_start, ← sub_eq_add_neg]
    exact label_start (hn.between hd.period (by omega) (by omega))

end Sequence

/-- **Labels form a faithful calendar**, for every plan start and each length: the code finds the start of a
    date's period; dates share a label exactly when they share a period, and labels compare as periods do;
    advancing goes through the periods one by one; prior labels are those of the periods just before, in
    descending order; and a range lists each period that it meets, once and in ascending order. -/
theorem labels_form_a_calendar (s : Sequence) :
    (∀ d, s.InRange d → s.periodStart d = s.tiling.start (s.tiling.index d)) ∧
    (∀ d d', s.InRange d → s.InRange d' → (s.label d = s.label d' ↔ s.tiling.index d = s.tiling.index d') ∧
        (s.label d < s.label d' ↔ s.tiling.index d < s.tiling.index d')) ∧
    (∀ k a b, s.advance (s.tiling.start k) a = s.tiling.start (k + a) ∧
      s.advance (s.advance (s.tiling.start k) a) b = s.advance (s.tiling.start k) (a + b) ∧
        ∀ j, ¬ (s.tiling.start k < s.tiling.start j ∧ s.tiling.start j < s.advance (s.tiling.start k) 1)) ∧
    (∀ d n, s.InRange d → 0 ≤ n → s.PeriodInRange (s.tiling.index d - n) →
      ((s.priorLabels d n).length : ℤ) = n ∧ (s.priorLabels d n).Pairwise (fun a b => b < a) ∧
        ∀ (i : ℕ) y, i < n → s.InRange y → s.tiling.index y = s.tiling.index d - (i + 1) →
          (s.priorLabels d n)[i]? = some (s.label y)) ∧
    (∀ first last, s.InRange first → s.InRange last → ∃ starts,
      s.periodStartsInRange first last = .ok starts ∧ starts.Pairwise (· < ·) ∧
        ∀ p, p ∈ starts ↔ ∃ k, p = s.tiling.start k ∧ ∃ y, first ≤ y ∧ y ≤ last ∧ s.tiling.index y = k) := by
  refine ⟨fun d hd => s.periodStart_eq hd.period.withinReach, fun d d' hd hd' => ?_, fun k a b => ?_,
    fun d n hd h0 hn => ?_, fun first last hfirst hlast => ?_⟩
  · rw [Sequence.label_eq hd.period, Sequence.label_eq hd'.period]
    exact ⟨(s.names hd.period hd'.period).eq_iff, (s.names hd.period hd'.period).lt_iff⟩
  · rw [s.advance_start, s.advance_start, s.advance_start, s.advance_start, add_assoc]
    exact ⟨rfl, rfl, s.tiling.not_between k⟩
  · rw [Sequence.priorLabels_eq hd h0 hn]
    have hrange : ∀ i : ℕ, i < n.toNat → s.PeriodInRange (s.tiling.index d - (i + 1)) :=
      fun i hi => hn.between hd.period (by omega) (by omega)
    refine ⟨by simp [h0], ?_, fun i y hi hy hindex => ?_⟩
    · rw [pairwise_map]
      refine pairwise_lt_range.imp_of_mem fun {i j} hi hj hij => ?_
      exact (s.names (hrange j (mem_range.mp hj)) (hrange i (mem_range.mp hi))).lt_iff.mpr (by omega)
    · rw [getElem?_map, getElem?_range (by omega), Option.map_some, Sequence.label_eq hy.period, hindex]
  · rcases le_or_gt first last with hle | hgt
    · refine ⟨_, Sequence.periodStartsInRange_eq hfirst hlast hle, ?_, fun p => ?_⟩
      · rw [pairwise_map]
        exact pairwise_lt_range.imp fun hij => s.tiling.start_lt (by omega)
      · simp only [s.tiling.meets_iff hle, mem_map, mem_range]
        constructor
        · intro h
          obtain ⟨i, hi, rfl⟩ := h
          exact ⟨_, rfl, by omega, by omega⟩
        · intro h
          obtain ⟨k, rfl, hk, hk'⟩ := h
          exact ⟨(k - s.tiling.index first).toNat, by omega, congrArg s.tiling.start (by omega)⟩
    · refine ⟨[], ?_, .nil, fun p => ?_⟩
      · unfold Sequence.periodStartsInRange
        rw [Sequence.dateOnly_eq, Sequence.dateOnly_eq, if_pos hgt]
      · constructor
        · exact fun h => absurd h not_mem_nil
        · intro h
          obtain ⟨_, _, y, hy, hy', _⟩ := h
          omega

/-- Weeks from January 1, 2026, a Thursday. -/
def weekly : Sequence := ⟨.week, date 2026 1 1⟩

theorem labels_form_a_calendar_yearEnd : weekly.InRange (date 2026 12 31) ∧ weekly.InRange (date 2027 1 7) ∧
      weekly.label (date 2026 12 31) = ascii "2026-W53" ∧
      weekly.label (date 2026 12 31) < weekly.label (date 2027 1 7) := by
  have hlast : weekly.InRange (date 2026 12 31) :=
    ⟨by decide +kernel, by decide +kernel, fun _ => by decide +kernel⟩
  have hnext : weekly.InRange (date 2027 1 7) :=
    ⟨by decide +kernel, by decide +kernel, fun _ => by decide +kernel⟩
  refine ⟨hlast, hnext, by decide +kernel, ?_⟩
  exact ((labels_form_a_calendar weekly).2.1 _ _ hlast hnext).2.mpr (by decide +kernel)

end MlmForge.Platform
