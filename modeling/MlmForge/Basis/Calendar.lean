/-
  Subject:   The proleptic Gregorian calendar, on day numbers.

  Day 0 is January 1 of the year 1, a Monday. Years, months and days are read off a day number and lead back
  to it, for all years.

  * **`date_civil`** -- a civil date leads back to its day;
  * `isoYear`, `isoWeek` -- the week of a day, in the year of its Thursday;
    **`iso_lt_iff`** -- weeks compare as their years and numbers do.
-/
import Mathlib.Tactic.Ring
import MlmForge.Basis.Tiling

namespace MlmForge

namespace Calendar

/-! ## 1. Years -/

def yearStart (y : ℤ) : ℤ := 365 * (y - 1) + (y - 1) / 4 - (y - 1) / 100 + (y - 1) / 400

def isLeap (y : ℤ) : Bool := 4 ∣ y ∧ (¬ 100 ∣ y ∨ 400 ∣ y)

theorem yearStart_succ (y : ℤ) : yearStart (y + 1) = yearStart y + if isLeap y then 366 else 365 := by
  unfold yearStart isLeap
  simp only [decide_eq_true_eq]
  split_ifs <;> omega

/-- The year of a day: the average year's, or one beside it. -/
def yearOf (n : ℤ) : ℤ :=
  let y := n * 400 / 146097 + 1
  if n < yearStart y then y - 1 else if yearStart (y + 1) ≤ n then y + 1 else y

def years : Tiling where
  start := yearStart
  index := yearOf
  rises y := by
    rw [yearStart_succ]
    split <;> omega
  start_le n := by
    unfold yearOf
    dsimp only
    split_ifs <;> unfold yearStart at * <;> omega
  lt_next n := by
    unfold yearOf
    dsimp only
    split_ifs <;> unfold yearStart at * <;> omega

/-! ## 2. Months -/

def monthLengths (leap : Bool) : List ℤ := [31, if leap then 29 else 28, 31, 30, 31, 30, 31, 31, 30, 31, 30, 31]

/-- The days of a year before its month `m`, counted from 0. -/
def daysBefore (leap : Bool) (m : ℕ) : ℤ := ((monthLengths leap).take m).sum

/-- The month of a day of the year, counted from 0. -/
def monthOfYear (leap : Bool) (r : ℕ) : ℕ := (List.range 11).countP fun m => daysBefore leap (m + 1) ≤ r

theorem daysBefore_add_le : ∀ leap, ∀ m < 12, daysBefore leap m + 28 ≤ daysBefore leap (m + 1) := by
  decide

theorem daysBefore_year (leap : Bool) : daysBefore leap 12 = if leap then 366 else 365 := by
  cases leap <;> rfl

theorem monthOfYear_spec : ∀ leap, ∀ r : ℕ, r < 366 → (r : ℤ) < daysBefore leap 12 →
    monthOfYear leap r < 12 ∧ daysBefore leap (monthOfYear leap r) ≤ r ∧
      r < daysBefore leap (monthOfYear leap r + 1) := by
  decide +kernel

/-- The first day of a month; months are numbered through, `12 * year + month - 1`. -/
def monthStart (k : ℤ) : ℤ := yearStart (k / 12) + daysBefore (isLeap (k / 12)) (k % 12).toNat

def monthIndex (n : ℤ) : ℤ :=
  let y := yearOf n
  12 * y + monthOfYear (isLeap y) (n - yearStart y).toNat

theorem monthStart_of (y : ℤ) {m : ℕ} (hm : m < 12) :
    monthStart (12 * y + m) = yearStart y + daysBefore (isLeap y) m := by
  have hdiv : (12 * y + m) / 12 = y := by omega
  have hmod : ((12 * y + m) % 12).toNat = m := by omega
  rw [monthStart, hdiv, hmod]

theorem monthStart_succ_of (y : ℤ) {m : ℕ} (hm : m < 12) :
    monthStart (12 * y + m + 1) = yearStart y + daysBefore (isLeap y) (m + 1) := by
  by_cases hlast : m = 11
  · -- the month after the last one is the first of the next year
    subst hlast
    have hnext : monthStart (12 * (y + 1) + (0 : ℕ)) = _ := monthStart_of (y + 1) (by decide)
    rw [show 12 * y + ((11 : ℕ) : ℤ) + 1 = 12 * (y + 1) + ((0 : ℕ) : ℤ) by push_cast; ring, hnext, yearStart_succ,
      daysBefore_year]
    exact add_zero _
  · have hnext : monthStart (12 * y + (m + 1 : ℕ)) = _ := monthStart_of y (by omega)
    rw [add_assoc]
    exact_mod_cast hnext

theorem monthOf_day (n : ℤ) : ∃ m < 12, monthIndex n = 12 * yearOf n + (m : ℕ) ∧
    yearStart (yearOf n) + daysBefore (isLeap (yearOf n)) m ≤ n ∧
      n < yearStart (yearOf n) + daysBefore (isLeap (yearOf n)) (m + 1) := by
  have hle : yearStart (yearOf n) ≤ n := years.start_le n
  have hlt : n < yearStart (yearOf n + 1) := years.lt_next n
  rw [yearStart_succ, ← daysBefore_year] at hlt
  have hcast : ((n - yearStart (yearOf n)).toNat : ℤ) = n - yearStart (yearOf n) := Int.toNat_of_nonneg (by omega)
  have hlen : daysBefore (isLeap (yearOf n)) 12 ≤ 366 := by
    rw [daysBefore_year]
    split <;> omega
  obtain ⟨hm, hstart, hend⟩ := monthOfYear_spec (isLeap (yearOf n)) (n - yearStart (yearOf n)).toNat
    (by omega) (by omega)
  exact ⟨_, hm, rfl, by omega, by omega⟩

theorem monthStart_add_le (k : ℤ) : monthStart k + 28 ≤ monthStart (k + 1) := by
  have hm : (k % 12).toNat < 12 := by omega
  have hk : k = 12 * (k / 12) + ((k % 12).toNat : ℕ) := by omega
  rw [hk, monthStart_of _ hm, monthStart_succ_of _ hm]
  have hdays := daysBefore_add_le (isLeap (k / 12)) _ hm
  omega

def months : Tiling where
  start := monthStart
  index := monthIndex
  rises k := by
    have hlength := monthStart_add_le k
    omega
  start_le n := by
    obtain ⟨m, hm, hindex, hle, _⟩ := monthOf_day n
    rw [hindex, monthStart_of _ hm]
    exact hle
  lt_next n := by
    obtain ⟨m, hm, hindex, _, hlt⟩ := monthOf_day n
    rw [hindex, monthStart_succ_of _ hm]
    exact hlt

/-! ## 3. Civil dates -/

def year (n : ℤ) : ℤ := monthIndex n / 12

def month (n : ℤ) : ℤ := monthIndex n % 12 + 1

def day (n : ℤ) : ℤ := n - monthStart (monthIndex n) + 1

/-- The day of a civil date. A month or day outside its range counts on into the next ones. -/
def date (y m d : ℤ) : ℤ := monthStart (12 * y + (m - 1)) + (d - 1)

/-- A day moved by years, months and days. -/
def addDate (n y m d : ℤ) : ℤ := date (year n + y) (month n + m) (day n + d)

theorem monthIndex_monthStart_add (k : ℤ) {d : ℤ} (h0 : 0 ≤ d) (hd : d < 28) : monthIndex (monthStart k + d) = k :=
  months.index_eq_iff.mpr ⟨by show monthStart k ≤ _; omega, by
    have hlength := monthStart_add_le k
    show _ < monthStart (k + 1)
    omega⟩

theorem date_same_month (n d : ℤ) : date (year n) (month n) d = monthStart (monthIndex n) + (d - 1) := by
  unfold date year month
  rw [show 12 * (monthIndex n / 12) + (monthIndex n % 12 + 1 - 1) = monthIndex n by omega]

/-- **A civil date leads back to its day.** -/
theorem date_civil (n : ℤ) : date (year n) (month n) (day n) = n := by
  rw [date_same_month, day]
  ring

theorem addDate_days (n d : ℤ) : addDate n 0 0 d = n + d := by
  have hcivil := date_civil n
  unfold addDate
  unfold date at hcivil ⊢
  rw [add_zero, add_zero]
  linarith

theorem addDate_months (k j : ℤ) : addDate (monthStart k) 0 j 0 = monthStart (k + j) := by
  have hindex : monthIndex (monthStart k) = k := months.index_start k
  unfold addDate date year month day
  rw [hindex, show 12 * (k / 12 + 0) + (k % 12 + 1 + j - 1) = k + j by omega]
  ring

theorem year_eq (n : ℤ) : year n = yearOf n := by
  obtain ⟨m, hm, hindex, _⟩ := monthOf_day n
  unfold year
  rw [hindex]
  omega

/-- The months in two halves; the second starts on the 16th. -/
def halfMonths : Tiling where
  start h := monthStart (h / 2) + 15 * (h % 2)
  index n := 2 * monthIndex n + if day n ≤ 15 then 0 else 1
  rises h := by
    have hlength := monthStart_add_le (h / 2)
    rcases Int.emod_two_eq_zero_or_one h with heven | hodd
    · rw [show (h + 1) / 2 = h / 2 by omega, show (h + 1) % 2 = 1 by omega, heven]
      omega
    · rw [show (h + 1) / 2 = h / 2 + 1 by omega, show (h + 1) % 2 = 0 by omega, hodd]
      omega
  start_le n := by
    have hle : monthStart (monthIndex n) ≤ n := months.start_le n
    unfold day
    split
    · rw [show (2 * monthIndex n + 0) / 2 = monthIndex n by omega, show (2 * monthIndex n + 0) % 2 = 0 by omega]
      omega
    · rw [show (2 * monthIndex n + 1) / 2 = monthIndex n by omega, show (2 * monthIndex n + 1) % 2 = 1 by omega]
      omega
  lt_next n := by
    have hlt : n < monthStart (monthIndex n + 1) := months.lt_next n
    unfold day
    split
    · rw [show (2 * monthIndex n + 0 + 1) / 2 = monthIndex n by omega,
        show (2 * monthIndex n + 0 + 1) % 2 = 1 by omega]
      omega
    · rw [show (2 * monthIndex n + 1 + 1) / 2 = monthIndex n + 1 by omega,
        show (2 * monthIndex n + 1 + 1) % 2 = 0 by omega]
      omega

/-! ## 4. Weeks -/

/-- The day of the week; Sunday is 0. -/
def weekday (n : ℤ) : ℤ := (n + 1) % 7

/-- The Thursday of a day's week, which runs from Monday to Sunday. -/
def thursday (n : ℤ) : ℤ :=
  let d := 4 - weekday n
  n + if d = 4 then -3 else d

def isoYear (n : ℤ) : ℤ := yearOf (thursday n)

def isoWeek (n : ℤ) : ℤ := (thursday n - yearStart (isoYear n)) / 7 + 1

theorem thursday_eq (n : ℤ) : thursday n = 7 * (n / 7) + 3 := by
  unfold thursday weekday
  dsimp only
  split_ifs <;> omega

theorem isoWeek_range (n : ℤ) : 1 ≤ isoWeek n ∧ isoWeek n ≤ 53 := by
  have hle : yearStart (isoYear n) ≤ thursday n := years.start_le _
  have hlt : thursday n < yearStart (isoYear n + 1) := years.lt_next _
  rw [yearStart_succ] at hlt
  unfold isoWeek
  split at hlt <;> omega

/-- **Weeks compare as their years and numbers do.** -/
theorem iso_lt_iff (n n' : ℤ) :
    (isoYear n < isoYear n' ∨ (isoYear n = isoYear n' ∧ isoWeek n < isoWeek n')) ↔ n / 7 < n' / 7 := by
  have hmono : thursday n ≤ thursday n' → isoYear n ≤ isoYear n' := fun h => years.index_mono h
  have hmono' : thursday n' ≤ thursday n → isoYear n' ≤ isoYear n := fun h => years.index_mono h
  rw [thursday_eq, thursday_eq] at hmono hmono'
  constructor
  · intro h
    by_contra hge
    have hyear := hmono' (by omega)
    rcases h with h | ⟨heq, h⟩
    · omega
    · unfold isoWeek at h
      rw [heq, thursday_eq, thursday_eq] at h
      omega
  · intro h
    have hyear := hmono (by omega)
    rcases hyear.lt_or_eq with hlt | heq
    · exact .inl hlt
    · refine .inr ⟨heq, ?_⟩
      unfold isoWeek
      rw [heq, thursday_eq, thursday_eq]
      omega

theorem iso_eq_iff (n n' : ℤ) : (isoYear n = isoYear n' ∧ isoWeek n = isoWeek n') ↔ n / 7 = n' / 7 := by
  have hlt := iso_lt_iff n n'
  have hgt := iso_lt_iff n' n
  constructor
  · omega
  · intro h
    have hyear : isoYear n = isoYear n' := by
      unfold isoYear
      rw [thursday_eq, thursday_eq, h]
    omega

end Calendar

end MlmForge
