/-
  Subject:   Numbers written in decimal digits, and how the texts compare.

  * **`fixed_lt_iff`** -- of numbers that fit the width, the texts compare as the numbers do.
-/
import Mathlib.Algebra.Order.Ring.Nat
import Mathlib.Data.List.Basic
import MlmForge.Basis.Text

namespace MlmForge

open List

namespace Text

/-- A text of ASCII characters. -/
def ascii (s : String) : Text := s.toList.map fun c => UInt8.ofNat c.toNat

def digit (d : ℕ) : UInt8 := UInt8.ofNat (48 + d)

/-- The digits of a number, `fuel` of them at most. -/
def digits : ℕ → ℕ → Text
  | 0, _ => []
  | fuel + 1, n => if n < 10 then [digit n] else digits fuel (n / 10) ++ [digit (n % 10)]

/-- A number in decimal. -/
def decimal (n : ℕ) : Text := digits (n + 1) n

/-- A number with zeros in front, up to a width. -/
def zeroPadded (width n : ℕ) : Text := replicate (width - (decimal n).length) (digit 0) ++ decimal n

/-- The last `width` digits. -/
def fixed : ℕ → ℕ → Text
  | 0, _ => []
  | width + 1, n => fixed width (n / 10) ++ [digit (n % 10)]

@[simp] theorem length_fixed (width n : ℕ) : (fixed width n).length = width := by
  induction width generalizing n with
  | zero => rfl
  | succ width ih => rw [fixed, length_append, ih, length_singleton]

theorem fixed_zero (width : ℕ) : fixed width 0 = replicate width (digit 0) := by
  induction width with
  | zero => rfl
  | succ width ih => rw [fixed, Nat.zero_div, ih, replicate_succ', Nat.zero_mod]

theorem padded_digits {fuel n : ℕ} (hfuel : n < fuel) : ∀ {width : ℕ}, 0 < width → n < 10 ^ width →
    replicate (width - (digits fuel n).length) (digit 0) ++ digits fuel n = fixed width n := by
  induction fuel generalizing n with
  | zero => omega
  | succ fuel ih =>
    intro width hpos hn
    obtain ⟨w, rfl⟩ := Nat.exists_eq_succ_of_ne_zero (Nat.ne_of_gt hpos)
    by_cases hsmall : n < 10
    · rw [digits, if_pos hsmall, fixed, Nat.div_eq_of_lt hsmall, fixed_zero, Nat.mod_eq_of_lt hsmall]
      rfl
    · have hw : 0 < w := by
        rcases Nat.eq_zero_or_pos w with rfl | hw
        · omega
        · exact hw
      have hrest : n / 10 < 10 ^ w := by
        rw [Nat.succ_eq_add_one, pow_succ] at hn
        omega
      have hih := ih (show n / 10 < fuel by omega) hw hrest
      rw [digits, if_neg hsmall, fixed, ← hih, length_append, length_singleton,
        Nat.succ_sub_succ, append_assoc]

theorem zeroPadded_eq_fixed {width n : ℕ} (hpos : 0 < width) (h : n < 10 ^ width) :
    zeroPadded width n = fixed width n :=
  padded_digits (Nat.lt_succ_self n) hpos h

theorem append_eq_iff {a b : Text} (h : a.length = b.length) {x y : Text} : a ++ x = b ++ y ↔ a = b ∧ x = y := by
  constructor
  · exact fun heq => append_inj heq h
  · intro heq
    rw [heq.1, heq.2]

theorem append_lt_iff {a b : Text} (h : a.length = b.length) (x y : Text) :
    a ++ x < b ++ y ↔ a < b ∨ (a = b ∧ x < y) := by
  induction a generalizing b with
  | nil =>
    cases length_eq_zero_iff.mp h.symm
    simp
  | cons c a ih =>
    cases b with
    | nil => cases h
    | cons d b =>
      rw [cons_append, cons_append, cons_lt_cons_iff, cons_lt_cons_iff, ih (Nat.succ.inj h), List.cons.injEq]
      tauto

theorem digit_lt_iff : ∀ a < 10, ∀ b < 10, ([digit a] < [digit b] ↔ a < b) := by
  decide

theorem digit_inj : ∀ a < 10, ∀ b < 10, (digit a = digit b ↔ a = b) := by
  decide

theorem fixed_inj {width a b : ℕ} (ha : a < 10 ^ width) (hb : b < 10 ^ width) :
    fixed width a = fixed width b ↔ a = b := by
  induction width generalizing a b with
  | zero =>
    rw [pow_zero] at ha hb
    exact iff_of_true rfl (by omega)
  | succ width ih =>
    rw [pow_succ] at ha hb
    rw [fixed, fixed, append_eq_iff (by simp), ih (by omega) (by omega), singleton_inj,
      digit_inj _ (by omega) _ (by omega)]
    omega

/-- **Of numbers that fit the width, the texts compare as the numbers do.** -/
theorem fixed_lt_iff {width a b : ℕ} (ha : a < 10 ^ width) (hb : b < 10 ^ width) :
    fixed width a < fixed width b ↔ a < b := by
  induction width generalizing a b with
  | zero =>
    rw [pow_zero] at ha hb
    exact iff_of_false (not_lt_nil _) (by omega)
  | succ width ih =>
    rw [pow_succ] at ha hb
    rw [fixed, fixed, append_lt_iff (by simp), ih (by omega) (by omega), fixed_inj (by omega) (by omega),
      digit_lt_iff _ (by omega) _ (by omega)]
    omega

section Fields

variable {w v : ℕ} (sep : Text) {y m y' m' : ℕ}

theorem fields_lt_iff (hy : y < 10 ^ w) (hy' : y' < 10 ^ w) (hm : m < 10 ^ v) (hm' : m' < 10 ^ v) :
    fixed w y ++ sep ++ fixed v m < fixed w y' ++ sep ++ fixed v m' ↔ y < y' ∨ (y = y' ∧ m < m') := by
  rw [append_assoc, append_assoc, append_lt_iff (by simp), append_lt_iff rfl, fixed_lt_iff hy hy',
    fixed_inj hy hy', fixed_lt_iff hm hm']
  have hirrefl : ¬ sep < sep := List.lt_irrefl sep
  tauto

theorem fields_eq_iff (hy : y < 10 ^ w) (hy' : y' < 10 ^ w) (hm : m < 10 ^ v) (hm' : m' < 10 ^ v) :
    fixed w y ++ sep ++ fixed v m = fixed w y' ++ sep ++ fixed v m' ↔ y = y' ∧ m = m' := by
  rw [append_assoc, append_assoc, append_eq_iff (by simp), append_eq_iff rfl, fixed_inj hy hy',
    fixed_inj hm hm']
  tauto

end Fields

end Text

end MlmForge
