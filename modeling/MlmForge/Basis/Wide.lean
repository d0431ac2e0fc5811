/-
  Subject:   Integers of a fixed width.

  Arithmetic whose exact result is out of range stops the program. A calculation that is written with
  `signed` and `unsigned` around its results and never stops is therefore the one over all integers.

  * `foldlM_add`, `foldlM_sub` -- loops that add up, and that take away, numbers that are not negative.
-/
import Mathlib.Tactic.Positivity
import MlmForge.Basis.Outcome

namespace MlmForge.Wide

open List Query

variable {ε α : Type} {bits : Nat}

/-- A result of signed arithmetic, in `bits` bits and a sign. -/
def signed (bits : Nat) (n : Int) : Query ε Int :=
  if -2 ^ bits ≤ n ∧ n < 2 ^ bits then .ok n else .error (.panic "arithmetic overflow")

/-- A result of unsigned arithmetic. -/
def unsigned (bits n : Nat) : Query ε Nat :=
  if n < 2 ^ bits then .ok n else .error (.panic "arithmetic overflow")

theorem signed_ok {n : Int} (h0 : 0 ≤ n) (h : n < 2 ^ bits) : (signed bits n : Query ε Int) = .ok n := by
  have hpow : (0 : Int) < 2 ^ bits := by positivity
  exact if_pos ⟨by omega, h⟩

theorem lt_of_bits {n j : Nat} (h : n < 2 ^ j) (hj : j ≤ bits) : n < 2 ^ bits :=
  h.trans_le (Nat.pow_le_pow_right Nat.two_pos hj)

theorem unsigned_ok {n j : Nat} (h : n < 2 ^ j) (hj : j ≤ bits) : (unsigned bits n : Query ε Nat) = .ok n :=
  if_pos (lt_of_bits h hj)

/-- Adding up numbers that are not negative stays in range if the sum does. -/
theorem foldlM_add {l : List α} {read : α → Query ε Int} {f : α → Int} {start : Int}
    (hread : ∀ x ∈ l, read x = .ok (f x)) (hf : ∀ x ∈ l, 0 ≤ f x) (hstart : 0 ≤ start)
    (hsum : start + (l.map f).sum < 2 ^ bits) :
    (l.foldlM (fun t x => do let y ← read x; signed bits (t + y)) start) = .ok (start + (l.map f).sum) := by
  induction l generalizing start with
  | nil =>
    rw [map_nil, sum_nil, add_zero]
    rfl
  | cons x l ih =>
    have hx := hf x mem_cons_self
    have hl : ∀ y ∈ l, 0 ≤ f y := fun y hy => hf y (mem_cons_of_mem _ hy)
    have hrest : 0 ≤ (l.map f).sum := sum_nonneg fun n hn => by
      obtain ⟨y, hy, rfl⟩ := mem_map.mp hn
      exact hl y hy
    rw [map_cons, sum_cons, ← add_assoc] at hsum ⊢
    rw [foldlM_cons, bind_ok (hread x mem_cons_self), bind_ok (signed_ok (by omega) (by omega))]
    exact ih (fun y hy => hread y (mem_cons_of_mem _ hy)) hl (by omega) hsum

theorem foldl_sub (l : List Int) (start : Int) : l.foldl (· - ·) start = start - l.sum := by
  induction l generalizing start with
  | nil => simp
  | cons n l ih =>
    rw [foldl_cons, ih, sum_cons]
    omega

/-- Taking away numbers that are not negative stays in range if something is left. -/
theorem foldlM_sub {l : List Int} {start : Int} (hl : ∀ n ∈ l, 0 ≤ n) (hleft : 0 ≤ start - l.sum)
    (hstart : start < 2 ^ bits) :
    (l.foldlM (fun left n => signed bits (left - n)) start : Query ε Int) = .ok (l.foldl (· - ·) start) := by
  induction l generalizing start with
  | nil => rfl
  | cons n l ih =>
    have hn := hl n mem_cons_self
    have hrest : ∀ m ∈ l, 0 ≤ m := fun m hm => hl m (mem_cons_of_mem _ hm)
    have hsum : 0 ≤ l.sum := sum_nonneg hrest
    rw [sum_cons] at hleft
    rw [foldlM_cons, bind_ok (signed_ok (by omega) (by omega))]
    exact ih hrest (by omega) (by omega)

end MlmForge.Wide
