/-
  Subject:   Rows of places that are filled from the front.

  * `eq_packed_iff` -- a row is packed exactly when nobody sits behind an empty place.
-/
import MlmForge.Basis.Places

namespace MlmForge

open List Option

variable {α : Type} {n : Nat} {l : List α}

/-- The row of `n` places with the occupants `l` in front. -/
def packed (n : Nat) (l : List α) : List (Option α) :=
  l.map some ++ replicate (n - l.length) none

theorem reduceOption_replicate_none (k : Nat) : (replicate k (none : Option α)).reduceOption = [] := by
  induction k with
  | zero => rfl
  | succ k ih => rw [replicate_succ, reduceOption_cons_of_none, ih]

theorem reduceOption_map_some (l : List α) : (l.map some).reduceOption = l := by
  induction l with
  | nil => rfl
  | cons x l ih => rw [map_cons, reduceOption_cons_of_some, ih]

@[simp] theorem reduceOption_packed : (packed n l).reduceOption = l := by
  rw [packed, reduceOption_append, reduceOption_map_some, reduceOption_replicate_none, append_nil]

theorem length_packed (h : l.length ≤ n) : (packed n l).length = n := by
  rw [packed, length_append, length_map, length_replicate]
  omega

theorem packed_full (h : l.length = n) : packed n l = l.map some := by
  rw [packed, h, Nat.sub_self, replicate_zero, append_nil]

theorem packed_open (h : l.length < n) :
    packed n l = l.map some ++ none :: replicate (n - l.length - 1) none := by
  rw [packed, ← replicate_succ]
  congr 2
  omega

theorem firstEmpty_packed (h : l.length ≤ n) :
    firstEmpty (packed n l) = if l.length < n then some l.length else none := by
  have hfront : findIdx? isNone (l.map some) = none := by
    rw [findIdx?_eq_none_iff]
    intro x hx
    obtain ⟨a, -, rfl⟩ := mem_map.mp hx
    rfl
  split
  · rename_i hlt
    rw [firstEmpty, packed_open hlt, findIdx?_append, hfront, findIdx?_cons]
    simp
  · rw [firstEmpty, packed_full (by omega), hfront]

theorem set_packed (h : l.length < n) (x : α) : (packed n l).set l.length (some x) = packed n (l ++ [x]) := by
  rw [packed_open h, set_append_right _ _ (by simp), length_map, Nat.sub_self,
    set_cons_zero, packed, map_append, length_append, append_assoc]
  congr 2

/-- An occupant behind an empty place. -/
def behindOpening (row : List (Option α)) : Option (Nat × Nat) := do
  let opening ← firstEmpty row
  let offset ← (row.drop opening).findIdx? isSome
  pure (opening, opening + offset)

variable {row : List (Option α)}

theorem map_some_reduceOption (h : ∀ x ∈ row, x.isSome) : row.reduceOption.map some = row := by
  induction row with
  | nil => rfl
  | cons x row ih =>
    obtain ⟨a, rfl⟩ := isSome_iff_exists.mp (h x mem_cons_self)
    rw [reduceOption_cons_of_some, map_cons, ih fun y hy => h y (mem_cons_of_mem _ hy)]

theorem isSome_of_firstEmpty (h : firstEmpty row = none) : ∀ x ∈ row, x.isSome := by
  intro x hx
  have hx' := findIdx?_eq_none_iff.mp h x hx
  cases x with
  | none => cases hx'
  | some a => rfl

/-- **A row is packed exactly when nobody sits behind an empty place.** -/
theorem eq_packed_iff : behindOpening row = none ↔ row = packed row.length row.reduceOption := by
  constructor
  · intro h
    cases hf : firstEmpty row with
    | none =>
      rw [packed_full (length_of_full hf), map_some_reduceOption (isSome_of_firstEmpty hf)]
    | some q =>
      have hrest : (row.drop q).findIdx? isSome = none := by
        cases hr : (row.drop q).findIdx? isSome with
        | none => rfl
        | some k =>
          rw [behindOpening, hf] at h
          simp [hr] at h
      obtain ⟨hq, -, hbefore⟩ := findIdx?_eq_some_iff_getElem.mp hf
      -- what is in front is taken, what is behind is empty
      have hback : row.drop q = replicate (row.length - q) none := by
        rw [eq_replicate_iff]
        refine ⟨length_drop, fun x hx => ?_⟩
        have hx' := findIdx?_eq_none_iff.mp hrest x hx
        cases x with
        | none => rfl
        | some a => cases hx'
      have hfront : ∃ l : List α, row.take q = l.map some := by
        refine ⟨(row.take q).reduceOption, (map_some_reduceOption fun x hx => ?_).symm⟩
        obtain ⟨i, hi, rfl⟩ := mem_iff_getElem.mp hx
        rw [length_take] at hi
        rw [getElem_take]
        have hb := hbefore i (by omega)
        cases hx' : row[i] with
        | none => simp [hx'] at hb
        | some a => rfl
      obtain ⟨l, hl⟩ := hfront
      have hlen : l.length = q := by
        have := congrArg length hl
        rw [length_take, length_map] at this
        omega
      have hrow : row = packed row.length l := by
        rw [packed, hlen, ← hl, ← hback, take_append_drop]
      have hocc : row.reduceOption = l := by
        rw [hrow, reduceOption_packed]
      rw [hocc]
      exact hrow
  · intro h
    have hle : row.reduceOption.length ≤ row.length := reduceOption_length_le row
    rw [behindOpening, h, firstEmpty_packed hle]
    split
    · have hdrop : (packed row.length row.reduceOption).drop row.reduceOption.length =
          replicate (row.length - row.reduceOption.length) none := by
        rw [packed, drop_append_of_le_length (by simp)]
        simp
      have hnone : (replicate (row.length - row.reduceOption.length) (none : Option α)).findIdx?
          isSome = none := by
        rw [findIdx?_eq_none_iff]
        intro x hx
        rw [eq_of_mem_replicate hx]
        rfl
      simp [hdrop, hnone]
    · rfl

end MlmForge
