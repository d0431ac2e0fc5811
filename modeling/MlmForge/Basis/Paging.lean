/-
  Subject:   Reading a list page by page, behind a cursor.

  * **`readPages_eq`** -- reading on from the last element of each page until a page is empty yields the
    elements past the cursor, each once and in order; from the start, all of them (`readPages_all`).
-/
import Mathlib.Data.List.Basic

namespace MlmForge

open List

variable {α : Type}

/-- The first `limit` of some elements, or all of them when there is no limit. -/
def limited (limit : Int) (l : List α) : List α :=
  if 0 < limit ∧ limit < l.length then l.take limit.toNat else l

/-- The elements past a cursor, up to a limit. -/
def pageAfter (place : α → Int) (l : List α) (limit cursor : Int) : List α :=
  limited limit (l.filter fun x => cursor < place x)

/-- Page after page, each one past the last element of the page before, until one is empty. -/
def readPages (place : α → Int) (read : Int → List α) : Nat → Int → List α
  | 0, _ => []
  | n + 1, cursor =>
    match (read cursor).getLast? with
    | none => []
    | some x => read cursor ++ readPages place read n (place x)

variable {place : α → Int} {l : List α} {limit cursor : Int}

/-- A page is all that is past the cursor, or its first `limit` elements. -/
theorem limited_eq_take (hlimit : 0 < limit) (t : List α) : limited limit t = t.take limit.toNat := by
  unfold limited
  split
  · rfl
  · exact (take_of_length_le (by omega)).symm

theorem filter_after_page {t : List α} (hsorted : t.Pairwise fun x y => place x < place y) {n : Nat}
    {x : α} (hx : (t.take n).getLast? = some x) : t.filter (fun y => place x < place y) = t.drop n := by
  have hdrop := take_append_drop n t
  rw [← hdrop] at hsorted
  obtain ⟨hfirst, -, hcross⟩ := pairwise_append.mp hsorted
  obtain ⟨init, hinit⟩ := getLast?_eq_some_iff.mp hx
  have hlast : ∀ y ∈ t.take n, place y ≤ place x := by
    intro y hy
    rw [hinit] at hfirst hy
    rcases mem_append.mp hy with hy | hy
    · exact Int.le_of_lt ((pairwise_append.mp hfirst).2.2 y hy x (mem_singleton.mpr rfl))
    · exact Int.le_of_eq (congrArg place (mem_singleton.mp hy))
  have hmem : x ∈ t.take n := by
    rw [hinit]
    simp
  conv_lhs => rw [← hdrop]
  rw [filter_append, filter_eq_nil_iff.mpr fun y hy => ?_, nil_append, filter_eq_self.mpr fun y hy => ?_]
  · exact decide_eq_true (hcross x hmem y hy)
  · simpa using hlast y hy

/-- **Paging visits everything past the cursor once.** -/
theorem readPages_eq (hsorted : l.Pairwise fun x y => place x < place y) (hlimit : 0 < limit) :
    ∀ (n : Nat) (cursor : Int), (l.filter fun x => cursor < place x).length < n →
      readPages place (pageAfter place l limit) n cursor = l.filter fun x => cursor < place x := by
  intro n
  induction n with
  | zero => exact fun cursor h => absurd h (Nat.not_lt_zero _)
  | succ n ih =>
    intro cursor h
    have hpage : pageAfter place l limit cursor =
        (l.filter fun x => cursor < place x).take limit.toNat := limited_eq_take hlimit _
    rw [readPages, hpage]
    cases hlast : ((l.filter fun x => cursor < place x).take limit.toNat).getLast? with
    | none =>
      have hnil : (l.filter fun x => cursor < place x) = [] := by
        rcases take_eq_nil_iff.mp (getLast?_eq_none_iff.mp hlast) with h0 | h0
        · omega
        · exact h0
      rw [hnil]
    | some x =>
      have hrest : (l.filter fun y => place x < place y) =
          (l.filter fun x => cursor < place x).drop limit.toNat := by
        have hx : cursor < place x := by
          have hmem := mem_of_mem_take (mem_of_getLast? hlast)
          simpa using (mem_filter.mp hmem).2
        rw [← filter_after_page (hsorted.filter _) hlast, filter_filter]
        refine filter_congr fun y _ => ?_
        have himp : place x < place y → cursor < place y := fun hy => Int.lt_trans hx hy
        by_cases hy : place x < place y <;> simp [hy, himp]
      have hshort : (l.filter fun y => place x < place y).length < n := by
        have hpos : 0 < (l.filter fun x => cursor < place x).length := by
          rw [length_pos_iff]
          intro hnil
          simp [hnil] at hlast
        rw [hrest, length_drop]
        omega
      simp only
      rw [ih (place x) hshort, hrest, take_append_drop]

/-- **Paging from the start visits everything once.** -/
theorem readPages_all (hsorted : l.Pairwise fun x y => place x < place y) (hlimit : 0 < limit)
    (hstart : ∀ x ∈ l, cursor < place x) {n : Nat} (hn : l.length < n) :
    readPages place (pageAfter place l limit) n cursor = l := by
  have hall : (l.filter fun x => cursor < place x) = l :=
    filter_eq_self.mpr fun x hx => decide_eq_true (hstart x hx)
  rw [readPages_eq hsorted hlimit n cursor (by rw [hall]; exact hn), hall]

end MlmForge
