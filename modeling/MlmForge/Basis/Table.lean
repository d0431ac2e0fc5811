/-
  Subject:   Tables whose live rows have a key, held as lists and rewritten in place.

  * **`Keying.rewriteAll`** -- a pass that looks up one row for each of several orders and edits it in
    place is a map over the table, and touches as many rows as there are orders.
-/
import Mathlib.Data.List.Nodup

namespace MlmForge

open List

/-- How a table is keyed. -/
structure Keying (ρ κ : Type) where
  live : ρ → Bool
  key : ρ → κ

namespace Keying

variable {ρ κ α : Type} [DecidableEq κ] (K : Keying ρ κ)

/-- The row is live and has the key. -/
def has (k : κ) (n : ρ) : Bool := K.live n && K.key n = k

/-- The first live row with a key. -/
def find (rows : List ρ) (k : κ) : Option ρ := rows.find? (K.has k)

/-- Where that row is. -/
def locate (rows : List ρ) (k : κ) : Option Nat := rows.findIdx? (K.has k)

/-- One order of a pass: the live row it is for is edited, and its place noted. -/
def rewrite (who : α → κ) (edit : α → ρ → ρ) (state : List ρ × List Nat) (m : α) :
    List ρ × List Nat :=
  match K.locate state.1 (who m) with
  | some i => (state.1.modify i (edit m), state.2.insert i)
  | none => state

/-- A row after a pass: the first order for its key is carried out on it. -/
def patched (who : α → κ) (edit : α → ρ → ρ) (ms : List α) (n : ρ) : ρ :=
  if K.live n then (ms.find? fun m => who m = K.key n).elim n (edit · n) else n

/-- No two live rows have one key. -/
def Unique (rows : List ρ) : Prop :=
  rows.Pairwise fun a b => K.live a → K.live b → K.key a ≠ K.key b

variable {K} {rows : List ρ} {k : κ} {n : ρ}

@[simp] theorem has_eq_true : K.has k n = true ↔ K.live n = true ∧ K.key n = k := by
  simp [has]

theorem mem_of_find (h : K.find rows k = some n) : n ∈ rows ∧ K.live n ∧ K.key n = k :=
  ⟨mem_of_find?_eq_some h, has_eq_true.mp (find?_some h)⟩

theorem find_eq_none : K.find rows k = none ↔ ∀ n ∈ rows, K.live n → K.key n ≠ k := by
  simp [find]

theorem Unique.find_of_mem (h : K.Unique rows) (hn : n ∈ rows) (hl : K.live n) :
    K.find rows (K.key n) = some n := by
  induction rows with
  | nil => cases hn
  | cons a rows ih =>
    rw [find, find?_cons]
    obtain ⟨ha, h⟩ := pairwise_cons.mp h
    rcases mem_cons.mp hn with rfl | hn
    · rw [has_eq_true.mpr ⟨hl, rfl⟩]
    · cases hk : K.has (K.key n) a with
      | true => exact absurd (has_eq_true.mp hk).2 (ha n hn (has_eq_true.mp hk).1 hl)
      | false => exact ih h hn

omit [DecidableEq κ] in
/-- Edits that keep the key and revive nobody keep the keys unique. -/
theorem Unique.map (h : K.Unique rows) {f : ρ → ρ} (hkey : ∀ n ∈ rows, K.key (f n) = K.key n)
    (hlive : ∀ n ∈ rows, K.live (f n) → K.live n) : K.Unique (rows.map f) := by
  refine pairwise_map.mpr (h.imp_of_mem fun {a b} ha hb hab hla hlb => ?_)
  rw [hkey a ha, hkey b hb]
  exact hab (hlive a ha hla) (hlive b hb hlb)

theorem Unique.modify_locate (h : K.Unique rows) {i : Nat} (hi : K.locate rows k = some i)
    (f : ρ → ρ) : rows.modify i f = rows.map fun n => if K.has k n then f n else n := by
  induction rows generalizing i with
  | nil => cases hi
  | cons a rows ih =>
    obtain ⟨ha, h⟩ := pairwise_cons.mp h
    rw [locate, findIdx?_cons] at hi
    cases hk : K.has k a with
    | true =>
      rw [hk] at hi
      cases hi
      rw [modify_zero_cons, map_cons, if_pos hk]
      congr 1
      refine ((map_congr_left fun n hn => ?_).trans (map_id _)).symm
      obtain ⟨hla, rfl⟩ := has_eq_true.mp hk
      rw [if_neg]
      · rfl
      · intro hn'
        exact ha n hn hla (has_eq_true.mp hn').1 (has_eq_true.mp hn').2.symm
    | false =>
      rw [hk] at hi
      obtain ⟨j, hj, rfl⟩ := Option.map_eq_some_iff.mp hi
      rw [modify_succ_cons, map_cons, ih h hj]
      simp [hk]

theorem exists_locate (hn : n ∈ rows) (hk : K.has k n) :
    ∃ i a, K.locate rows k = some i ∧ rows[i]? = some a ∧ K.key a = k := by
  cases hi : K.locate rows k with
  | none =>
    rw [locate, findIdx?_eq_none_iff] at hi
    rw [hi n hn] at hk
    cases hk
  | some i =>
    obtain ⟨hlt, hp, -⟩ := findIdx?_eq_some_iff_getElem.mp hi
    exact ⟨i, rows[i], rfl, getElem?_eq_getElem hlt, (has_eq_true.mp hp).2⟩

section Pass

variable {who : α → κ} {edit : α → ρ → ρ} {m : α} {ms : List α}

/-- A row after the head of a list of orders and then the tail is the row after the list. -/
theorem patched_cons (hkey : ∀ m n, K.key (edit m n) = K.key n) (hm : who m ∉ ms.map who) (n : ρ) :
    K.patched who edit ms (if K.has (who m) n then edit m n else n) = K.patched who edit (m :: ms) n := by
  unfold patched
  by_cases hl : K.live n
  · rw [if_pos hl, find?_cons]
    by_cases hk : who m = K.key n
    · have hnone : (ms.find? fun m' => who m' = K.key n) = none := by
        rw [find?_eq_none]
        intro m' hm' e
        exact hm (hk ▸ of_decide_eq_true e ▸ mem_map_of_mem hm')
      rw [if_pos (has_eq_true.mpr ⟨hl, hk.symm⟩), hkey, hnone, decide_eq_true hk]
      simp
    · rw [if_neg fun h => hk (has_eq_true.mp h).2.symm, if_pos hl, decide_eq_false hk]
  · rw [if_neg hl, if_neg fun h => hl (has_eq_true.mp h).1, if_neg hl]

theorem foldl_rewrite (hkey : ∀ m n, K.key (edit m n) = K.key n)
    (hlive : ∀ m n, K.live (edit m n) → K.live n) (ms : List α) (rows : List ρ)
    (touched : List Nat) (hu : K.Unique rows) (hnd : (ms.map who).Nodup)
    (hall : ∀ m ∈ ms, ∃ n ∈ rows, K.has (who m) n)
    (hold : ∀ i ∈ touched, ∃ n, rows[i]? = some n ∧ K.key n ∉ ms.map who) :
    ∃ touched', ms.foldl (K.rewrite who edit) (rows, touched) = (rows.map (K.patched who edit ms), touched') ∧
      touched'.length = touched.length + ms.length := by
  induction ms generalizing rows touched with
  | nil =>
    refine ⟨touched, ?_, rfl⟩
    have : K.patched who edit [] = id := by
      funext n
      simp [patched]
    simp [this]
  | cons m ms ih =>
    obtain ⟨n, hn, hk⟩ := hall m mem_cons_self
    obtain ⟨i, a, hi, hat, hkeya⟩ := exists_locate hn hk
    obtain ⟨hm, hnd⟩ := nodup_cons.mp hnd
    have hstep : K.rewrite who edit (rows, touched) m =
        (rows.map fun n => if K.has (who m) n then edit m n else n, i :: touched) := by
      have hfresh : i ∉ touched := by
        intro hmem
        obtain ⟨b, hb, hne⟩ := hold i hmem
        rw [hat] at hb
        cases hb
        exact hne (by simp [hkeya])
      rw [rewrite]
      simp only [hi, hu.modify_locate hi, insert_of_not_mem hfresh]
    have hkey' : ∀ n : ρ, K.key (if K.has (who m) n then edit m n else n) = K.key n := by
      intro n
      split
      · exact hkey m n
      · rfl
    have hlive' : ∀ n : ρ, K.live (if K.has (who m) n then edit m n else n) → K.live n := by
      intro n
      split
      · exact hlive m n
      · exact id
    have hall' : ∀ m' ∈ ms, ∃ n ∈ rows.map fun n => if K.has (who m) n then edit m n else n,
        K.has (who m') n := by
      -- the other orders are for other rows, which are untouched
      intro m' hm'
      obtain ⟨b, hb, hkb⟩ := hall m' (mem_cons_of_mem _ hm')
      refine ⟨b, mem_map.mpr ⟨b, hb, if_neg fun h => ?_⟩, hkb⟩
      have e := (has_eq_true.mp h).2.symm.trans (has_eq_true.mp hkb).2
      exact hm (e ▸ mem_map_of_mem hm')
    have hold' : ∀ j ∈ i :: touched, ∃ n,
        (rows.map fun n => if K.has (who m) n then edit m n else n)[j]? = some n ∧ K.key n ∉ ms.map who := by
      intro j hj
      rcases mem_cons.mp hj with rfl | hj
      · exact ⟨_, by rw [getElem?_map, hat]; rfl, by rw [hkey', hkeya]; exact hm⟩
      · obtain ⟨b, hb, hne⟩ := hold j hj
        refine ⟨_, by rw [getElem?_map, hb]; rfl, ?_⟩
        rw [hkey']
        exact fun h => hne (mem_cons_of_mem _ h)
    obtain ⟨touched', hrun, hlen⟩ := ih _ (i :: touched)
      (hu.map (fun n _ => hkey' n) fun n _ => hlive' n) hnd hall' hold'
    refine ⟨touched', ?_, by simp only [hlen, length_cons]; omega⟩
    rw [foldl_cons, hstep, hrun, map_map]
    exact congrArg (·, touched') (map_congr_left fun n _ => patched_cons hkey hm n)

/-- **A pass is a map.** Every order is for a live row, no two for one. -/
theorem rewriteAll (hkey : ∀ m n, K.key (edit m n) = K.key n)
    (hlive : ∀ m n, K.live (edit m n) → K.live n) (hu : K.Unique rows)
    (hnd : (ms.map who).Nodup) (hall : ∀ m ∈ ms, ∃ n ∈ rows, K.has (who m) n) :
    ∃ touched, ms.foldl (K.rewrite who edit) (rows, []) = (rows.map (K.patched who edit ms), touched) ∧
      touched.length = ms.length := by
  obtain ⟨touched, hrun, hlen⟩ := foldl_rewrite hkey hlive ms rows [] hu hnd hall
    fun i hi => absurd hi not_mem_nil
  exact ⟨touched, hrun, by simpa using hlen⟩

theorem patched_eq_self (h : ∀ m ∈ ms, who m ≠ K.key n) : K.patched who edit ms n = n := by
  have hf : (ms.find? fun m => who m = K.key n) = none := by
    rw [find?_eq_none]
    exact fun m hm e => h m hm (of_decide_eq_true e)
  rw [patched, hf]
  simp

theorem patched_eq_edit (hl : K.live n)
    (hf : (ms.find? fun m => who m = K.key n) = some m) : K.patched who edit ms n = edit m n := by
  rw [patched, if_pos hl, hf]
  rfl

theorem patched_reads {β : Type} (f : ρ → β) {g : α → β} (hl : K.live n)
    (hg : ∀ m ∈ ms, who m = K.key n → f (edit m n) = g m) :
    f (K.patched who edit ms n) = (ms.find? fun m => who m = K.key n).elim (f n) g := by
  rw [patched, if_pos hl]
  cases hf : ms.find? fun m => who m = K.key n with
  | none => rfl
  | some m => exact hg m (mem_of_find?_eq_some hf) (by simpa using find?_some hf)

theorem patched_field {β : Type} (f : ρ → β) (hf : ∀ m n, f (edit m n) = f n) (ms : List α) (n : ρ) :
    f (K.patched who edit ms n) = f n := by
  unfold patched
  split
  · cases ms.find? fun m => who m = K.key n with
    | none => rfl
    | some m => exact hf m n
  · rfl

end Pass

end Keying

end MlmForge
