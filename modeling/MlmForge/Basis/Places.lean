/-
  Subject:   A row of places, each empty or taken: what filling, clearing and searching one does to
             the list of occupants `reduceOption`.

  * `takenPlaces` -- the places that are taken, and that they hold the occupants.
-/
import Mathlib.Algebra.GroupWithZero.Nat
import Mathlib.Data.List.ReduceOption
import Mathlib.Data.List.Nodup

namespace MlmForge

open List

variable {α : Type} {l : List (Option α)} {q : Nat}

theorem split_at {v : Option α} (h : l[q]? = some v) :
    ∃ l1 l2, l = l1 ++ v :: l2 ∧ ∀ w, l.set q w = l1 ++ w :: l2 := by
  obtain ⟨hq, e⟩ := List.getElem?_eq_some_iff.mp h
  refine ⟨l.take q, l.drop (q + 1), ?_, fun w => ?_⟩
  · rw [← e, ← drop_eq_getElem_cons hq, take_append_drop]
  · exact set_eq_take_append_cons_drop.trans (if_pos hq)

theorem perm_fill (h : l[q]? = some none) (k : α) :
    (l.set q (some k)).reduceOption.Perm (k :: l.reduceOption) := by
  obtain ⟨l1, l2, e, hset⟩ := split_at h
  rw [hset, e, reduceOption_append, reduceOption_append, reduceOption_cons_of_some, reduceOption_cons_of_none]
  exact perm_middle

theorem mem_fill (h : l[q]? = some none) (k y : α) :
    y ∈ (l.set q (some k)).reduceOption ↔ y = k ∨ y ∈ l.reduceOption := by
  rw [(perm_fill h k).mem_iff, mem_cons]

theorem nodup_fill (h : l[q]? = some none) {k : α}
    (hk : k ∉ l.reduceOption) (hnd : l.reduceOption.Nodup) : (l.set q (some k)).reduceOption.Nodup :=
  (perm_fill h k).nodup_iff.mpr (nodup_cons.mpr ⟨hk, hnd⟩)

section Clear

variable [DecidableEq α] {l : List (Option α)} {q : Nat} {k : α}

theorem reduceOption_clear (h : l[q]? = some (some k))
    (hnd : l.reduceOption.Nodup) : (l.set q none).reduceOption = l.reduceOption.filter (· ≠ k) := by
  obtain ⟨l1, l2, e, hset⟩ := split_at h
  have hocc : l.reduceOption = l1.reduceOption ++ k :: l2.reduceOption := by
    rw [e, reduceOption_append, reduceOption_cons_of_some]
  rw [hocc] at hnd ⊢
  obtain ⟨-, h2, hdis⟩ := nodup_append.mp hnd
  have hl1 : k ∉ l1.reduceOption := fun hm => hdis k hm k mem_cons_self rfl
  have hl2 : k ∉ l2.reduceOption := (nodup_cons.mp h2).1
  rw [hset, reduceOption_append, reduceOption_cons_of_none, filter_append,
    filter_cons_of_neg (by simp), filter_eq_self.mpr, filter_eq_self.mpr]
  · exact fun x hx => decide_eq_true fun e => hl2 (e ▸ hx)
  · exact fun x hx => decide_eq_true fun e => hl1 (e ▸ hx)

theorem reduceOption_clearAll (l : List (Option α)) (k : α) :
    (l.map fun s => if s = some k then none else s).reduceOption = l.reduceOption.filter (· ≠ k) := by
  induction l with
  | nil => rfl
  | cons s l ih =>
    rw [map_cons]
    cases s with
    | none =>
      rw [if_neg nofun, reduceOption_cons_of_none, reduceOption_cons_of_none, ih]
    | some x =>
      by_cases hx : x = k
      · subst hx
        rw [if_pos rfl, reduceOption_cons_of_none, reduceOption_cons_of_some, ih,
          filter_cons_of_neg (by simp)]
      · rw [if_neg fun e => hx (Option.some.inj e), reduceOption_cons_of_some,
          reduceOption_cons_of_some, ih, filter_cons_of_pos (by simpa using hx)]

theorem perm_swap (h : l[q]? = some (some k)) (hnd : l.reduceOption.Nodup) (k' : α) :
    (l.set q (some k')).reduceOption.Perm (k' :: l.reduceOption.filter (· ≠ k)) := by
  have hq : q < l.length := (List.getElem?_eq_some_iff.mp h).1
  rw [← reduceOption_clear h hnd, ← set_set none]
  exact perm_fill (by simp [hq]) k'

/-- The place of an occupant. -/
def takenBy (l : List (Option α)) (k : α) : Option Nat := l.findIdx? (· = some k)

def firstEmpty (l : List (Option α)) : Option Nat := l.findIdx? (·.isNone)

theorem takenBy_eq_some (h : takenBy l k = some q) : l[q]? = some (some k) := by
  obtain ⟨hq, e, -⟩ := findIdx?_eq_some_iff_getElem.mp h
  rw [getElem?_eq_getElem hq]
  exact congrArg some (of_decide_eq_true e)

variable {k' : α}

theorem takenBy_clear (h : l[q]? = some (some k))
    (hne : k' ≠ k) : takenBy (l.set q none) k' = takenBy l k' := by
  obtain ⟨l1, l2, e, hset⟩ := split_at h
  rw [hset, e]
  simp [takenBy, findIdx?_append, findIdx?_cons, hne.symm]

theorem takenBy_fill (h : l[q]? = some none)
    (hne : k' ≠ k) : takenBy (l.set q (some k)) k' = takenBy l k' := by
  obtain ⟨l1, l2, e, hset⟩ := split_at h
  rw [hset, e]
  simp [takenBy, findIdx?_append, findIdx?_cons, hne.symm]

theorem takenBy_clearAll (hne : k' ≠ k) :
    takenBy (l.map fun s => if s = some k then none else s) k' = takenBy l k' := by
  unfold takenBy
  rw [findIdx?_map]
  congr 1
  funext s
  by_cases e : s = some k
  · simp [e, hne.symm]
  · simp [e]

theorem exists_takenBy (h : k ∈ l.reduceOption) : ∃ q, takenBy l k = some q := by
  have hk : some k ∈ l := reduceOption_mem_iff.mp h
  cases hq : takenBy l k with
  | some q => exact ⟨q, rfl⟩
  | none =>
    have := findIdx?_eq_none_iff.mp hq (some k) hk
    simp at this

omit [DecidableEq α] in
theorem place_unique : ∀ {l : List (Option α)} {q q' : Nat}, l.reduceOption.Nodup →
    l[q]? = some (some k) → l[q']? = some (some k) → q = q' := by
  intro l
  induction l with
  | nil => intro q q' _ hq _; cases hq
  | cons s l ih =>
    intro q q' hnd hq hq'
    have htail : l.reduceOption.Nodup := hnd.sublist ((sublist_cons_self s l).filterMap _)
    have hlater : ∀ {n : Nat}, s = some k → l[n]? ≠ some (some k) := by
      rintro n rfl hn
      rw [reduceOption_cons_of_some, nodup_cons] at hnd
      exact hnd.1 (reduceOption_mem_iff.mpr (mem_of_getElem? hn))
    cases q with
    | zero =>
      cases q' with
      | zero => rfl
      | succ n => exact absurd hq' (hlater (Option.some.inj hq))
    | succ m =>
      cases q' with
      | zero => exact absurd hq (hlater (Option.some.inj hq'))
      | succ n => exact congrArg Nat.succ (ih htail hq hq')

theorem takenBy_of_getElem? (h : l[q]? = some (some k))
    (hnd : l.reduceOption.Nodup) : takenBy l k = some q := by
  obtain ⟨q', hq'⟩ := exists_takenBy (reduceOption_mem_iff.mpr (mem_of_getElem? h))
  rw [hq', place_unique hnd (takenBy_eq_some hq') h]

theorem pairwise_takenBy : ∀ {l : List (Option α)}, l.reduceOption.Nodup →
    l.reduceOption.Pairwise fun k k' => (takenBy l k).getD 0 < (takenBy l k').getD 0 := by
  intro l
  induction l with
  | nil => exact fun _ => List.Pairwise.nil
  | cons place l ih =>
    intro hnd
    -- behind the first place everybody is one further
    have hshift : ∀ k ∈ l.reduceOption, place ≠ some k →
        (takenBy (place :: l) k).getD 0 = (takenBy l k).getD 0 + 1 := by
      intro k hk hne
      obtain ⟨q, hq⟩ := exists_takenBy hk
      rw [takenBy, findIdx?_cons, if_neg (by simpa using hne)]
      rw [takenBy] at hq
      rw [takenBy, hq]
      rfl
    cases place with
    | none =>
      refine (ih hnd).imp_of_mem fun {k k'} hk hk' hlt => ?_
      rw [hshift k hk nofun, hshift k' hk' nofun]
      omega
    | some a =>
      rw [reduceOption_cons_of_some] at hnd ⊢
      obtain ⟨ha, hnd⟩ := nodup_cons.mp hnd
      have hne : ∀ k ∈ l.reduceOption, some a ≠ some k := by
        intro k hk e
        exact ha (Option.some.inj e ▸ hk)
      refine pairwise_cons.mpr ⟨fun k hk => ?_, (ih hnd).imp_of_mem fun {k k'} hk hk' hlt => ?_⟩
      · rw [hshift k hk (hne k hk), takenBy, findIdx?_cons, if_pos (by simp)]
        exact Nat.succ_pos _
      · rw [hshift k hk (hne k hk), hshift k' hk' (hne k' hk')]
        omega

omit [DecidableEq α] in
theorem firstEmpty_eq_some (h : firstEmpty l = some q) : l[q]? = some none := by
  obtain ⟨hq, e, -⟩ := findIdx?_eq_some_iff_getElem.mp h
  rw [getElem?_eq_getElem hq]
  exact congrArg some (Option.isNone_iff_eq_none.mp e)

omit [DecidableEq α] in
theorem firstEmpty_le {k : Nat} (h : l[k]? = some none) : ∃ q, firstEmpty l = some q ∧ q ≤ k := by
  obtain ⟨hk, hnone⟩ := List.getElem?_eq_some_iff.mp h
  cases hf : firstEmpty l with
  | none =>
    have := findIdx?_eq_none_iff.mp hf l[k] (getElem_mem hk)
    rw [hnone] at this
    cases this
  | some q =>
    obtain ⟨_, -, hbefore⟩ := findIdx?_eq_some_iff_getElem.mp hf
    refine ⟨q, rfl, Nat.le_of_not_lt fun hlt => hbefore k hlt ?_⟩
    rw [hnone]
    rfl

omit [DecidableEq α] in
theorem length_of_full (h : firstEmpty l = none) : l.reduceOption.length = l.length := by
  rw [reduceOption_length_eq_iff]
  intro x hx
  have := findIdx?_eq_none_iff.mp h x hx
  cases x with
  | none => cases this
  | some x => rfl

end Clear

/-! ## Taken places -/

def takenPlaces (l : List (Option α)) : List Nat :=
  (range l.length).filter fun q => l[q]?.join.isSome

theorem mem_takenPlaces : q ∈ takenPlaces l ↔ ∃ c, l[q]? = some (some c) := by
  rw [takenPlaces, mem_filter, mem_range, Option.isSome_iff_exists]
  constructor
  · intro h
    obtain ⟨-, c, hc⟩ := h
    exact ⟨c, Option.join_eq_some_iff.mp hc⟩
  · intro h
    obtain ⟨c, hc⟩ := h
    exact ⟨(List.getElem?_eq_some_iff.mp hc).1, c, by rw [hc]; rfl⟩

theorem nodup_takenPlaces (l : List (Option α)) : (takenPlaces l).Nodup :=
  nodup_range.filter _

/-- **What the taken places hold are the occupants, in order.** -/
theorem map_takenPlaces (l : List (Option α)) :
    (takenPlaces l).map (fun q => l[q]?.join) = l.reduceOption.map some := by
  unfold takenPlaces
  induction l with
  | nil => rfl
  | cons o l ih =>
    rw [length_cons, range_succ_eq_map, filter_cons, filter_map]
    cases o with
    | none =>
      simp only [getElem?_cons_zero, Option.join_some, Option.isSome_none,
        Bool.false_eq_true, if_false, reduceOption_cons_of_none, map_map]
      exact ih
    | some c =>
      simp only [getElem?_cons_zero, Option.join_some, Option.isSome_some, if_true,
        reduceOption_cons_of_some, map_cons, map_map]
      exact congrArg _ ih

theorem sum_places (l : List (Option α)) (f : α → Nat) :
    (l.map fun o => o.elim 0 f).sum = (l.reduceOption.map f).sum := by
  induction l with
  | nil => rfl
  | cons o l ih =>
    cases o with
    | none => simpa using ih
    | some c => simpa using ih

end MlmForge
