/-
  Subject:   Hash maps as association lists: what a lookup reads after an update, and maps made of the
             elements of a list under their positions.
-/
import Mathlib.Algebra.GroupWithZero.Nat
import Mathlib.Data.List.AList

namespace MlmForge.Maps

open List AList

variable {κ β : Type} [DecidableEq κ] (m : AList fun _ : κ => β)

theorem lookup_insert (k : κ) (b : β) (i : κ) :
    (m.insert k b).lookup i = if i = k then some b else m.lookup i := by
  split
  · rename_i h
    rw [h]
    exact AList.lookup_insert m
  · rename_i h
    exact lookup_insert_ne h

theorem lookup_erase (k i : κ) : (m.erase k).lookup i = if i = k then none else m.lookup i := by
  split
  · rename_i h
    rw [h]
    exact AList.lookup_erase k m
  · rename_i h
    exact lookup_erase_ne h

theorem lookup_foldl {change : (AList fun _ : κ => β) → κ → AList fun _ : κ => β} {now : Option β}
    (hchange : ∀ m k i, (change m k).lookup i = if i = k then now else m.lookup i) (i : κ) (keys : List κ) :
    ∀ m, (keys.foldl change m).lookup i = if i ∈ keys then now else m.lookup i := by
  induction keys with
  | nil => exact fun m => (if_neg not_mem_nil).symm
  | cons k keys ih =>
    intro m
    rw [foldl_cons, ih, hchange]
    by_cases hi : i ∈ keys
    · rw [if_pos hi, if_pos (mem_cons_of_mem _ hi)]
    · simp only [if_neg hi, mem_cons, or_iff_left hi]

theorem lookup_foldl_insert (b : β) (i : κ) (keys : List κ) (m : AList fun _ : κ => β) :
    (keys.foldl (fun m k => m.insert k b) m).lookup i = if i ∈ keys then some b else m.lookup i :=
  lookup_foldl (fun m k i => lookup_insert m k b i) i keys m

theorem lookup_foldl_erase (i : κ) (keys : List κ) (m : AList fun _ : κ => β) :
    (keys.foldl (fun m k => m.erase k) m).lookup i = if i ∈ keys then none else m.lookup i :=
  lookup_foldl (fun m k i => lookup_erase m k i) i keys m

theorem lookup_of_mem {x : Sigma fun _ : κ => β} (h : x ∈ m.entries) : m.lookup x.1 = some x.2 :=
  mem_lookup_iff.mpr h

theorem mem_keys_iff {k : κ} : k ∈ m.keys ↔ ∃ b, m.lookup k = some b := by
  rw [← AList.mem_keys, ← lookup_isSome, Option.isSome_iff_exists]

theorem lookup_of_keys_nil (h : m.keys = []) (k : κ) : m.lookup k = none := by
  rw [lookup_eq_none, AList.mem_keys, h]
  exact not_mem_nil

omit [DecidableEq κ] in
theorem length_le_one {l : List κ} (hnd : l.Nodup) : l.length ≤ 1 ↔ ∀ x ∈ l, ∀ y ∈ l, x = y := by
  cases l with
  | nil => simp
  | cons a l =>
    cases l with
    | nil => simp
    | cons b l =>
      refine iff_of_false (by simp) fun h => ?_
      have hab := h a mem_cons_self b (mem_cons_of_mem _ mem_cons_self)
      exact (nodup_cons.mp hnd).1 (hab ▸ mem_cons_self)

/-! ## Elements by position -/

/-- The elements of a list under their positions, from `start` on. -/
def indexedFrom (start : Nat) (l : List β) (m : AList fun _ : Nat => β) : AList fun _ : Nat => β :=
  (l.zipIdx start).foldl (fun m e => m.insert e.2 e.1) m

/-- The elements of a list under their positions. -/
def indexed (l : List β) : AList fun _ : Nat => β := indexedFrom 0 l ∅

omit [DecidableEq κ] in
theorem lookup_indexedFrom : ∀ {l : List β} {start : Nat} {m : AList fun _ : Nat => β} {k : Nat},
    (indexedFrom start l m).lookup k =
      if start ≤ k ∧ k < start + l.length then l[k - start]? else m.lookup k := by
  intro l
  induction l with
  | nil => intro start m k; rw [if_neg (by simp)]; rfl
  | cons b l ih =>
    intro start m k
    show (indexedFrom (start + 1) l (m.insert start b)).lookup k = _
    rw [ih, lookup_insert, length_cons]
    by_cases hk : k = start
    · subst hk
      rw [if_neg (by omega), if_pos rfl, if_pos (by omega), Nat.sub_self]
      rfl
    · by_cases hin : start + 1 ≤ k ∧ k < start + 1 + l.length
      · rw [if_pos hin, if_pos (by omega), show k - start = k - (start + 1) + 1 by omega]
        rfl
      · rw [if_neg hin, if_neg hk, if_neg (by omega)]

omit [DecidableEq κ] in
theorem lookup_indexed (l : List β) (k : Nat) : (indexed l).lookup k = l[k]? := by
  rw [indexed, lookup_indexedFrom]
  by_cases hk : k < l.length
  · rw [if_pos (by omega), Nat.sub_zero]
  · rw [if_neg (by omega), getElem?_eq_none (by omega)]
    rfl

theorem sum_indexedFrom : ∀ {l : List Nat} {start : Nat} {m : AList fun _ : Nat => Nat},
    (∀ k, start ≤ k → m.lookup k = none) →
    ((indexedFrom start l m).entries.map Sigma.snd).sum = (m.entries.map Sigma.snd).sum + l.sum := by
  intro l
  induction l with
  | nil => exact fun _ => rfl
  | cons b l ih =>
    intro start m hm
    have hfresh : start ∉ m := lookup_eq_none.mp (hm start (Nat.le_refl _))
    show ((indexedFrom (start + 1) l (m.insert start b)).entries.map Sigma.snd).sum = _
    rw [ih fun k hk => ?_, entries_insert_of_notMem hfresh, map_cons, sum_cons, sum_cons]
    · dsimp only
      omega
    · rw [lookup_insert, if_neg (by omega)]
      exact hm k (by omega)

theorem sum_indexed (l : List Nat) : ((indexed l).entries.map Sigma.snd).sum = l.sum := by
  rw [indexed, sum_indexedFrom fun _ _ => rfl]
  exact Nat.zero_add _

end MlmForge.Maps
