/-
  Subject:   The order in which hash maps are iterated.

  A hash map hands out its entries in an order of its own, another one each time. A function that iterates
  maps is given the orders, one for each place where it does so.

  * `collect` -- a map made of what an iterator yields; **`lookup_collect`** -- where no key comes twice,
    the order does not matter.
-/
import MlmForge.Basis.Maps

namespace MlmForge

open List

/-- An order for each place where a map is iterated. -/
structure HashOrder (Site : Type) where
  shuffle : Site → ∀ {α : Type}, List α → List α
  perm : ∀ (site : Site) {α : Type} (l : List α), (shuffle site l).Perm l

namespace HashOrder

variable {Site κ β : Type} (order : HashOrder Site) (site : Site)

/-- A map's entries, iterated. -/
def entries (m : AList fun _ : κ => β) : List (Sigma fun _ : κ => β) := order.shuffle site m.entries

/-- A map's keys, iterated. -/
def keys (m : AList fun _ : κ => β) : List κ := order.shuffle site m.keys

variable {m : AList fun _ : κ => β}

theorem mem_entries {e : Sigma fun _ : κ => β} : e ∈ order.entries site m ↔ e ∈ m.entries :=
  (order.perm site m.entries).mem_iff

theorem mem_keys {k : κ} : k ∈ order.keys site m ↔ k ∈ m.keys :=
  (order.perm site m.keys).mem_iff

theorem nodup_keys (m : AList fun _ : κ => β) : (order.keys site m).Nodup :=
  (order.perm site m.keys).nodup_iff.mpr m.keys_nodup

theorem nodup_entries_keys (m : AList fun _ : κ => β) : ((order.entries site m).map Sigma.fst).Nodup :=
  ((order.perm site m.entries).map Sigma.fst).nodup_iff.mpr m.keys_nodup

/-- The order of an association list. -/
def asListed : HashOrder Site := ⟨fun _ _ l => l, fun _ _ l => List.Perm.refl l⟩

end HashOrder

namespace Maps

variable {κ β : Type} [DecidableEq κ]

/-- A map made of keys and values; a later value replaces an earlier one. -/
def collect (l : List (κ × β)) : AList fun _ : κ => β := l.foldl (fun m e => m.insert e.1 e.2) ∅

variable {k : κ}

theorem lookup_insertAll_of_not_mem : ∀ {l : List (κ × β)} (m : AList fun _ : κ => β),
    k ∉ l.map Prod.fst → (l.foldl (fun m e => m.insert e.1 e.2) m).lookup k = m.lookup k := by
  intro l
  induction l with
  | nil => exact fun _ _ => rfl
  | cons e l ih =>
    intro m h
    rw [map_cons, mem_cons, not_or] at h
    rw [foldl_cons, ih _ h.2, lookup_insert, if_neg h.1]

theorem lookup_insertAll_of_mem {b : β} : ∀ {l : List (κ × β)} (m : AList fun _ : κ => β),
    (l.map Prod.fst).Nodup → (k, b) ∈ l → (l.foldl (fun m e => m.insert e.1 e.2) m).lookup k = some b := by
  intro l
  induction l with
  | nil => exact fun _ _ h => absurd h not_mem_nil
  | cons e l ih =>
    intro m hnodup hmem
    rw [map_cons, nodup_cons] at hnodup
    rw [foldl_cons]
    rcases mem_cons.mp hmem with rfl | hmem
    · rw [lookup_insertAll_of_not_mem _ hnodup.1]
      exact AList.lookup_insert m
    · exact ih _ hnodup.2 hmem

/-- **Where no key comes twice, a collected map holds what was collected.** -/
theorem lookup_collect {l : List (κ × β)} (hl : (l.map Prod.fst).Nodup) {b : β} :
    (collect l).lookup k = some b ↔ (k, b) ∈ l := by
  constructor
  · intro h
    have hkey : k ∈ l.map Prod.fst := by
      by_contra hnot
      rw [collect, lookup_insertAll_of_not_mem ∅ hnot] at h
      cases h
    obtain ⟨⟨k', b'⟩, hmem, rfl⟩ := mem_map.mp hkey
    rw [collect, lookup_insertAll_of_mem ∅ hl hmem] at h
    cases h
    exact hmem
  · exact lookup_insertAll_of_mem ∅ hl

/-- A map made of another one's entries has its keys, in whatever order they came. -/
theorem lookup_collect_entries {Site γ : Type} (order : HashOrder Site) (site : Site)
    (m : AList fun _ : κ => β) (f : (Sigma fun _ : κ => β) → γ) (k : κ) :
    (collect ((order.entries site m).map fun e => (e.1, f e))).lookup k = (m.lookup k).map fun b => f ⟨k, b⟩ := by
  have hkeys : ((order.entries site m).map fun e => (e.1, f e)).map Prod.fst =
      (order.entries site m).map Sigma.fst := by
    rw [map_map]
    rfl
  have hnodup := order.nodup_entries_keys site m
  rw [← hkeys] at hnodup
  refine Option.ext fun c => ?_
  rw [lookup_collect hnodup, mem_map, Option.map_eq_some_iff]
  constructor
  · intro h
    obtain ⟨e, he, heq⟩ := h
    cases heq
    exact ⟨e.2, lookup_of_mem m ((order.mem_entries site).mp he), rfl⟩
  · intro h
    obtain ⟨b, hb, rfl⟩ := h
    exact ⟨⟨k, b⟩, (order.mem_entries site).mpr (AList.mem_lookup_iff.mp hb), rfl⟩

end Maps

end MlmForge
