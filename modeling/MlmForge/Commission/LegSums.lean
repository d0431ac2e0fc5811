/-
  Subject:   Leg volumes as sums over subtrees, for any volume totals.

  The totals of a period are a map from positions to volumes. One pass over the nodes, deepest first, adds them
  up along the tree.

  * **`legs_of_root`** -- the two legs of the root and its own volume are all there is;
  * **`legs_are_subtree_sums`** -- each working leg is the sum over its subtree and what was carried.
-/
import Mathlib.Algebra.BigOperators.Group.Finset.Basic
import MlmForge.Commission.Binary

namespace MlmForge.Commission

open Engine Rank List Maps Dec

/-- The totals at the nodes of the tree. -/
def standing (t : BinaryTree) (volumeTotals : AList fun _ : Uuid => Dec) : List (NodeIndex × ℚ) :=
  t.arena.index.entries.map fun e => (e.2, totalAt volumeTotals e.1)

/-- The volume of all positions of the tree. -/
def totalVolume (t : BinaryTree) (volumeTotals : AList fun _ : Uuid => Dec) : ℚ :=
  (t.arena.index.keys.map (totalAt volumeTotals)).sum

section Sums

variable {order : HashOrder Site} {t : BinaryTree} {volumeTotals : AList fun _ : Uuid => Dec}
  {carryForward legs : LegMap}

theorem standing_standing (ht : t.arena.Valid) : Standing t volumeTotals (standing t volumeTotals) := by
  classical
  intro u i hu
  have hmem : (⟨u, i⟩ : Sigma fun _ : Uuid => NodeIndex) ∈ t.arena.index.entries := AList.mem_lookup_iff.mp hu
  have hnodup : t.arena.index.entries.Nodup := List.Nodup.of_map _ t.arena.index.nodupKeys
  -- a node is in the index under one id
  have hone : ∀ e, e ∈ t.arena.index.entries.filter (fun e => decide (e.2 = i)) ↔
      e ∈ [(⟨u, i⟩ : Sigma fun _ : Uuid => NodeIndex)] := by
    rintro ⟨w, j⟩
    rw [mem_filter, decide_eq_true_iff, mem_singleton]
    constructor
    · rintro ⟨he, rfl⟩
      have hw : t.arena.index.lookup w = some j := lookup_of_mem _ he
      rw [← (ht.index_iff.mp hw).2, ← (ht.index_iff.mp hu).2]
    · intro he
      cases he
      exact ⟨hmem, rfl⟩
  have hfilter : t.arena.index.entries.filter (fun e => decide (e.2 = i)) = [⟨u, i⟩] :=
    perm_singleton.mp ((perm_ext_iff_of_nodup (hnodup.filter _) (nodup_singleton _)).mpr hone)
  have hweight : weightWhere (· = i) (standing t volumeTotals) =
      ((t.arena.index.entries.filter fun e => decide (e.2 = i)).map fun e => totalAt volumeTotals e.1).sum := by
    unfold weightWhere standing
    rw [filter_map, map_map]
    congr! 3
    exact funext fun e => decide_eq_decide.mpr Iff.rfl
  rw [hweight, hfilter]
  simp

theorem subtreeWeight_legs (ht : t.Valid) (items : List (NodeIndex × ℚ)) {u : Uuid} {i : NodeIndex}
    (hu : t.arena.index.lookup u = some i) : subtreeWeight t.arena.parentOf items i =
      weightWhere (· = i) items + (legWeight t items u .left + legWeight t items u .right) := by
  have hlive := ht.arena.live_of_lookup hu
  obtain ⟨row, hrow⟩ := ht.agree.exists_row hlive
  have hlist : row.toList = [row[0], row[1]] := by
    obtain ⟨⟨l⟩, hl⟩ := row
    obtain ⟨left, right, rfl⟩ := length_eq_two.mp hl
    rfl
  rw [ht.arena.forest.subtreeWeight_eq, ← ht.agree.children hrow, hlist]
  congr 1
  unfold legWeight childOn rowOf
  simp only [hu, Option.bind_some, hrow, Option.getD_some]
  cases row[0] <;> cases row[1] <;> simp

/-- **The legs of the root and its own volume are all there is.** -/
theorem legs_of_root (ht : t.Valid) {u : Uuid} {i : NodeIndex} (hroot : t.arena.root = some i)
    (hu : t.arena.index.lookup u = some i) :
    legWeight t (standing t volumeTotals) u .left + legWeight t (standing t volumeTotals) u .right +
      totalAt volumeTotals u = totalVolume t volumeTotals := by
  have hall : subtreeWeight t.arena.parentOf (standing t volumeTotals) i = totalVolume t volumeTotals := by
    unfold subtreeWeight weightWhere totalVolume
    rw [filter_eq_self.mpr]
    · unfold standing AList.keys keys
      rw [map_map, map_map]
      rfl
    · intro item hitem
      obtain ⟨⟨w, j⟩, he, rfl⟩ := mem_map.mp hitem
      have hw : t.arena.index.lookup w = some j := lookup_of_mem _ he
      obtain ⟨r, hr, habove⟩ := ht.arena.root_above (ht.arena.live_of_lookup hw)
      cases hroot.symm.trans hr
      exact @decide_eq_true _ (Classical.propDecidable _) habove
  rw [← hall, subtreeWeight_legs ht _ hu, standing_standing ht.arena hu, add_comm]

theorem totalVolume_eq (hin : ∀ u ∈ volumeTotals.keys, ∃ i, t.arena.index.lookup u = some i) :
    totalVolume t volumeTotals = (volumeTotals.entries.map fun e => e.2.value).sum := by
  have hentries : volumeTotals.entries.map (fun e => e.2.value) = volumeTotals.keys.map (totalAt volumeTotals) := by
    unfold AList.keys keys
    rw [map_map]
    refine map_congr_left fun e he => ?_
    have hlook : volumeTotals.lookup e.1 = some e.2 := lookup_of_mem _ he
    rw [Function.comp_apply, totalAt, hlook]
    rfl
  unfold totalVolume
  rw [hentries, ← sum_toFinset _ t.arena.index.keys_nodup, ← sum_toFinset _ volumeTotals.keys_nodup]
  refine (Finset.sum_subset (fun u hu => ?_) fun u _ hu => ?_).symm
  · obtain ⟨i, hi⟩ := hin u (mem_toFinset.mp hu)
    exact mem_toFinset.mpr ((mem_keys_iff _).mpr ⟨i, hi⟩)
  · have hnone : volumeTotals.lookup u = none :=
      Option.eq_none_iff_forall_ne_some.mpr fun d hd => hu (mem_toFinset.mpr ((mem_keys_iff _).mpr ⟨d, hd⟩))
    rw [totalAt, hnone]
    exact value_zero

/-- **Leg volumes are subtree sums**: every position of the tree is in the result once, with the sum over the
    subtree of each leg and what was carried on it; and the two legs of the root and its own volume make up all
    volume of the tree, which is all there is where no total is for a stranger. -/
theorem legs_are_subtree_sums (ht : t.Valid)
    (h : accumulateLegVolumes order t volumeTotals carryForward = .ok legs) :
    legs.keys.Perm t.arena.index.keys ∧ (∀ u l, legs.lookup u = some l → ∀ leg, (l.on leg).value =
        legWeight t (standing t volumeTotals) u leg + carriedOn carryForward u leg) ∧
      (∀ u i, t.arena.root = some i → t.arena.index.lookup u = some i →
        legWeight t (standing t volumeTotals) u .left + legWeight t (standing t volumeTotals) u .right +
          totalAt volumeTotals u = totalVolume t volumeTotals) ∧
      ((∀ u ∈ volumeTotals.keys, ∃ i, t.arena.index.lookup u = some i) →
        totalVolume t volumeTotals = (volumeTotals.entries.map fun e => e.2.value).sum) := by
  have hlegs := accumulateLegVolumes_standing ht (standing_standing ht.arena) h
  refine ⟨?_, fun u l hl => (hlegs u).2 l hl, fun u i => legs_of_root ht, totalVolume_eq⟩
  refine (perm_ext_iff_of_nodup legs.keys_nodup t.arena.index.keys_nodup).mpr fun u => ?_
  rw [mem_keys_iff, mem_keys_iff]
  exact (hlegs u).1

end Sums

/-- Ten on the left of the root, and five of its own. -/
def smallTotals : AList fun _ : Uuid => Dec := collect [(1, whole 5 rfl), (2, whole 10 rfl)]

/-- Four carried on the left of the root. -/
def smallCarry : LegMap := collect [(1, ⟨whole 4 rfl, Dec.zero⟩)]

theorem legs_are_subtree_sums_small : ∃ legs l,
    accumulateLegVolumes HashOrder.asListed smallTree smallTotals smallCarry = .ok legs ∧
      legs.keys.Perm smallTree.arena.index.keys ∧ legs.lookup 1 = some l ∧ l.left.value = 14 ∧
      l.left.value = legWeight smallTree (standing smallTree smallTotals) 1 .left + carriedOn smallCarry 1 .left ∧
      totalVolume smallTree smallTotals = 15 := by
  have hrun : ((accumulateLegVolumes HashOrder.asListed smallTree smallTotals smallCarry).toOption.bind
      (·.lookup 1)).map (·.left.value) = some 14 := by decide +kernel
  obtain ⟨l, hl, hvalue⟩ := Option.map_eq_some_iff.mp hrun
  obtain ⟨legs, hlegs, hl⟩ := Option.bind_eq_some_iff.mp hl
  have hlegs := Query.toOption_eq_some.mp hlegs
  obtain ⟨hkeys, hsums, -, htotal⟩ := legs_are_subtree_sums smallTree_valid hlegs
  refine ⟨legs, l, hlegs, hkeys, hl, hvalue, hsums 1 l hl .left, (htotal fun u hu => ?_).trans (by decide +kernel)⟩
  have hmember : smallTotals.keys.all (fun u => (smallTree.arena.index.lookup u).isSome) = true := by decide +kernel
  exact Option.isSome_iff_exists.mp (all_eq_true.mp hmember u hu)

end MlmForge.Commission
