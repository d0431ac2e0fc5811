/-
  Subject:   The valid arenas: what `validate_restored` accepts, said without passes.

  The index is exact, placement and sponsor links are kept at both ends, depths follow the
  placement, there is one root, and every sponsor chain ends.

  * **`validateRestored_iff`** -- the check returns exactly on the valid arenas.
-/
import MlmForge.Basis.Bfs
import MlmForge.Engine.Restore

namespace MlmForge.Engine

open List Option Query AList

namespace Arena

/-- What the operations keep of an arena. -/
structure Valid (a : Arena) : Prop where
  index_iff : ∀ {u i}, a.index.lookup u = some i ↔ u ≠ Uuid.nil ∧ (a.nodeAt i).userId = u
  cleared : ∀ {i}, ¬ a.Live i →
    a.parentOf i = none ∧ a.sponsorOf i = none ∧ a.childrenOf i = [] ∧ a.sponsoredOf i = []
  placed : Linked a.childrenOf a.parentOf
  recruited : Linked a.sponsoredOf a.sponsorOf
  depth_top : ∀ {i}, a.Live i → a.parentOf i = none → (a.nodeAt i).depth = 0
  depth_below : ∀ {i p}, a.parentOf i = some p → (a.nodeAt i).depth = (a.nodeAt p).depth + 1
  free_freed : ∀ i ∈ a.freeList, i < a.nodes.length ∧ ¬ a.Live i
  free_nodup : a.freeList.Nodup
  root_live : ∀ {r}, a.root = some r → a.Live r ∧ a.sponsorOf r = none
  top_root : ∀ {i}, a.Live i → a.parentOf i = none → a.root = some i
  chains : Ranked a.sponsorOf

/-! ## 1. What follows -/

namespace Valid

variable {a : Arena} (h : a.Valid)
include h

variable {i : NodeIndex}

theorem live_of_parent {p : NodeIndex} (hp : a.parentOf i = some p) : a.Live i := by
  refine Classical.byContradiction fun hl => ?_
  rw [(h.cleared hl).1] at hp
  cases hp

theorem live_parent {p : NodeIndex} (hp : a.parentOf i = some p) : a.Live p := by
  refine Classical.byContradiction fun hl => ?_
  have := h.placed.mem_iff.mpr hp
  rw [(h.cleared hl).2.2.1] at this
  exact not_mem_nil this

theorem live_of_sponsor {s : NodeIndex} (hs : a.sponsorOf i = some s) : a.Live i := by
  refine Classical.byContradiction fun hl => ?_
  rw [(h.cleared hl).2.1] at hs
  cases hs

theorem live_sponsor {s : NodeIndex} (hs : a.sponsorOf i = some s) : a.Live s := by
  refine Classical.byContradiction fun hl => ?_
  have := h.recruited.mem_iff.mpr hs
  rw [(h.cleared hl).2.2.2] at this
  exact not_mem_nil this

theorem live_child {c : NodeIndex} (hc : c ∈ a.childrenOf i) : a.Live c :=
  h.live_of_parent (h.placed.mem_iff.mp hc)

theorem live_below {x q : NodeIndex} (hq : a.Live q) (hx : Above a.parentOf x q) : a.Live x := by
  rcases Relation.ReflTransGen.cases_head hx with rfl | ⟨y, hy, _⟩
  · exact hq
  · exact h.live_of_parent hy

variable {u : Uuid}

theorem live_of_lookup (hu : a.index.lookup u = some i) : a.Live i := by
  obtain ⟨hne, e⟩ := h.index_iff.mp hu
  show (a.nodeAt i).userId ≠ Uuid.nil
  rw [e]
  exact hne

theorem lookup_of_live (hi : a.Live i) : a.index.lookup (a.nodeAt i).userId = some i :=
  h.index_iff.mpr ⟨hi, rfl⟩

theorem userId_inj {j : NodeIndex} (hi : a.Live i)
    (e : (a.nodeAt i).userId = (a.nodeAt j).userId) : i = j := by
  have hj : a.index.lookup (a.nodeAt i).userId = some j := h.index_iff.mpr ⟨hi, e.symm⟩
  rw [h.lookup_of_live hi] at hj
  exact some.inj hj

theorem userId_ne (hu : a.index.lookup u = none) (hn : u ≠ Uuid.nil) (i : NodeIndex) :
    (a.nodeAt i).userId ≠ u := by
  intro e
  rw [h.index_iff.mpr ⟨hn, e⟩] at hu
  cases hu

theorem no_link (hi : ¬ a.Live i) (j : NodeIndex) : a.parentOf j ≠ some i ∧ a.sponsorOf j ≠ some i :=
  ⟨fun hj => hi (h.live_parent hj), fun hj => hi (h.live_sponsor hj)⟩

/-- The placement is a forest: depth drops along every parent link. -/
theorem forest : Forest a.childrenOf a.parentOf where
  toLinked := h.placed
  ranked := ⟨fun i => (a.nodeAt i).depth, fun i p hp => by
    show (a.nodeAt p).depth < (a.nodeAt i).depth
    rw [h.depth_below hp]
    exact Nat.lt_succ_self _⟩

theorem antichain_children (i : NodeIndex) : Antichain a.parentOf (a.childrenOf i) := by
  simpa using (antichain_singleton i).pop h.forest

theorem above_lt {j : NodeIndex} (hi : i < a.nodes.length) (hij : Above a.parentOf i j) :
    j < a.nodes.length := by
  rcases Relation.ReflTransGen.cases_tail hij with rfl | ⟨k, _, hk⟩
  · exact hi
  · exact (h.live_parent hk).lt

theorem below_lt {j : NodeIndex} (hj : j < a.nodes.length) (hij : Above a.parentOf i j) :
    i < a.nodes.length := by
  rcases Relation.ReflTransGen.cases_head hij with rfl | ⟨k, hk, _⟩
  · exact hj
  · exact (h.live_of_parent hk).lt

theorem sponsor_above_lt {j : NodeIndex} (hi : i < a.nodes.length)
    (hij : Above a.sponsorOf i j) : j < a.nodes.length := by
  rcases Relation.ReflTransGen.cases_tail hij with rfl | ⟨k, _, hk⟩
  · exact hi
  · exact (h.live_sponsor hk).lt

theorem sponsor_climb (hi : i < a.nodes.length) : climb a.sponsorOf a.nodes.length i = none :=
  h.chains.climb_none _ (Finset.range a.nodes.length) i (by rw [Finset.card_range])
    fun _ hj => Finset.mem_range.mpr (h.sponsor_above_lt hi hj)

theorem climb_of_le_depth : ∀ (n : Nat) {i : NodeIndex}, a.Live i → n ≤ (a.nodeAt i).depth →
    climb a.parentOf n i ≠ none := by
  intro n
  induction n with
  | zero => intro i _ _; simp [climb]
  | succ n ih =>
    intro i hi hn
    cases hp : a.parentOf i with
    | none =>
      have := h.depth_top hi hp
      omega
    | some p =>
      have := h.depth_below hp
      rw [climb_succ_some hp]
      exact ih (h.live_parent hp) (by omega)

/-- **A depth is below the number of slots.** -/
theorem depth_lt (hi : a.Live i) : (a.nodeAt i).depth < a.nodes.length := by
  refine Nat.lt_of_not_le fun hle => h.climb_of_le_depth _ hi hle ?_
  exact h.forest.ranked.climb_none _ (Finset.range a.nodes.length) i (by rw [Finset.card_range])
    fun _ hj => Finset.mem_range.mpr (h.above_lt hi.lt hj)

theorem depth_succ_lt (hroom : a.Roomy) (hi : a.Live i) : (a.nodeAt i).depth + 1 < 2 ^ 32 :=
  Nat.lt_of_le_of_lt (h.depth_lt hi) hroom

theorem deeper_ok [Build] {ε : Type} (hroom : a.Roomy) (hi : a.Live i) :
    deeper (ε := ε) (a.nodeAt i).depth = .ok ((a.nodeAt i).depth + 1) :=
  Engine.deeper_ok (h.depth_succ_lt hroom hi)

theorem root_above (hi : a.Live i) : ∃ r, a.root = some r ∧ Above a.parentOf i r := by
  obtain ⟨rank, hr⟩ := h.forest.ranked
  induction hn : rank i using Nat.strong_induction_on generalizing i with
  | _ n ih =>
    cases hp : a.parentOf i with
    | none => exact ⟨i, h.top_root hi hp, .refl⟩
    | some p =>
      obtain ⟨r, hroot, hpr⟩ := ih (rank p) (hn ▸ hr i p hp) (h.live_parent hp) rfl
      exact ⟨r, hroot, .head hp hpr⟩

theorem root_parent {r : NodeIndex} (hroot : a.root = some r) : a.parentOf r = none := by
  cases hp : a.parentOf r with
  | none => rfl
  | some p =>
    obtain ⟨r', hr', hpr⟩ := h.root_above (h.live_parent hp)
    rw [hroot] at hr'
    cases hr'
    exact absurd (.head' hp hpr) (h.forest.ranked.irrefl r)

theorem parent_of_ne_root (hi : a.Live i) (hr : a.root ≠ some i) : ∃ p, a.parentOf i = some p := by
  cases hp : a.parentOf i with
  | none => exact absurd (h.top_root hi hp) hr
  | some p => exact ⟨p, rfl⟩

end Valid

/-! ## 2. The check accepts the valid arenas -/

section Restored

variable {a : Arena}

theorem Valid.edges_live (h : a.Valid) (x : NodeIndex) :
    (∀ y ∈ a.childrenOf x, a.Live x ∧ a.Live y) ∧ ∀ y ∈ a.sponsoredOf x, a.Live x ∧ a.Live y := by
  refine ⟨fun y hy => ?_, fun y hy => ?_⟩
  · have hp := h.placed.mem_iff.mp hy
    exact ⟨h.live_parent hp, h.live_of_parent hp⟩
  · have hs := h.recruited.mem_iff.mp hy
    exact ⟨h.live_sponsor hs, h.live_of_sponsor hs⟩

theorem Valid.checkNode (h : a.Valid) (i : NodeIndex) : a.checkNode i = .ok () := by
  refine checkNode_eq_ok.mpr ⟨h.cleared, fun hi => ⟨h.lookup_of_live hi, ?_, ?_, ?_, ?_⟩⟩
  · exact fun t ht => h.live_parent ht
  · exact fun t ht => h.live_sponsor ht
  · exact fun c hc => ((h.edges_live i).1 c hc).2
  · exact fun s hs => ((h.edges_live i).2 s hs).2

theorem Valid.validateRestored (h : a.Valid) : a.validateRestored = .ok () := by
  unfold Arena.validateRestored
  simp only [seq_eq_ok]
  refine ⟨?_, ?_, ?_, ?_, ?_, ?_, ?_, ?_, ?_⟩
  · refine lowestFault_eq_ok.mpr ⟨rfl, ?_⟩
    rintro ⟨u, i⟩ hx
    exact congrArg _ (indexFault_eq_none.mpr (h.index_iff.mp (mem_lookup_iff.mpr hx)))
  · exact forM_eq_ok.mpr fun i _ => h.checkNode i
  · exact eachLive_eq_ok.mpr fun i hi =>
      (checkDepth_eq_ok fun t ht => h.live_parent ht).mpr ⟨h.depth_top hi, fun p hp => h.depth_below hp⟩
  · exact forDistinct_eq_ok.mpr ⟨fun i hi => ⟨checkFreeSlot_eq_ok.mpr (h.free_freed i hi), rfl⟩,
      h.free_nodup, fun _ _ => not_mem_nil⟩
  · exact checkRoot_eq_ok.mpr fun r hr => h.root_live hr
  · exact (checkReciprocal_eq_ok (fun x => (h.edges_live x).1) (fun x y hy => h.live_of_parent hy)
      fun x hx => (h.cleared hx).2.2.1).mpr h.placed
  · refine checkSingleRoot_eq_ok.mpr ⟨fun hr i hi => ?_, fun r hr i hi hp => ?_⟩
    · obtain ⟨r, hroot, _⟩ := h.root_above hi
      rw [hr] at hroot
      cases hroot
    · have := h.top_root hi hp
      rw [hr] at this
      exact (some.inj this).symm
  · exact (checkReciprocal_eq_ok (fun x => (h.edges_live x).2) (fun x y hy => h.live_of_sponsor hy)
      fun x hx => (h.cleared hx).2.2.2).mpr h.recruited
  · exact chainsEnd_ok_of_ranked h.chains (fun i s hs => (h.live_sponsor hs).lt) _

theorem valid_of_validateRestored (h : a.validateRestored = .ok ()) : a.Valid := by
  unfold Arena.validateRestored at h
  simp only [seq_eq_ok, lowestFault_eq_ok, forM_eq_ok, mem_range, true_and,
    checkNode_eq_ok, eachLive_eq_ok, checkRoot_eq_ok, checkSingleRoot_eq_ok,
    forDistinct_eq_ok, checkFreeSlot_eq_ok, Except.ok.injEq, indexFault_eq_none, and_true] at h
  obtain ⟨hindex, hnode, hdepth, ⟨hfree, hfnd, -⟩, hroot, hplaced, ⟨hnone, htop⟩, hrec, hchains⟩ := h
  -- a slot past the end is a cleared one
  have hclear : ∀ i, ¬ a.Live i →
      a.parentOf i = none ∧ a.sponsorOf i = none ∧ a.childrenOf i = [] ∧ a.sponsoredOf i = [] := by
    intro i hi
    by_cases hlt : i < a.nodes.length
    · exact (hnode i hlt).1 hi
    · simp only [parentOf, sponsorOf, childrenOf, sponsoredOf, nodeAt_of_le (Nat.le_of_not_lt hlt)]
      exact ⟨rfl, rfl, rfl, rfl⟩
  have hlive : ∀ {i}, a.Live i → _ := fun {i} hi => (hnode i hi.lt).2 hi
  have hmem : ∀ {down : Node → List NodeIndex} {x y : NodeIndex},
      (∀ i, ¬ a.Live i → down (a.nodeAt i) = []) → y ∈ down (a.nodeAt x) → a.Live x := by
    intro down x y hd hy
    refine Classical.byContradiction fun hl => ?_
    rw [hd x hl] at hy
    exact not_mem_nil hy
  have hkids : ∀ i, ¬ a.Live i → (a.nodeAt i).children = [] := fun i hi => (hclear i hi).2.2.1
  have hrecs : ∀ i, ¬ a.Live i → (a.nodeAt i).sponsored = [] := fun i hi => (hclear i hi).2.2.2
  have hpl : ∀ {i p}, a.parentOf i = some p → a.Live i := by
    intro i p hp
    refine Classical.byContradiction fun hl => ?_
    rw [(hclear i hl).1] at hp
    cases hp
  have hsl : ∀ {i p}, a.sponsorOf i = some p → a.Live i := by
    intro i p hp
    refine Classical.byContradiction fun hl => ?_
    rw [(hclear i hl).2.1] at hp
    cases hp
  have hd : ∀ {i}, a.Live i → _ := fun {i} hi => (checkDepth_eq_ok (hlive hi).2.1).mp (hdepth i hi)
  refine
    { index_iff := fun {u i} => ⟨fun hu => hindex ⟨u, i⟩ (mem_lookup_iff.mp hu), ?_⟩
      cleared := fun {i} hi => hclear i hi
      placed := (checkReciprocal_eq_ok (fun x y hy => ⟨hmem hkids hy, (hlive (hmem hkids hy)).2.2.2.1 y hy⟩)
        (fun x y hy => hpl hy) hkids).mp hplaced
      recruited := (checkReciprocal_eq_ok
        (fun x y hy => ⟨hmem hrecs hy, (hlive (hmem hrecs hy)).2.2.2.2 y hy⟩)
        (fun x y hy => hsl hy) hrecs).mp hrec
      depth_top := fun {i} hi => (hd hi).1
      depth_below := fun {i p} hp => (hd (hpl hp)).2 p hp
      free_freed := hfree
      free_nodup := hfnd
      root_live := fun {r} hr => hroot r hr
      top_root := fun {i} hi hp => ?_
      chains := ranked_iff_ends.mpr fun i => ?_ }
  · rintro ⟨hu, rfl⟩
    exact (hlive hu).1
  · cases hr : a.root with
    | none => exact absurd hi (hnone hr i)
    | some r => rw [htop r hr i hi hp]
  · by_cases hi : a.Live i
    · exact ends_of_chainsEnd_ok hchains hi.lt (decide_eq_false hi)
    · exact ends_of_none (hclear i hi).2.1

/-- **The check returns exactly on the valid arenas.** -/
theorem validateRestored_iff : a.validateRestored = .ok () ↔ a.Valid :=
  ⟨valid_of_validateRestored, Valid.validateRestored⟩

end Restored

theorem new_valid : Valid new where
  index_iff {u i} := by
    simp only [new, lookup_empty, reduceCtorEq, false_iff, not_and]
    exact fun hu e => hu e.symm
  cleared _ := ⟨rfl, rfl, rfl, rfl⟩
  placed := ⟨⟨fun h => absurd h not_mem_nil, nofun⟩, fun x => nodup_nil⟩
  recruited := ⟨⟨fun h => absurd h not_mem_nil, nofun⟩, fun x => nodup_nil⟩
  depth_top _ _ := rfl
  depth_below hp := by cases hp
  free_freed i hi := absurd hi not_mem_nil
  free_nodup := nodup_nil
  root_live hr := by cases hr
  top_root hi _ := absurd rfl hi
  chains := ⟨fun _ => 0, fun _ _ h => by cases h⟩

end Arena

end MlmForge.Engine
