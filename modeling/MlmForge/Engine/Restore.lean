/-
  Subject:   `validate_restored` of an arena, pass by pass.

  A restored arena was built by its caller, so the check re-establishes everything the operations
  keep. Every pass has its lemma `.._eq_ok`: when it returns. A pass that reads a node by an index
  an earlier pass has shown to be live assumes that.
-/
import MlmForge.Basis.ChainCheck
import MlmForge.Basis.Links
import MlmForge.Engine.Arena

namespace MlmForge.Engine

open Query List Option

namespace Arena

/-- A check of a restored tree. -/
abbrev Check := Query SnapshotConsistencyError

/-! ## 1. The passes -/

abbrev parentOf (a : Arena) (idx : NodeIndex) : Option NodeIndex := (a.nodeAt idx).parent

abbrev childrenOf (a : Arena) (idx : NodeIndex) : List NodeIndex := (a.nodeAt idx).children

abbrev sponsorOf (a : Arena) (idx : NodeIndex) : Option NodeIndex := (a.nodeAt idx).sponsor

abbrev sponsoredOf (a : Arena) (idx : NodeIndex) : List NodeIndex := (a.nodeAt idx).sponsored

/-- A loop over the nodes in slot order that skips tombstones. -/
def eachLive (a : Arena) (body : NodeIndex → Node → Check Unit) : Check Unit :=
  forM (range a.nodes.length) fun slot =>
    if (a.nodeAt slot).userId = Uuid.nil then .ok () else body slot (a.nodeAt slot)

/-- What is wrong with an index entry. Liveness goes before equality: an entry that maps nil to a
    tombstone would pass the other way round. -/
def indexFault (a : Arena) (userId : Uuid) (idx : NodeIndex) : Option SnapshotConsistencyError :=
  match a.nodes[idx]? with
  | none => some (.indexSlotOutOfRange userId idx a.nodes.length)
  | some n =>
    if n.userId = Uuid.nil then some (.indexSlotTombstoned userId idx)
    else if n.userId ≠ userId then some (.indexSlotMismatch userId idx n.userId)
    else none

def staleField (n : Node) : Option StaleField :=
  if n.parent.isSome then some .parent
  else if n.sponsor.isSome then some .sponsor
  else if n.children ≠ [] then some .child
  else if n.sponsored ≠ [] then some .sponsoredNode
  else none

def checkEdge (a : Arena) (field : Field) (slot : NodeIndex) (target : Option NodeIndex) :
    Check Unit :=
  match target with
  | none => .ok ()
  | some target =>
    match a.nodes[target]? with
    | none => .error (.err (.edgeOutOfRange field slot target a.nodes.length))
    | some found => stopIf (found.userId = Uuid.nil) (.err (.edgeTombstoned field slot target))

/-- The pass "nodes to index, and every edge on every live node" at one slot. -/
def checkNode (a : Arena) (slot : NodeIndex) : Check Unit :=
  let n := a.nodeAt slot
  if n.userId = Uuid.nil then
    match staleField n with
    | some field => .error (.err (.tombstoneNotCleared slot field))
    | none => .ok ()
  else do
    stopIf (a.index.lookup n.userId ≠ some slot) (.err (.nodeNotIndexed slot n.userId))
    a.checkEdge .parent slot n.parent
    a.checkEdge .sponsor slot n.sponsor
    forM n.children fun child => a.checkEdge .children slot (some child)
    forM n.sponsored fun sponsored => a.checkEdge .sponsored slot (some sponsored)

def checkDepth (a : Arena) (slot : NodeIndex) (n : Node) : Check Unit :=
  match n.parent with
  | none => stopIf (n.depth ≠ 0) (.err (.nodeDepthNotZero slot n.userId n.depth))
  | some parent => do
      let p ← a.slot parent
      stopIf (n.depth ≠ p.depth + 1)
        (.err (.nodeDepthMismatch slot n.userId n.depth parent p.depth))

def checkFreeSlot (a : Arena) (idx : NodeIndex) : Check Unit :=
  match a.nodes[idx]? with
  | none => .error (.err (.freeSlotOutOfRange idx a.nodes.length))
  | some n => stopIf (n.userId ≠ Uuid.nil) (.err (.freeSlotNotTombstoned idx n.userId))

def checkRoot (a : Arena) : Check Unit :=
  match a.root with
  | none => .ok ()
  | some root =>
    match a.nodes[root]? with
    | none => .error (.err (.rootOutOfRange root a.nodes.length))
    | some n => do
        stopIf (n.userId = Uuid.nil) (.err (.rootTombstoned root))
        match n.sponsor with
        | none => .ok ()
        | some sponsor => .error (.err (.rootHasSponsor root n.userId sponsor))

/-- Every edge that a live node lists downward, in slot order. -/
def edges (a : Arena) (down : Node → List NodeIndex) : List (NodeIndex × NodeIndex) :=
  (range a.nodes.length).flatMap fun slot =>
    if (a.nodeAt slot).userId = Uuid.nil then [] else (down (a.nodeAt slot)).map fun t => (slot, t)

/-- Every edge listed downward is named back upward exactly once, and the reverse. -/
def checkReciprocal (a : Arena) (downField upField : Field) (down : Node → List NodeIndex)
    (up : Node → Option NodeIndex) : Check Unit := do
  forDistinct (fun _ => .ok ()) (fun (slot, target) => .edgeRepeated downField slot target)
    (fun (slot, target) => do
      let n ← a.slot target
      stopIf (up n ≠ some slot) (.err (.edgeNotReciprocated downField slot target upField)))
    [] (a.edges down)
  a.eachLive fun slot n =>
    match up n with
    | none => .ok ()
    | some target =>
      stopIf ((target, slot) ∉ a.edges down)
        (.err (.edgeNotReciprocated upField slot target downField))

/-- A populated arena names a root and holds no other parentless node. -/
def checkSingleRoot (a : Arena) : Check Unit :=
  let liveCount := (a.nodes.filter fun n => n.userId ≠ Uuid.nil).length
  match a.root with
  | none => stopIf (0 < liveCount) (.err (.rootMissing liveCount))
  | some root =>
    a.eachLive fun slot n =>
      stopIf (n.parent = none ∧ slot ≠ root)
        (.err (.parentlessNodeNotRoot slot n.userId root))

def checkSponsorChainsEnd (a : Arena) : Check Unit :=
  chainsEnd a.sponsorOf .sponsorChainRevisits (fun i => (a.nodeAt i).userId = Uuid.nil)
    a.nodes.length

/-- Every stored index is in range and live, the parent edges form one rooted tree whose root has no
    sponsor, and every sponsor chain ends. -/
def validateRestored (a : Arena) : Check Unit := do
  lowestFault (fun u idx => .ok (a.indexFault u idx)) none a.index.entries
  forM (range a.nodes.length) a.checkNode
  a.eachLive a.checkDepth
  forDistinct a.checkFreeSlot .freeSlotRepeated (fun _ => .ok ()) [] a.freeList
  a.checkRoot
  a.checkReciprocal .children .parent Node.children Node.parent
  a.checkSingleRoot
  a.checkReciprocal .sponsored .sponsor Node.sponsored Node.sponsor
  a.checkSponsorChainsEnd

/-! ## 2. What each pass establishes -/

section Passes

variable {a : Arena}

theorem eachLive_eq_ok {body : NodeIndex → Node → Check Unit} :
    a.eachLive body = .ok () ↔ ∀ i, a.Live i → body i (a.nodeAt i) = .ok () := by
  unfold eachLive
  rw [forM_eq_ok]
  constructor
  · intro h i hi
    simpa [show (a.nodeAt i).userId ≠ Uuid.nil from hi] using h i (mem_range.mpr hi.lt)
  · intro h i _
    split
    · rfl
    · exact h i (by assumption)

variable {i : NodeIndex}

theorem indexFault_eq_none {u : Uuid} : a.indexFault u i = none ↔ u ≠ Uuid.nil ∧ (a.nodeAt i).userId = u := by
  unfold indexFault
  by_cases hi : i < a.nodes.length
  · simp only [getElem?_eq_nodeAt hi]
    split
    · rename_i h
      simp only [h, reduceCtorEq, false_iff, not_and]
      exact fun hu e => hu e.symm
    · rename_i h
      split
      · simp_all
      · simp_all
  · have hle := Nat.le_of_not_lt hi
    simp only [getElem?_eq_none hle, nodeAt_of_le hle, reduceCtorEq, false_iff, not_and]
    exact fun hu e => hu e.symm

theorem staleField_eq_none {n : Node} :
    staleField n = none ↔ n.parent = none ∧ n.sponsor = none ∧ n.children = [] ∧ n.sponsored = []
    := by
  unfold staleField
  split
  · simp_all [isSome_iff_ne_none]
  · split
    · simp_all [isSome_iff_ne_none]
    · split
      · simp_all
      · split <;> simp_all

theorem checkEdge_eq_ok {field : Field} {slot : NodeIndex} {target : Option NodeIndex} :
    a.checkEdge field slot target = .ok () ↔ ∀ t, target = some t → a.Live t := by
  cases target with
  | none => simp [checkEdge]
  | some t =>
    unfold checkEdge
    by_cases ht : t < a.nodes.length
    · simp only [getElem?_eq_nodeAt ht, stopIf_eq_ok, Option.some.injEq, forall_eq']
      exact Iff.rfl
    · simp only [getElem?_eq_none (Nat.le_of_not_lt ht), reduceCtorEq, Option.some.injEq,
        forall_eq', false_iff]
      exact fun h => ht h.lt

theorem checkNode_eq_ok : a.checkNode i = .ok () ↔
      (¬ a.Live i → a.parentOf i = none ∧ a.sponsorOf i = none ∧ a.childrenOf i = [] ∧ a.sponsoredOf i = []) ∧
      (a.Live i → a.index.lookup (a.nodeAt i).userId = some i ∧
        (∀ t, a.parentOf i = some t → a.Live t) ∧ (∀ t, a.sponsorOf i = some t → a.Live t) ∧
        (∀ c ∈ a.childrenOf i, a.Live c) ∧ ∀ s ∈ a.sponsoredOf i, a.Live s) := by
  unfold checkNode
  by_cases hi : (a.nodeAt i).userId = Uuid.nil
  · have hl : ¬ a.Live i := fun h => h hi
    simp only [hi, if_true, hl, not_false_eq_true, forall_const, false_implies, and_true]
    rw [← staleField_eq_none]
    cases staleField (a.nodeAt i) <;> simp
  · have hl : a.Live i := hi
    simp only [hi, if_false, hl, not_true, false_implies, true_and, forall_const,
      seq_eq_ok, stopIf_eq_ok, not_not, checkEdge_eq_ok, forM_eq_ok, Option.some.injEq, forall_eq']

theorem checkDepth_eq_ok (hp : ∀ t, a.parentOf i = some t → a.Live t) :
    a.checkDepth i (a.nodeAt i) = .ok () ↔ (a.parentOf i = none → (a.nodeAt i).depth = 0) ∧
      ∀ p, a.parentOf i = some p → (a.nodeAt i).depth = (a.nodeAt p).depth + 1 := by
  unfold checkDepth
  cases hpar : (a.nodeAt i).parent with
  | none => simp [parentOf, hpar]
  | some p => simp [parentOf, hpar, bind_ok (slot_ok (hp p hpar).lt)]

theorem checkFreeSlot_eq_ok : a.checkFreeSlot i = .ok () ↔ i < a.nodes.length ∧ ¬ a.Live i := by
  unfold checkFreeSlot
  by_cases hi : i < a.nodes.length
  · simp only [getElem?_eq_nodeAt hi, stopIf_eq_ok, hi, true_and]
    exact Iff.rfl
  · simp [hi]

theorem checkRoot_eq_ok : a.checkRoot = .ok () ↔ ∀ r, a.root = some r → a.Live r ∧ a.sponsorOf r = none := by
  unfold checkRoot
  cases hr : a.root with
  | none => simp
  | some r =>
    simp only [Option.some.injEq, forall_eq']
    by_cases hlt : r < a.nodes.length
    · simp only [getElem?_eq_nodeAt hlt, seq_eq_ok, stopIf_eq_ok, sponsorOf]
      refine and_congr Iff.rfl ?_
      cases (a.nodeAt r).sponsor <;> simp
    · simp only [getElem?_eq_none (Nat.le_of_not_lt hlt), reduceCtorEq, false_iff]
      exact fun h => hlt h.1.lt

variable {down : Node → List NodeIndex}

theorem mem_edges {x y : NodeIndex} : (x, y) ∈ a.edges down ↔ a.Live x ∧ y ∈ down (a.nodeAt x) := by
  unfold edges
  simp only [mem_flatMap, mem_range]
  constructor
  · rintro ⟨slot, _, h⟩
    split at h
    · exact absurd h not_mem_nil
    · rename_i hl
      obtain ⟨t, ht, e⟩ := mem_map.mp h
      cases e
      exact ⟨hl, ht⟩
  · rintro ⟨hx, hy⟩
    refine ⟨x, hx.lt, ?_⟩
    rw [if_neg hx]
    exact mem_map_of_mem hy

theorem edges_nodup : (a.edges down).Nodup ↔ ∀ x, a.Live x → (down (a.nodeAt x)).Nodup := by
  unfold edges
  rw [nodup_flatMap]
  constructor
  · rintro ⟨h, -⟩ x hx
    have := h x (mem_range.mpr hx.lt)
    rw [if_neg hx] at this
    exact List.Nodup.of_map _ this
  · intro h
    refine ⟨fun x _ => ?_, nodup_range.imp fun {x y} hxy => ?_⟩
    · split
      · exact nodup_nil
      · rename_i hx
        exact (h x hx).map fun _ _ e => (Prod.mk.inj e).2
    · rintro ⟨s, t⟩ hx hy
      dsimp only at hx hy
      split at hx
      · exact not_mem_nil hx
      · split at hy
        · exact not_mem_nil hy
        · obtain ⟨_, _, e⟩ := mem_map.mp hx
          obtain ⟨_, _, e'⟩ := mem_map.mp hy
          exact hxy ((Prod.mk.inj e).1.trans (Prod.mk.inj e').1.symm)

theorem checkReciprocal_eq_ok {downField upField : Field}
    {up : Node → Option NodeIndex} (hdown : ∀ x, ∀ y ∈ down (a.nodeAt x), a.Live x ∧ a.Live y)
    (hup : ∀ x y, up (a.nodeAt y) = some x → a.Live y) (hdead : ∀ x, ¬ a.Live x → down (a.nodeAt x) = []) :
    a.checkReciprocal downField upField down up = .ok () ↔
      Linked (fun i => down (a.nodeAt i)) fun i => up (a.nodeAt i) := by
  unfold checkReciprocal
  simp only [seq_eq_ok, forDistinct_eq_ok, eachLive_eq_ok, edges_nodup, true_and,
    not_mem_nil, not_false_eq_true, implies_true, and_true]
  constructor
  · rintro ⟨⟨hfwd, hnd⟩, hback⟩
    refine ⟨fun {x y} => ⟨fun hy => ?_, fun hx => ?_⟩, fun x => ?_⟩
    · obtain ⟨hlx, hly⟩ := hdown x y hy
      have := hfwd (x, y) (mem_edges.mpr ⟨hlx, hy⟩)
      simpa [bind_ok (slot_ok hly.lt)] using this
    · have := hback y (hup x y hx)
      rw [hx] at this
      rw [stopIf_eq_ok, not_not, mem_edges] at this
      exact this.2
    · by_cases hx : a.Live x
      · exact hnd x hx
      · show (down (a.nodeAt x)).Nodup
        rw [hdead x hx]
        exact nodup_nil
  · intro h
    refine ⟨⟨?_, fun x _ => h.nodup x⟩, fun y hy => ?_⟩
    · rintro ⟨x, y⟩ hxy
      have hy := (mem_edges.mp hxy).2
      have hx := h.mem_iff.mp hy
      simpa [bind_ok (slot_ok (hdown x y hy).2.lt)] using hx
    · split
      · rfl
      · rename_i x hx
        rw [stopIf_eq_ok, not_not, mem_edges]
        have hy := h.mem_iff.mpr hx
        exact ⟨(hdown x y hy).1, hy⟩

theorem filter_live_eq_zero : (a.nodes.filter fun n => n.userId ≠ Uuid.nil).length = 0 ↔ ∀ i, ¬ a.Live i := by
  rw [length_eq_zero_iff, filter_eq_nil_iff]
  constructor
  · intro h i hi
    have hmem : a.nodeAt i ∈ a.nodes := mem_of_getElem? (getElem?_eq_nodeAt hi.lt)
    exact h _ hmem (decide_eq_true hi)
  · intro h n hn
    obtain ⟨i, hi, e⟩ := mem_iff_getElem.mp hn
    have hni : n = a.nodeAt i := by
      have := getElem?_eq_nodeAt hi
      rw [getElem?_eq_getElem hi, e] at this
      exact some.inj this
    have := h i
    simp only [Live, ← hni, not_not] at this
    simp [this]

theorem checkSingleRoot_eq_ok : a.checkSingleRoot = .ok () ↔ (a.root = none → ∀ i, ¬ a.Live i) ∧
      ∀ r, a.root = some r → ∀ i, a.Live i → a.parentOf i = none → i = r := by
  unfold checkSingleRoot
  cases hr : a.root with
  | none =>
    simp only [stopIf_eq_ok, Nat.not_lt, Nat.le_zero, reduceCtorEq, forall_const, false_implies, and_true]
    exact filter_live_eq_zero
  | some r => simp [eachLive_eq_ok]

end Passes

end Arena

end MlmForge.Engine
