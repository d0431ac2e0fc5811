/-
  Subject:   The leg volumes of a binary tree: what arrives below each position, and what it carries.

  * **`accumulateLegVolumes_ok`** -- a working leg is what arrived on it and what was carried.
-/
import MlmForge.Basis.Subtree
import MlmForge.Commission.Plan

namespace MlmForge.Commission

open Engine Rank Query List Maps Dec Option

/-! ## 1. Preparation -/

/-- Volumes of the two legs of a position. -/
structure LegVolumes where
  left : Dec
  right : Dec
  deriving DecidableEq

def LegVolumes.on (l : LegVolumes) : BinaryLeg → Dec
  | .left => l.left
  | .right => l.right

abbrev LegMap := AList fun _ : Uuid => LegVolumes

/-- Who owns a position, where one owner may hold several. -/
abbrev Ownership := AList fun _ : Uuid => Uuid

/-- A position that is not in the map is its own owner. -/
def resolveOwner (positionId : Uuid) (ownership : Option Ownership) : Uuid :=
  match ownership with
  | none => positionId
  | some owners => (owners.lookup positionId).getD positionId

/-- Adds one source to the total of its position. -/
def addSource (t : BinaryTree) (snapshots : Snapshots) (ownership : Option Ownership)
    (totals : AList fun _ : Uuid => Dec) (source : VolumeSource) :
    Query CalculationError (AList fun _ : Uuid => Dec) := do
  stopIf (source.cvAmount.isNegative = true) (.err (.invalidCvAmount source.sourceId source.cvAmount))
  stopIf (t.arena.index.lookup source.sourceId = none) (.err (.sourceNotInTree source.sourceId))
  let owner := resolveOwner source.sourceId ownership
  stopIf (snapshots.lookup owner = none) (.err (.sourceNotInSnapshot owner))
  let total ← relay .numeric (((totals.lookup source.sourceId).getD zero).tryAdd source.cvAmount)
  .ok (totals.insert source.sourceId total)

def aggregateVolume (t : BinaryTree) (snapshots : Snapshots) (volume : List VolumeSource)
    (ownership : Option Ownership) : Query CalculationError (AList fun _ : Uuid => Dec) :=
  volume.foldlM (addSource t snapshots ownership) ∅

/-- Whether each distributor may be paid. Active leg tiers are not looked at for binary trees. -/
def evaluateEligibility (order : HashOrder Site) (snapshots : Snapshots)
    (eligibility : CommissionEligibility) : AList fun _ : Uuid => Bool :=
  collect ((order.entries .eligibility snapshots).map fun e => (e.1, isEligible e.2 eligibility))

/-- A live node with what the walk over the tree sorts it by. -/
structure QueuedNode where
  idx : NodeIndex
  uid : Uuid
  depth : Nat
  deriving DecidableEq

/-- Deeper nodes come first, and of one depth the lower id. -/
def QueuedNode.before (a b : QueuedNode) : Prop := b.depth < a.depth ∨ (a.depth = b.depth ∧ a.uid ≤ b.uid)

instance : DecidableRel QueuedNode.before := fun a b =>
  inferInstanceAs (Decidable (b.depth < a.depth ∨ (a.depth = b.depth ∧ a.uid ≤ b.uid)))

def nodesByDepth (order : HashOrder Site) (t : BinaryTree) : Query NumericError (List QueuedNode) := do
  let nodes ← (order.entries .index t.arena.index).mapM fun e => do
    let n ← t.arena.node e.2
    .ok (QueuedNode.mk e.2 e.1 n.depth)
  .ok (nodes.insertionSort QueuedNode.before)

/-- A node's total: its own volume and its children's totals. -/
def addSubtree (t : BinaryTree) (volumeTotals : AList fun _ : Uuid => Dec)
    (totals : AList fun _ : NodeIndex => Dec) (n : QueuedNode) :
    Query NumericError (AList fun _ : NodeIndex => Dec) := do
  let personal := (volumeTotals.lookup n.uid).getD zero
  let node ← t.arena.node n.idx
  let childSum ← zero.addAll (node.children.map fun c => (totals.lookup c).getD zero)
  let total ← personal.tryAdd childSum
  .ok (totals.insert n.idx total)

/-- The child slots of a node. -/
def rowOf (t : BinaryTree) (idx : NodeIndex) : BinarySlots :=
  (t.slots.lookup idx).getD (Vector.replicate 2 none)

/-- The child on a leg. -/
def childOn (t : BinaryTree) (idx : NodeIndex) : BinaryLeg → Option NodeIndex
  | .left => (rowOf t idx)[0]
  | .right => (rowOf t idx)[1]

/-- A leg's total: its subtree's and what was carried. -/
def workingLeg (t : BinaryTree) (totals : AList fun _ : NodeIndex => Dec) (carryForward : LegMap)
    (n : QueuedNode) (leg : BinaryLeg) : Query NumericError Dec :=
  let subtree := ((childOn t n.idx leg).bind totals.lookup).getD zero
  let prior := ((carryForward.lookup n.uid).map fun l => l.on leg).getD zero
  subtree.tryAdd prior

def workingLegs (t : BinaryTree) (totals : AList fun _ : NodeIndex => Dec) (carryForward : LegMap)
    (n : QueuedNode) : Query NumericError (Uuid × LegVolumes) := do
  let left ← workingLeg t totals carryForward n .left
  let right ← workingLeg t totals carryForward n .right
  .ok (n.uid, ⟨left, right⟩)

/-- The working leg volumes of all positions. -/
def accumulateLegVolumes (order : HashOrder Site) (t : BinaryTree)
    (volumeTotals : AList fun _ : Uuid => Dec) (carryForward : LegMap) : Query NumericError LegMap := do
  let nodes ← nodesByDepth order t
  let totals ← nodes.foldlM (addSubtree t volumeTotals) ∅
  let legs ← nodes.mapM (workingLegs t totals carryForward)
  .ok (collect legs)

def checkCarriedLegs (order : HashOrder Site) (carryForward : LegMap) : Query CalculationError Unit :=
  forM ((order.keys .carried carryForward).insertionSort (· ≤ ·)) fun position =>
    match carryForward.lookup position with
    | none => .error (.panic "no entry found for key")
    | some prior =>
      forM [BinaryLeg.left, BinaryLeg.right] fun leg =>
        stopIf ((prior.on leg).isNegative = true)
          (.err (.negativeCarriedLegVolume position leg (prior.on leg)))

/-- The positions, in ascending id order. -/
def sortedPositions (order : HashOrder Site) (legs : LegMap) : List Uuid :=
  (order.keys .legs legs).insertionSort (· ≤ ·)

theorem mem_sortedPositions {order : HashOrder Site} {legs : LegMap} {u : Uuid} :
    u ∈ sortedPositions order legs ↔ ∃ l, legs.lookup u = some l := by
  rw [sortedPositions, mem_insertionSort, order.mem_keys, mem_keys_iff]

theorem nodup_sortedPositions (order : HashOrder Site) (legs : LegMap) : (sortedPositions order legs).Nodup :=
  (perm_insertionSort _ _).nodup_iff.mpr (order.nodup_keys .legs legs)

/-! ## 2. What the preparation reads -/

section Reading

variable {order : HashOrder Site} {t : BinaryTree} {snapshots : Snapshots}
  {eligibility : CommissionEligibility} {u : Uuid}

theorem lookup_evaluateEligibility : (evaluateEligibility order snapshots eligibility).lookup u =
      (snapshots.lookup u).map fun s => isEligible s eligibility :=
  lookup_collect_entries order .eligibility snapshots (fun e => isEligible e.2 eligibility) u

/-- **What carried legs are let through**: those that are not negative. -/
theorem checkCarriedLegs_ok {carryForward : LegMap} (h : checkCarriedLegs order carryForward = .ok ())
    {l : LegVolumes} (hl : carryForward.lookup u = some l) (leg : BinaryLeg) : 0 ≤ (l.on leg).value := by
  have hmem : u ∈ (order.keys .carried carryForward).insertionSort (· ≤ ·) := by
    rw [mem_insertionSort, order.mem_keys]
    exact (mem_keys_iff carryForward).mpr ⟨l, hl⟩
  have hu := forM_eq_ok.mp h u hmem
  rw [hl] at hu
  have hleg := forM_eq_ok.mp hu leg (by cases leg <;> simp)
  rw [stopIf_eq_ok, isNegative_iff, not_lt] at hleg
  exact hleg

end Reading

/-! ## 3. What arrives on a leg -/

/-- The volume that reaches the tree: each source at its node. -/
def arrivals (t : BinaryTree) (volume : List VolumeSource) : List (NodeIndex × ℚ) :=
  volume.filterMap fun source => (t.arena.index.lookup source.sourceId).map fun i => (i, source.cvAmount.value)

/-- What stands in the subtree of a leg. -/
noncomputable def legWeight (t : BinaryTree) (items : List (NodeIndex × ℚ)) (u : Uuid) (leg : BinaryLeg) : ℚ :=
  match (t.arena.index.lookup u).bind fun i => childOn t i leg with
  | none => 0
  | some c => subtreeWeight t.arena.parentOf items c

/-- **The volume of a leg's subtree** in one period. -/
noncomputable def arrived (t : BinaryTree) (volume : List VolumeSource) (u : Uuid) (leg : BinaryLeg) : ℚ :=
  legWeight t (arrivals t volume) u leg

/-- What a map of legs holds on a leg. -/
def carriedOn (legs : LegMap) (u : Uuid) (leg : BinaryLeg) : ℚ :=
  match legs.lookup u with
  | none => 0
  | some l => (l.on leg).value

/-- What is added up for a key. -/
def totalAt {κ : Type} [DecidableEq κ] (totals : AList fun _ : κ => Dec) (k : κ) : ℚ :=
  ((totals.lookup k).getD zero).value

/-- The totals are what stands at the nodes. -/
def Standing (t : BinaryTree) (volumeTotals : AList fun _ : Uuid => Dec) (items : List (NodeIndex × ℚ)) : Prop :=
  ∀ {u i}, t.arena.index.lookup u = some i → totalAt volumeTotals u = weightWhere (· = i) items

section Accumulating

variable {order : HashOrder Site} {t : BinaryTree} {snapshots : Snapshots} {ownership : Option Ownership}
  {volume : List VolumeSource} {volumeTotals : AList fun _ : Uuid => Dec} {carryForward legs : LegMap}

theorem totalAt_insert {κ : Type} [DecidableEq κ] (totals : AList fun _ : κ => Dec) (k : κ) (d : Dec) (i : κ) :
    totalAt (totals.insert k d) i = if i = k then d.value else totalAt totals i := by
  unfold totalAt
  rw [lookup_insert]
  split <;> rfl

theorem addSource_ok {totals totals' : AList fun _ : Uuid => Dec} {source : VolumeSource}
    (h : addSource t snapshots ownership totals source = .ok totals') :
    0 ≤ source.cvAmount.value ∧ (∃ i, t.arena.index.lookup source.sourceId = some i) ∧
      ∀ u, totalAt totals' u = totalAt totals u + if source.sourceId = u then source.cvAmount.value else 0 := by
  simp only [addSource, seq_eq_ok, stopIf_eq_ok, isNegative_iff, not_lt] at h
  obtain ⟨hcv, hin, _, h⟩ := h
  obtain ⟨total, htotal, h⟩ := bind_eq_ok.mp h
  cases h
  refine ⟨hcv, ne_none_iff_exists'.mp hin, fun u => ?_⟩
  rw [totalAt_insert, tryAdd_value (relay_eq_ok.mp htotal)]
  by_cases hu : u = source.sourceId
  · rw [if_pos hu, if_pos hu.symm, hu]
    rfl
  · rw [if_neg hu, if_neg (Ne.symm hu), add_zero]

theorem aggregateVolume_ok (ht : t.arena.Valid)
    (h : aggregateVolume t snapshots volume ownership = .ok volumeTotals) :
    Standing t volumeTotals (arrivals t volume) := by
  intro u i hi
  refine foldlM_induction h
    (fun done totals => totalAt totals u = weightWhere (· = i) (arrivals t done)) ?_ ?_
  · simp [totalAt, arrivals, weightWhere_nil]
  · intro done source rest totals totals' _ hinv hstep
    obtain ⟨_, ⟨j, hj⟩, htotals⟩ := addSource_ok hstep
    have hitem : arrivals t [source] = [(j, source.cvAmount.value)] := by simp [arrivals, hj]
    have hsame : source.sourceId = u ↔ j = i := by
      constructor
      · intro heq
        rw [heq, hi] at hj
        exact (some.inj hj).symm
      · intro heq
        rw [heq] at hj
        exact (ht.index_iff.mp hj).2.symm.trans (ht.index_iff.mp hi).2
    have happ : arrivals t (done ++ [source]) = arrivals t done ++ arrivals t [source] := filterMap_append
    rw [htotals u, hinv, happ, weightWhere_append, hitem, weightWhere_cons, weightWhere_nil, add_zero]
    simp only [hsame]

theorem arrivals_nonneg (h : aggregateVolume t snapshots volume ownership = .ok volumeTotals) :
    ∀ item ∈ arrivals t volume, 0 ≤ item.2 := by
  have hall := foldlM_induction h (fun done _ => ∀ source ∈ done, 0 ≤ source.cvAmount.value) nofun
    fun done source rest totals totals' _ hinv hstep => by
      intro s hs
      rcases mem_append.mp hs with hs | hs
      · exact hinv s hs
      · cases mem_singleton.mp hs
        exact (addSource_ok hstep).1
  intro item hitem
  obtain ⟨source, hs, hmap⟩ := mem_filterMap.mp hitem
  obtain ⟨i, _, rfl⟩ := map_eq_some_iff.mp hmap
  exact hall source hs

/-- What the list of nodes guarantees: it has every member once, and children come before their parents. -/
structure Queued (t : BinaryTree) (nodes : List QueuedNode) : Prop where
  member : ∀ n ∈ nodes, t.arena.index.lookup n.uid = some n.idx
  all : ∀ {u i}, t.arena.index.lookup u = some i → ∃ n ∈ nodes, n.uid = u
  nodup : (nodes.map QueuedNode.uid).Nodup
  deepFirst : ∀ {done n rest}, nodes = done ++ n :: rest → ∀ c ∈ t.arena.childrenOf n.idx,
    ∃ m ∈ done, m.idx = c

instance : Std.Total QueuedNode.before where
  total a b := by
    rcases lt_trichotomy a.depth b.depth with h | h | h
    · exact .inr (.inl h)
    · rcases BitVec.le_total a.uid b.uid with hid | hid
      · exact .inl (.inr ⟨h, hid⟩)
      · exact .inr (.inr ⟨h.symm, hid⟩)
    · exact .inl (.inl h)

instance : IsTrans QueuedNode QueuedNode.before where
  trans a b c hab hbc := by
    rcases hab with hab | ⟨hab, hid⟩
    · exact .inl (by rcases hbc with hbc | ⟨hbc, _⟩ <;> omega)
    · rcases hbc with hbc | ⟨hbc, hid'⟩
      · exact .inl (by omega)
      · exact .inr ⟨by omega, BitVec.le_trans hid hid'⟩

variable {n : QueuedNode}

theorem queuedNode_ok {e : Sigma fun _ : Uuid => NodeIndex}
    (h : (do let m ← t.arena.node e.2; .ok (QueuedNode.mk e.2 e.1 m.depth) : Query NumericError QueuedNode) =
      .ok n) : n.idx = e.2 ∧ n.uid = e.1 ∧ n.depth = (t.arena.nodeAt e.2).depth := by
  obtain ⟨m, hm, h⟩ := bind_eq_ok.mp h
  cases h
  exact ⟨rfl, rfl, by rw [(Arena.of_node_ok hm).2]⟩

variable {nodes : List QueuedNode}

theorem nodesByDepth_ok (ht : t.arena.Valid) (h : nodesByDepth order t = .ok nodes) : Queued t nodes := by
  obtain ⟨listed, hlisted, h⟩ := bind_eq_ok.mp h
  cases h
  have hmember : ∀ n ∈ listed.insertionSort QueuedNode.before, t.arena.index.lookup n.uid = some n.idx ∧
      n.depth = (t.arena.nodeAt n.idx).depth := by
    intro n hn
    obtain ⟨e, he, hread⟩ := exists_of_mem_mapM hlisted (mem_insertionSort _ |>.mp hn)
    obtain ⟨hidx, huid, hdepth⟩ := queuedNode_ok hread
    rw [huid, hidx]
    exact ⟨lookup_of_mem _ ((order.mem_entries .index).mp he), hdepth⟩
  have hall : ∀ {u i}, t.arena.index.lookup u = some i →
      ∃ n ∈ listed.insertionSort QueuedNode.before, n.uid = u ∧ n.idx = i := by
    intro u i hi
    obtain ⟨n, hn, hread⟩ := exists_mem_of_mapM hlisted
      ((order.mem_entries .index).mpr (AList.mem_lookup_iff.mp hi))
    obtain ⟨hidx, huid, _⟩ := queuedNode_ok hread
    exact ⟨n, (mem_insertionSort _).mpr hn, huid, hidx⟩
  refine ⟨fun n hn => (hmember n hn).1, fun hi => ?_, ?_, ?_⟩
  · obtain ⟨n, hn, huid, _⟩ := hall hi
    exact ⟨n, hn, huid⟩
  · rw [((perm_insertionSort _ listed).map QueuedNode.uid).nodup_iff,
      map_of_mapM hlisted fun e n hn => (queuedNode_ok hn).2.1]
    exact order.nodup_entries_keys .index t.arena.index
  · -- a child is deeper than its parent, so it cannot stand after it
    intro done n rest hsplit c hc
    have hparent := ht.placed.mem_iff.mp hc
    obtain ⟨m, hm, _, hidx⟩ := hall (ht.lookup_of_live (ht.live_child hc))
    have hdepth : m.depth = n.depth + 1 := by
      have hn := (hmember n (by rw [hsplit]; simp)).2
      rw [(hmember m hm).2, hidx, ht.depth_below hparent, hn]
    have hsorted := pairwise_insertionSort QueuedNode.before listed
    rw [hsplit] at hm hsorted
    rcases mem_append.mp hm with hm | hm
    · exact ⟨m, hm, hidx⟩
    · rcases mem_cons.mp hm with rfl | hm
      · omega
      · have hbefore := (pairwise_cons.mp (pairwise_append.mp hsorted).2.1).1 m hm
        rcases hbefore with hlt | ⟨heq, _⟩ <;> omega

variable {totals : AList fun _ : NodeIndex => Dec}

theorem addSubtree_ok {totals' : AList fun _ : NodeIndex => Dec}
    (h : addSubtree t volumeTotals totals n = .ok totals') (i : NodeIndex) :
    totalAt totals' i = if i = n.idx then
      totalAt volumeTotals n.uid + ((t.arena.childrenOf n.idx).map (totalAt totals)).sum
      else totalAt totals i := by
  unfold addSubtree at h
  obtain ⟨node, hnode, h⟩ := bind_eq_ok.mp h
  obtain ⟨childSum, hsum, h⟩ := bind_eq_ok.mp h
  obtain ⟨total, htotal, h⟩ := bind_eq_ok.mp h
  cases h
  have hsum := addAll_value hsum
  rw [value_zero, zero_add, List.map_map, ← (Arena.of_node_ok hnode).2] at hsum
  rw [totalAt_insert, tryAdd_value htotal, hsum]
  rfl

variable {items : List (NodeIndex × ℚ)}

theorem subtreeTotals_ok (ht : t.arena.Valid) (hnodes : Queued t nodes) (hown : Standing t volumeTotals items)
    (h : nodes.foldlM (addSubtree t volumeTotals) ∅ = .ok totals) :
    ∀ n ∈ nodes, totalAt totals n.idx = subtreeWeight t.arena.parentOf items n.idx := by
  refine foldlM_induction h (fun done totals => ∀ n ∈ done,
    totalAt totals n.idx = subtreeWeight t.arena.parentOf items n.idx) nofun ?_
  intro done n rest totals totals' hsplit hinv hstep
  have hn : t.arena.index.lookup n.uid = some n.idx := hnodes.member n (by rw [hsplit]; simp)
  intro m hm
  rw [addSubtree_ok hstep]
  by_cases hsame : m.idx = n.idx
  · rw [if_pos hsame, hsame, ht.forest.subtreeWeight_eq, hown hn]
    refine congrArg _ (congrArg sum (map_congr_left fun c hc => ?_))
    obtain ⟨d, hd, rfl⟩ := hnodes.deepFirst hsplit c hc
    exact hinv d hd
  · rw [if_neg hsame]
    rcases mem_append.mp hm with hm | hm
    · exact hinv m hm
    · exact absurd (congrArg QueuedNode.idx (mem_singleton.mp hm)) hsame

variable {leg : BinaryLeg}

theorem mem_childrenOf_of_childOn (ht : t.Valid) {i c : NodeIndex}
    (h : childOn t i leg = some c) : c ∈ t.arena.childrenOf i := by
  unfold childOn rowOf at h
  cases hrow : t.slots.lookup i with
  | none =>
    rw [hrow] at h
    cases leg <;> cases h
  | some row =>
    rw [hrow, getD_some] at h
    rw [← ht.agree.children hrow, reduceOption_mem_iff, ← h]
    cases leg <;> simp

theorem workingLeg_ok {d : Dec} (h : workingLeg t totals carryForward n leg = .ok d) :
    d.value = (((childOn t n.idx leg).map (totalAt totals)).getD 0) + carriedOn carryForward n.uid leg := by
  rw [tryAdd_value h]
  congr 1
  · cases childOn t n.idx leg with
    | none => exact value_zero
    | some c => rfl
  · unfold carriedOn
    cases carryForward.lookup n.uid with
    | none => exact value_zero
    | some l => rfl

theorem workingLegs_ok {entry : Uuid × LegVolumes}
    (h : workingLegs t totals carryForward n = .ok entry) : entry.1 = n.uid ∧ ∀ leg, (entry.2.on leg).value =
      (((childOn t n.idx leg).map (totalAt totals)).getD 0) + carriedOn carryForward n.uid leg := by
  obtain ⟨left, hleft, h⟩ := bind_eq_ok.mp h
  obtain ⟨right, hright, h⟩ := bind_eq_ok.mp h
  cases h
  refine ⟨rfl, fun leg => ?_⟩
  cases leg with
  | left => exact workingLeg_ok hleft
  | right => exact workingLeg_ok hright

/-- **A working leg is what stands below it and what was carried**, for the members of the tree and no one
    else. -/
theorem accumulateLegVolumes_standing (ht : t.Valid) (hown : Standing t volumeTotals items)
    (h : accumulateLegVolumes order t volumeTotals carryForward = .ok legs) (u : Uuid) :
    ((∃ l, legs.lookup u = some l) ↔ ∃ i, t.arena.index.lookup u = some i) ∧
      ∀ l, legs.lookup u = some l → ∀ leg,
        (l.on leg).value = legWeight t items u leg + carriedOn carryForward u leg := by
  obtain ⟨nodes, hnodes, h⟩ := bind_eq_ok.mp h
  obtain ⟨totals, htotals, h⟩ := bind_eq_ok.mp h
  obtain ⟨pairs, hpairs, h⟩ := bind_eq_ok.mp h
  cases h
  have hq := nodesByDepth_ok ht.arena hnodes
  have hsub := subtreeTotals_ok ht.arena hq hown htotals
  have hkeys : (pairs.map Prod.fst).Nodup := by
    rw [map_of_mapM hpairs fun n entry hentry => (workingLegs_ok hentry).1]
    exact hq.nodup
  refine ⟨⟨?_, ?_⟩, ?_⟩
  · intro hl
    obtain ⟨l, hl⟩ := hl
    obtain ⟨n, hn, hentry⟩ := exists_of_mem_mapM hpairs ((lookup_collect hkeys).mp hl)
    rw [show u = n.uid from (workingLegs_ok hentry).1]
    exact ⟨n.idx, hq.member n hn⟩
  · intro hi
    obtain ⟨i, hi⟩ := hi
    obtain ⟨n, hn, rfl⟩ := hq.all hi
    obtain ⟨entry, hmem, hentry⟩ := exists_mem_of_mapM hpairs hn
    refine ⟨entry.2, (lookup_collect hkeys).mpr ?_⟩
    rw [← (workingLegs_ok hentry).1]
    exact hmem
  · intro l hl leg
    obtain ⟨n, hn, hentry⟩ := exists_of_mem_mapM hpairs ((lookup_collect hkeys).mp hl)
    obtain ⟨huid, hvalue⟩ := workingLegs_ok hentry
    rw [show u = n.uid from huid, hvalue leg]
    congr 1
    unfold legWeight
    rw [hq.member n hn, bind_some]
    cases hchild : childOn t n.idx leg with
    | none => rfl
    | some c =>
      have hc := mem_childrenOf_of_childOn ht hchild
      obtain ⟨m, hm, hmc⟩ := hq.all (ht.arena.lookup_of_live (ht.arena.live_child hc))
      have hidx : m.idx = c := by
        have hlook := hq.member m hm
        rw [hmc, ht.arena.lookup_of_live (ht.arena.live_child hc)] at hlook
        exact (some.inj hlook).symm
      rw [← hidx]
      exact hsub m hm

/-- **A working leg is what arrived on it and what was carried.** -/
theorem accumulateLegVolumes_ok (ht : t.Valid)
    (hagg : aggregateVolume t snapshots volume ownership = .ok volumeTotals)
    (h : accumulateLegVolumes order t volumeTotals carryForward = .ok legs) (u : Uuid) :
    ((∃ l, legs.lookup u = some l) ↔ ∃ i, t.arena.index.lookup u = some i) ∧
      ∀ l, legs.lookup u = some l → ∀ leg,
        (l.on leg).value = arrived t volume u leg + carriedOn carryForward u leg :=
  accumulateLegVolumes_standing ht (aggregateVolume_ok ht.arena hagg) h u

theorem arrived_nil (t : BinaryTree) (u : Uuid) (leg : BinaryLeg) : arrived t [] u leg = 0 := by
  unfold arrived legWeight
  split <;> rfl

theorem arrived_append (t : BinaryTree) (volume volume' : List VolumeSource) (u : Uuid) (leg : BinaryLeg) :
    arrived t (volume ++ volume') u leg = arrived t volume u leg + arrived t volume' u leg := by
  have happ : arrivals t (volume ++ volume') = arrivals t volume ++ arrivals t volume' := filterMap_append
  unfold arrived legWeight
  split
  · exact (add_zero 0).symm
  · rw [happ]
    exact weightWhere_append _ _ _

theorem arrived_nonneg (h : aggregateVolume t snapshots volume ownership = .ok volumeTotals) (u : Uuid)
    (leg : BinaryLeg) : 0 ≤ arrived t volume u leg := by
  unfold arrived legWeight
  split
  · exact le_refl 0
  · refine sum_nonneg fun w hw => ?_
    obtain ⟨item, hitem, rfl⟩ := mem_map.mp hw
    exact arrivals_nonneg h item (mem_of_mem_filter hitem)

end Accumulating

end MlmForge.Commission
