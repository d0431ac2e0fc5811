/-
  Subject:   The passes of rank evaluation end, and what they end with.

  * **`rank_evaluation_is_least_fixpoint`** -- the passes never run out, every order of the users
    leads to the same ranks, and these are the least that evaluation leaves as they are.
-/
import MlmForge.Rank.Monotone

namespace MlmForge.Rank

open Engine Query List Dec

/-! ## 1. Up to the passes -/

/-- A context made from a plan, its trees and the inputs of a period. -/
structure Prepared (plan : CompensationPlan) (trees : AList fun _ : String => TreeInstance)
    (inputs : EvaluationInputs) (ctx : EvalCtx) : Prop where
  ranks : resolveFractionCaps plan.sortedRanks = .ok ctx.ranks
  volumes : VolumeIndex.build inputs.volumeSources = .ok ctx.volumeIndex
  distributors : ctx.distributors = inputs.distributors
  trees : ctx.trees = trees
  ordinals : ctx.rankOrdinals = ctx.ranks.foldl (fun m r => m.insert r.name r.ordinal) ∅
  window : ctx.historyWindow = inputs.historyWindow
  history : ctx.history = inputs.history

variable {plan : CompensationPlan} {trees : AList fun _ : String => TreeInstance}
  {inputs : EvaluationInputs} {ctx : EvalCtx}

theorem prepare_ok (h : prepare plan trees inputs = .ok ctx) : Prepared plan trees inputs ctx := by
  obtain ⟨ranks, hranks, h⟩ := bind_eq_ok.mp h
  obtain ⟨-, -, h⟩ := bind_eq_ok.mp h
  obtain ⟨-, -, h⟩ := bind_eq_ok.mp h
  obtain ⟨index, hindex, h⟩ := bind_eq_ok.mp h
  cases h
  exact ⟨relay_eq_ok.mp hranks, relay_eq_ok.mp hindex, rfl, rfl, rfl, rfl, rfl⟩

/-- What resolving the caps of a rank leaves of it. -/
structure Resolves (rank rank' : RankDefinition) : Prop where
  name : rank'.name = rank.name
  ordinal : rank'.ordinal = rank.ordinal
  structures : rank.qualification.structures.mapM resolveCap = .ok rank'.qualification.structures

theorem resolves_of_ok {rank rank' : RankDefinition} (h : resolveRank rank = .ok rank') :
    Resolves rank rank' := by
  obtain ⟨structures, hs, h⟩ := bind_eq_ok.mp h
  cases h
  exact ⟨rfl, rfl, hs⟩

theorem Prepared.resolved (h : Prepared plan trees inputs ctx) :
    List.Forall₂ Resolves plan.sortedRanks ctx.ranks :=
  (forall₂_of_mapM h.ranks).imp fun _ _ hr => resolves_of_ok hr

theorem Prepared.ordinals_eq (h : Prepared plan trees inputs ctx) :
    ctx.ranks.map RankDefinition.ordinal = plan.sortedRanks.map RankDefinition.ordinal := by
  have hall := h.resolved
  generalize ctx.ranks = ranks at hall
  generalize plan.sortedRanks = sorted at hall
  induction hall with
  | nil => rfl
  | cons hr _ ih => rw [map_cons, map_cons, hr.ordinal, ih]

theorem Prepared.ascending (h : Prepared plan trees inputs ctx) :
    ctx.ranks.Pairwise fun a b => a.ordinal ≤ b.ordinal := by
  have : Std.Total fun a b : RankDefinition => a.ordinal ≤ b.ordinal :=
    ⟨fun a b => Nat.le_total a.ordinal b.ordinal⟩
  have : IsTrans RankDefinition fun a b => a.ordinal ≤ b.ordinal := ⟨fun _ _ _ => Nat.le_trans⟩
  have hsorted : plan.sortedRanks.Pairwise fun a b => a.ordinal ≤ b.ordinal := pairwise_insertionSort _ _
  have hmap := pairwise_map.mpr hsorted
  rw [← h.ordinals_eq] at hmap
  exact pairwise_map.mp hmap

theorem sortedRanks_eq (h : plan.ranks.Pairwise fun a b => a.ordinal < b.ordinal) :
    plan.sortedRanks = plan.ranks :=
  (h.imp fun hlt => Nat.le_of_lt hlt).insertionSort_eq

/-- Distinct ordinals stay distinct. -/
theorem Prepared.strict (h : Prepared plan trees inputs ctx)
    (hplan : plan.ranks.Pairwise fun a b => a.ordinal < b.ordinal) :
    ctx.ranks.Pairwise fun a b => a.ordinal < b.ordinal := by
  have hmap := pairwise_map.mpr hplan
  rw [← sortedRanks_eq hplan, ← h.ordinals_eq] at hmap
  exact pairwise_map.mp hmap

/-! ## 2. What evaluating a distributor can return -/

def ladderValues (ctx : EvalCtx) : List EvaluatedRank :=
  if ctx.ranks.isEmpty then [.unranked] else ctx.ranks.map RankDefinition.held

theorem length_ladderValues (ctx : EvalCtx) : (ladderValues ctx).length ≤ ctx.ranks.length + 1 := by
  unfold ladderValues
  split
  · exact Nat.le_add_left _ _
  · rw [length_map]
    exact Nat.le_succ _

theorem ascent_mem {u : Uuid} {m : RankMap} {l : List RankDefinition} {c r : RankDefinition}
    (h : l.foldlM (ascend u m ctx) c = .ok r) : r ∈ c :: l := by
  induction l generalizing c with
  | nil =>
    cases h
    exact mem_cons_self
  | cons rank l ih =>
    rw [foldlM_cons] at h
    obtain ⟨d, hd, h⟩ := bind_eq_ok.mp h
    obtain ⟨b, -, hd⟩ := bind_eq_ok.mp hd
    have hmem := ih h
    cases b with
    | true =>
      cases hd
      exact mem_cons_of_mem _ hmem
    | false =>
      cases hd
      rcases mem_cons.mp hmem with rfl | hmem
      · exact mem_cons_self
      · exact mem_cons_of_mem _ (mem_cons_of_mem _ hmem)

theorem evaluateDistributor_mem {u : Uuid} {m : RankMap} {r : EvaluatedRank}
    (h : evaluateDistributor u m ctx = .ok r) : r ∈ ladderValues ctx := by
  unfold evaluateDistributor at h
  unfold ladderValues
  cases hladder : ctx.ranks with
  | nil =>
    rw [hladder] at h
    cases h
    exact mem_singleton.mpr rfl
  | cons base higher =>
    rw [hladder] at h
    obtain ⟨c, hc, h⟩ := bind_eq_ok.mp h
    cases h
    exact mem_map.mpr ⟨c, ascent_mem hc, rfl⟩

theorem ladderValues_sharp (hranks : ctx.ranks.Pairwise fun a b => a.ordinal < b.ordinal)
    {a b : EvaluatedRank} (ha : a ∈ ladderValues ctx) (hb : b ∈ ladderValues ctx)
    (hab : a.level = b.level) : a = b := by
  unfold ladderValues at ha hb
  split at ha
  · rename_i hempty
    rw [if_pos hempty] at hb
    exact (mem_singleton.mp ha).trans (mem_singleton.mp hb).symm
  · rename_i hne
    rw [if_neg hne] at hb
    obtain ⟨x, hx, rfl⟩ := mem_map.mp ha
    obtain ⟨y, hy, rfl⟩ := mem_map.mp hb
    have heq : x.ordinal = y.ordinal := Nat.succ.inj hab
    have hinj : (ctx.ranks.map RankDefinition.ordinal).Nodup :=
      (pairwise_map.mpr hranks).imp fun hlt => Nat.ne_of_lt hlt
    exact congrArg RankDefinition.held (inj_on_of_nodup_map hinj hx hy heq)

/-- **Evaluation of a distributor rises with the ranks found so far**, through the ranks of the
    ladder. -/
theorem climbs (hranks : ctx.ranks.Pairwise fun a b => a.ordinal < b.ordinal)
    (hvalid : ∀ name t, ctx.trees.lookup name = some t → t.Valid) :
    Climb.Climbs EvaluatedRank.level (ladderValues ctx) fun u m => evaluateDistributor u m ctx where
  mem _ _ _ hb := evaluateDistributor_mem hb
  rises u m m' r' hm hr' := by
    have hle : ctx.ranks.Pairwise fun a b => a.ordinal ≤ b.ordinal := hranks.imp fun hlt => Nat.le_of_lt hlt
    obtain ⟨hret, hlevel⟩ := evaluateDistributor_under (dominates_self hvalid) hm hle hr'
    obtain ⟨r, hr⟩ := hret trivial
    exact ⟨r, hr, hlevel r hr⟩
  sharp _ ha _ hb hab := ladderValues_sharp hranks ha hb hab

/-! ## 3. The error of passes that do not end -/

section Avoided

variable {passes : Nat}

theorem ordinalOf_avoids {ordinals : AList fun _ : String => Nat} {rank name : String} :
    Avoids (.err (.rankEvaluationDidNotConverge passes))
      (ordinalOf ordinals (EvaluationError.unknownThresholdRank rank) name) := by
  unfold ordinalOf
  split
  · exact avoids_ok _
  · exact avoids_err nofun

theorem windowGate_avoids (rank : RankDefinition) (u : Uuid) :
    Avoids (.err (.rankEvaluationDidNotConverge passes)) (windowGate rank u ctx) := by
  unfold windowGate
  split
  · refine ordinalOf_avoids.bind fun threshold => ?_
    split
    · exact avoids_ok _
    · exact avoids_ok _
  · exact avoids_ok _

theorem tenureGate_avoids (rank : RankDefinition) (u : Uuid) :
    Avoids (.err (.rankEvaluationDidNotConverge passes)) (tenureGate rank u ctx) := by
  unfold tenureGate
  split
  · refine ordinalOf_avoids.bind fun threshold => ?_
    split
    · exact avoids_ok _
    · exact avoids_ok _
  · exact avoids_ok _

theorem downlineGates_avoid {rank : String} {sq : StructureQualification} {u : Uuid}
    {t : TreeInstance} {m : RankMap} {p : DistributorPrimitives} :
    Avoids (.err (.rankEvaluationDidNotConverge passes)) (downlineGates rank sq u t m ctx p) := by
  refine (avoids_relay nofun).bind fun cap => ?_
  refine (avoids_relay fun e => ?_).andThen (Avoids.andThen ?_ (avoids_relay fun e => ?_))
  · cases e <;> nofun
  · unfold countGate
    split
    · refine avoids_relay fun e => ?_
      cases e <;> nofun
    · exact avoids_ok _
  · cases e <;> nofun

theorem satisfies_avoids (rank : RankDefinition) (u : Uuid) (m : RankMap) :
    Avoids (.err (.rankEvaluationDidNotConverge passes)) (satisfies rank u m ctx) := by
  unfold satisfies
  split
  · exact avoids_ok _
  · split
    · exact avoids_ok _
    · refine (avoids_allOf fun sq _ => ?_).andThen
        ((windowGate_avoids rank u).andThen (tenureGate_avoids rank u))
      unfold structureMet
      split
      · exact avoids_err nofun
      · repeat' split
        · exact avoids_err nofun
        · exact avoids_ok _
        · exact avoids_ok _
        · exact downlineGates_avoid

theorem evaluateDistributor_avoids (u : Uuid) (m : RankMap) :
    Avoids (.err (.rankEvaluationDidNotConverge passes)) (evaluateDistributor u m ctx) := by
  unfold evaluateDistributor
  split
  · exact avoids_ok _
  · refine (avoids_foldlM (fun c rank => ?_) _).bind fun c => avoids_ok _
    refine (satisfies_avoids rank u m).bind fun b => ?_
    split
    · exact avoids_ok _
    · exact avoids_ok _

end Avoided

/-! ## 4. The passes -/

/-- The ranks that evaluation of the users leaves as they are. -/
def FixedPoint (ctx : EvalCtx) (order : List Uuid) (ranks : RankMap) : Prop :=
  Climb.Fixed (fun u m => evaluateDistributor u m ctx) order ranks

theorem iterateToFixpoint_eq_ok {order : List Uuid} {ranks : RankMap} :
    iterateToFixpoint order ctx = .ok ranks ↔
      Climb.settle (fun u m => evaluateDistributor u m ctx) order (maxPasses order ctx) ∅ =
        .ok (some ranks) := by
  unfold iterateToFixpoint
  rw [bind_eq_ok]
  constructor
  · intro h
    obtain ⟨r, hr, h⟩ := h
    cases r with
    | none => cases h
    | some already =>
      cases h
      exact hr
  · intro h
    exact ⟨some ranks, h, rfl⟩

theorem lt_maxPasses (order : List Uuid) (ctx : EvalCtx) :
    order.length * (ladderValues ctx).length < maxPasses order ctx :=
  Nat.lt_succ_of_le (Nat.mul_le_mul_left _ (length_ladderValues ctx))

theorem iterateToFixpoint_converges (hranks : ctx.ranks.Pairwise fun a b => a.ordinal < b.ordinal)
    (hvalid : ∀ name t, ctx.trees.lookup name = some t → t.Valid) (order : List Uuid) (passes : Nat) :
    iterateToFixpoint order ctx ≠ .error (.err (.rankEvaluationDidNotConverge passes)) := by
  intro herr
  rcases bind_eq_error.mp herr with herr | ⟨r, hr, herr⟩
  · exact Climb.settle_avoids (fun u m => evaluateDistributor_avoids u m) _ herr
  · cases r with
    | none => exact (climbs hranks hvalid).settles (lt_maxPasses order ctx) hr
    | some already => cases herr

/-- **Rank evaluation is the least fixed point, in any order.** For a plan whose ordinals ascend and
    valid trees, which may hold the same users in contradicting positions: the passes never run out;
    and if they return for one order of the users, then for every order of the same users, with the
    same ranks, which evaluation leaves as they are and which are below all others it so leaves. -/
theorem rank_evaluation_is_least_fixpoint (hplan : plan.ranks.Pairwise fun a b => a.ordinal < b.ordinal)
    (htrees : ∀ name t, trees.lookup name = some t → t.Valid)
    (hctx : prepare plan trees inputs = .ok ctx) (order : List Uuid) :
    (∀ passes, iterateToFixpoint order ctx ≠ .error (.err (.rankEvaluationDidNotConverge passes))) ∧
    ∀ ranks, iterateToFixpoint order ctx = .ok ranks → (∀ order' : List Uuid, (∀ u, u ∈ order' ↔ u ∈ order) →
        ∃ ranks', iterateToFixpoint order' ctx = .ok ranks' ∧ ∀ u, ranks'.lookup u = ranks.lookup u) ∧
      FixedPoint ctx order ranks ∧ ∀ other, FixedPoint ctx order other → RanksBelow ranks other := by
  have hprep := prepare_ok hctx
  have hranks := hprep.strict hplan
  have hvalid : ∀ name t, ctx.trees.lookup name = some t → t.Valid := by
    rw [hprep.trees]
    exact htrees
  have hclimbs := climbs hranks hvalid
  refine ⟨iterateToFixpoint_converges hranks hvalid order, fun ranks hrun => ?_⟩
  have hsettle := iterateToFixpoint_eq_ok.mp hrun
  refine ⟨fun order' hsame => ?_, Climb.settle_fixed hsettle, fun other hother =>
    hclimbs.settle_least hsettle hother⟩
  obtain ⟨ranks', hrun', hlook⟩ := hclimbs.settle_any_order hsame (lt_maxPasses order' ctx) hsettle
  exact ⟨ranks', iterateToFixpoint_eq_ok.mpr hrun', hlook⟩

/-- A tree of two users, one above the other. -/
def pairTree (top bottom : Uuid) : TreeInstance :=
  .unilevel ⟨{
    nodes := [⟨top, none, [1], none, [1], 0, 0⟩, ⟨bottom, some 0, [], some 0, [], 1, 0⟩]
    index := ((∅ : AList fun _ : Uuid => NodeIndex).insert top 0).insert bottom 1
    freeList := []
    root := some 0 }⟩

/-- A structure that asks for one leg with a rank in it. -/
def oneLeg (structureName minRank : String) : StructureQualification where
  structureName := structureName
  personalVolume := zero
  groupVolume := zero
  maxGroupVolumePerLeg := zero
  maxGroupVolumePerLegFraction := zero
  minRetailVolume := zero
  distributorCount := none
  legQuality := [⟨1, .containsRank minRank⟩]

/-- Two users, each above the other in one of two trees, and a ladder that asks for one tree after
    the other. -/
def crossPlan : CompensationPlan where
  ranks := [⟨"associate", 1, ⟨[], [], none, none⟩⟩,
    ⟨"leader", 2, ⟨[oneLeg "first" "associate"], [], none, none⟩⟩,
    ⟨"director", 3, ⟨[oneLeg "second" "leader"], [], none, none⟩⟩,
    ⟨"crown", 4, ⟨[oneLeg "first" "director"], [], none, none⟩⟩]
  structures := [.other "first", .other "second"]

def crossTrees : AList fun _ : String => TreeInstance :=
  ((∅ : AList fun _ : String => TreeInstance).insert "first" (pairTree 1 2)).insert "second"
    (pairTree 2 1)

def crossInputs : EvaluationInputs where
  distributors := ((∅ : AList fun _ : Uuid => DistributorPrimitives).insert 1
    ⟨zero, zero, []⟩).insert 2 ⟨zero, zero, []⟩
  volumeSources := []
  historyWindow := []
  history := ∅

theorem crossTrees_valid {name : String} {t : TreeInstance} (h : crossTrees.lookup name = some t) :
    t.Valid := by
  simp only [crossTrees, Maps.lookup_insert] at h
  split at h
  · cases h
    exact TreeInstance.validateRestored_iff.mp (by decide +kernel)
  · split at h
    · cases h
      exact TreeInstance.validateRestored_iff.mp (by decide +kernel)
    · simp at h

theorem rank_evaluation_is_least_fixpoint_cross :
    ∃ ctx ranks, prepare crossPlan crossTrees crossInputs = .ok ctx ∧
      iterateToFixpoint [1, 2] ctx = .ok ranks ∧ (∃ ranks', iterateToFixpoint [2, 1] ctx = .ok ranks' ∧
        ∀ u, ranks'.lookup u = ranks.lookup u) ∧ FixedPoint ctx [1, 2] ranks ∧
      ∀ other, FixedPoint ctx [1, 2] other → RanksBelow ranks other := by
  have hok : (prepare crossPlan crossTrees crossInputs >>= iterateToFixpoint [1, 2]).isOk =
      true := by
    decide +kernel
  cases hrun : prepare crossPlan crossTrees crossInputs >>= iterateToFixpoint [1, 2] with
  | error e =>
    rw [hrun] at hok
    cases hok
  | ok ranks =>
    obtain ⟨ctx, hctx, hranks⟩ := bind_eq_ok.mp hrun
    have h := rank_evaluation_is_least_fixpoint (by decide : crossPlan.ranks.Pairwise _)
      (fun _ _ => crossTrees_valid) hctx [1, 2]
    obtain ⟨horder, hfixed, hleast⟩ := h.2 ranks hranks
    refine ⟨ctx, ranks, hctx, hranks, horder [2, 1] fun u => ?_, hfixed, hleast⟩
    rw [mem_pair, mem_pair]
    exact or_comm

end MlmForge.Rank
