/-
  Subject:   More achievement never lowers a rank.

  * **`rank_evaluation_rises_with_achievement`** -- nobody's rank is lower in the second evaluation.
-/
import MlmForge.Rank.Fixpoint

namespace MlmForge.Rank

open Engine Query List AList Dec Option

/-! ## 1. Volume totals -/

/-- What the sources of a distributor add up to. -/
def sourceTotal (sources : List VolumeSource) (u : Uuid) : ℚ :=
  ((sources.filter fun src => src.sourceId = u).map fun src => src.cvAmount.value).sum

theorem sourceTotal_cons (src : VolumeSource) (sources : List VolumeSource) (u : Uuid) :
    sourceTotal (src :: sources) u =
      (if src.sourceId = u then src.cvAmount.value else 0) + sourceTotal sources u := by
  unfold sourceTotal
  by_cases h : src.sourceId = u
  · rw [filter_cons_of_pos (by simpa using h), if_pos h, map_cons, sum_cons]
  · rw [filter_cons_of_neg (by simpa using h), if_neg h, zero_add]

variable {index : VolumeIndex}

theorem addSource_value {index' : VolumeIndex} {src : VolumeSource}
    (h : index.addSource src = .ok index') (u : Uuid) : (index'.cvFor u).value =
      (index.cvFor u).value + if src.sourceId = u then src.cvAmount.value else 0 := by
  obtain ⟨total, htotal, h⟩ := bind_eq_ok.mp h
  cases h
  by_cases hu : src.sourceId = u
  · subst hu
    rw [if_pos rfl, ← tryAdd_value htotal]
    simp [VolumeIndex.cvFor]
  · rw [if_neg hu, add_zero]
    simp [VolumeIndex.cvFor, Ne.symm hu]

variable {sources : List VolumeSource}

theorem foldlM_addSource_value {index' : VolumeIndex}
    (h : sources.foldlM VolumeIndex.addSource index = .ok index') (u : Uuid) :
    (index'.cvFor u).value = (index.cvFor u).value + sourceTotal sources u := by
  induction sources generalizing index with
  | nil =>
    cases h
    exact (add_zero _).symm
  | cons src sources ih =>
    rw [foldlM_cons] at h
    obtain ⟨next, hnext, h⟩ := bind_eq_ok.mp h
    rw [ih h, addSource_value hnext u, sourceTotal_cons, add_assoc]

/-- **The total of a distributor is the sum of their sources.** -/
theorem build_value (h : VolumeIndex.build sources = .ok index) (u : Uuid) :
    (index.cvFor u).value = sourceTotal sources u := by
  rw [foldlM_addSource_value h u]
  simp [VolumeIndex.cvFor]

/-! ## 2. Two periods -/

/-- The ordinal a distributor achieved in an earlier period. -/
def achievedOrdinal (history : AList fun _ : Uuid => PeriodRanks) (u : Uuid) (pid : String) :
    Option Nat :=
  ((history.lookup u).bind fun h => h.lookup pid).join

/-- **Everyone has achieved at least as much in the second inputs**, over the same distributors and
    the same earlier periods. -/
structure Achieves (inputs inputs' : EvaluationInputs) : Prop where
  distributors : ∀ u, inputs.distributors.lookup u = none ↔ inputs'.distributors.lookup u = none
  primitives : ∀ u p p', inputs.distributors.lookup u = some p →
    inputs'.distributors.lookup u = some p' → p.Within p'
  volumes : ∀ u, sourceTotal inputs.volumeSources u ≤ sourceTotal inputs'.volumeSources u
  window : inputs.historyWindow = inputs'.historyWindow
  history : ∀ u, ∀ pid ∈ inputs.historyWindow, ∀ o, achievedOrdinal inputs.history u pid = some o →
    ∃ o', achievedOrdinal inputs'.history u pid = some o' ∧ o ≤ o'

variable {plan : CompensationPlan} {trees : AList fun _ : String => TreeInstance}
  {inputs inputs' : EvaluationInputs} {ctx ctx' : EvalCtx}

theorem Achieves.mem_keys (h : Achieves inputs inputs') (u : Uuid) :
    u ∈ inputs.distributors.keys ↔ u ∈ inputs'.distributors.keys := by
  rw [← AList.mem_keys, ← AList.mem_keys, ← not_iff_not, ← lookup_eq_none, ← lookup_eq_none]
  exact h.distributors u

theorem Achieves.dominates (h : Achieves inputs inputs') (hctx : Prepared plan trees inputs ctx)
    (hctx' : Prepared plan trees inputs' ctx') : Dominates False ctx ctx' where
  same := nofun
  valid := nofun
  ranks := Except.ok.inj (hctx.ranks.symm.trans hctx'.ranks)
  trees := hctx.trees.trans hctx'.trees.symm
  ordinals := by
    rw [hctx.ordinals, hctx'.ordinals, Except.ok.inj (hctx.ranks.symm.trans hctx'.ranks)]
  window := hctx.window.trans (h.window.trans hctx'.window.symm)
  distributors u p hp := by
    rw [hctx.distributors] at hp
    rw [hctx'.distributors]
    cases hp' : inputs'.distributors.lookup u with
    | none => rw [(h.distributors u).mpr hp'] at hp; cases hp
    | some p' => exact ⟨p', rfl, h.primitives u p p' hp hp'⟩
  volumes u := by
    rw [build_value hctx.volumes u, build_value hctx'.volumes u]
    exact h.volumes u
  history u threshold pid hpid hach := by
    rw [hctx.window] at hpid
    rw [hctx.history] at hach
    rw [hctx'.history]
    obtain ⟨o, ho, hle⟩ := (any_eq_true _ _).mp hach
    obtain ⟨o', ho', hoo⟩ := h.history u pid hpid o ho
    exact (any_eq_true _ _).mpr ⟨o', ho', decide_eq_true ((of_decide_eq_true hle).trans hoo)⟩

/-! ## 3. An evaluation -/

theorem mem_evaluationOrder {users order : List Uuid}
    (h : evaluationOrderForUsers trees users = .ok order) (u : Uuid) :
    u ∈ order ↔ u ∈ users ∧ ∃ d, depthByUser trees u = .ok (some d) := by
  obtain ⟨depths, hdepths, h⟩ := bind_eq_ok.mp h
  cases h
  rw [List.mem_map]
  constructor
  · intro hu
    obtain ⟨⟨v, d⟩, hv, rfl⟩ := hu
    rw [mem_insertionSort, reduceOption_mem_iff] at hv
    obtain ⟨w, hw, hwd⟩ := exists_of_mem_mapM hdepths hv
    obtain ⟨depth, hdepth, hwd⟩ := bind_eq_ok.mp hwd
    cases depth with
    | none => cases hwd
    | some d' =>
      cases hwd
      exact ⟨hw, d, hdepth⟩
  · intro hu
    obtain ⟨hu, d, hd⟩ := hu
    obtain ⟨x, hx, hux⟩ := exists_mem_of_mapM hdepths hu
    rw [withDepth, bind_ok hd] at hux
    cases hux
    exact ⟨(u, d), (mem_insertionSort _).mpr (reduceOption_mem_iff.mpr hx), rfl⟩

theorem lookup_fillBase (ranks : List RankDefinition) (users : List Uuid) (m : RankMap) (u : Uuid) :
    (fillBase ranks users m).lookup u = (m.lookup u).or
      (if u ∈ users then ranks.head?.map RankDefinition.held else none) := by
  unfold fillBase
  cases ranks.head? with
  | none => cases m.lookup u <;> simp
  | some base =>
    simp only [map_some]
    induction users generalizing m with
    | nil => simp
    | cons v users ih =>
      rw [foldl_cons, ih]
      by_cases hv : (m.lookup v).isSome = true
      · rw [if_pos hv]
        by_cases huv : u = v
        · subst huv
          obtain ⟨r, hr⟩ := isSome_iff_exists.mp hv
          simp [hr]
        · simp [huv]
      · rw [if_neg hv, Maps.lookup_insert]
        by_cases huv : u = v
        · subst huv
          rw [if_pos rfl, not_isSome_iff_eq_none.mp hv]
          simp
        · simp [huv]

/-- The parts of an evaluation that returned. -/
structure Evaluated (plan : CompensationPlan) (trees : AList fun _ : String => TreeInstance)
    (inputs : EvaluationInputs) (result : RankMap) (ctx : EvalCtx) (order : List Uuid)
    (already : RankMap) : Prop where
  prepared : Prepared plan trees inputs ctx
  order_mem : ∀ u, u ∈ order ↔
    u ∈ inputs.distributors.keys ∧ ∃ d, depthByUser trees u = .ok (some d)
  settled : Climb.settle (fun u m => evaluateDistributor u m ctx) order (maxPasses order ctx) ∅ =
    .ok (some already)
  result_eq : result = fillBase ctx.ranks inputs.distributors.keys already

variable {result : RankMap}

theorem evaluateRanks_ok (h : evaluateRanks plan trees inputs = .ok result) :
    ∃ ctx order already, Evaluated plan trees inputs result ctx order already := by
  obtain ⟨ctx, hctx, h⟩ := bind_eq_ok.mp h
  obtain ⟨order, horder, h⟩ := bind_eq_ok.mp h
  obtain ⟨already, halready, h⟩ := bind_eq_ok.mp h
  cases h
  exact ⟨ctx, order, already, prepare_ok hctx, mem_evaluationOrder horder,
    iterateToFixpoint_eq_ok.mp halready, rfl⟩

namespace Evaluated

variable {result : RankMap} {order : List Uuid} {already : RankMap}
  (h : Evaluated plan trees inputs result ctx order already)

include h

/-- The passes leave the ranks they end with as they are. -/
theorem fixed : FixedPoint ctx order already := Climb.settle_fixed h.settled

theorem lookup_none_iff (u : Uuid) : already.lookup u = none ↔ u ∉ order := by
  constructor
  · intro hnone hu
    obtain ⟨r, -, hr⟩ := h.fixed u hu
    rw [hnone] at hr
    cases hr
  · intro hu
    rw [Climb.settle_outside hu h.settled]
    rfl

theorem lookup_result (u : Uuid) : result.lookup u = (already.lookup u).or
    (if u ∈ inputs.distributors.keys then ctx.ranks.head?.map RankDefinition.held else none) := by
  rw [h.result_eq, lookup_fillBase]

end Evaluated

/-! ## 4. Two evaluations -/

/-- What the passes find is below what they find after more achievement. -/
theorem Achieves.below (h : Achieves inputs inputs') {result' already already' : RankMap}
    {order order' : List Uuid} (he : Evaluated plan trees inputs result ctx order already)
    (he' : Evaluated plan trees inputs' result' ctx' order' already') : RanksBelow already already' := by
  refine Climb.settle_below (fun u hu m r hm hr => ?_) (Climb.below_empty _) he.settled
  have hu' : u ∈ order' := by
    obtain ⟨hkey, hdepth⟩ := (he.order_mem u).mp hu
    exact (he'.order_mem u).mpr ⟨(h.mem_keys u).mp hkey, hdepth⟩
  obtain ⟨r', hr', hlook⟩ := he'.fixed u hu'
  rw [hlook]
  exact Nat.succ_le_succ ((evaluateDistributor_under (h.dominates he.prepared he'.prepared) hm
    he.prepared.ascending hr').2 r hr)

theorem Achieves.result_below (h : Achieves inputs inputs') {result' : RankMap}
    (hr : evaluateRanks plan trees inputs = .ok result)
    (hr' : evaluateRanks plan trees inputs' = .ok result') : RanksBelow result result' := by
  obtain ⟨ctx, order, already, he⟩ := evaluateRanks_ok hr
  obtain ⟨ctx', order', already', he'⟩ := evaluateRanks_ok hr'
  have hbelow := h.below he he'
  have hranks := (h.dominates he.prepared he'.prepared).ranks
  intro u
  rw [he.lookup_result, he'.lookup_result]
  cases hfound : already.lookup u with
  | some r =>
    have hup := hbelow u
    rw [hfound] at hup
    cases hfound' : already'.lookup u with
    | none => simp [hfound'] at hup
    | some r' =>
      rw [hfound'] at hup
      exact hup
  | none =>
    -- the passes rank the same users in both, and whoever they leave out has the same lowest rank
    have hout : u ∉ order := (he.lookup_none_iff u).mp hfound
    have hout' : u ∉ order' := by
      intro hu'
      obtain ⟨hkey, hdepth⟩ := (he'.order_mem u).mp hu'
      exact hout ((he.order_mem u).mpr ⟨(h.mem_keys u).mpr hkey, hdepth⟩)
    rw [(he'.lookup_none_iff u).mpr hout', hranks]
    simp only [none_or, h.mem_keys u]
    exact le_rfl

/-- **Rank evaluation is monotone in achievement.** For any plan and trees: if everyone has achieved
    at least as much in the second inputs as in the first, and both evaluations return, then whoever
    holds a rank in the first holds one in the second, with no lower ordinal. -/
theorem rank_evaluation_rises_with_achievement (h : Achieves inputs inputs')
    {result result' : RankMap} (hr : evaluateRanks plan trees inputs = .ok result)
    (hr' : evaluateRanks plan trees inputs' = .ok result') (u : Uuid) (rank : String)
    (ordinal : Nat) (hu : result.lookup u = some (.qualified rank ordinal)) :
    ∃ rank' ordinal', result'.lookup u = some (.qualified rank' ordinal') ∧ ordinal ≤ ordinal' := by
  exact holds_of_below (h.result_below hr hr') hu

theorem evaluated_at (plan : CompensationPlan) (trees : AList fun _ : String => TreeInstance)
    (inputs : EvaluationInputs) (u : Uuid) {r : EvaluatedRank}
    (h : ((evaluateRanks plan trees inputs).toOption.bind fun result => result.lookup u) = some r) :
    ∃ result, evaluateRanks plan trees inputs = .ok result ∧ result.lookup u = some r := by
  cases hrun : evaluateRanks plan trees inputs with
  | error e =>
    rw [hrun] at h
    cases h
  | ok result =>
    rw [hrun] at h
    exact ⟨result, rfl, h⟩

/-- A structure that asks for a group volume. -/
def groupOf (structureName : String) (required : Dec) : StructureQualification where
  structureName := structureName
  personalVolume := zero
  groupVolume := required
  maxGroupVolumePerLeg := zero
  maxGroupVolumePerLegFraction := zero
  minRetailVolume := zero
  distributorCount := none
  legQuality := []

def sixty : Dec := whole 60 rfl

def hundred : Dec := whole 100 rfl

def teamPlan : CompensationPlan where
  ranks := [⟨"associate", 1, ⟨[], [], none, none⟩⟩,
    ⟨"director", 2, ⟨[groupOf "team" hundred], [], none, none⟩⟩]
  structures := [.stairstep "team" (some ⟨"director", true⟩)]

def teamTrees : AList fun _ : String => TreeInstance :=
  (∅ : AList fun _ : String => TreeInstance).insert "team" (pairTree 1 2)

/-- Two users, with what the lower one has sold. -/
def teamInputs (sold : Dec) : EvaluationInputs where
  distributors := ((∅ : AList fun _ : Uuid => DistributorPrimitives).insert 1
    ⟨zero, zero, []⟩).insert 2 ⟨sold, zero, []⟩
  volumeSources := [⟨2, sold⟩]
  historyWindow := []
  history := ∅

theorem teamInputs_achieves {sold sold' : Dec} (h : sold.value ≤ sold'.value) :
    Achieves (teamInputs sold) (teamInputs sold') where
  distributors u := by
    simp only [teamInputs, Maps.lookup_insert]
    split <;> simp
  primitives u p p' hp hp' := by
    simp only [teamInputs, Maps.lookup_insert] at hp hp'
    split at hp
    · rename_i hu
      rw [if_pos hu] at hp'
      cases hp
      cases hp'
      exact ⟨h, le_rfl, fun _ hx => hx⟩
    · rename_i hu
      rw [if_neg hu] at hp'
      rw [hp] at hp'
      cases hp'
      exact p.within_refl
  volumes u := by
    simp only [teamInputs, sourceTotal_cons]
    split
    · exact add_le_add_left h _
    · exact le_rfl
  window := rfl
  history u pid hpid := absurd hpid not_mem_nil

theorem rank_evaluation_rises_with_achievement_team :
    ∃ result result', evaluateRanks teamPlan teamTrees (teamInputs sixty) = .ok result ∧
      evaluateRanks teamPlan teamTrees (teamInputs hundred) = .ok result' ∧
      result.lookup 1 = some (.qualified "associate" 1) ∧
      ∃ rank' ordinal', result'.lookup 1 = some (.qualified rank' ordinal') ∧ 1 ≤ ordinal' := by
  obtain ⟨result, hr, hu⟩ := evaluated_at teamPlan teamTrees
    (teamInputs sixty) 1 (r := .qualified "associate" 1) (by decide +kernel)
  obtain ⟨result', hr', -⟩ := evaluated_at teamPlan teamTrees
    (teamInputs hundred) 1 (r := .qualified "director" 2) (by decide +kernel)
  have hsold : sixty.value ≤ hundred.value := le_iff.mp (by decide)
  exact ⟨result, result', hr, hr', hu,
    rank_evaluation_rises_with_achievement (teamInputs_achieves hsold) hr hr' 1 _ _ hu⟩

end MlmForge.Rank
