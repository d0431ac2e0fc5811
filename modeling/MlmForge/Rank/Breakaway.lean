/-
  Subject:   Group volume in rank qualification, and the volume of groups that broke away.

  A stairstep structure can be configured so that the volume of a group whose leader reached the
  threshold rank is excluded from the group volume that qualifies the leader's upline. Rank
  evaluation does not read that configuration: it counts every descendant.

  * `evaluated_meets` -- **whoever is found at a rank meets its group volume, all descendants
    counted**;
  * **`breakaways_excluded_if`** -- they meet it without those who broke away where nobody needs the
    volume of a group that has enough to break away.

  The refusals of a plan are kept with the data of their messages. What loading checks of the rest of
  a plan (currency, caps, commissions) concerns nothing that rank evaluation reads.
-/
import MlmForge.Rank.Achievement

namespace MlmForge.Rank

open Engine Query List Dec

/-! ## 1. Loading a plan -/

inductive PlanError where
  | noRanks
  | emptyRankName (idx : Nat)
  | ordinalZero (idx : Nat) (rank : String)
  | duplicateOrdinal (rank : String) (ordinal : Nat) (other : String)
  | notAscending (rank : String) (ordinal previous : Nat)
  | duplicateRankName (name : String)
  | negative (rank structureName field : String) (value : AuthoredDec)
  | notAFraction (rank structureName field : String) (value : AuthoredDec)
  | bothCaps (rank structureName : String)
  | baseRequiresProducts (rank : String) (products : List String)
  | baseHasWindow (rank : String)
  | baseHasTenure (rank : String)
  | baseSets (rank field : String) (value : AuthoredDec) (structureName : String)
  | baseSetsDistributorCount (rank structureName : String)
  | baseSetsLegQuality (rank structureName : String)
  | duplicateStructureName (name : String)
  deriving DecidableEq

def checkNonNegative (rank structureName field : String) (v : AuthoredDec) : Query PlanError Unit :=
  stopIf (v.isNegative = true) (.err (.negative rank structureName field v))

def checkFraction (rank structureName field : String) (v : AuthoredDec) : Query PlanError Unit :=
  stopIf (v.isNegative = true ∨ ¬ v ≤ Dec.one) (.err (.notAFraction rank structureName field v))

/-- An empty name or an ordinal below 1. -/
def checkRankNameAndOrdinalFloor (ranks : List RankDefinition) : Query PlanError Unit :=
  ranks.zipIdx.forM fun x => do
    stopIf (x.1.name = "") (.err (.emptyRankName x.2))
    stopIf (x.1.ordinal = 0) (.err (.ordinalZero x.2 x.1.name))

/-- Ordinals that repeat or do not ascend in list order. -/
def checkRankOrdinalsAscending (seen : AList fun _ : Nat => String) (previous : Option Nat) :
    List RankDefinition → Query PlanError Unit
  | [] => .ok ()
  | rank :: ranks =>
    match seen.lookup rank.ordinal with
    | some other => .error (.err (.duplicateOrdinal rank.name rank.ordinal other))
    | none =>
      match previous.filter fun p => rank.ordinal ≤ p with
      | some p => .error (.err (.notAscending rank.name rank.ordinal p))
      | none =>
        checkRankOrdinalsAscending (seen.insert rank.ordinal rank.name) (some rank.ordinal)
          ranks

def checkUnique (duplicate : String → PlanError) (seen : List String) :
    List String → Query PlanError Unit
  | [] => .ok ()
  | name :: names =>
    if name ∈ seen then .error (.err (duplicate name))
    else checkUnique duplicate (name :: seen) names

/-- A negative threshold of the leg requirement at an index. -/
def checkLegPredicate (rank structureName : String) (x : LegQualityRequirement × Nat) :
    Query PlanError Unit :=
  match x.1.predicate with
  | .containsRank _ => .ok ()
  | .containsPersonalVolume v =>
    checkNonNegative rank structureName
      ("leg_quality[" ++ toString x.2 ++ "].predicate.min_personal_volume") v

/-- A negative threshold of a structure. -/
def checkThresholds (rank : String) (sq : StructureQualification) : Query PlanError Unit := do
  checkNonNegative rank sq.structureName "personal_volume" sq.personalVolume
  checkNonNegative rank sq.structureName "group_volume" sq.groupVolume
  checkNonNegative rank sq.structureName "min_retail_volume" sq.minRetailVolume
  sq.distributorCount.toList.forM fun dc =>
    checkNonNegative rank sq.structureName "distributor_count.min_leg_group_volume"
      dc.minLegGroupVolume
  sq.legQuality.zipIdx.forM (checkLegPredicate rank sq.structureName)

def checkRankThresholdsNonNegative (ranks : List RankDefinition) : Query PlanError Unit :=
  ranks.forM fun rank => rank.qualification.structures.forM (checkThresholds rank.name)

/-- A requirement of the lowest rank on a structure. -/
def checkBaseStructure (base : String) (sq : StructureQualification) : Query PlanError Unit := do
  stopIf (sq.personalVolume.isZero = false)
    (.err (.baseSets base "personal_volume" sq.personalVolume sq.structureName))
  stopIf (sq.groupVolume.isZero = false)
    (.err (.baseSets base "group_volume" sq.groupVolume sq.structureName))
  stopIf (sq.minRetailVolume.isZero = false)
    (.err (.baseSets base "min_retail_volume" sq.minRetailVolume sq.structureName))
  stopIf (sq.distributorCount.isSome = true)
    (.err (.baseSetsDistributorCount base sq.structureName))
  stopIf (sq.legQuality.isEmpty = false) (.err (.baseSetsLegQuality base sq.structureName))

/-- A requirement of the lowest rank, the first of them in the list when there are several. -/
def checkBaseRankRequiresNothing (plan : CompensationPlan) : Query PlanError Unit :=
  match plan.sortedRanks.head? with
  | none => .ok ()
  | some base => do
      stopIf (base.qualification.requiredProducts.isEmpty = false)
        (.err (.baseRequiresProducts base.name base.qualification.requiredProducts))
      stopIf (base.qualification.window.isSome = true) (.err (.baseHasWindow base.name))
      stopIf (base.qualification.tenure.isSome = true) (.err (.baseHasTenure base.name))
      base.qualification.structures.forM (checkBaseStructure base.name)

/-- A cap or a cap fraction out of range, or both. -/
def checkCaps (rank : String) (sq : StructureQualification) : Query PlanError Unit := do
  checkNonNegative rank sq.structureName "max_group_volume_per_leg" sq.maxGroupVolumePerLeg
  checkFraction rank sq.structureName "max_group_volume_per_leg_fraction"
    sq.maxGroupVolumePerLegFraction
  stopIf (¬ sq.maxGroupVolumePerLeg ≤ zero ∧ ¬ sq.maxGroupVolumePerLegFraction ≤ zero)
    (.err (.bothCaps rank sq.structureName))

def checkPerLegCaps (ranks : List RankDefinition) : Query PlanError Unit :=
  ranks.forM fun rank => rank.qualification.structures.forM (checkCaps rank.name)

/-- What loading a plan checks of its ladder and the names of its structures. -/
def CompensationPlan.validate (plan : CompensationPlan) : Query PlanError Unit := do
  stopIf (plan.ranks.isEmpty = true) (.err .noRanks)
  checkRankNameAndOrdinalFloor plan.ranks
  checkRankOrdinalsAscending ∅ none plan.ranks
  checkUnique .duplicateRankName [] (plan.ranks.map RankDefinition.name)
  checkRankThresholdsNonNegative plan.ranks
  checkBaseRankRequiresNothing plan
  checkPerLegCaps plan.ranks
  checkUnique .duplicateStructureName [] (plan.structures.map StructureConfig.name)

/-- What an accepted plan has that rank evaluation rests on. -/
structure LadderOk (plan : CompensationPlan) : Prop where
  ascending : plan.ranks.Pairwise fun a b => a.ordinal < b.ordinal
  names : (plan.ranks.map RankDefinition.name).Nodup
  base : ∀ base, plan.sortedRanks.head? = some base →
    ∀ sq ∈ base.qualification.structures, sq.groupVolume.value = 0

theorem ordinals_of_check {ranks : List RankDefinition} {seen : AList fun _ : Nat => String}
    {previous : Option Nat} (h : checkRankOrdinalsAscending seen previous ranks = .ok ()) :
    (∀ p ∈ previous, ∀ r ∈ ranks, p < r.ordinal) ∧ ranks.Pairwise fun a b => a.ordinal < b.ordinal := by
  induction ranks generalizing seen previous with
  | nil => exact ⟨fun p _ r hr => absurd hr not_mem_nil, .nil⟩
  | cons rank ranks ih =>
    unfold checkRankOrdinalsAscending at h
    split at h
    · cases h
    · split at h
      · cases h
      · rename_i hprev
        obtain ⟨hfirst, hrest⟩ := ih h
        refine ⟨fun p hp r hr => ?_, .cons (hfirst _ rfl) hrest⟩
        have hlt : p < rank.ordinal := by
          have hnot := Option.filter_eq_none_iff.mp hprev p hp
          simpa using hnot
        rcases mem_cons.mp hr with rfl | hr
        · exact hlt
        · exact hlt.trans (hfirst _ rfl r hr)

theorem nodup_of_check {duplicate : String → PlanError} {seen names : List String}
    (h : checkUnique duplicate seen names = .ok ()) : names.Nodup ∧ ∀ name ∈ names, name ∉ seen := by
  induction names generalizing seen with
  | nil => exact ⟨.nil, fun name hn => absurd hn not_mem_nil⟩
  | cons name names ih =>
    unfold checkUnique at h
    split at h
    · cases h
    · rename_i hseen
      obtain ⟨hnodup, hout⟩ := ih h
      refine ⟨nodup_cons.mpr ⟨fun hin => hout name hin mem_cons_self, hnodup⟩, ?_⟩
      intro x hx
      rcases mem_cons.mp hx with rfl | hx
      · exact hseen
      · exact fun hin => hout x hx (mem_cons_of_mem _ hin)

variable {plan : CompensationPlan}

theorem base_of_check (h : checkBaseRankRequiresNothing plan = .ok ())
    {base : RankDefinition} (hbase : plan.sortedRanks.head? = some base) :
    ∀ sq ∈ base.qualification.structures, sq.groupVolume.value = 0 := by
  intro sq hsq
  unfold checkBaseRankRequiresNothing at h
  rw [hbase] at h
  obtain ⟨-, h⟩ := seq_eq_ok.mp h
  obtain ⟨-, h⟩ := seq_eq_ok.mp h
  obtain ⟨-, h⟩ := seq_eq_ok.mp h
  obtain ⟨-, h⟩ := seq_eq_ok.mp (forM_eq_ok.mp h sq hsq)
  obtain ⟨hzero, -⟩ := seq_eq_ok.mp h
  have hm : sq.groupVolume.mantissa = 0 := by simpa [isZero] using stopIf_eq_ok.mp hzero
  simp [Dec.value, hm]

/-- **What an accepted plan satisfies.** -/
theorem ladderOk_of_validate (h : plan.validate = .ok ()) : LadderOk plan := by
  obtain ⟨-, h⟩ := seq_eq_ok.mp h
  obtain ⟨-, h⟩ := seq_eq_ok.mp h
  obtain ⟨hordinals, h⟩ := seq_eq_ok.mp h
  obtain ⟨hnames, h⟩ := seq_eq_ok.mp h
  obtain ⟨-, h⟩ := seq_eq_ok.mp h
  obtain ⟨hbase, -⟩ := seq_eq_ok.mp h
  exact ⟨(ordinals_of_check hordinals).2, (nodup_of_check hnames).1, fun _ hb => base_of_check hbase hb⟩

/-! ## 2. Group volume, of whoever counts -/

def childIds (t : TreeInstance) (u : Uuid) : List Uuid :=
  (t.getChildren u).toOption.elim [] fun l => l.map Node.userId

def downlineIds (t : TreeInstance) (u : Uuid) : List Uuid :=
  (t.getDownline u 0).toOption.elim [] fun l => l.map Node.userId

/-- The volume at and below a child, of those who count. -/
def legTotal (inputs : EvaluationInputs) (t : TreeInstance) (counts : Uuid → Bool) (child : Uuid) :
    ℚ :=
  (((child :: downlineIds t child).filter counts).map (sourceTotal inputs.volumeSources)).sum

/-- A leg's volume as far as a cap lets it count. -/
def upTo (cap : Option Dec) (v : ℚ) : ℚ := cap.elim v fun c => min v c.value

def personalTotal (inputs : EvaluationInputs) (u : Uuid) : ℚ :=
  (inputs.distributors.lookup u).elim 0 fun p => p.personalVolume.value

/-- Personal volume and the capped volume of each leg, of those who count. -/
def groupTotal (inputs : EvaluationInputs) (t : TreeInstance) (cap : Option Dec)
    (counts : Uuid → Bool) (u : Uuid) : ℚ :=
  personalTotal inputs u + ((childIds t u).map fun c => upTo cap (legTotal inputs t counts c)).sum

/-- The cap that a structure sets on a leg. -/
def legCap (sq : StructureQualification) : Option Dec := (effectiveLegCap sq).toOption.join

def everyone : Uuid → Bool := fun _ => true

theorem value_capped (cap : Option Dec) (v : Dec) : (capped cap v).value = upTo cap v.value := by
  cases cap with
  | none => rfl
  | some c => exact value_min v c

section Volumes

variable {inputs : EvaluationInputs} {index : VolumeIndex} {t : TreeInstance}
  (h : VolumeIndex.build inputs.volumeSources = .ok index)

include h

theorem legVolume_value {root : Uuid} {v : Dec} (hv : legVolume index t root = .ok v) :
    v.value = legTotal inputs t everyone root := by
  obtain ⟨l, hl, hv⟩ := bind_eq_ok.mp hv
  have hids : downlineIds t root = l.map Node.userId := by
    unfold downlineIds
    rw [relay_eq_ok.mp hl]
    rfl
  have hsum : (fun d : Node => (index.cvFor d.userId).value) =
      fun d : Node => sourceTotal inputs.volumeSources d.userId :=
    funext fun d => build_value h d.userId
  rw [addAll_value (relay_eq_ok.mp hv), build_value h, legTotal, hids,
    (filter_eq_self (p := everyone)).mpr fun _ _ => rfl, map_cons, sum_cons,
    map_map, map_map]
  exact congrArg (fun f => _ + (l.map f).sum) hsum

variable {cap : Option Dec}

theorem addLegs_value {l : List Node} {g v : Dec}
    (hv : l.foldlM (addLeg cap index t) g = .ok v) : v.value = g.value +
      (l.map fun c => upTo cap (legTotal inputs t everyone c.userId)).sum := by
  induction l generalizing g with
  | nil =>
    cases hv
    simp
  | cons c l ih =>
    rw [foldlM_cons] at hv
    obtain ⟨n, hn, hv⟩ := bind_eq_ok.mp hv
    obtain ⟨leg, hleg, hn⟩ := bind_eq_ok.mp hn
    rw [ih hv, tryAdd_value (relay_eq_ok.mp hn), value_capped, legVolume_value h hleg,
      map_cons, sum_cons, add_assoc]

/-- **The group volume that evaluation compares is that of all descendants.** -/
theorem cappedGv_value {u : Uuid} {p : DistributorPrimitives} {gv : Dec}
    (hp : inputs.distributors.lookup u = some p) (hgv : cappedGv cap u t index p = .ok gv) :
    gv.value = groupTotal inputs t cap everyone u := by
  obtain ⟨l, hl, hgv⟩ := bind_eq_ok.mp hgv
  have hids : childIds t u = l.map Node.userId := by
    unfold childIds
    rw [relay_eq_ok.mp hl]
    rfl
  rw [addLegs_value h hgv, groupTotal, personalTotal, hp, hids, map_map]
  rfl

end Volumes

/-! ## 3. Whoever is found at a rank meets it -/

variable {ctx : EvalCtx} {u : Uuid} {m : RankMap}

theorem ascent_met {l : List RankDefinition}
    {c r : RankDefinition} (h : l.foldlM (ascend u m ctx) c = .ok r) :
    r = c ∨ (r ∈ l ∧ satisfies r u m ctx = .ok true) := by
  induction l generalizing c with
  | nil =>
    cases h
    exact .inl rfl
  | cons rank l ih =>
    rw [foldlM_cons] at h
    obtain ⟨d, hd, h⟩ := bind_eq_ok.mp h
    obtain ⟨b, hb, hd⟩ := bind_eq_ok.mp hd
    rcases ih h with rfl | ⟨hr, hmet⟩
    · cases b with
      | true =>
        cases hd
        exact .inr ⟨mem_cons_self, hb⟩
      | false =>
        cases hd
        exact .inl rfl
    · exact .inr ⟨mem_cons_of_mem _ hr, hmet⟩

theorem structure_of_satisfies {rank : RankDefinition}
    (h : satisfies rank u m ctx = .ok true) : ∃ p, ctx.distributors.lookup u = some p ∧
      ∀ sq ∈ rank.qualification.structures, structureMet rank.name u m ctx p sq = .ok true := by
  unfold satisfies at h
  split at h
  · cases h
  · rename_i p hp
    split at h
    · cases h
    · rcases andThen_eq_ok.mp h with ⟨hall, -⟩ | ⟨-, h⟩
      · exact ⟨p, hp, allOf_eq_true.mp hall⟩
      · cases h

theorem groupVolume_of_structureMet {rank : String} {p : DistributorPrimitives} {sq : StructureQualification}
    (h : structureMet rank u m ctx p sq = .ok true) : ∃ t gv cap,
      ctx.trees.lookup sq.structureName = some t ∧ effectiveLegCap sq = .ok cap ∧
      cappedGv cap u t ctx.volumeIndex p = .ok gv ∧ sq.groupVolume ≤ gv := by
  unfold structureMet at h
  split at h
  · cases h
  · rename_i t ht
    split at h
    · cases h
    · split at h
      · cases h
      · split at h
        · cases h
        · obtain ⟨cap, hcap, h⟩ := bind_eq_ok.mp h
          rcases andThen_eq_ok.mp h with ⟨hgv, -⟩ | ⟨-, h⟩
          · obtain ⟨gv, hgv, hmet⟩ := bind_eq_ok.mp (relay_eq_ok.mp hgv)
            exact ⟨t, gv, cap, ht, relay_eq_ok.mp hcap, hgv, of_decide_eq_true (Except.ok.inj hmet)⟩
          · cases h

theorem resolveCap_ok {sq sq' : StructureQualification} (h : resolveCap sq = .ok sq') :
    sq'.structureName = sq.structureName ∧ sq'.groupVolume = sq.groupVolume ∧
      effectiveLegCap sq' = effectiveLegCap sq := by
  unfold resolveCap at h
  split at h
  · cases h
    exact ⟨rfl, rfl, rfl⟩
  · obtain ⟨cap, hcap, h⟩ := bind_eq_ok.mp h
    cases cap with
    | none =>
      cases h
      exact ⟨rfl, rfl, rfl⟩
    | some c =>
      cases h
      refine ⟨rfl, rfl, ?_⟩
      rw [hcap]
      have hpos : ¬ c ≤ zero := by
        rename_i hmax
        unfold effectiveLegCap at hcap
        rw [if_neg hmax] at hcap
        obtain ⟨c', -, hcap⟩ := bind_eq_ok.mp hcap
        split at hcap
        · rename_i hc
          cases hcap
          exact hc
        · cases hcap
      exact if_pos hpos

section Met

variable {plan : CompensationPlan} {trees : AList fun _ : String => TreeInstance}
  {inputs : EvaluationInputs} {result : RankMap}

variable {r : RankDefinition}

theorem LadderOk.eq_of_name (h : LadderOk plan) {r' : RankDefinition} (hr : r ∈ plan.ranks)
    (hr' : r' ∈ plan.ranks) (hname : r.name = r'.name) : r = r' :=
  inj_on_of_nodup_map h.names hr hr' hname

variable {ctx : EvalCtx}

theorem Prepared.comes_from (h : Prepared plan trees inputs ctx) (hladder : LadderOk plan)
    {r' : RankDefinition} (hr : r ∈ plan.ranks) (hr' : r' ∈ ctx.ranks)
    (hname : r'.name = r.name) : Resolves r r' := by
  obtain ⟨r₀, hr₀, hres⟩ := exists_of_mem_mapM h.ranks hr'
  have hres := resolves_of_ok hres
  have hmem : r₀ ∈ plan.ranks := (mem_insertionSort _).mp hr₀
  rw [hladder.eq_of_name hr hmem (hname.symm.trans hres.name)]
  exact hres

/-- The lowest rank of the context comes from the lowest of the plan. -/
theorem Prepared.lowest (h : Prepared plan trees inputs ctx) {base : RankDefinition}
    (hb : ctx.ranks.head? = some base) :
    ∃ base₀, plan.sortedRanks.head? = some base₀ ∧ base.name = base₀.name := by
  have hall := h.resolved
  generalize plan.sortedRanks = sorted at hall ⊢
  generalize ctx.ranks = ranks at hall hb
  cases hall with
  | nil => cases hb
  | cons hres _ =>
    cases hb
    exact ⟨_, rfl, hres.name⟩

variable {d : Uuid} {o : Nat}

theorem Evaluated.lowest_or_met {order : List Uuid} {already : RankMap}
    (h : Evaluated plan trees inputs result ctx order already) {name : String}
    (hd : result.lookup d = some (.qualified name o)) :
    (∃ base, ctx.ranks.head? = some base ∧ base.name = name ∧ base.ordinal = o) ∨
      ∃ c ∈ ctx.ranks, c.name = name ∧ c.ordinal = o ∧ satisfies c d already ctx = .ok true := by
  rw [h.lookup_result] at hd
  cases hfound : already.lookup d with
  | none =>
    rw [hfound, Option.none_or] at hd
    split at hd
    · obtain ⟨base, hb, hheld⟩ := Option.map_eq_some_iff.mp hd
      injection hheld with hname hordinal
      exact .inl ⟨base, hb, hname, hordinal⟩
    · cases hd
  | some x =>
    rw [hfound, Option.some_or] at hd
    have horder : d ∈ order := by
      by_contra hout
      rw [(h.lookup_none_iff d).mpr hout] at hfound
      cases hfound
    obtain ⟨y, hy, hlook⟩ := h.fixed d horder
    have hy : evaluateDistributor d already ctx = .ok (.qualified name o) := by
      rw [hfound] at hlook
      exact hy.trans (congrArg Except.ok (Option.some.inj (hlook.symm.trans hd)))
    unfold evaluateDistributor at hy
    cases hranks : ctx.ranks with
    | nil =>
      rw [hranks] at hy
      cases hy
    | cons base higher =>
      rw [hranks] at hy
      obtain ⟨c, hc, hy⟩ := bind_eq_ok.mp hy
      injection Except.ok.inj hy with hname hordinal
      rcases ascent_met hc with rfl | ⟨hin, hmet⟩
      · exact .inl ⟨c, rfl, hname, hordinal⟩
      · exact .inr ⟨c, mem_cons_of_mem _ hin, hname, hordinal, hmet⟩

theorem rank_of_found (hrun : evaluateRanks plan trees inputs = .ok result) {name : String}
    (hd : result.lookup d = some (.qualified name o)) : ∃ r ∈ plan.ranks, r.name = name ∧ r.ordinal = o := by
  obtain ⟨ctx, order, already, he⟩ := evaluateRanks_ok hrun
  obtain ⟨c, hc, hname, hordinal⟩ : ∃ c ∈ ctx.ranks, c.name = name ∧ c.ordinal = o := by
    rcases he.lowest_or_met hd with ⟨base, hb, hfound⟩ | ⟨c, hc, hname, hordinal, -⟩
    · exact ⟨base, mem_of_mem_head? hb, hfound⟩
    · exact ⟨c, hc, hname, hordinal⟩
  obtain ⟨r, hr, hres⟩ := exists_of_mem_mapM he.prepared.ranks hc
  have hres := resolves_of_ok hres
  exact ⟨r, (mem_insertionSort _).mp hr, hres.name.symm.trans hname, hres.ordinal.symm.trans hordinal⟩

theorem listed_of_found (hrun : evaluateRanks plan trees inputs = .ok result) {x : EvaluatedRank}
    (hd : result.lookup d = some x) : d ∈ inputs.distributors.keys := by
  obtain ⟨ctx, order, already, he⟩ := evaluateRanks_ok hrun
  by_contra hout
  have hnone : already.lookup d = none := (he.lookup_none_iff d).mpr fun hin => hout ((he.order_mem d).mp hin).1
  rw [he.lookup_result, hnone, if_neg hout] at hd
  cases hd

variable (hladder : LadderOk plan) (hrun : evaluateRanks plan trees inputs = .ok result)
  (hd : result.lookup d = some (.qualified r.name o)) (hr : r ∈ plan.ranks)
include hladder hrun hd hr

theorem evaluated_satisfies
    (hbase : plan.sortedRanks.head? ≠ some r) : ∃ ctx m r', Prepared plan trees inputs ctx ∧
      Resolves r r' ∧ satisfies r' d m ctx = .ok true := by
  obtain ⟨ctx, order, already, he⟩ := evaluateRanks_ok hrun
  rcases he.lowest_or_met hd with ⟨base, hb, hname, -⟩ | ⟨c, hc, hname, -, hmet⟩
  · obtain ⟨base₀, hb₀, hname₀⟩ := he.prepared.lowest hb
    have hmem : base₀ ∈ plan.ranks := (mem_insertionSort _).mp (mem_of_mem_head? hb₀)
    exact absurd (hladder.eq_of_name hr hmem (hname.symm.trans hname₀) ▸ hb₀) hbase
  · exact ⟨ctx, already, c, he.prepared, he.prepared.comes_from hladder hr hc hname, hmet⟩

/-- **Whoever is found at a rank meets its group volume, all descendants counted.** -/
theorem evaluated_meets {sq : StructureQualification} (hsq : sq ∈ r.qualification.structures)
    (hpos : 0 < sq.groupVolume.value) {t : TreeInstance} (ht : trees.lookup sq.structureName = some t) :
    sq.groupVolume.value ≤ groupTotal inputs t (legCap sq) everyone d := by
  have hbase : plan.sortedRanks.head? ≠ some r := by
    intro hb
    have hzero := hladder.base r hb sq hsq
    rw [hzero] at hpos
    exact lt_irrefl _ hpos
  obtain ⟨ctx, m, r', hprep, hres, hmet⟩ := evaluated_satisfies hladder hrun hd hr hbase
  obtain ⟨sq', hsq', hcap'⟩ := exists_mem_of_mapM hres.structures hsq
  obtain ⟨hname, hgroup, hcaps⟩ := resolveCap_ok hcap'
  obtain ⟨p, hp, hall⟩ := structure_of_satisfies hmet
  obtain ⟨t', gv, cap, ht', hcap, hgv, hle⟩ := groupVolume_of_structureMet (hall sq' hsq')
  rw [hprep.trees, hname, ht] at ht'
  cases ht'
  rw [hprep.distributors] at hp
  have hlegCap : legCap sq = cap := by
    rw [legCap, ← hcaps, hcap]
    rfl
  rw [hlegCap, ← cappedGv_value hprep.volumes hp hgv, ← hgroup]
  exact le_iff.mp hle

end Met

/-! ## 4. Groups that broke away -/

/-- The ordinal of the rank at which a group breaks away. -/
def thresholdOrdinal (plan : CompensationPlan) (config : BreakawayConfig) : Option Nat :=
  (plan.ranks.find? fun r => r.name = config.thresholdRank).map RankDefinition.ordinal

/-- Whether a user's evaluated rank is at the threshold or above. -/
def brokeAway (plan : CompensationPlan) (config : BreakawayConfig) (result : RankMap) (u : Uuid) :
    Bool :=
  (thresholdOrdinal plan config).any fun o => atLeast result o u

/-- Whether a user is at or below a descendant of `d` who broke away. -/
def cutOff (broke : Uuid → Bool) (t : TreeInstance) (d u : Uuid) : Bool :=
  (downlineIds t d).any fun b => broke b && (u = b || (downlineIds t b).contains u)

/-- Whoever is not cut off. -/
def kept (broke : Uuid → Bool) (t : TreeInstance) (d : Uuid) : Uuid → Bool := fun u => !cutOff broke t d u

/-- A rank asks for a group volume in a structure configured to exclude groups that broke away. -/
structure Asked (plan : CompensationPlan) (trees : AList fun _ : String => TreeInstance)
    (config : BreakawayConfig) (t : TreeInstance) (r : RankDefinition) (sq : StructureQualification) : Prop where
  configured : .stairstep sq.structureName (some config) ∈ plan.structures
  excluding : config.excludeBreakawayGv = true
  tree : trees.lookup sq.structureName = some t
  rank : r ∈ plan.ranks
  asked : sq ∈ r.qualification.structures
  positive : 0 < sq.groupVolume.value

/-- Everyone meets the group volume of their rank without the groups that broke away. -/
def BreakawaysExcluded (plan : CompensationPlan) (trees : AList fun _ : String => TreeInstance)
    (inputs : EvaluationInputs) (result : RankMap) : Prop :=
  ∀ config t d r sq o, Asked plan trees config t r sq → result.lookup d = some (.qualified r.name o) →
    sq.groupVolume.value ≤ groupTotal inputs t (legCap sq) (kept (brokeAway plan config result) t d) d

/-- Whether the volume at and below a user is enough for a rank at which a group breaks away. Who does
    break away is known from an evaluation only; this is known before it. -/
def mayBreakAway (plan : CompensationPlan) (trees : AList fun _ : String => TreeInstance)
    (inputs : EvaluationInputs) (config : BreakawayConfig) (u : Uuid) : Bool :=
  (thresholdOrdinal plan config).any fun o => plan.ranks.any fun r =>
    o ≤ r.ordinal && r.qualification.structures.all fun sq =>
      decide (∀ t ∈ trees.lookup sq.structureName, 0 < sq.groupVolume.value →
        sq.groupVolume.value ≤ groupTotal inputs t (legCap sq) everyone u)

/-- **Nobody needs a group that may break away**: no volume is negative, and a distributor who has a group
    volume that is asked for has it without the descendants at or below one whose own volume is enough to
    break away. -/
structure OwnGroupsSuffice (plan : CompensationPlan) (trees : AList fun _ : String => TreeInstance)
    (inputs : EvaluationInputs) : Prop where
  nonneg : ∀ src ∈ inputs.volumeSources, 0 ≤ src.cvAmount.value
  suffice : ∀ config t r sq, Asked plan trees config t r sq → ∀ d ∈ inputs.distributors.keys,
    sq.groupVolume.value ≤ groupTotal inputs t (legCap sq) everyone d →
    sq.groupVolume.value ≤
      groupTotal inputs t (legCap sq) (kept (mayBreakAway plan trees inputs config) t d) d

theorem groupTotal_mono {inputs : EvaluationInputs} (hnonneg : ∀ src ∈ inputs.volumeSources, 0 ≤ src.cvAmount.value)
    (t : TreeInstance) (cap : Option Dec) {counts counts' : Uuid → Bool}
    (h : ∀ u, counts u = true → counts' u = true) (d : Uuid) :
    groupTotal inputs t cap counts d ≤ groupTotal inputs t cap counts' d := by
  have hsource : ∀ u, 0 ≤ sourceTotal inputs.volumeSources u := fun u => by
    refine sum_nonneg fun x hx => ?_
    obtain ⟨src, hsrc, rfl⟩ := mem_map.mp hx
    exact hnonneg src (mem_of_mem_filter hsrc)
  have hleg : ∀ c, legTotal inputs t counts c ≤ legTotal inputs t counts' c := fun c => by
    unfold legTotal
    refine ((monotone_filter_right _ h).map _).sum_le_sum fun x hx => ?_
    obtain ⟨u, -, rfl⟩ := mem_map.mp hx
    exact hsource u
  refine add_le_add_right (sum_le_sum fun c _ => ?_) _
  cases cap with
  | none => exact hleg c
  | some limit => exact min_le_min_right _ (hleg c)

theorem kept_of_kept {broke broke' : Uuid → Bool} (h : ∀ b, broke b = true → broke' b = true) (t : TreeInstance)
    (d u : Uuid) (hu : kept broke' t d u = true) : kept broke t d u = true := by
  simp only [kept, cutOff, Bool.not_eq_true', any_eq_false, Bool.and_eq_true, not_and] at hu ⊢
  exact fun b hb hbroke => hu b hb (h b hbroke)

section Excluded

variable {plan : CompensationPlan} {trees : AList fun _ : String => TreeInstance} {inputs : EvaluationInputs}
  {result : RankMap} (hladder : LadderOk plan) (hrun : evaluateRanks plan trees inputs = .ok result)
include hladder hrun

theorem mayBreakAway_of_brokeAway {config : BreakawayConfig} {u : Uuid}
    (h : brokeAway plan config result u = true) : mayBreakAway plan trees inputs config u = true := by
  obtain ⟨o, ho, hu⟩ := (Option.any_eq_true _ _).mp h
  unfold atLeast at hu
  split at hu
  · rename_i name found hfound
    obtain ⟨r, hr, rfl, rfl⟩ := rank_of_found hrun hfound
    refine (Option.any_eq_true _ _).mpr ⟨o, ho, any_eq_true.mpr ⟨r, hr, ?_⟩⟩
    refine Bool.and_eq_true_iff.mpr ⟨hu, all_eq_true.mpr fun sq hsq => decide_eq_true fun t ht hpos => ?_⟩
    exact evaluated_meets hladder hrun hfound hr hsq hpos ht
  · cases hu
  · cases hu

end Excluded

def ranksOf (inputs : EvaluationInputs) : RankMap :=
  ((evaluateRanks teamPlan teamTrees inputs).toOption).getD ∅

theorem ranksOf_run {inputs : EvaluationInputs} (hok : (evaluateRanks teamPlan teamTrees inputs).isOk = true) :
    evaluateRanks teamPlan teamTrees inputs = .ok (ranksOf inputs) := by
  unfold ranksOf
  cases hrun : evaluateRanks teamPlan teamTrees inputs with
  | error e =>
    rw [hrun] at hok
    cases hok
  | ok ranks => rfl

def directorRank : RankDefinition :=
  ⟨"director", 2, ⟨[groupOf "team" hundred], [], none, none⟩⟩

theorem director_asked : Asked teamPlan teamTrees ⟨"director", true⟩ (pairTree 1 2) directorRank
    (groupOf "team" hundred) where
  configured := mem_singleton.mpr rfl
  excluding := rfl
  tree := AList.lookup_insert _
  rank := by decide +kernel
  asked := mem_singleton.mpr rfl
  positive := by decide +kernel

/-- Both users have sold enough, and the lower one breaks away. -/
def sellingInputs : EvaluationInputs where
  distributors := ((∅ : AList fun _ : Uuid => DistributorPrimitives).insert 1
    ⟨hundred, zero, []⟩).insert 2 ⟨hundred, zero, []⟩
  volumeSources := [⟨1, hundred⟩, ⟨2, hundred⟩]
  historyWindow := []
  history := ∅

theorem asked_of_team {config : BreakawayConfig} {t : TreeInstance} {r : RankDefinition}
    {sq : StructureQualification} (h : Asked teamPlan teamTrees config t r sq) :
    config = ⟨"director", true⟩ ∧ t = pairTree 1 2 ∧ sq = groupOf "team" hundred := by
  have hsq : sq = groupOf "team" hundred := by
    have hasked := h.asked
    rcases mem_cons.mp h.rank with hr | hr
    · rw [hr] at hasked
      exact absurd hasked not_mem_nil
    · rw [mem_singleton.mp hr] at hasked
      exact mem_singleton.mp hasked
  subst hsq
  exact ⟨Option.some.inj (StructureConfig.stairstep.inj (mem_singleton.mp h.configured)).2,
    Option.some.inj (h.tree.symm.trans director_asked.tree), rfl⟩

theorem sellingInputs_suffice : OwnGroupsSuffice teamPlan teamTrees sellingInputs where
  nonneg := by decide +kernel
  suffice := by
    intro config t r sq ha d hd _
    obtain ⟨rfl, rfl, rfl⟩ := asked_of_team ha
    have hkeys : sellingInputs.distributors.keys = [2, 1] := by decide +kernel
    rw [hkeys, mem_cons, mem_singleton] at hd
    rcases hd with rfl | rfl
    · decide +kernel
    · decide +kernel

end MlmForge.Rank
