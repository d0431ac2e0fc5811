/-
  Subject:   The rank ladder of a plan, the inputs of a period, and the test of one rank.

  * `satisfies` -- whether a distributor meets everything a rank asks for, given the ranks found so
    far: products, then structure by structure personal, retail and group volume, distributor count
    and leg quality, then the two gates on earlier periods.

  Left out is what rank evaluation does not read: a rank's demotion policy and qualified structures,
  a distributor's status and order flag.
-/
import MlmForge.Basis.Gates
import MlmForge.Engine.Navigator
import MlmForge.Rank.Decimal

namespace MlmForge.Rank

open Engine Query Dec

/-! ## 1. The ladder -/

inductive SearchMode where
  | firstLevels
  | anyLevel
  deriving DecidableEq

structure DistributorCountRequirement where
  count : Nat
  minRank : String
  searchMode : SearchMode
  searchDepth : Option Nat
  totalCount : Nat
  minLegGroupVolume : AuthoredDec
  deriving DecidableEq

inductive LegPredicate where
  | containsRank (minRank : String)
  | containsPersonalVolume (minPersonalVolume : AuthoredDec)
  deriving DecidableEq

structure LegQualityRequirement where
  count : Nat
  predicate : LegPredicate
  deriving DecidableEq

structure StructureQualification where
  structureName : String
  personalVolume : AuthoredDec
  groupVolume : AuthoredDec
  maxGroupVolumePerLeg : AuthoredDec
  maxGroupVolumePerLegFraction : AuthoredDec
  minRetailVolume : AuthoredDec
  distributorCount : Option DistributorCountRequirement
  legQuality : List LegQualityRequirement
  deriving DecidableEq

structure RankQualificationWindow where
  thresholdRank : String
  qualifyingPeriods : Nat
  windowPeriods : Nat
  deriving DecidableEq

structure TenureRequirement where
  thresholdRank : String
  periods : Nat
  deriving DecidableEq

structure RankQualification where
  structures : List StructureQualification
  requiredProducts : List String
  window : Option RankQualificationWindow
  tenure : Option TenureRequirement
  deriving DecidableEq

structure RankDefinition where
  name : String
  ordinal : Nat
  qualification : RankQualification
  deriving DecidableEq

/-! ## 2. The period -/

/-- Point-in-time facts about one distributor. -/
structure DistributorPrimitives where
  personalVolume : AuthoredDec
  retailVolume : AuthoredDec
  activeProducts : List String
  deriving DecidableEq

/-- Volume that a distributor generated. -/
structure VolumeSource where
  sourceId : Uuid
  cvAmount : AuthoredDec
  deriving DecidableEq

/-- The rank a distributor is found at. -/
inductive EvaluatedRank where
  | qualified (rank : String) (ordinal : Nat)
  | unranked
  deriving DecidableEq

abbrev RankMap := AList fun _ : Uuid => EvaluatedRank

/-- Achieved ordinals by period; a period without a rank holds none. -/
abbrev PeriodRanks := AList fun _ : String => Option Nat

inductive EvaluationError where
  | unknownStructure (rank structureName : String)
  | unknownMinRank (rank referenced : String)
  | unknownThresholdRank (rank referenced : String)
  | timeGateWithoutHistory (rank : String)
  | distributorNotInTree (userId : Uuid) (structureName : String)
  | distributorNotInInputs (userId : Uuid)
  | numeric (e : NumericError)
  | rankEvaluationDidNotConverge (passes : Nat)
  deriving DecidableEq

/-- Total volume per distributor. -/
structure VolumeIndex where
  bySource : AList fun _ : Uuid => Dec
  deriving DecidableEq

namespace VolumeIndex

def cvFor (index : VolumeIndex) (userId : Uuid) : Dec :=
  (index.bySource.lookup userId).getD zero

/-- Adds one source to the total of its distributor. -/
def addSource (index : VolumeIndex) (src : VolumeSource) : Query NumericError VolumeIndex := do
  let total ← (index.cvFor src.sourceId).tryAdd src.cvAmount
  .ok ⟨index.bySource.insert src.sourceId total⟩

def build (sources : List VolumeSource) : Query NumericError VolumeIndex :=
  sources.foldlM addSource ⟨∅⟩

end VolumeIndex

/-- Read-only inputs of an evaluation. -/
structure EvalCtx where
  distributors : AList fun _ : Uuid => DistributorPrimitives
  ranks : List RankDefinition
  trees : AList fun _ : String => TreeInstance
  volumeIndex : VolumeIndex
  rankOrdinals : AList fun _ : String => Nat
  historyWindow : List String
  history : AList fun _ : Uuid => PeriodRanks

/-! ## 3. Volumes and products -/

inductive GroupVolumeError where
  | tree (e : TreeError)
  | numeric (e : NumericError)
  deriving DecidableEq

inductive DistributorCountError where
  | tree (e : TreeError)
  | unknownMinRank (referenced : String)
  | numeric (e : NumericError)
  deriving DecidableEq

inductive LegQualityError where
  | tree (e : TreeError)
  | unknownMinRank (referenced : String)
  deriving DecidableEq

def pvMeets (required : AuthoredDec) (primitives : DistributorPrimitives) : Bool :=
  required ≤ primitives.personalVolume

def retailMeets (required : AuthoredDec) (primitives : DistributorPrimitives) : Bool :=
  required ≤ primitives.retailVolume

/-- At least one of the required products is active; an empty list always passes. -/
def requiredProductsMet (required : List String) (primitives : DistributorPrimitives) : Bool :=
  required.isEmpty || required.any fun r => primitives.activeProducts.contains r

/-- The cap on a leg that a structure sets, if any. -/
def effectiveLegCap (sq : StructureQualification) : Query NumericError (Option Dec) :=
  if ¬ sq.maxGroupVolumePerLeg ≤ zero then .ok (some sq.maxGroupVolumePerLeg)
  else do
    let cap ← sq.maxGroupVolumePerLegFraction.tryMul sq.groupVolume
    .ok (if ¬ cap ≤ zero then some cap else none)

/-- A fraction cap replaced by the fixed cap it resolves to. -/
def resolveCap (sq : StructureQualification) : Query NumericError StructureQualification :=
  if ¬ sq.maxGroupVolumePerLeg ≤ zero then .ok sq
  else do
    match ← effectiveLegCap sq with
    | some cap =>
      .ok { sq with maxGroupVolumePerLeg := cap, maxGroupVolumePerLegFraction := zero }
    | none => .ok sq

def resolveRank (rank : RankDefinition) : Query NumericError RankDefinition := do
  let structures ← rank.qualification.structures.mapM resolveCap
  .ok { rank with qualification := { rank.qualification with structures := structures } }

def resolveFractionCaps (ranks : List RankDefinition) : Query NumericError (List RankDefinition) :=
  ranks.mapM resolveRank

/-- The volume of a node and everything below it. -/
def legVolume (index : VolumeIndex) (tree : TreeInstance) (root : Uuid) :
    Query GroupVolumeError Dec := do
  let downline ← (tree.getDownline root 0).relay .tree
  ((index.cvFor root).addAll (downline.map fun d => index.cvFor d.userId)).relay .numeric

/-- A leg's volume as far as the cap lets it count. -/
def capped (cap : Option Dec) (leg : Dec) : Dec := cap.elim leg leg.min

def addLeg (cap : Option Dec) (index : VolumeIndex) (tree : TreeInstance) (gv : Dec)
    (child : Node) : Query GroupVolumeError Dec := do
  let leg ← legVolume index tree child.userId
  (gv.tryAdd (capped cap leg)).relay .numeric

/-- Personal volume plus the capped volume of each first-level leg. -/
def cappedGv (cap : Option Dec) (userId : Uuid) (tree : TreeInstance) (index : VolumeIndex)
    (primitives : DistributorPrimitives) : Query GroupVolumeError Dec := do
  let children ← (tree.getChildren userId).relay .tree
  children.foldlM (addLeg cap index tree) primitives.personalVolume

def cappedGvMeets (required : AuthoredDec) (cap : Option Dec) (userId : Uuid)
    (tree : TreeInstance) (index : VolumeIndex) (primitives : DistributorPrimitives) :
    Query GroupVolumeError Bool := do
  let gv ← cappedGv cap userId tree index primitives
  .ok (decide (required ≤ gv))

/-! ## 4. Ranks in the downline -/

/-- The ordinal of a rank that a requirement names. -/
def ordinalOf {ε : Type} (rankOrdinals : AList fun _ : String => Nat) (unknown : String → ε)
    (name : String) : Query ε Nat :=
  match rankOrdinals.lookup name with
  | some ordinal => .ok ordinal
  | none => .error (.err (unknown name))

/-- Whether a user has been found at an ordinal or above. -/
def atLeast (already : RankMap) (minOrdinal : Nat) (userId : Uuid) : Bool :=
  match already.lookup userId with
  | some (.qualified _ ordinal) => minOrdinal ≤ ordinal
  | some .unranked => false
  | none => false

def GroupVolumeError.inCount : GroupVolumeError → DistributorCountError
  | tree e => .tree e
  | numeric e => .numeric e

/-- Whether a node counts: its rank, then the volume at and below it. -/
def countsToward (req : DistributorCountRequirement) (tree : TreeInstance) (index : VolumeIndex)
    (already : RankMap) (minOrdinal : Nat) (n : Node) : Query DistributorCountError Bool :=
  if atLeast already minOrdinal n.userId then do
    let legGv ← (legVolume index tree n.userId).relay GroupVolumeError.inCount
    .ok (decide (req.minLegGroupVolume ≤ legGv))
  else .ok false

/-- How many levels are searched; 0 is all of them. -/
def DistributorCountRequirement.depth (req : DistributorCountRequirement) : Nat :=
  match req.searchMode with
  | .firstLevels => req.searchDepth.getD 0
  | .anyLevel => 0

/-- The downline holds enough distributors, and enough of them count. -/
def distributorCountMeets (req : DistributorCountRequirement) (userId : Uuid)
    (tree : TreeInstance) (index : VolumeIndex) (already : RankMap)
    (rankOrdinals : AList fun _ : String => Nat) : Query DistributorCountError Bool := do
  let minOrdinal ← ordinalOf rankOrdinals .unknownMinRank req.minRank
  let nodes ← (tree.getDownline userId req.depth).relay .tree
  if nodes.length < req.totalCount then .ok false
  else do
    let qualifying ← countOf (countsToward req tree index already minOrdinal) nodes
    .ok (decide (req.count ≤ qualifying))

def nodeMatches (predicate : LegPredicate) (nodeId : Uuid) (already : RankMap)
    (distributors : AList fun _ : Uuid => DistributorPrimitives)
    (rankOrdinals : AList fun _ : String => Nat) : Query LegQualityError Bool :=
  match predicate with
  | .containsRank minRank => do
      let minOrdinal ← ordinalOf rankOrdinals .unknownMinRank minRank
      .ok (atLeast already minOrdinal nodeId)
  | .containsPersonalVolume minPersonalVolume =>
    match distributors.lookup nodeId with
    | some primitives => .ok (decide (minPersonalVolume ≤ primitives.personalVolume))
    | none => .ok false

/-- A leg, its root included, contains a matching node; the first match ends the search. -/
def legContainsMatch (predicate : LegPredicate) (tree : TreeInstance) (already : RankMap)
    (distributors : AList fun _ : Uuid => DistributorPrimitives)
    (rankOrdinals : AList fun _ : String => Nat) (legRoot : Uuid) : Query LegQualityError Bool := do
  if ← nodeMatches predicate legRoot already distributors rankOrdinals then .ok true
  else do
    let nodes ← (tree.getDownline legRoot 0).relay .tree
    anyOf (fun n => nodeMatches predicate n.userId already distributors rankOrdinals) nodes

/-- Enough legs match one requirement. -/
def legRequirementMet (tree : TreeInstance) (already : RankMap)
    (distributors : AList fun _ : Uuid => DistributorPrimitives)
    (rankOrdinals : AList fun _ : String => Nat) (children : List Node)
    (req : LegQualityRequirement) : Query LegQualityError Bool :=
  if req.count = 0 then .ok true
  else if children.length < req.count then .ok false
  else do
    let matchingLegs ← countOf (fun child =>
      legContainsMatch req.predicate tree already distributors rankOrdinals child.userId) children
    .ok (decide (req.count ≤ matchingLegs))

def legQualityMeets (reqs : List LegQualityRequirement) (userId : Uuid) (tree : TreeInstance)
    (already : RankMap) (distributors : AList fun _ : Uuid => DistributorPrimitives)
    (rankOrdinals : AList fun _ : String => Nat) : Query LegQualityError Bool :=
  if reqs.isEmpty then .ok true
  else do
    let children ← (tree.getChildren userId).relay .tree
    allOf (legRequirementMet tree already distributors rankOrdinals children) reqs

/-! ## 5. Earlier periods -/

/-- Whether a period's achieved ordinal is at the threshold; a missing or rankless period is not. -/
def achieved (hist : Option PeriodRanks) (threshold : Nat) (pid : String) : Bool :=
  ((hist.bind fun h => h.lookup pid).join).any fun o => threshold ≤ o

/-- At the threshold in enough of the most recent periods. -/
def windowedMeets (w : RankQualificationWindow) (axis : List String) (hist : Option PeriodRanks)
    (rankOrdinals : AList fun _ : String => Nat) (rankName : String) :
    Query EvaluationError Bool := do
  let threshold ← ordinalOf rankOrdinals (.unknownThresholdRank rankName) w.thresholdRank
  if axis.length < w.windowPeriods then .ok false
  else .ok (decide (w.qualifyingPeriods ≤
    ((axis.take w.windowPeriods).filter (achieved hist threshold)).length))

/-- At the threshold in each of the most recent periods. -/
def tenureMeets (t : TenureRequirement) (axis : List String) (hist : Option PeriodRanks)
    (rankOrdinals : AList fun _ : String => Nat) (rankName : String) :
    Query EvaluationError Bool := do
  let threshold ← ordinalOf rankOrdinals (.unknownThresholdRank rankName) t.thresholdRank
  if axis.length < t.periods then .ok false
  else .ok ((axis.take t.periods).all (achieved hist threshold))

/-! ## 6. One rank -/

def GroupVolumeError.inRank (userId : Uuid) (structureName : String) :
    GroupVolumeError → EvaluationError
  | tree _ => .distributorNotInTree userId structureName
  | numeric e => .numeric e

def DistributorCountError.inRank (userId : Uuid) (structureName rank : String) :
    DistributorCountError → EvaluationError
  | tree _ => .distributorNotInTree userId structureName
  | unknownMinRank referenced => .unknownMinRank rank referenced
  | numeric e => .numeric e

def LegQualityError.inRank (userId : Uuid) (structureName rank : String) :
    LegQualityError → EvaluationError
  | tree _ => .distributorNotInTree userId structureName
  | unknownMinRank referenced => .unknownMinRank rank referenced

/-- The distributor count of a structure, when it asks for one. -/
def countGate (rank : String) (sq : StructureQualification) (userId : Uuid) (tree : TreeInstance)
    (already : RankMap) (ctx : EvalCtx) : Query EvaluationError Bool :=
  match sq.distributorCount with
  | some req =>
    (distributorCountMeets req userId tree ctx.volumeIndex already ctx.rankOrdinals).relay
      (DistributorCountError.inRank userId sq.structureName rank)
  | none => .ok true

/-- What one structure asks for beyond personal and retail volume. -/
def downlineGates (rank : String) (sq : StructureQualification) (userId : Uuid)
    (tree : TreeInstance) (already : RankMap) (ctx : EvalCtx) (primitives : DistributorPrimitives) :
    Query EvaluationError Bool := do
  let cap ← (effectiveLegCap sq).relay .numeric
  andThen
    ((cappedGvMeets sq.groupVolume cap userId tree ctx.volumeIndex primitives).relay
      (GroupVolumeError.inRank userId sq.structureName))
    (andThen (countGate rank sq userId tree already ctx)
      ((legQualityMeets sq.legQuality userId tree already ctx.distributors ctx.rankOrdinals).relay
        (LegQualityError.inRank userId sq.structureName rank)))

def structureMet (rank : String) (userId : Uuid) (already : RankMap) (ctx : EvalCtx)
    (primitives : DistributorPrimitives) (sq : StructureQualification) :
    Query EvaluationError Bool :=
  match ctx.trees.lookup sq.structureName with
  | none => .error (.err (.unknownStructure rank sq.structureName))
  | some tree =>
    if ¬ tree.contains userId then
      .error (.err (.distributorNotInTree userId sq.structureName))
    else if ¬ pvMeets sq.personalVolume primitives then .ok false
    else if ¬ retailMeets sq.minRetailVolume primitives then .ok false
    else downlineGates rank sq userId tree already ctx primitives

def windowGate (rank : RankDefinition) (userId : Uuid) (ctx : EvalCtx) :
    Query EvaluationError Bool :=
  match rank.qualification.window with
  | some w =>
    windowedMeets w ctx.historyWindow (ctx.history.lookup userId) ctx.rankOrdinals rank.name
  | none => .ok true

def tenureGate (rank : RankDefinition) (userId : Uuid) (ctx : EvalCtx) :
    Query EvaluationError Bool :=
  match rank.qualification.tenure with
  | some t =>
    tenureMeets t ctx.historyWindow (ctx.history.lookup userId) ctx.rankOrdinals rank.name
  | none => .ok true

/-- **Whether a distributor meets a rank**, given the ranks found so far. -/
def satisfies (rank : RankDefinition) (userId : Uuid) (already : RankMap) (ctx : EvalCtx) :
    Query EvaluationError Bool :=
  match ctx.distributors.lookup userId with
  | none => .ok false
  | some primitives =>
    if ¬ requiredProductsMet rank.qualification.requiredProducts primitives then .ok false
    else andThen
      (allOf (structureMet rank.name userId already ctx primitives)
        rank.qualification.structures)
      (andThen (windowGate rank userId ctx) (tenureGate rank userId ctx))

end MlmForge.Rank
