/-
  Subject:   Rank evaluation for a period.

  * `evaluateRanks` -- the checks of the inputs, the passes, and the lowest rank for whoever they
    left out.

  The bound on the passes is a product of two lengths; the `usize` of the source saturates only
  where no list of that length fits in memory.
-/
import MlmForge.Basis.Climb
import MlmForge.Rank.Predicates

namespace MlmForge.Rank

open Engine

/-! ## 1. The passes -/

/-- What holding a rank of the ladder looks like. -/
def RankDefinition.held (rank : RankDefinition) : EvaluatedRank := .qualified rank.name rank.ordinal

/-- The rank reached so far, or the next one when it is met. -/
def ascend (userId : Uuid) (already : RankMap) (ctx : EvalCtx) (current rank : RankDefinition) :
    Query EvaluationError RankDefinition := do
  if ← satisfies rank userId already ctx then .ok rank else .ok current

/-- One distributor's rank: the highest above the lowest that they meet, the lowest when there is
    none. The ladder is sorted by ordinal. -/
def evaluateDistributor (userId : Uuid) (already : RankMap) (ctx : EvalCtx) :
    Query EvaluationError EvaluatedRank :=
  match ctx.ranks with
  | [] => .ok .unranked
  | base :: higher => do
      let current ← higher.foldlM (ascend userId already ctx) base
      .ok current.held

def maxPasses (order : List Uuid) (ctx : EvalCtx) : Nat :=
  order.length * (ctx.ranks.length + 1) + 1

/-- Passes over the distributors until the rank map stays as it is. -/
def iterateToFixpoint (order : List Uuid) (ctx : EvalCtx) : Query EvaluationError RankMap := do
  match ← Climb.settle (fun userId already => evaluateDistributor userId already ctx) order
      (maxPasses order ctx) ∅ with
  | some already => .ok already
  | none => .error (.err (.rankEvaluationDidNotConverge (maxPasses order ctx)))

/-! ## 2. The order of a pass -/

/-- The greater of a depth and the greatest so far, for a tree that holds the user. -/
def deeper (userId : Uuid) (deepest : Option Nat) (tree : TreeInstance) :
    Query EvaluationError (Option Nat) :=
  if tree.contains userId then do
    let depth ← Query.okOr none (some <$> tree.getDepth userId)
    .ok (match depth with
      | some d => some (max d (deepest.getD 0))
      | none => deepest)
  else .ok deepest

/-- The greatest depth of a user in any tree that holds them. -/
def depthByUser (trees : AList fun _ : String => TreeInstance) (userId : Uuid) :
    Query EvaluationError (Option Nat) :=
  (trees.entries.map Sigma.snd).foldlM (deeper userId) none

/-- Deepest first, then by id. -/
def before (a b : Uuid × Nat) : Prop := b.2 < a.2 ∨ (a.2 = b.2 ∧ a.1 ≤ b.1)

instance (a b : Uuid × Nat) : Decidable (before a b) := inferInstanceAs (Decidable (_ ∨ _))

/-- A user with their depth, when some tree holds them. -/
def withDepth (trees : AList fun _ : String => TreeInstance) (userId : Uuid) :
    Query EvaluationError (Option (Uuid × Nat)) := do
  let depth ← depthByUser trees userId
  .ok (depth.map fun d => (userId, d))

/-- The users that some tree holds, in the order of a pass. -/
def evaluationOrderForUsers (trees : AList fun _ : String => TreeInstance) (users : List Uuid) :
    Query EvaluationError (List Uuid) := do
  let depths ← users.mapM (withDepth trees)
  .ok ((depths.reduceOption.insertionSort before).map Prod.fst)

/-! ## 3. The evaluation -/

/-- Breakaway configuration of a stairstep structure; how overrides are paid is left out. -/
structure BreakawayConfig where
  thresholdRank : String
  excludeBreakawayGv : Bool
  deriving DecidableEq

/-- A structure of the plan; of its configuration only a breakaway is kept. -/
inductive StructureConfig where
  | stairstep (name : String) (breakaway : Option BreakawayConfig)
  | other (name : String)
  deriving DecidableEq

def StructureConfig.name : StructureConfig → String
  | stairstep name _ => name
  | other name => name

structure CompensationPlan where
  ranks : List RankDefinition
  structures : List StructureConfig
  deriving DecidableEq

structure EvaluationInputs where
  distributors : AList fun _ : Uuid => DistributorPrimitives
  volumeSources : List VolumeSource
  historyWindow : List String
  history : AList fun _ : Uuid => PeriodRanks

/-- The ladder in the order of its ordinals. -/
def CompensationPlan.sortedRanks (plan : CompensationPlan) : List RankDefinition :=
  plan.ranks.insertionSort fun a b => a.ordinal ≤ b.ordinal

/-- The structures that a rank above the lowest names. -/
def structuresAboveLowestRank (plan : CompensationPlan) : List String :=
  (plan.sortedRanks.drop 1).flatMap fun r => r.qualification.structures.map (·.structureName)

/-- The members of those structures' trees that have no inputs. -/
def missingMembers (plan : CompensationPlan) (trees : AList fun _ : String => TreeInstance)
    (distributors : AList fun _ : Uuid => DistributorPrimitives) : List Uuid :=
  (((structuresAboveLowestRank plan).filterMap trees.lookup).flatMap fun t => t.userIds).filter
    fun id => (distributors.lookup id).isNone

/-- Refuses inputs that leave out a member of a tree the ladder reads; the least id is reported. -/
def requireEveryTreeMember (plan : CompensationPlan) (trees : AList fun _ : String => TreeInstance)
    (distributors : AList fun _ : Uuid => DistributorPrimitives) : Query EvaluationError Unit :=
  match ((missingMembers plan trees distributors).insertionSort (· ≤ ·)).head? with
  | some id => .error (.err (.distributorNotInInputs id))
  | none => .ok ()

def RankDefinition.timeGated (rank : RankDefinition) : Bool :=
  rank.qualification.window.isSome || rank.qualification.tenure.isSome

/-- Refuses a gate on earlier periods when there are none. -/
def requireHistory (ranks : List RankDefinition) (historyWindow : List String) :
    Query EvaluationError Unit :=
  if historyWindow.isEmpty then
    match (ranks.drop 1).find? RankDefinition.timeGated with
    | some r => .error (.err (.timeGateWithoutHistory r.name))
    | none => .ok ()
  else .ok ()

/-- Everything up to the passes. -/
def prepare (plan : CompensationPlan) (trees : AList fun _ : String => TreeInstance)
    (inputs : EvaluationInputs) : Query EvaluationError EvalCtx := do
  let ranks ← (resolveFractionCaps plan.sortedRanks).relay .numeric
  requireHistory ranks inputs.historyWindow
  requireEveryTreeMember plan trees inputs.distributors
  let volumeIndex ← (VolumeIndex.build inputs.volumeSources).relay .numeric
  .ok {
    distributors := inputs.distributors
    ranks := ranks
    trees := trees
    volumeIndex := volumeIndex
    rankOrdinals := ranks.foldl (fun m r => m.insert r.name r.ordinal) ∅
    historyWindow := inputs.historyWindow
    history := inputs.history }

/-- Gives the lowest rank to whoever has none. -/
def fillBase (ranks : List RankDefinition) (users : List Uuid) (already : RankMap) : RankMap :=
  match ranks.head? with
  | some base => users.foldl (fun m u => if (m.lookup u).isSome then m else m.insert u base.held)
      already
  | none => already

/-- **The rank of every distributor of the inputs.** -/
def evaluateRanks (plan : CompensationPlan) (trees : AList fun _ : String => TreeInstance)
    (inputs : EvaluationInputs) : Query EvaluationError RankMap := do
  let ctx ← prepare plan trees inputs
  let order ← evaluationOrderForUsers trees inputs.distributors.keys
  let already ← iterateToFixpoint order ctx
  .ok (fillBase ctx.ranks inputs.distributors.keys already)

end MlmForge.Rank
