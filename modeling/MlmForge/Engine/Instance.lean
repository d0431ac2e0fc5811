/-
  Subject:   The trees as the worker serves them: one instance of any type, the mutations a request can
             ask for, and their checks.

  * **`TreeInstance.decides`** -- the check of a request decides it.
-/
import MlmForge.Engine.Operations
import MlmForge.Engine.Roster

namespace MlmForge.Engine

open Call (Decides)

/-! ## 1. Answers -/

/-- An error that the worker answers with. -/
inductive EngineError where
  | tree (e : TreeError)
  | snapshot (e : SnapshotConsistencyError)
  | missingParam
  | invalidParams
  | unsupportedOp
  deriving DecidableEq, Repr

/-! ## 2. Requests -/

/-- A mutation request. A matrix tree places by `addNodeAt`, or with `addNode` by spillover. -/
inductive Mutation where
  | addRoot (userId : Uuid) (enrolledAt : Int)
  | addNode (userId parentId sponsorId : Uuid) (position : Option Int) (enrolledAt : Int)
  | addNodeAt (userId parentId sponsorId : Uuid) (position : Int) (enrolledAt : Int)
  | removeNode (userId : Uuid) (pruningMode : Option PruningMode)
  deriving DecidableEq, Repr

/-- A position as the worker reads it: a number that is not negative. -/
def wirePosition : Option Int → Query EngineError Nat
  | some (.ofNat n) => .ok n
  | _ => .error (.err .missingParam)

/-- A position as the worker reads it for a matrix tree. -/
def wireSlot (position : Int) : Query EngineError UInt8 := do
  let p ← wirePosition (some position)
  if p < 256 then .ok (UInt8.ofNat p) else .error (.err .invalidParams)

/-- A value that a request carries in a form the worker may refuse to read. -/
def readParam {σ α : Type} (q : Query EngineError α) : Call EngineError σ α := Call.reads fun _ => q

/-- What the caller of a matrix removal takes from its answer. -/
def matrixOutcome (u : Uuid) (mode : PruningMode) (r : RemovalResult) : Outcome where
  responsored := r.responsored
  relocated := r.relocated
  removed := if mode = .holdingTank then r.movedToTank else [u]

namespace UnilevelTree

def checkMutation (t : UnilevelTree) : Mutation → Query EngineError Unit
  | .addRoot u _ => (t.checkAddRoot u).relay .tree
  | .addNode u p s _ _ => (t.checkAddNode u p s).relay .tree
  | .addNodeAt _ _ _ _ _ => .error (.err .invalidParams)
  | .removeNode u _ => (t.checkRemoveNode u).relay .tree

def mutate : Mutation → Call EngineError UnilevelTree Outcome
  | .addRoot u e => (fun _ => .quiet) <$> Call.relay .tree (addRoot u e)
  | .addNode u p s _ e => (fun _ => .quiet) <$> Call.relay .tree (addNode u p s e)
  | .addNodeAt _ _ _ _ _ => throw (.err .invalidParams)
  | .removeNode u _ => (fun moved => ⟨moved, [], [u]⟩) <$> Call.relay .tree (removeNode u)

end UnilevelTree

namespace BinaryTree

def checkMutation (t : BinaryTree) : Mutation → Query EngineError Unit
  | .addRoot u _ => (t.checkAddRoot u).relay .tree
  | .addNode u p s position _ => do
      let q ← wirePosition position
      (t.checkAddNode u p q s).relay .tree
  | .addNodeAt _ _ _ _ _ => .error (.err .invalidParams)
  | .removeNode u _ => (t.checkRemoveNode u).relay .tree

def mutate : Mutation → Call EngineError BinaryTree Outcome
  | .addRoot u e => (fun _ => .quiet) <$> Call.relay .tree (addRoot u e)
  | .addNode u p s position e => do
      let q ← readParam (wirePosition position)
      (fun _ => .quiet) <$> Call.relay .tree (addNode u p q s e)
  | .addNodeAt _ _ _ _ _ => throw (.err .invalidParams)
  | .removeNode u _ => (fun moved => ⟨moved, [], [u]⟩) <$> Call.relay .tree (removeNode u)

end BinaryTree

namespace MatrixTree

def checkMutation (t : MatrixTree) : Mutation → Query EngineError Unit
  | .addRoot u _ => (t.checkAddRoot u).relay .tree
  | .addNode _ _ _ _ _ => .error (.err .unsupportedOp)
  | .addNodeAt u p s position _ => do
      let q ← wireSlot position
      (t.checkAddNodeAt u s p q).relay .tree
  | .removeNode _ none => .error (.err .missingParam)
  | .removeNode u (some mode) => (t.checkRemoveNode u mode).relay .tree

def mutate : Mutation → Call EngineError MatrixTree Outcome
  | .addRoot u e => (fun _ => .quiet) <$> Call.relay .tree (addRoot u e)
  | .addNode u _ s _ e => (fun _ => .quiet) <$> Call.relay .tree (addNode u s e)
  | .addNodeAt u p s position e => do
      let q ← readParam (wireSlot position)
      (fun _ => .quiet) <$> Call.relay .tree (addNodeAt u s p q e)
  | .removeNode _ none => throw (.err .missingParam)
  | .removeNode u (some mode) => matrixOutcome u mode <$> Call.relay .tree (removeNode u mode)

end MatrixTree

/-- A tree of any type. -/
inductive TreeInstance where
  | unilevel (t : UnilevelTree)
  | binary (t : BinaryTree)
  | matrix (t : MatrixTree)
  deriving DecidableEq

namespace TreeInstance

def checkMutation (mu : Mutation) : TreeInstance → Query EngineError Unit
  | unilevel t => t.checkMutation mu
  | binary t => t.checkMutation mu
  | matrix t => t.checkMutation mu

def mutate (mu : Mutation) : Call EngineError TreeInstance Outcome
  | unilevel t => Call.within unilevel (UnilevelTree.mutate mu) t
  | binary t => Call.within binary (BinaryTree.mutate mu) t
  | matrix t => Call.within matrix (MatrixTree.mutate mu) t

def validateRestored : TreeInstance → Query SnapshotConsistencyError Unit
  | unilevel t => t.validateRestored
  | binary t => t.validateRestored
  | matrix t => t.validateRestored

def arena : TreeInstance → Arena
  | unilevel t => t.arena
  | binary t => t.arena
  | matrix t => t.arena

/-- An instance that a restore accepts. -/
def Valid : TreeInstance → Prop
  | unilevel t => t.arena.Valid
  | binary t => t.Valid
  | matrix t => t.Valid

theorem validateRestored_iff {t : TreeInstance} : t.validateRestored = .ok () ↔ t.Valid := by
  cases t with
  | unilevel t => exact Arena.validateRestored_iff
  | binary t => exact BinaryTree.validateRestored_iff
  | matrix t => exact MatrixTree.validateRestored_iff

end TreeInstance

/-! ## 3. The checks decide the requests -/

theorem wirePosition_safe (position : Option Int) : Query.Safe (wirePosition position) := by
  unfold wirePosition
  split
  · exact Query.safe_ok _
  · exact Query.safe_err _

theorem wirePosition_eq_ok {position : Option Int} {n : Nat} :
    wirePosition position = .ok n ↔ position = some (n : Int) := by
  unfold wirePosition
  split
  · simp
  · rename_i hne
    refine ⟨nofun, fun e => absurd e (hne n)⟩

theorem wireSlot_safe (position : Int) : Query.Safe (wireSlot position) := by
  refine (wirePosition_safe _).bind fun p _ => ?_
  split
  · exact Query.safe_ok _
  · exact Query.safe_err _

theorem wireSlot_eq_ok {position : Int} {q : UInt8} (h : wireSlot position = .ok q) :
    position = (q.toNat : Int) := by
  obtain ⟨p, hp, h⟩ := Query.bind_eq_ok.mp h
  have e := Option.some.inj (wirePosition_eq_ok.mp hp)
  split at h
  · rename_i hlt
    cases h
    rw [e, UInt8.toNat_ofNat', Nat.mod_eq_of_lt hlt]
  · cases h

/-- Whether a request has a check: spillover into a matrix tree has none. -/
def Mutation.checked : Mutation → TreeInstance → Prop
  | addNode _ _ _ _ _, .matrix _ => False
  | _, _ => True

theorem decides_served {σ α : Type} {check : Query TreeError Unit} {call : Call TreeError σ α} {s : σ}
    (h : Decides check ((fun _ => ()) <$> call) s) (f : α → Outcome) :
    Decides (check.relay EngineError.tree) (f <$> Call.relay EngineError.tree call) s :=
  ((Call.decides_map.mp h).relay EngineError.tree).map f

theorem UnilevelTree.decides {t : UnilevelTree} (h : t.arena.Valid) (hroom : t.arena.Roomy) (mu : Mutation) :
    Decides (t.checkMutation mu) (mutate mu) t := by
  cases mu with
  | addRoot u e => exact decides_served (UnilevelOp.sound (.addRoot u e) h hroom).decides _
  | addNode u p s q e => exact decides_served (UnilevelOp.sound (.addNode u p s e) h hroom).decides _
  | addNodeAt u p s q e => exact Call.decides_throw _ _
  | removeNode u mode => exact decides_served (UnilevelOp.sound (.removeNode u) h hroom).decides _

theorem BinaryTree.decides {t : BinaryTree} (h : t.Valid) (hroom : t.arena.Roomy) (mu : Mutation) :
    Decides (t.checkMutation mu) (mutate mu) t := by
  cases mu with
  | addRoot u e => exact decides_served (BinaryOp.sound (.addRoot u e) h hroom).decides _
  | addNode u p s position e =>
    refine Decides.reads (wirePosition_safe position) fun q _ => ?_
    exact decides_served (BinaryOp.sound (.addNode u p q s e) h hroom).decides _
  | addNodeAt u p s q e => exact Call.decides_throw _ _
  | removeNode u mode => exact decides_served (BinaryOp.sound (.removeNode u) h hroom).decides _

theorem MatrixTree.decides {t : MatrixTree} (h : t.Valid) (hroom : t.arena.Roomy) {mu : Mutation}
    (hmu : mu.checked (.matrix t)) : Decides (t.checkMutation mu) (mutate mu) t := by
  have hsound : ∀ (op : MatrixOp) {c}, op.check t = some c → Decides c op.exec t := fun _ _ hop =>
    (MatrixOp.sound h hroom hop).decides
  cases mu with
  | addRoot u e => exact decides_served (hsound (.addRoot u e) rfl) _
  | addNode u p s q e => exact hmu.elim
  | addNodeAt u p s position e =>
    refine Decides.reads (wireSlot_safe position) fun q _ => ?_
    exact decides_served (hsound (.addNodeAt u s p q e) rfl) _
  | removeNode u mode =>
    cases mode with
    | none => exact Call.decides_throw _ _
    | some mode => exact decides_served (hsound (.removeNode u mode) rfl) _

theorem decides_within {σ τ α : Type} {form : σ → τ} {check : Query EngineError Unit}
    {call : Call EngineError σ α} {whole : Call EngineError τ α} {s : σ}
    (hwhole : whole.run (form s) = Call.within form call s) (h : Decides check call s) :
    Decides check whole (form s) := by
  unfold Call.within at hwhole
  refine h.transfer id id (fun _ he => he) (fun a t hrun => ?_) fun x hrun => ?_
  · rw [hrun] at hwhole
    exact ⟨a, form t, hwhole⟩
  · rw [hrun] at hwhole
    exact hwhole

/-- **The check of a request decides it**, whatever the type of the tree. -/
theorem TreeInstance.decides {t : TreeInstance} (h : t.Valid) (hroom : t.arena.Roomy) {mu : Mutation}
    (hmu : mu.checked t) : Decides (t.checkMutation mu) (mutate mu) t := by
  cases t with
  | unilevel t => exact decides_within rfl (UnilevelTree.decides h hroom mu)
  | binary t => exact decides_within rfl (BinaryTree.decides h hroom mu)
  | matrix t => exact decides_within rfl (MatrixTree.decides h hroom hmu)

end MlmForge.Engine
