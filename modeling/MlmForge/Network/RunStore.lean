/-
  Subject:   The in-memory store of commission runs and their results.

  A run is opened for a period, takes results while it is running, and is completed or voided; a run that
  is replaced is voided and names its replacement. Every method runs under the store's lock.

  What `uuid.New()` and `time.Now()` return is given to a call. A raw message is its bytes, so that an
  empty one and nil are the same, as the store's `cloneRaw` makes them. What the JSON decoder and the
  decimal parser find wrong with a value is given by `Checks`; the amounts themselves are not looked at.
  The map of runs is an `AList`; the order in which the source ranges over it is left open there, and
  does not matter once a period has no two active runs.
-/
import Mathlib.Data.List.AList
import MlmForge.Basis.Outcome
import MlmForge.Basis.Text
import MlmForge.Engine.Node

namespace MlmForge.Network

open Engine Query Call

/-! ## 1. Data -/

/-- The state of a run. -/
inductive CommissionRunStatus where
  | running
  | complete
  | voided
  deriving DecidableEq, Repr

abbrev RawMessage := Text

/-- One run. -/
structure CommissionRun where
  id : Uuid
  periodId : Text
  planHash : Text
  status : CommissionRunStatus
  carryForward : RawMessage
  startedAt : Int
  completedAt : Option Int
  voidedAt : Option Int
  supersededBy : Option Uuid
  deriving DecidableEq

/-- One earning as it is written. -/
structure CommissionResultInput (Amount : Type) where
  earnerId : Uuid
  dollarAmount : Amount
  detail : RawMessage

/-- One earning as it is kept. -/
structure CommissionResult (Amount : Type) where
  id : Nat
  runId : Uuid
  structureName : Text
  earnerId : Uuid
  dollarAmount : Amount
  detail : RawMessage

structure MemoryCommissionRunStore (Amount : Type) where
  runs : AList fun _ : Uuid => CommissionRun
  results : AList fun _ : Uuid => List (CommissionResult Amount)
  nextId : Nat

inductive RunStoreError where
  | periodIdEmpty
  | periodIdNotUtf8 (periodId : Text)
  | periodIdHasNul (periodId : Text)
  | planHashMalformed (planHash : Text)
  | carryForwardNotObject (fault : String)
  | structureEmpty
  | structureNotUtf8 (structureName : Text)
  | structureHasNul (structureName : Text)
  | nilEarnerId (row : Nat)
  | dollarAmount (row : Nat) (earnerId : Uuid) (fault : String)
  | detailNotObject (row : Nat) (earnerId : Uuid) (fault : String)
  | liveRunExists (periodId : Text) (existingRunId : Uuid)
  | runNotFound (runId : Uuid)
  | runNotRunning (runId : Uuid) (status : CommissionRunStatus) (allowed : List CommissionRunStatus)
  deriving DecidableEq, Repr

/-- What the JSON decoder finds wrong with a message that should be an object, and the decimal parser
    with the text of an amount. -/
structure Checks (Amount : Type) where
  checkJSONObject : RawMessage → Option String
  parseAmount : Amount → Option String

/-! ## 2. Validation -/

/-- The bytes of `sha256:`. -/
def planHashHead : Text := [115, 104, 97, 50, 53, 54, 58]

def isLowerHex (b : UInt8) : Bool := (48 ≤ b && b ≤ 57) || (97 ≤ b && b ≤ 102)

/-- `^sha256:[0-9a-f]{64}$` -/
def planHashPattern (planHash : Text) : Bool :=
  planHash.take 7 = planHashHead && (planHash.drop 7).length = 64 && (planHash.drop 7).all isLowerHex

def validatePlanHashOnly (planHash : Text) : Query RunStoreError Unit :=
  stopIf (planHashPattern planHash = false) (.err (.planHashMalformed planHash))

def validateRunInput (periodId planHash : Text) : Query RunStoreError Unit := do
  stopIf (periodId = []) (.err .periodIdEmpty)
  stopIf (periodId.validUtf8 = false) (.err (.periodIdNotUtf8 periodId))
  stopIf (0 ∈ periodId) (.err (.periodIdHasNul periodId))
  validatePlanHashOnly planHash

variable {Amount : Type}

def validateCarryForward (checks : Checks Amount) (carryForward : RawMessage) :
    Query RunStoreError Unit :=
  if carryForward = [] then .ok ()
  else
    match checks.checkJSONObject carryForward with
    | none => .ok ()
    | some fault => .error (.err (.carryForwardNotObject fault))

/-- The check of one row, the `i`-th of its batch. -/
def validateResultInput (checks : Checks Amount) (i : Nat) (r : CommissionResultInput Amount) :
    Query RunStoreError Unit := do
  stopIf (r.earnerId = Uuid.nil) (.err (.nilEarnerId i))
  match checks.parseAmount r.dollarAmount with
  | some fault => .error (.err (.dollarAmount i r.earnerId fault))
  | none =>
    match checks.checkJSONObject r.detail with
    | some fault => .error (.err (.detailNotObject i r.earnerId fault))
    | none => .ok ()

def validateResultInputs (checks : Checks Amount) (structureName : Text)
    (results : List (CommissionResultInput Amount)) : Query RunStoreError Unit := do
  stopIf (structureName = []) (.err .structureEmpty)
  stopIf (structureName.validUtf8 = false) (.err (.structureNotUtf8 structureName))
  stopIf (0 ∈ structureName) (.err (.structureHasNul structureName))
  forM results.zipIdx fun row => validateResultInput checks row.2 row.1

namespace MemoryCommissionRunStore

/-! ## 3. Methods -/

def new : MemoryCommissionRunStore Amount := ⟨∅, ∅, 1⟩

/-- The period's run that is not voided. -/
def activeRunLocked (s : MemoryCommissionRunStore Amount) (periodId : Text) : Option CommissionRun :=
  (s.runs.entries.map Sigma.snd).find? fun r => r.periodId = periodId ∧ r.status ≠ .voided

def runLocked (s : MemoryCommissionRunStore Amount) (runId : Uuid) :
    Query RunStoreError CommissionRun :=
  match s.runs.lookup runId with
  | some run => .ok run
  | none => .error (.err (.runNotFound runId))

/-- Writes a run through the pointer that the map holds. -/
def putRun (run : CommissionRun) (s : MemoryCommissionRunStore Amount) :
    MemoryCommissionRunStore Amount :=
  { s with runs := s.runs.insert run.id run }

def createRunLocked (periodId planHash : Text) (fresh : Uuid) (now : Int) :
    Call RunStoreError (MemoryCommissionRunStore Amount) Uuid := do
  let s ← get
  match s.activeRunLocked periodId with
  | some existing => throw (.err (.liveRunExists periodId existing.id))
  | none => do
      modify (putRun ⟨fresh, periodId, planHash, .running, [], now, none, none, none⟩)
      pure fresh

def createRun (periodId planHash : Text) (fresh : Uuid) (now : Int) :
    Call RunStoreError (MemoryCommissionRunStore Amount) Uuid := do
  reads fun _ => validateRunInput periodId planHash
  createRunLocked periodId planHash fresh now

def completeRun (checks : Checks Amount) (runId : Uuid) (carryForward : RawMessage) (now : Int) :
    Call RunStoreError (MemoryCommissionRunStore Amount) Unit := do
  reads fun _ => validateCarryForward checks carryForward
  let run ← reads fun s => s.runLocked runId
  reads fun _ => stopIf (run.status ≠ .running) (.err (.runNotRunning runId run.status []))
  modify (putRun { run with status := .complete, completedAt := some now, carryForward := carryForward })

/-- Does nothing to a run that is already voided. -/
def voidRunLocked (runId : Uuid) (now : Int) :
    Call RunStoreError (MemoryCommissionRunStore Amount) Unit := do
  let run ← reads fun s => s.runLocked runId
  if run.status = .voided then pure ()
  else modify (putRun { run with status := .voided, voidedAt := some now })

def voidRun (runId : Uuid) (now : Int) : Call RunStoreError (MemoryCommissionRunStore Amount) Unit :=
  voidRunLocked runId now

/-- Voids a run and opens its replacement. -/
def replaceRun (oldRunId : Uuid) (planHash : Text) (fresh : Uuid) (now : Int) :
    Call RunStoreError (MemoryCommissionRunStore Amount) Uuid := do
  reads fun _ => validatePlanHashOnly planHash
  let old ← reads fun s => s.runLocked oldRunId
  reads fun _ => stopIf (old.status ≠ .running ∧ old.status ≠ .complete)
    (.err (.runNotRunning oldRunId old.status [.running, .complete]))
  voidRunLocked oldRunId now
  let newId ← createRunLocked old.periodId planHash fresh now
  -- the pointer to the old run still is what the map holds
  let voided ← reads fun s => s.runLocked oldRunId
  modify (putRun { voided with supersededBy := some newId })
  pure newId

def getRun (s : MemoryCommissionRunStore Amount) (runId : Uuid) : Query RunStoreError CommissionRun :=
  s.runLocked runId

def getActiveRun (s : MemoryCommissionRunStore Amount) (periodId : Text) : Option CommissionRun :=
  s.activeRunLocked periodId

/-- The rows of a run; none is nil. -/
def rowsOf (s : MemoryCommissionRunStore Amount) (runId : Uuid) : List (CommissionResult Amount) :=
  (s.results.lookup runId).getD []

/-- The rows of a batch, numbered from `nextId`. -/
def numbered (runId : Uuid) (structureName : Text) :
    Nat → List (CommissionResultInput Amount) → List (CommissionResult Amount)
  | _, [] => []
  | nextId, r :: rest =>
    ⟨nextId, runId, structureName, r.earnerId, r.dollarAmount, r.detail⟩ ::
      numbered runId structureName (nextId + 1) rest

/-- Replaces every row of a structure of a run. -/
def saveResults (checks : Checks Amount) (runId : Uuid) (structureName : Text)
    (results : List (CommissionResultInput Amount)) :
    Call RunStoreError (MemoryCommissionRunStore Amount) Unit := do
  reads fun _ => validateResultInputs checks structureName results
  let run ← reads fun s => s.runLocked runId
  reads fun _ => stopIf (run.status ≠ .running) (.err (.runNotRunning runId run.status []))
  modify fun s =>
    let kept := (s.rowsOf runId).filter fun r => r.structureName ≠ structureName
    let rows := kept ++ numbered runId structureName s.nextId results
    { s with
      results := s.results.insert runId (rows.insertionSort fun r r' => r.id ≤ r'.id)
      nextId := s.nextId + results.length }

def getResults (s : MemoryCommissionRunStore Amount) (runId : Uuid) :
    Query RunStoreError (List (CommissionResult Amount)) := do
  let _ ← s.runLocked runId
  .ok (s.rowsOf runId)

/-- The rows of the period's complete run. -/
def getLiveResults (s : MemoryCommissionRunStore Amount) (periodId : Text) :
    List (CommissionResult Amount) :=
  match s.activeRunLocked periodId with
  | none => []
  | some run => if run.status = .complete then s.rowsOf run.id else []

end MemoryCommissionRunStore

end MlmForge.Network
