/-
  Subject:   `MemoryTreeStore`: the rows that tree events are projected to, and the version up to which
             they are.

  * `projectInsert`, `projectRemoval` -- the writes of accepted changes; `getNode`, `getByTree`,
    `getByTreeDepthOrdered` -- the reads.

  Every id is a UUID here, so the refusals of a text that is none do not occur. A row has no
  `CreatedAt` and `UpdatedAt`: no read depends on them.
-/
import MlmForge.Basis.Table
import MlmForge.Engine.Roster

namespace MlmForge.Network

open Engine Query

/-! ## 1. Rows -/

/-- An instant, in nanoseconds since the Unix epoch. -/
abbrev Time := Int

/-- The second of an instant. -/
def Time.unix (t : Time) : Int := t / 1000000000

/-- An instant as the store keeps it, to the microsecond. -/
def Time.truncate (t : Time) : Time := t / 1000 * 1000

@[simp] theorem Time.unix_truncate (t : Time) : t.truncate.unix = t.unix := by
  unfold Time.unix Time.truncate
  omega

/-- A row of the adjacency table. -/
structure TreeNodeRow where
  id : Uuid
  treeId : Uuid
  userId : Uuid
  parentId : Option Uuid
  sponsorId : Option Uuid
  position : Option Int
  depth : Int
  enrolledAt : Time
  removedAt : Option Time
  removedByEventId : Option Uuid
  deriving DecidableEq, Repr

/-- What one removal changes in the store. -/
structure RemovalProjection where
  users : List Uuid
  responsored : List Responsored
  relocated : List Relocation
  deriving DecidableEq, Repr

/-- What the caller of an engine removal tells the store. -/
def RemovalProjection.of (out : Outcome) : RemovalProjection :=
  ⟨out.removed, out.responsored, out.relocated⟩

/-- The writes that refuse an integer which the database has no room for. -/
inductive StoreOp where
  | projectInsert
  | projectRemoval
  deriving DecidableEq, Repr

inductive IntField where
  | depth
  | position
  | relocatedPosition
  | relocatedDepth
  deriving DecidableEq, Repr

/-- What the store refuses. -/
inductive StoreError where
  | versionBelowOne (treeId : Uuid) (eventVersion : Nat)
  | projectionRefused (treeId : Uuid) (eventVersion projectedVersion : Nat)
  | outsideInt4 (op : StoreOp) (treeId : Uuid) (field : IntField) (value : Int)
  | nodeAlreadyProjected (id : Uuid)
  | activeUserConflict (treeId userId : Uuid)
  | rootConflict (treeId rootedBy : Uuid)
  | slotConflict (treeId parentId : Uuid) (position : Int) (heldBy : Uuid)
  | noUsers (treeId : Uuid)
  | tombstoned (users : List Uuid) (treeId : Uuid) (matched : Nat)
  | responsored (wanted : Nat) (treeId : Uuid) (updated : Nat)
  | relocated (wanted : Nat) (treeId : Uuid) (updated : Nat)
  deriving DecidableEq, Repr

/-! ## 2. The store and its reads -/

structure MemoryTreeStore where
  nodes : List TreeNodeRow
  projected : AList fun _ : Uuid => Nat
  deriving DecidableEq

def newMemoryTreeStore : MemoryTreeStore := ⟨[], ∅⟩

/-- The active rows of a tree, by user. -/
def activeIn (treeId : Uuid) : Keying TreeNodeRow Uuid where
  live n := n.treeId = treeId ∧ n.removedAt = none
  key := TreeNodeRow.userId

namespace MemoryTreeStore

def getNode (s : MemoryTreeStore) (treeId userId : Uuid) : Option TreeNodeRow :=
  (activeIn treeId).find s.nodes userId

def getByTree (s : MemoryTreeStore) (treeId : Uuid) : List TreeNodeRow :=
  s.nodes.filter (activeIn treeId).live

/-- Rows by depth, then by enrolment. -/
def depthOrder (a b : TreeNodeRow) : Bool :=
  if a.depth ≠ b.depth then a.depth < b.depth else a.enrolledAt ≤ b.enrolledAt

def getByTreeDepthOrdered (s : MemoryTreeStore) (treeId : Uuid) : List TreeNodeRow :=
  (s.getByTree treeId).mergeSort depthOrder

def projectedVersion (s : MemoryTreeStore) (treeId : Uuid) : Option Nat :=
  s.projected.lookup treeId

/-! ## 3. Writes -/

def checkEventVersion (treeId : Uuid) (eventVersion : Nat) : Query StoreError Unit :=
  stopIf (eventVersion < 1) (.err (.versionBelowOne treeId eventVersion))

/-- Refuses an event version below 1, or below the tree's projected version. -/
def refuseBelow (s : MemoryTreeStore) (treeId : Uuid) (eventVersion : Nat) : Query StoreError Unit := do
  checkEventVersion treeId eventVersion
  let projected := (s.projectedVersion treeId).getD 0
  stopIf (eventVersion < projected) (.err (.projectionRefused treeId eventVersion projected))

/-- The range of the database's integers. -/
def FitsInt4 (value : Int) : Prop := -2147483648 ≤ value ∧ value ≤ 2147483647

instance (value : Int) : Decidable (FitsInt4 value) := inferInstanceAs (Decidable (_ ∧ _))

def refuseNonInt4 (op : StoreOp) (treeId : Uuid) (fields : List (IntField × Int)) :
    Query StoreError Unit :=
  fields.forM fun f => stopIf (¬ FitsInt4 f.2) (.err (.outsideInt4 op treeId f.1 f.2))

def insertIntFields (node : TreeNodeRow) : List (IntField × Int) :=
  (.depth, node.depth) :: (node.position.toList.map fun p => (.position, p))

def relocationIntFields (r : RemovalProjection) : List (IntField × Int) :=
  r.relocated.flatMap fun m =>
    [(.relocatedPosition, (m.position.toNat : Int)), (.relocatedDepth, (m.depth : Int))]

/-- Records the version when it is higher than the one recorded. -/
def advance (s : MemoryTreeStore) (treeId : Uuid) (eventVersion : Nat) : MemoryTreeStore :=
  if (s.projectedVersion treeId).getD 0 < eventVersion then
    { s with projected := s.projected.insert treeId eventVersion }
  else s

/-- What a new row and a row that is there may not both be. -/
def conflict (node n : TreeNodeRow) : Option StoreError :=
  if n.removedAt ≠ none ∨ n.treeId ≠ node.treeId then none
  else if n.userId = node.userId then some (.activeUserConflict node.treeId node.userId)
  else if node.depth = 0 ∧ n.depth = 0 then some (.rootConflict node.treeId n.userId)
  else match node.parentId, node.position with
    | some parentId, some position =>
      if n.parentId = some parentId ∧ n.position = some position then
        some (.slotConflict node.treeId parentId position n.userId)
      else none
    | _, _ => none

def insertNodeAt (given : TreeNodeRow) : Call StoreError MemoryTreeStore Unit := do
  let node := { given with
    removedAt := none, removedByEventId := none, enrolledAt := given.enrolledAt.truncate }
  Call.reads fun s => stopIf (∃ n ∈ s.nodes, n.id = node.id) (.err (.nodeAlreadyProjected node.id))
  Call.reads fun s => match s.nodes.findSome? (conflict node) with
    | some e => .error (.err e)
    | none => .ok ()
  modify fun s => { s with nodes := s.nodes ++ [node] }

def projectInsert (node : TreeNodeRow) (eventVersion : Nat) : Call StoreError MemoryTreeStore Unit := do
  Call.reads fun _ => checkEventVersion node.treeId eventVersion
  Call.reads fun s => s.refuseBelow node.treeId eventVersion
  Call.reads fun _ => refuseNonInt4 .projectInsert node.treeId (insertIntFields node)
  insertNodeAt node
  modify fun s => s.advance node.treeId eventVersion

/-- The last active row that holds a slot. -/
def holder (rows : List TreeNodeRow) (treeId parentId : Uuid) (position : Int) : Option Uuid :=
  ((rows.filter fun n => (activeIn treeId).live n ∧ n.parentId = some parentId ∧
    n.position = some position).getLast?).map TreeNodeRow.userId

/-- Refuses a relocation into a slot that an active row holds before any relocation runs. A row that
    keeps its own slot passes. -/
def checkRelocationTargets (rows : List TreeNodeRow) (treeId : Uuid) (relocated : List Relocation) :
    Query StoreError Unit :=
  relocated.forM fun m =>
    if (activeIn treeId).find rows m.userId = none then .ok ()
    else match holder rows treeId m.parentId (m.position.toNat : Int) with
      | some user => stopIf (user ≠ m.userId)
          (.err (.slotConflict treeId m.parentId (m.position.toNat : Int) user))
      | none => .ok ()

/-- Two active rows that claim one slot; `held` are the slots claimed so far. -/
def checkActiveSlots (treeId : Uuid) : List TreeNodeRow → List ((Uuid × Int) × Uuid) →
    Query StoreError Unit
  | [], _ => .ok ()
  | n :: rows, held =>
    match (activeIn treeId).live n, n.parentId, n.position with
    | true, some parentId, some position =>
      match held.lookup (parentId, position) with
      | some other => .error (.err (.slotConflict treeId parentId position other))
      | none => checkActiveSlots treeId rows (((parentId, position), n.userId) :: held)
    | _, _, _ => checkActiveSlots treeId rows held

def tombstone (removedAt : Time) (removalEventId : Uuid) (n : TreeNodeRow) : TreeNodeRow :=
  { n with removedAt := some removedAt, removedByEventId := some removalEventId }

def responsor (m : Responsored) (n : TreeNodeRow) : TreeNodeRow :=
  { n with sponsorId := some m.newSponsorId }

def relocate (m : Relocation) (n : TreeNodeRow) : TreeNodeRow :=
  { n with parentId := some m.parentId, position := some (m.position.toNat : Int), depth := m.depth }

/-- The rows as a removal leaves them. The three passes count the rows they touch. -/
def stageRemoval (s : MemoryTreeStore) (treeId : Uuid) (r : RemovalProjection) (removalEventId : Uuid)
    (now : Time) : Query StoreError (List TreeNodeRow) := do
  let active := activeIn treeId
  let (rows, tombstoned) := r.users.foldl
    (active.rewrite id fun _ => tombstone now removalEventId) (s.nodes, [])
  stopIf (tombstoned.length ≠ r.users.length)
    (.err (.tombstoned r.users treeId tombstoned.length))
  let (rows, responsored) := r.responsored.foldl (active.rewrite Responsored.userId responsor) (rows, [])
  stopIf (responsored.length ≠ r.responsored.length)
    (.err (.responsored r.responsored.length treeId responsored.length))
  checkRelocationTargets rows treeId r.relocated
  let (rows, relocated) := r.relocated.foldl (active.rewrite Relocation.userId relocate) (rows, [])
  stopIf (relocated.length ≠ r.relocated.length)
    (.err (.relocated r.relocated.length treeId relocated.length))
  checkActiveSlots treeId rows []
  .ok rows

def projectRemoval (treeId : Uuid) (r : RemovalProjection) (removalEventId : Uuid) (eventVersion : Nat)
    (now : Time) : Call StoreError MemoryTreeStore Unit := do
  Call.reads fun _ => stopIf (r.users.length = 0) (.err (.noUsers treeId))
  Call.reads fun _ => checkEventVersion treeId eventVersion
  Call.reads fun s => s.refuseBelow treeId eventVersion
  Call.reads fun _ => refuseNonInt4 .projectRemoval treeId (relocationIntFields r)
  let staged ← Call.reads fun s => s.stageRemoval treeId r removalEventId now
  modify fun s => { s with nodes := staged }
  modify fun s => s.advance treeId eventVersion

end MemoryTreeStore

end MlmForge.Network
