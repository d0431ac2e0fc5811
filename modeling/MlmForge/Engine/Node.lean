/-
  Subject:   The data of the tree engine: users, nodes, and the two families of errors.

  * `SnapshotConsistencyError` -- what a restored tree is refused for.

  A depth is a `u32` of the source: `deeper` is the `+ 1` on it, which at `u32::MAX` panics or wraps,
  as the crate was built.
-/
import Mathlib.Data.BitVec
import MlmForge.Basis.Outcome

namespace MlmForge.Engine

/-- A user id. Ids compare as their 128-bit value. -/
abbrev Uuid := BitVec 128

/-- The nil UUID, which the arena keeps for freed slots. -/
def Uuid.nil : Uuid := 0

abbrev NodeIndex := Nat

/-- A recruit whose sponsor a removal moved, and who it moved them to. -/
structure Responsored where
  userId : Uuid
  newSponsorId : Uuid
  deriving DecidableEq, Repr

/-- A node in the tree arena. `enrolledAt` is a Unix timestamp in seconds. -/
structure Node where
  userId : Uuid
  parent : Option NodeIndex
  children : List NodeIndex
  sponsor : Option NodeIndex
  sponsored : List NodeIndex
  depth : Nat
  enrolledAt : Int
  deriving DecidableEq, Repr

/-- What a freed slot holds. -/
def Node.freed : Node where
  userId := Uuid.nil
  parent := none
  children := []
  sponsor := none
  sponsored := []
  depth := 0
  enrolledAt := 0

/-- A node as a placement creates it. -/
def Node.leaf (userId : Uuid) (parent sponsor : Option NodeIndex) (depth : Nat) (enrolledAt : Int) :
    Node where
  userId := userId
  parent := parent
  children := []
  sponsor := sponsor
  sponsored := []
  depth := depth
  enrolledAt := enrolledAt

/-- How the crate was built: with overflow checks, as in the `dev` profile, or without, as in `release`. -/
class Build where
  overflowChecks : Bool

instance Build.dev : Build := ⟨true⟩

@[reducible] def Build.release : Build := ⟨false⟩

/-- The panic of `depth + 1`. The runtime reports the line next to its message; here it is the field. -/
def depthPanic {ε : Type} : Stop ε := .panic "attempt to add with overflow: depth"

/-- The `depth + 1` of a node below another. -/
def deeper [Build] {ε : Type} (depth : Nat) : Query ε Nat :=
  if depth + 1 < 2 ^ 32 then .ok (depth + 1)
  else if Build.overflowChecks then .error depthPanic else .ok 0

theorem deeper_ok [Build] {ε : Type} {depth : Nat} (h : depth + 1 < 2 ^ 32) :
    deeper (ε := ε) depth = .ok (depth + 1) := if_pos h

/-- Errors of tree operations. -/
inductive TreeError where
  | userNotFound (userId : Uuid)
  | userAlreadyExists (userId : Uuid)
  | positionOutOfRange (userId : Uuid) (position childCount : Nat)
  | hasChildren (userId : Uuid) (childCount : Nat)
  | rootAlreadyExists
  | positionOccupied (userId : Uuid) (position : Nat)
  | invalidWidth (width : UInt8)
  | treeEmpty
  | cannotRemoveRoot
  | sponsorNotFound (userId : Uuid)
  | userNotInHoldingTank (userId : Uuid)
  | userInHoldingTank (userId : Uuid)
  | sponsorInHoldingTank (userId sponsorId : Uuid)
  | unsupportedSpillover
  | subtreeFull (userId : Uuid)
  | sponsorlessWithRecruits (userId : Uuid) (survivingSponsored : Nat)
  | sponsorCycle (userId : Uuid) (bound : Nat)
  | nilUserId
  deriving DecidableEq, Repr

/-- A link field of a node, as a restore error names it. -/
inductive Field where
  | parent
  | children
  | sponsor
  | sponsored
  deriving DecidableEq, Repr

/-- What a tombstone may still hold, as a restore error names it. -/
inductive StaleField where
  | parent
  | sponsor
  | child
  | sponsoredNode
  deriving DecidableEq, Repr

/-- A restored tree whose stored references disagree with what they name. -/
inductive SnapshotConsistencyError where
  | indexSlotOutOfRange (userId : Uuid) (slot nodeCount : Nat)
  | indexSlotMismatch (userId : Uuid) (slot : Nat) (found : Uuid)
  | indexSlotTombstoned (userId : Uuid) (slot : Nat)
  | nodeNotIndexed (slot : Nat) (userId : Uuid)
  | edgeOutOfRange (field : Field) (slot target nodeCount : Nat)
  | edgeTombstoned (field : Field) (slot target : Nat)
  | freeSlotOutOfRange (slot nodeCount : Nat)
  | freeSlotNotTombstoned (slot : Nat) (found : Uuid)
  | freeSlotRepeated (slot : Nat)
  | tombstoneNotCleared (slot : Nat) (field : StaleField)
  | nodeDepthNotZero (slot : Nat) (userId : Uuid) (depth : Nat)
  | nodeDepthMismatch (slot : Nat) (userId : Uuid) (depth parentSlot parentDepth : Nat)
  | rootOutOfRange (slot nodeCount : Nat)
  | rootTombstoned (slot : Nat)
  | rootHasSponsor (slot : Nat) (userId : Uuid) (sponsor : Nat)
  | edgeNotReciprocated (field : Field) (slot target : Nat) (reverseField : Field)
  | edgeRepeated (field : Field) (slot target : Nat)
  | rootMissing (liveCount : Nat)
  | parentlessNodeNotRoot (slot : Nat) (userId : Uuid) (root : Nat)
  | sponsorChainRevisits (start revisited : Nat)
  | childSlotOutOfRange (slot nodeCount : Nat)
  | childSlotTombstoned (slot : Nat)
  | liveNodeNotSlotted (slot : Nat) (userId : Uuid)
  | childSlottedTwiceUnderOneParent (slot parent : Nat)
  | childSlotRepeated (slot firstParent secondParent parentCount : Nat)
  | rootSlottedAsChild (parent : Nat)
  | nodeSlottedUnderItself (slot : Nat)
  | slotEntryMissing (slot : Nat) (userId : Uuid)
  | childSlotWidthMismatch (slot found : Nat) (width : UInt8)
  | childrenDisagreeWithSlots (slot : Nat) (children slotted : List Nat)
  | matrixWidthTooSmall (width : UInt8)
  | matrixSpilloverUnsupported
  | holdingTankUserRepeated (userId : Uuid)
  | holdingTankUserPlaced (userId : Uuid) (slot : Nat)
  | holdingTankUserNil (position : Nat)
  | holdingTankSponsorNil (position : Nat)
  | holdingTankSponsorChainRevisits (start revisited : Uuid)
  deriving DecidableEq, Repr

end MlmForge.Engine
