/-
  Subject:   The matrix tree: `width` child slots for each node, breadth-first spillover, removal by
             promotion or into the holding tank.

  Only definitions. A removal that promotes moves whole subtrees: the earliest-enrolled child takes
  the removed node's slot, its siblings spill into the promoted node's subtree, and the depths below
  it are recalculated. A removal into the tank takes a whole subtree out of the tree.

  Loops over queues carry the number of slots as a bound; a loop that outlives it stops with
  `Stop.loop`.
-/
import MlmForge.Engine.Slots

namespace MlmForge.Engine

open Query Call Arena

/-- Which open position a recruit spills into. -/
inductive SpilloverDirection where
  | breadthFirst
  | depthFirst
  deriving DecidableEq, Repr

/-- Entry in the holding tank. -/
structure HoldingTankEntry where
  userId : Uuid
  sponsorUserId : Option Uuid
  enrolledAt : Int
  deriving DecidableEq, Repr

/-- A surviving node a removal moved, and where it now sits. -/
structure Relocation where
  userId : Uuid
  parentId : Uuid
  position : UInt8
  depth : Nat
  deriving DecidableEq, Repr

/-- What a removal changed. -/
structure RemovalResult where
  removed : Uuid
  promoted : Option Uuid
  repositioned : List Uuid
  movedToTank : List Uuid
  relocated : List Relocation
  responsored : List Responsored
  deriving DecidableEq, Repr

/-- Pruning mode for node removal. -/
inductive PruningMode where
  | promoteEarliest
  | holdingTank
  deriving DecidableEq, Repr

/-- The parent, slot and depth of a node. -/
structure Placement where
  parentId : Uuid
  position : UInt8
  depth : Nat
  deriving DecidableEq, Repr

abbrev MatrixSlots := List (Option NodeIndex)

/-- Arena-backed matrix tree with fixed-width positional placement. -/
structure MatrixTree where
  arena : Arena
  width : UInt8
  spillover : SpilloverDirection
  slots : Arena.SlotMap MatrixSlots
  holdingTank : List HoldingTankEntry
  deriving DecidableEq

namespace MatrixTree

def new (width : UInt8) (spillover : SpilloverDirection) : Query TreeError MatrixTree := do
  stopIf (width < 2) (.err (.invalidWidth width))
  stopIf (spillover = .depthFirst) (.err .unsupportedSpillover)
  .ok { arena := Arena.new, width, spillover, slots := ∅, holdingTank := [] }

/-- A call on the tree's arena. -/
def onArena {α : Type} (m : Call TreeError Arena α) : Call TreeError MatrixTree α :=
  zoom arena (fun t a => { t with arena := a }) m

/-- `vec![None; self.width as usize]` -/
def emptySlots (t : MatrixTree) : MatrixSlots := List.replicate t.width.toNat none

/-- `self.holding_tank.iter().any(|e| e.user_id == user_id)` -/
def inTank (t : MatrixTree) (userId : Uuid) : Bool := t.holdingTank.any fun e => e.userId = userId

/-! ## 1. `validate_restored` -/

def widthFault (t : MatrixTree) (parent : NodeIndex) (children : MatrixSlots) :
    Option SnapshotConsistencyError :=
  if children.length ≠ t.width.toNat then
    some (.childSlotWidthMismatch parent children.length t.width)
  else none

/-- The position of each user in the tank. -/
def positionOf (tank : List HoldingTankEntry) : AList fun _ : Uuid => Nat :=
  tank.zipIdx.foldl (fun m entry => m.insert entry.1.userId entry.2) ∅

/-- The position of the sponsor of the entry at a position, when that is in the tank too. -/
def tankSponsor (tank : List HoldingTankEntry) (position : Nat) : Option Nat :=
  (tank[position]?.bind HoldingTankEntry.sponsorUserId).bind (positionOf tank).lookup

def tankUser (tank : List HoldingTankEntry) (position : Nat) : Uuid :=
  (tank[position]?.map HoldingTankEntry.userId).getD Uuid.nil

/-- Every sponsor chain through the holding tank ends. -/
def checkTankSponsorChainsEnd (t : MatrixTree) : Query SnapshotConsistencyError Unit :=
  chainsEnd (tankSponsor t.holdingTank)
    (fun start revisited => .holdingTankSponsorChainRevisits (tankUser t.holdingTank start)
      (tankUser t.holdingTank revisited))
    (fun _ => false) t.holdingTank.length

/-- The holding tank names no nil, placed or repeated user and no nil sponsor, and its sponsor
    chains end. -/
def checkTank (t : MatrixTree) : Query SnapshotConsistencyError Unit := do
  forM t.holdingTank.zipIdx fun (entry, position) =>
    stopIf (entry.userId = Uuid.nil) (.err (.holdingTankUserNil position))
  forM t.holdingTank.zipIdx fun (entry, position) =>
    stopIf (entry.sponsorUserId = some Uuid.nil) (.err (.holdingTankSponsorNil position))
  forM t.holdingTank fun entry =>
    match t.arena.index.lookup entry.userId with
    | some idx => .error (.err (.holdingTankUserPlaced entry.userId idx))
    | none => .ok ()
  forDistinct (fun _ => .ok ()) .holdingTankUserRepeated (fun _ => .ok ()) []
    (t.holdingTank.map HoldingTankEntry.userId)
  t.checkTankSponsorChainsEnd

def validateRestored (t : MatrixTree) : Query SnapshotConsistencyError Unit := do
  stopIf (t.width < 2) (.err (.matrixWidthTooSmall t.width))
  stopIf (t.spillover = .depthFirst) (.err .matrixSpilloverUnsupported)
  t.arena.validateRestored
  lowestFault (fun p c => .ok (t.arena.entryFault id t.widthFault p c)) none t.slots.entries
  t.checkTank
  t.arena.checkEveryLiveNodeHasASlot t.slots
  t.arena.checkEveryLiveNodeIsSlottedOnce id t.slots
  t.arena.checkChildrenMatchSlots id t.slots

/-! ## 2. Slots -/

/-- `self.slots.get(&idx).expect(..)` -/
def slotsOf (t : MatrixTree) (idx : NodeIndex) : Query TreeError MatrixSlots :=
  match t.slots.lookup idx with
  | some row => .ok row
  | none => .error (.panic "slots entry missing for node -- arena and slots map out of sync")

/-- `slots[position]` -/
def placeAt (row : MatrixSlots) (position : Nat) : Query TreeError (Option NodeIndex) :=
  match row[position]? with
  | some place => .ok place
  | none => .error (.panic "index out of bounds")

def insertSlots (t : MatrixTree) (idx : NodeIndex) (row : MatrixSlots) : MatrixTree :=
  { t with slots := t.slots.insert idx row }

@[simp] theorem insertSlots_arena (t : MatrixTree) (idx : NodeIndex) (row : MatrixSlots) :
    (t.insertSlots idx row).arena = t.arena := rfl

@[simp] theorem insertSlots_slots (t : MatrixTree) (idx : NodeIndex) (row : MatrixSlots) :
    (t.insertSlots idx row).slots = t.slots.insert idx row := rfl

/-- `slots[position] = place` through `self.slots.get_mut(&idx).expect(..)`. -/
def setSlot (idx : NodeIndex) (position : Nat) (place : Option NodeIndex) :
    Call TreeError MatrixTree Unit := do
  let row ← reads fun t => t.slotsOf idx
  let _ ← reads fun _ => placeAt row position
  modify fun t => t.insertSlots idx (row.set position place)

/-- Rebuilds a node's children from its slots. -/
def rebuildChildren (parentIdx : NodeIndex) : Call TreeError MatrixTree Unit := do
  let row ← reads fun t => t.slotsOf parentIdx
  onArena (nodeMut parentIdx fun n => { n with children := row.reduceOption })

/-- Finds the slot position of a child within a parent's slots. -/
def findSlotPosition (t : MatrixTree) (parentIdx childIdx : NodeIndex) : Query TreeError Nat := do
  let row ← t.slotsOf parentIdx
  match takenBy row childIdx with
  | some position => .ok position
  | none => .error (.panic "child not found in parent's slots -- tree is corrupt")

/-- Finds the first open slot, breadth first, within a subtree. -/
def findSpilloverSlot (t : MatrixTree) (startIdx : NodeIndex) :
    Query TreeError (Option (NodeIndex × Nat)) :=
  bfsFirst (fun current => do
    let row ← t.slotsOf current
    match firstEmpty row with
    | some position => .ok (.inl (current, position))
    | none => .ok (.inr row.reduceOption)) (t.arena.nodes.length + 1) [startIdx]

/-- Every live node under `idx`, breadth first, not counting `idx`. -/
def descendants (t : MatrixTree) (idx : NodeIndex) : Query TreeError (List NodeIndex) := do
  let n ← t.arena.node idx
  bfsFold (fun found current => do
    let n ← t.arena.node current
    .ok (found ++ [current], n.children)) (t.arena.nodes.length + 1) n.children []

/-- The parent of a node that has one. -/
def parentOf (t : MatrixTree) (idx : NodeIndex) (expected : String) : Query TreeError NodeIndex := do
  let n ← t.arena.node idx
  match n.parent with
  | some parent => .ok parent
  | none => .error (.panic expected)

/-- The parent, slot and depth of a node that is not the root. -/
def placementOf (t : MatrixTree) (idx : NodeIndex) : Query TreeError Placement := do
  let parentIdx ← t.parentOf idx "placement_of called on the root"
  let position ← t.findSlotPosition parentIdx idx
  let parent ← t.arena.node parentIdx
  let n ← t.arena.node idx
  .ok ⟨parent.userId, UInt8.ofNat position, n.depth⟩

/-! ## 3. Placing -/

def checkAddRoot (t : MatrixTree) (userId : Uuid) : Query TreeError Unit := do
  t.arena.checkAddRoot userId
  stopIf (t.inTank userId) (.err (.userInHoldingTank userId))

def addRoot (userId : Uuid) (enrolledAt : Int) : Call TreeError MatrixTree NodeIndex := do
  reads fun t => t.checkAddRoot userId
  let idx ← onArena (allocSlot (Node.leaf userId none none 0 enrolledAt))
  onArena (modify fun a => a.indexInsert userId idx)
  onArena (modify fun a => { a with root := some idx })
  modify fun t => t.insertSlots idx t.emptySlots
  pure idx

/-- Adds a node to its sponsor's recruits, when it has a sponsor. -/
def joinSponsor (sponsor : Option NodeIndex) (idx : NodeIndex) : Call TreeError MatrixTree Unit :=
  match sponsor with
  | none => pure ()
  | some sponsorIdx =>
    onArena (nodeMut sponsorIdx fun n => { n with sponsored := n.sponsored ++ [idx] })

/-- The writes that every placement ends with: the node, its index entry, its slots, its place
    under its parent, its place among its sponsor's recruits. -/
def placeNode (node : Node) (parentIdx : NodeIndex) (position : Nat) :
    Call TreeError MatrixTree NodeIndex := do
  let idx ← onArena (allocSlot node)
  onArena (modify fun a => a.indexInsert node.userId idx)
  modify fun t => t.insertSlots idx t.emptySlots
  setSlot parentIdx position (some idx)
  rebuildChildren parentIdx
  joinSponsor node.sponsor idx
  pure idx

def checkAddNodeAt (t : MatrixTree) (userId sponsorId parentId : Uuid) (position : UInt8) :
    Query TreeError Unit := do
  checkUserId userId
  stopIf (t.arena.root = none) (.err .treeEmpty)
  stopIf (t.width ≤ position)
    (.err (.positionOutOfRange parentId position.toNat t.width.toNat))
  stopIf (t.arena.index.lookup userId).isSome (.err (.userAlreadyExists userId))
  stopIf (t.inTank userId) (.err (.userInHoldingTank userId))
  let parentIdx ← t.arena.resolve parentId
  let _ ← t.arena.resolveSponsor sponsorId
  let parentSlots ← t.slotsOf parentIdx
  let place ← placeAt parentSlots position.toNat
  stopIf place.isSome (.err (.positionOccupied parentId position.toNat))

/-- Adds a node at an explicit parent and position. -/
def addNodeAt [Build] (userId sponsorId parentId : Uuid) (position : UInt8) (enrolledAt : Int) :
    Call TreeError MatrixTree NodeIndex := do
  reads fun t => t.checkAddNodeAt userId sponsorId parentId position
  let parentIdx ← reads fun t => t.arena.resolve parentId
  let sponsorIdx ← reads fun t => t.arena.resolve sponsorId
  let parent ← reads fun t => t.arena.node parentIdx
  let depth ← reads fun _ => deeper parent.depth
  placeNode (Node.leaf userId (some parentIdx) (some sponsorIdx) depth enrolledAt) parentIdx position.toNat

/-- The refusals of `addNode`, up to the search for a slot. -/
def checkAddNode (t : MatrixTree) (userId sponsorId : Uuid) : Query TreeError NodeIndex := do
  checkUserId userId
  stopIf (t.arena.root = none) (.err .treeEmpty)
  stopIf (t.arena.index.lookup userId).isSome (.err (.userAlreadyExists userId))
  stopIf (t.inTank userId) (.err (.userInHoldingTank userId))
  t.arena.resolveSponsor sponsorId

/-- Adds a node in the first open slot of its sponsor's subtree. -/
def addNode [Build] (userId sponsorId : Uuid) (enrolledAt : Int) : Call TreeError MatrixTree NodeIndex := do
  let sponsorIdx ← reads fun t => t.checkAddNode userId sponsorId
  match ← reads fun t => t.findSpilloverSlot sponsorIdx with
  | none => throw (.err (.subtreeFull sponsorId))
  | some (parentIdx, position) => do
      let parent ← reads fun t => t.arena.node parentIdx
      let depth ← reads fun _ => deeper parent.depth
      placeNode (Node.leaf userId (some parentIdx) (some sponsorIdx) depth enrolledAt) parentIdx position

/-- Refuses a user whose stored sponsor is still in the holding tank. -/
def checkTankSponsor (t : MatrixTree) (userId : Uuid) (entry : HoldingTankEntry) :
    Query TreeError Unit :=
  match entry.sponsorUserId with
  | none => .ok ()
  | some sponsorId =>
    stopIf (t.inTank sponsorId) (.err (.sponsorInHoldingTank userId sponsorId))

/-- The refusals of `placeFromTank`, with what it found. -/
def checkPlaceFromTank (t : MatrixTree) (userId parentId : Uuid) (position : UInt8) :
    Query TreeError (NodeIndex × Nat × HoldingTankEntry) := do
  checkUserId userId
  stopIf (t.width ≤ position)
    (.err (.positionOutOfRange parentId position.toNat t.width.toNat))
  let parentIdx ← t.arena.resolve parentId
  let parentSlots ← t.slotsOf parentIdx
  let place ← placeAt parentSlots position.toNat
  stopIf place.isSome (.err (.positionOccupied parentId position.toNat))
  match t.holdingTank.findIdx? fun e => e.userId = userId with
  | none => .error (.err (.userNotInHoldingTank userId))
  | some tankPos =>
    match t.holdingTank[tankPos]? with
    | none => .error (.panic "index out of bounds")
    | some entry => do
        t.checkTankSponsor userId entry
        .ok (parentIdx, tankPos, entry)

/-- Places a user from the holding tank at a parent and position. Its sponsor link is restored when
    the sponsor is in the tree. -/
def placeFromTank [Build] (userId parentId : Uuid) (position : UInt8) : Call TreeError MatrixTree Unit := do
  let (parentIdx, tankPos, entry) ← reads fun t => t.checkPlaceFromTank userId parentId position
  modify fun t => { t with holdingTank := t.holdingTank.eraseIdx tankPos }
  let t ← get
  let sponsorIdx := entry.sponsorUserId.bind t.arena.index.lookup
  let parent ← reads fun t => t.arena.node parentIdx
  let depth ← reads fun _ => deeper parent.depth
  let _ ← placeNode (Node.leaf userId (some parentIdx) sponsorIdx depth entry.enrolledAt)
    parentIdx position.toNat

/-! ## 4. Removing -/

/-- The nodes a removal of `idx` in `mode` takes out of the tree. -/
def removalSet (t : MatrixTree) (idx : NodeIndex) (mode : PruningMode) :
    Query TreeError (List NodeIndex) :=
  match mode with
  | .promoteEarliest => .ok [idx]
  | .holdingTank => do
      let found ← t.descendants idx
      .ok (idx :: found)

def checkRemoveNode (t : MatrixTree) (userId : Uuid) (mode : PruningMode) : Query TreeError Unit := do
  let idx ← t.arena.resolve userId
  stopIf (t.arena.root = some idx) (.err .cannotRemoveRoot)
  let gone ← t.removalSet idx mode
  t.arena.checkSponsoredRemovable gone

/-- Clears one node: its sponsor lets go of it, its recruits are handed over, its slots, index entry
    and arena slot go. -/
def releaseNode (idx : NodeIndex) (userId : Uuid) : Call TreeError MatrixTree (List Responsored) := do
  onArena (unlinkSponsor idx)
  let moved ← onArena (reparentSponsored [idx])
  modify fun t => { t with slots := t.slots.erase idx }
  onArena (modify fun a => a.indexRemove userId)
  onArena (tombstone idx)
  pure moved

/-- Detaches a leaf node from the tree and tombstones it. -/
def detachAndTombstone (idx : NodeIndex) (userId : Uuid) (parentIdx : NodeIndex)
    (parentSlotPos : Nat) : Call TreeError MatrixTree (List Responsored) := do
  setSlot parentIdx parentSlotPos none
  rebuildChildren parentIdx
  releaseNode idx userId

/-- The earliest-enrolled of some nodes, the first one of those enrolled at the same time. -/
def earliest (t : MatrixTree) : NodeIndex → List NodeIndex → Query TreeError NodeIndex
  | best, [] => .ok best
  | best, c :: rest => do
      let b ← t.arena.node best
      let n ← t.arena.node c
      earliest t (if n.enrolledAt < b.enrolledAt then c else best) rest

/-- Moves one sibling of the promoted node below it: into its first empty slot, or else into the
    first open slot of its subtree. -/
def spill (promotedIdx : NodeIndex) (promotedUserId : Uuid) (child : NodeIndex) :
    Call TreeError MatrixTree Uuid := do
  let promotedSlots ← reads fun t => t.slotsOf promotedIdx
  match firstEmpty promotedSlots with
  | some position => do
      setSlot promotedIdx position (some child)
      onArena (nodeMut child fun n => { n with parent := some promotedIdx })
  | none => do
      match ← reads fun t => t.findSpilloverSlot promotedIdx with
      | none => throw (.err (.subtreeFull promotedUserId))
      | some (targetParent, targetPos) => do
          setSlot targetParent targetPos (some child)
          rebuildChildren targetParent
          onArena (nodeMut child fun n => { n with parent := some targetParent })
  let n ← reads fun t => t.arena.node child
  pure n.userId

/-- The spill loop. -/
def spillAll (promotedIdx : NodeIndex) (promotedUserId : Uuid) : List NodeIndex →
    Call TreeError MatrixTree (List Uuid)
  | [] => pure []
  | child :: remaining => do
      let first ← spill promotedIdx promotedUserId child
      let rest ← spillAll promotedIdx promotedUserId remaining
      pure (first :: rest)

/-- One step of `recalculateDepths`. -/
def pushDepth [Build] (current : NodeIndex) : Call TreeError MatrixTree (List NodeIndex) := do
  let n ← reads fun t => t.arena.node current
  forM n.children fun child => do
    let depth ← reads fun _ => deeper n.depth
    onArena (nodeMut child fun c => { c with depth })
  pure n.children

/-- Recalculates depth for a node and all its descendants. -/
def recalculateDepths [Build] (startIdx : NodeIndex) : Call TreeError MatrixTree Unit := do
  let start ← reads fun t => t.arena.node startIdx
  let depth ← match start.parent with
    | none => pure 0
    | some parentIdx => do
        let parent ← reads fun t => t.arena.node parentIdx
        reads fun _ => deeper parent.depth
  onArena (nodeMut startIdx fun n => { n with depth })
  let t ← get
  bfsEach pushDepth (t.arena.nodes.length + 1) [startIdx]

/-- Each node under `start`, `start` included, whose placement differs from `before`, in
    breadth-first slot order. -/
def relocationsFrom (t : MatrixTree) (start : NodeIndex)
    (before : List (NodeIndex × Placement)) : Query TreeError (List Relocation) :=
  bfsFold (fun moved current => do
    let now ← t.placementOf current
    let n ← t.arena.node current
    let moved := if before.lookup current ≠ some now then
      moved ++ [⟨n.userId, now.parentId, now.position, now.depth⟩] else moved
    let row ← t.slotsOf current
    .ok (moved, row.reduceOption)) (t.arena.nodes.length + 1) [start] []

/-- The placements of all descendants, before a removal. -/
def placementsBelow (t : MatrixTree) (idx : NodeIndex) :
    Query TreeError (List (NodeIndex × Placement)) := do
  let below ← t.descendants idx
  below.mapM fun n => do
    let placement ← t.placementOf n
    .ok (n, placement)

/-- Puts the promoted child into the removed node's place. -/
def promote (idx parentIdx : NodeIndex) (parentSlotPos : Nat) (promotedIdx : NodeIndex) :
    Call TreeError MatrixTree Unit := do
  let promotedSlotPos ← reads fun t => t.findSlotPosition idx promotedIdx
  setSlot idx promotedSlotPos none
  setSlot parentIdx parentSlotPos (some promotedIdx)
  rebuildChildren parentIdx
  onArena (nodeMut promotedIdx fun n => { n with parent := some parentIdx })

/-- Removal by promotion: a leaf is detached; otherwise the earliest-enrolled child takes the
    removed node's place and its siblings are repositioned below it. -/
def removePromoteEarliest [Build] (idx : NodeIndex) (userId : Uuid) :
    Call TreeError MatrixTree RemovalResult := do
  let parentIdx ← reads fun t => t.parentOf idx
    "remove_promote_earliest called on root -- should be caught earlier"
  let parentSlotPos ← reads fun t => t.findSlotPosition parentIdx idx
  let childSlots ← reads fun t => t.slotsOf idx
  match childSlots.reduceOption with
  | [] => do
      let responsored ← detachAndTombstone idx userId parentIdx parentSlotPos
      pure { removed := userId, promoted := none, repositioned := [], movedToTank := [],
             relocated := [], responsored }
  | first :: rest => do
      let promotedIdx ← reads fun t => t.earliest first rest
      let promoted ← reads fun t => t.arena.node promotedIdx
      let remaining := (first :: rest).filter (· ≠ promotedIdx)
      let before ← reads fun t => t.placementsBelow idx
      promote idx parentIdx parentSlotPos promotedIdx
      let repositioned ← spillAll promotedIdx promoted.userId remaining
      rebuildChildren promotedIdx
      let responsored ← releaseNode idx userId
      recalculateDepths promotedIdx
      let relocated ← reads fun t => t.relocationsFrom promotedIdx before
      pure { removed := userId, promoted := some promoted.userId, repositioned, movedToTank := [],
             relocated, responsored }

/-- The tank entry of a node that is still live. -/
def tankEntry (t : MatrixTree) (idx : NodeIndex) : Query TreeError HoldingTankEntry := do
  let n ← t.arena.node idx
  match n.sponsor with
  | none => .ok ⟨n.userId, none, n.enrolledAt⟩
  | some s => do
      let sponsor ← t.arena.node s
      .ok ⟨n.userId, some sponsor.userId, n.enrolledAt⟩

/-- Takes a removed node off its sponsor's recruits, when the sponsor stays. -/
def unlinkSurvivingSponsor (gone : List NodeIndex) (sponsor : Option NodeIndex) (idx : NodeIndex) :
    Call TreeError MatrixTree Unit :=
  match sponsor with
  | none => pure ()
  | some sponsorIdx =>
    if sponsorIdx ∉ gone then
      onArena (nodeMut sponsorIdx fun n =>
        { n with sponsored := n.sponsored.filter (· ≠ idx) })
    else pure ()

/-- Clears the slots, the index entry and the arena slot of a removed node. -/
def clearNode (idx : NodeIndex) (userId : Uuid) : Call TreeError MatrixTree Unit := do
  modify fun t => { t with slots := t.slots.erase idx }
  onArena (modify fun a => a.indexRemove userId)
  onArena (tombstone idx)

/-- The third pass of `removeToHoldingTank`, over the descendants. -/
def clearDescendants (gone : List NodeIndex) (descendants : List NodeIndex) :
    Call TreeError MatrixTree Unit :=
  forM descendants fun idx => do
    let n ← reads fun t => t.arena.node idx
    unlinkSurvivingSponsor gone n.sponsor idx
    clearNode idx n.userId

/-- Removal into the holding tank: the node and its whole subtree leave the tree. -/
def removeToHoldingTank (idx : NodeIndex) (userId : Uuid) :
    Call TreeError MatrixTree RemovalResult := do
  let parentIdx ← reads fun t => t.parentOf idx
    "remove_to_holding_tank called on root -- should be caught earlier"
  let parentSlotPos ← reads fun t => t.findSlotPosition parentIdx idx
  let gone ← reads fun t => t.removalSet idx .holdingTank
  let below := gone.drop 1
  let responsored ← onArena (reparentSponsored gone)
  let entries ← reads fun t => below.mapM t.tankEntry
  let n ← reads fun t => t.arena.node idx
  let entry ← reads fun t => t.tankEntry idx
  let entries := entries ++ [{ entry with userId }]
  modify fun t => { t with holdingTank := t.holdingTank ++ entries }
  clearDescendants gone below
  unlinkSurvivingSponsor gone n.sponsor idx
  setSlot parentIdx parentSlotPos none
  rebuildChildren parentIdx
  clearNode idx userId
  pure { removed := userId, promoted := none, repositioned := [],
         movedToTank := entries.map HoldingTankEntry.userId, relocated := [], responsored }

/-- Removes a node from the tree using the given pruning mode. -/
def removeNode [Build] (userId : Uuid) (mode : PruningMode) : Call TreeError MatrixTree RemovalResult := do
  reads fun t => t.checkRemoveNode userId mode
  let idx ← reads fun t => t.arena.resolve userId
  match mode with
  | .promoteEarliest => removePromoteEarliest idx userId
  | .holdingTank => removeToHoldingTank idx userId

end MatrixTree

end MlmForge.Engine
