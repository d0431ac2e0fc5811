/-
  Subject:   The streamline engine: streams, who is on them and who owns them.

  Each stream is a chain of members in a unilevel tree. `addMember` appends to a stream that the
  sponsor owns, `removeMember` takes a member out of the middle of a chain, `expandStreams` and
  `updateStreamAllowance` create, freeze, unfreeze and destroy streams as the rank of their owner
  changes.

  A hash map is an `AList`; nothing below depends on the order of its entries. A text of the source
  that reports what the tree refused is the step (`TreeStep`) and the tree's error.
-/
import MlmForge.Streamline.Chain

namespace MlmForge.Streamline

open Engine Query Call

/-! ## 1. Data -/

/-- How new enrollees are assigned to streams. -/
inductive StreamAssignmentMode where
  | sponsorStream
  | roundRobin
  deriving DecidableEq, Repr

structure StreamlineConfig where
  assignmentMode : StreamAssignmentMode
  enrollmentStreamChoice : Bool
  freezeOnDemotion : Bool
  deriving DecidableEq, Repr

/-- A single stream. `bottom` is the user at the bottom of the chain. -/
structure Stream where
  id : Nat
  tree : UnilevelTree
  ownerId : Uuid
  frozen : Bool
  createdAt : Int
  bottom : Option Uuid
  deriving DecidableEq

/-- A stream without members. -/
def Stream.empty (id : Nat) (ownerId : Uuid) (timestamp : Int) : Stream where
  id := id
  tree := UnilevelTree.new
  ownerId := ownerId
  frozen := false
  createdAt := timestamp
  bottom := none

/-- For every user a list of streams. -/
abbrev StreamLists := AList fun _ : Uuid => List Nat

/-- All streams of one streamline structure. -/
structure StreamlineEngine where
  streams : AList fun _ : Nat => Stream
  userStreams : StreamLists
  streamOwners : StreamLists
  nextStreamId : Nat
  config : StreamlineConfig
  deriving DecidableEq

/-- What the tree was asked for when it refused. -/
inductive TreeStep where
  | add
  | removeDescendant (userId : Uuid)
  | removeTarget (userId : Uuid)
  | reAddDescendant (userId : Uuid)
  | reRootDescendant (userId : Uuid)
  deriving DecidableEq, Repr

inductive StreamlineError where
  | memberAlreadyExists (userId : Uuid)
  | memberNotFound (userId : Uuid)
  | sponsorNotFound (sponsorId : Uuid)
  | streamNotFound (streamId : Nat)
  | streamFrozen (streamId : Nat)
  | sponsorDoesNotOwnStream (sponsorId : Uuid) (streamId : Nat)
  | noStreamsAvailable
  | noOwnedStreams (userId : Uuid)
  | streamChoiceNotAllowed
  | treeError (step : TreeStep) (source : TreeError)
  | nilUserId
  deriving DecidableEq, Repr

structure AddMemberResult where
  streamId : Nat
  position : Nat
  deriving DecidableEq, Repr

structure ExpansionResult where
  newStreamIds : List Nat
  deriving DecidableEq, Repr

structure FreezeResult where
  frozen : List Nat
  unfrozen : List Nat
  created : List Nat
  destroyed : List Nat
  deriving DecidableEq, Repr

structure RemoveMemberResult where
  removedFrom : List Nat
  deriving DecidableEq, Repr

/-- `u32::MAX` -/
def maxStreamId : Nat := 2 ^ 32 - 1

/-- `as u32` -/
def asU32 (n : Nat) : Nat := n % 2 ^ 32

/-! ## 2. Lists of streams by user -/

/-- `entry(user).or_default().push(stream_id)` -/
def StreamLists.push (m : StreamLists) (user : Uuid) (streamId : Nat) : StreamLists :=
  m.insert user ((m.lookup user).getD [] ++ [streamId])

/-- Takes a stream off a user's list, and the user off the index with their last stream. -/
def StreamLists.drop (m : StreamLists) (user : Uuid) (streamId : Nat) : StreamLists :=
  match m.lookup user with
  | none => m
  | some ids =>
    if ids.filter (· ≠ streamId) = [] then m.erase user
    else m.insert user (ids.filter (· ≠ streamId))

/-- Takes a stream off a user's list, which may end up empty. -/
def StreamLists.retain (m : StreamLists) (user : Uuid) (streamId : Nat) : StreamLists :=
  match m.lookup user with
  | none => m
  | some ids => m.insert user (ids.filter (· ≠ streamId))

namespace StreamlineEngine

/-- An engine with one empty initial stream, which nobody owns yet. -/
def new (config : StreamlineConfig) (timestamp : Int) : StreamlineEngine where
  streams := AList.singleton 1 (Stream.empty 1 Uuid.nil timestamp)
  userStreams := ∅
  streamOwners := ∅
  nextStreamId := 2
  config := config

/-! ## 3. Placement -/

/-- The stream an engine is sure to have. -/
def expectStream {ε : Type} (e : StreamlineEngine) (streamId : Nat) (msg : String) : Query ε Stream :=
  match e.streams.lookup streamId with
  | some stream => .ok stream
  | none => .error (.panic msg)

/-- The loop of the assignment to the first stream that is not frozen. -/
def firstUnfrozen (e : StreamlineEngine) (owned : List Nat) : Option Nat :=
  owned.find? fun sid => (e.streams.lookup sid).any fun stream => !stream.frozen

/-- The loop of the assignment to the stream with the fewest members; `best` is the one held. -/
def fewestMembers (e : StreamlineEngine) : Option (Nat × Nat) → List Nat → Option (Nat × Nat)
  | best, [] => best
  | best, sid :: rest =>
    match e.streams.lookup sid with
    | none => fewestMembers e best rest
    | some stream =>
      if stream.frozen then fewestMembers e best rest
      else
        let count := stream.tree.userIds.length
        match best with
        | none => fewestMembers e (some (sid, count)) rest
        | some (held, least) =>
          if count < least then fewestMembers e (some (sid, count)) rest
          else fewestMembers e (some (held, least)) rest

/-- Determines which stream a new member should be placed in. -/
def findPlacementStream (e : StreamlineEngine) (sponsorId : Uuid) (streamIdOverride : Option Nat) :
    Query StreamlineError Nat :=
  match streamIdOverride with
  | some overrideId =>
    if e.config.enrollmentStreamChoice = false then .error (.err .streamChoiceNotAllowed)
    else
      match e.streams.lookup overrideId with
      | none => .error (.err (.streamNotFound overrideId))
      | some stream =>
        if stream.frozen then .error (.err (.streamFrozen overrideId))
        else
          match e.streamOwners.lookup sponsorId with
          | none => .error (.err (.sponsorDoesNotOwnStream sponsorId overrideId))
          | some owned =>
            if overrideId ∈ owned then .ok overrideId
            else .error (.err (.sponsorDoesNotOwnStream sponsorId overrideId))
  | none =>
    match e.streamOwners.lookup sponsorId with
    | none => .error (.err (.noOwnedStreams sponsorId))
    | some owned =>
      let found := match e.config.assignmentMode with
        | .sponsorStream => e.firstUnfrozen owned
        | .roundRobin => (e.fewestMembers none owned).map Prod.fst
      match found with
      | some sid => .ok sid
      | none => .error (.err .noStreamsAvailable)

/-- A call on a stream that the engine holds under `streamId`. -/
def onStream {ε α : Type} (streamId : Nat) (stream : Stream) (m : Call ε Stream α) :
    Call ε StreamlineEngine α :=
  zoom (fun _ => stream) (fun e s => { e with streams := e.streams.insert streamId s }) m

end StreamlineEngine

/-- A call on the tree of a stream. -/
def Stream.onTree {ε α : Type} (m : Call ε UnilevelTree α) : Call ε Stream α :=
  zoom Stream.tree (fun s t => { s with tree := t }) m

/-- The parent of a user who was just added below one. -/
def Stream.parentJustAdded (s : Stream) (userId : Uuid) : Query StreamlineError Node :=
  match s.tree.getParent userId with
  | .ok (some p) => .ok p
  | .ok none => .error (.panic "has parent")
  | .error stop => .error (stop.expect "just added")

/-- Appends a member at the bottom of a stream and returns their position. -/
def Stream.append (userId sponsorId : Uuid) (timestamp : Int) : Call StreamlineError Stream Nat := do
  let s ← get
  let position ← match s.bottom with
    | some bottomId => do
        let _ ← Stream.onTree (Call.relay (.treeError .add)
          (UnilevelTree.addNode userId bottomId sponsorId timestamp))
        let p ← reads fun s => s.parentJustAdded userId
        pure (p.depth + 1)
    | none => do
        -- created by expansion but never populated
        let _ ← Stream.onTree (expect "empty tree has no root"
          (UnilevelTree.addRoot userId timestamp))
        pure 0
  modify fun s => { s with bottom := some userId }
  pure position

/-- Seats the first member of an engine at the top of an empty stream, which they own. -/
def Stream.seatFirst (userId : Uuid) (timestamp : Int) : Call StreamlineError Stream Unit := do
  let _ ← Stream.onTree (expect "empty tree has no root" (UnilevelTree.addRoot userId timestamp))
  modify fun s => { s with ownerId := userId, bottom := some userId }

namespace StreamlineEngine

/-- The engine with a new empty stream at the cursor. -/
def withNewStream (e : StreamlineEngine) (ownerId : Uuid) (timestamp : Int) : StreamlineEngine :=
  { e with
    nextStreamId := e.nextStreamId + 1
    streams := e.streams.insert e.nextStreamId (Stream.empty e.nextStreamId ownerId timestamp)
    streamOwners := StreamLists.push e.streamOwners ownerId e.nextStreamId }

/-- Creates a new empty stream owned by the given user. -/
def createStream (ownerId : Uuid) (timestamp : Int) : Call StreamlineError StreamlineEngine Nat := do
  let e ← get
  reads fun e =>
    stopIf (maxStreamId ≤ e.nextStreamId) (.panic "attempt to add with overflow")
  modify fun e => e.withNewStream ownerId timestamp
  pure e.nextStreamId

/-- Creates `n` streams. -/
def createStreams (ownerId : Uuid) (timestamp : Int) :
    Nat → Call StreamlineError StreamlineEngine (List Nat)
  | 0 => pure []
  | n + 1 => do
      let id ← createStream ownerId timestamp
      let rest ← createStreams ownerId timestamp n
      pure (id :: rest)

/-- Seats the first member of an engine that holds no member. -/
def bootstrapFirstMember (userId : Uuid) (timestamp : Int) :
    Call StreamlineError StreamlineEngine AddMemberResult := do
  let e ← get
  let streamId ← if (e.streams.lookup 1).isSome then do
      modify fun e => { e with streamOwners := StreamLists.push e.streamOwners userId 1 }
      pure 1
    else
      -- stream 1 is gone: a new id rather than the old one again
      createStream userId timestamp
  let stream ← reads fun e => e.expectStream streamId "stream_id was just found or created"
  onStream streamId stream (Stream.seatFirst userId timestamp)
  modify fun e => { e with userStreams := StreamLists.push e.userStreams userId streamId }
  pure ⟨streamId, 0⟩

/-- What `addMember` refuses before it looks for a stream; whether the member is the first. -/
def checkAddMember (e : StreamlineEngine) (userId sponsorId : Uuid) : Query StreamlineError Bool := do
  stopIf (userId = Uuid.nil) (.err .nilUserId)
  stopIf (e.userStreams.lookup userId).isSome (.err (.memberAlreadyExists userId))
  if e.userStreams.keys = [] then .ok true
  else do
    stopIf ((e.userStreams.lookup sponsorId).isNone ∧ (e.streamOwners.lookup sponsorId).isNone)
      (.err (.sponsorNotFound sponsorId))
    .ok false

/-- Appends a member to a stream of the engine. -/
def appendTo (targetStreamId : Nat) (userId sponsorId : Uuid) (timestamp : Int) :
    Call StreamlineError StreamlineEngine AddMemberResult := do
  let stream ← reads fun e =>
    e.expectStream targetStreamId "find_placement_stream returned a valid stream ID"
  let position ← onStream targetStreamId stream (Stream.append userId sponsorId timestamp)
  modify fun e => { e with userStreams := StreamLists.push e.userStreams userId targetStreamId }
  pure ⟨targetStreamId, position⟩

def addMember (userId sponsorId : Uuid) (timestamp : Int) (streamIdOverride : Option Nat) :
    Call StreamlineError StreamlineEngine AddMemberResult := do
  let first ← reads fun e => e.checkAddMember userId sponsorId
  if first then bootstrapFirstMember userId timestamp
  else do
    let targetStreamId ← reads fun e => e.findPlacementStream sponsorId streamIdOverride
    appendTo targetStreamId userId sponsorId timestamp

/-! ## 4. Removal -/

/-- What `removeMember` works on: one stream, and the two indexes of the engine. -/
structure Borrowed where
  stream : Stream
  userStreams : StreamLists
  streamOwners : StreamLists

/-- A call on a stream that the engine holds under `streamId`, and on its indexes. -/
def borrow {ε α : Type} (streamId : Nat) (stream : Stream) (m : Call ε Borrowed α) :
    Call ε StreamlineEngine α :=
  zoom (fun e => ⟨stream, e.userStreams, e.streamOwners⟩)
    (fun e b => { e with
      streams := e.streams.insert streamId b.stream
      userStreams := b.userStreams
      streamOwners := b.streamOwners }) m

namespace Borrowed

/-- A call on the tree of the borrowed stream. -/
def onTree {α : Type} (step : TreeStep) (m : Call TreeError UnilevelTree α) :
    Call StreamlineError Borrowed α :=
  zoom (fun b => b.stream.tree) (fun b t => { b with stream := { b.stream with tree := t } })
    (Call.relay (.treeError step) m)

/-- A member below the one who leaves, with what it takes to add them again. -/
structure Descendant where
  userId : Uuid
  sponsorId : Uuid
  enrolledAt : Int
  deriving DecidableEq, Repr

def descendantsOf (t : UnilevelTree) (userId : Uuid) : Query StreamlineError (List Descendant) := do
  let below ← (t.getDownline userId 0).okOr []
  below.mapM fun node => do
    let sponsor ← (t.getSponsor node.userId).okOr none
    .ok ⟨node.userId, (sponsor.map Node.userId).getD node.userId, node.enrolledAt⟩

/-- Takes descendants out of the tree and the index, in the order given. -/
def removeDescendants (streamId : Nat) : List Descendant → Call StreamlineError Borrowed Unit
  | [] => pure ()
  | d :: rest => do
      let _ ← onTree (.removeDescendant d.userId) (UnilevelTree.removeNode d.userId)
      modify fun b => { b with userStreams := StreamLists.drop b.userStreams d.userId streamId }
      removeDescendants streamId rest

/-- Adds one descendant again. A recruit of the user who left is now recruited by whoever they sit
    below. -/
def reAdd (userId : Uuid) (currentParent : Option Uuid) (d : Descendant) :
    Call StreamlineError Borrowed NodeIndex :=
  let sponsor := if d.sponsorId = userId then currentParent.getD d.userId else d.sponsorId
  match currentParent with
  | some pid =>
    onTree (.reAddDescendant d.userId) (UnilevelTree.addNode d.userId pid sponsor d.enrolledAt)
  | none => onTree (.reRootDescendant d.userId) (UnilevelTree.addRoot d.userId d.enrolledAt)

/-- Adds descendants again, each below the one before; the first below `currentParent`. -/
def reAddDescendants (userId : Uuid) (streamId : Nat) :
    Option Uuid → List Descendant → Call StreamlineError Borrowed Unit
  | _, [] => pure ()
  | currentParent, d :: rest => do
      let _ ← reAdd userId currentParent d
      modify fun b => { b with userStreams := StreamLists.push b.userStreams d.userId streamId }
      -- the last one is the bottom
      modify fun b => if rest = [] then
        { b with stream := { b.stream with bottom := some d.userId } } else b
      reAddDescendants userId streamId (some d.userId) rest

/-- The first of some users who has no parent in the tree. -/
def firstUnparented (t : UnilevelTree) : List Uuid → Query StreamlineError (Option Uuid)
  | [] => .ok none
  | u :: rest => do
      let p ← (t.getParent u).okOr none
      if p.isNone then .ok (some u) else firstUnparented t rest

/-- Gives the stream to its first remaining member, or to nobody. -/
def transferOwner (streamId : Nat) : Call StreamlineError Borrowed Unit := do
  let newOwner ← reads fun b => firstUnparented b.stream.tree b.stream.tree.userIds
  match newOwner with
  | some nid =>
    modify fun b => { b with
      stream := { b.stream with ownerId := nid }
      streamOwners := StreamLists.push b.streamOwners nid streamId }
  | none => modify fun b => { b with stream := { b.stream with ownerId := Uuid.nil } }

/-- Takes a user out of the chain: everybody below is removed from the leaf up and added again below
    the user's parent. -/
def leave (userId : Uuid) (streamId : Nat) : Call StreamlineError Borrowed Unit := do
  let descendants ← reads fun b => descendantsOf b.stream.tree userId
  let parent ← reads fun b => (b.stream.tree.getParent userId).okOr none
  let parentId := parent.map Node.userId
  removeDescendants streamId descendants.reverse
  let _ ← onTree (.removeTarget userId) (UnilevelTree.removeNode userId)
  reAddDescendants userId streamId parentId descendants
  modify fun b => if descendants = [] then
    { b with stream := { b.stream with bottom := parentId } } else b
  modify fun b => if b.stream.tree.userIds = [] then
    { b with stream := { b.stream with bottom := none } } else b
  let b ← get
  if b.stream.ownerId = userId then transferOwner streamId else pure ()

end Borrowed

/-- Takes a user off the given streams, and returns those they were on. -/
def leaveStreams (userId : Uuid) : List Nat → Call StreamlineError StreamlineEngine (List Nat)
  | [] => pure []
  | streamId :: rest => do
      let e ← get
      match e.streams.lookup streamId with
      | none => leaveStreams userId rest
      | some stream =>
        if stream.tree.contains userId then do
          borrow streamId stream (Borrowed.leave userId streamId)
          let removed ← leaveStreams userId rest
          pure (streamId :: removed)
        else leaveStreams userId rest

/-- Gives away the given streams as far as they are still a user's. -/
def giveAway (userId : Uuid) : List Nat → Call StreamlineError StreamlineEngine Unit
  | [] => pure ()
  | oid :: rest => do
      let e ← get
      match e.streams.lookup oid with
      | none => giveAway userId rest
      | some stream =>
        if stream.ownerId = userId then do
          borrow oid stream (Borrowed.transferOwner oid)
          giveAway userId rest
        else giveAway userId rest

/-- Removes a member from all streams they have positions on. -/
def removeMember (userId : Uuid) : Call StreamlineError StreamlineEngine RemoveMemberResult := do
  let e ← get
  match e.userStreams.lookup userId with
  | none => throw (.err (.memberNotFound userId))
  | some streamIds => do
      modify fun e => { e with userStreams := e.userStreams.erase userId }
      let removedFrom ← leaveStreams userId streamIds
      let e ← get
      match e.streamOwners.lookup userId with
      | none => pure ⟨removedFrom⟩
      | some ownedIds => do
          modify fun e => { e with streamOwners := e.streamOwners.erase userId }
          giveAway userId ownedIds
          pure ⟨removedFrom⟩

/-! ## 5. Allowances -/

/-- Expands a user's stream count to match their rank allowance. -/
def expandStreams (userId : Uuid) (totalAllowed : Nat) (timestamp : Int) :
    Call StreamlineError StreamlineEngine ExpansionResult := do
  let e ← get
  if (e.userStreams.lookup userId).isNone ∧ (e.streamOwners.lookup userId).isNone then
    throw (.err (.memberNotFound userId))
  else do
    let currentCount := ((e.streamOwners.lookup userId).map fun ids => asU32 ids.length).getD 0
    if totalAllowed ≤ currentCount then pure ⟨[]⟩
    else do
      let newIds ← createStreams userId timestamp (totalAllowed - currentCount)
      pure ⟨newIds⟩

/-- Freezes streams, and returns those that were there. -/
def freezeStreams : List Nat → Call StreamlineError StreamlineEngine (List Nat)
  | [] => pure []
  | id :: rest => do
      let e ← get
      match e.streams.lookup id with
      | none => freezeStreams rest
      | some stream => do
          modify fun e => { e with streams := e.streams.insert id { stream with frozen := true } }
          let frozen ← freezeStreams rest
          pure (id :: frozen)

/-- Unfreezes up to `remaining` streams, and returns those and how many are still to come. -/
def unfreezeStreams : List Nat → Nat → Call StreamlineError StreamlineEngine (List Nat × Nat)
  | [], remaining => pure ([], remaining)
  | _ :: _, 0 => pure ([], 0)
  | id :: rest, remaining + 1 => do
      let e ← get
      match e.streams.lookup id with
      | none => unfreezeStreams rest (remaining + 1)
      | some stream => do
          modify fun e => { e with streams := e.streams.insert id { stream with frozen := false } }
          let (unfrozen, left) ← unfreezeStreams rest remaining
          pure (id :: unfrozen, left)

/-- Destroys streams of a user, and returns those that were there. -/
def destroyStreams (userId : Uuid) : List Nat → Call StreamlineError StreamlineEngine (List Nat)
  | [] => pure []
  | id :: rest => do
      let e ← get
      let destroyed ← match e.streams.lookup id with
        | none => pure []
        | some stream => do
            modify fun e => { e with
              streams := e.streams.erase id
              userStreams := stream.tree.userIds.foldl (fun m u => StreamLists.drop m u id)
                e.userStreams }
            pure [id]
      modify fun e => { e with streamOwners := StreamLists.retain e.streamOwners userId id }
      let more ← destroyStreams userId rest
      pure (destroyed ++ more)

/-- The given streams, oldest first. -/
def sorted (e : StreamlineEngine) (ownedIds : List Nat) : List Stream :=
  (ownedIds.filterMap e.streams.lookup).insertionSort fun s s' => s.createdAt ≤ s'.createdAt

/-- The ids of those streams among the given ones that are frozen, or that are not. -/
def idsByFlag (e : StreamlineEngine) (ownedIds : List Nat) (frozen : Bool) : List Nat :=
  ((e.sorted ownedIds).filter fun s => s.frozen = frozen).map Stream.id

/-- Updates a user's active stream count after a change of rank. -/
def updateStreamAllowance (userId : Uuid) (totalAllowed : Nat) (timestamp : Int) :
    Call StreamlineError StreamlineEngine FreezeResult := do
  let e ← get
  match e.streamOwners.lookup userId with
  | none => throw (.err (.noOwnedStreams userId))
  | some ownedIds => do
      let unfrozenIds := e.idsByFlag ownedIds false
      let activeCount := asU32 unfrozenIds.length
      if totalAllowed < activeCount then do
        -- newest first
        let excess := unfrozenIds.reverse.take (activeCount - totalAllowed)
        if e.config.freezeOnDemotion then do
          let frozen ← freezeStreams excess
          pure ⟨frozen, [], [], []⟩
        else do
          let destroyed ← destroyStreams userId excess
          modify fun e => if e.streamOwners.lookup userId = some [] then
            { e with streamOwners := e.streamOwners.erase userId } else e
          pure ⟨[], [], [], destroyed⟩
      else if activeCount < totalAllowed then do
        let (unfrozen, remaining) ← unfreezeStreams (e.idsByFlag ownedIds true)
          (totalAllowed - activeCount)
        let created ← createStreams userId timestamp remaining
        pure ⟨[], unfrozen, created, []⟩
      else pure ⟨[], [], [], []⟩

end StreamlineEngine

/-! ## 6. Restoring -/

/-- A restored engine whose indexes disagree with the streams they index. -/
inductive StreamlineConsistencyError where
  | streamIdMismatch (key streamId : Nat)
  | stream (streamId : Nat) (source : SnapshotConsistencyError)
  | streamBottomNotInTree (streamId : Nat) (userId : Uuid)
  | streamBottomMissing (streamId nodeCount : Nat)
  | streamIdCursorNotPastEnd (nextStreamId highestStreamId : Nat)
  | streamIdCursorExhausted (nextStreamId : Nat)
  | treeUserNotIndexed (streamId : Nat) (userId : Uuid)
  | userStreamsEntryEmpty (userId : Uuid)
  | streamAbsent (userId : Uuid) (streamId : Nat)
  | userNotInStreamTree (userId : Uuid) (streamId : Nat)
  | ownerStreamAbsent (userId : Uuid) (streamId : Nat)
  | streamOwnerMismatch (userId : Uuid) (streamId : Nat) (ownerId : Uuid)
  deriving DecidableEq

/-- What is wrong with a stream under a key. -/
def Stream.fault (key : Nat) (s : Stream) :
    Query StreamlineConsistencyError (Option StreamlineConsistencyError) :=
  if key ≠ s.id then .ok (some (.streamIdMismatch key s.id))
  else
    match s.tree.validateRestored with
    | .error (.err source) => .ok (some (.stream s.id source))
    | .error (.panic msg) => .error (.panic msg)
    | .error .loop => .error .loop
    | .ok () =>
      match s.bottom with
      | some bottomId =>
        .ok (if s.tree.contains bottomId then none else some (.streamBottomNotInTree s.id bottomId))
      | none =>
        .ok (if s.tree.userIds = [] then none
          else some (.streamBottomMissing s.id s.tree.userIds.length))

/-- A user on a stream; the lower stream goes first, then the lower user. -/
structure StreamUser where
  streamId : Nat
  userId : Uuid

instance : LT StreamUser where
  lt a b := a.streamId < b.streamId ∨ (a.streamId = b.streamId ∧ a.userId < b.userId)

instance : DecidableLT StreamUser := fun a b =>
  inferInstanceAs (Decidable (a.streamId < b.streamId ∨
    (a.streamId = b.streamId ∧ a.userId < b.userId)))

namespace StreamlineEngine

def treeUsers (e : StreamlineEngine) : List (Sigma fun _ : StreamUser => Unit) :=
  e.streams.entries.flatMap fun entry => entry.2.tree.userIds.map fun u => ⟨⟨entry.2.id, u⟩, ()⟩

def indexFault (e : StreamlineEngine) (spot : StreamUser) : Option StreamlineConsistencyError :=
  if ((e.userStreams.lookup spot.userId).getD []).contains spot.streamId then none
  else some (.treeUserNotIndexed spot.streamId spot.userId)

def userFault (e : StreamlineEngine) (userId : Uuid) (streamIds : List Nat) :
    Option StreamlineConsistencyError :=
  if streamIds = [] then some (.userStreamsEntryEmpty userId)
  else streamIds.findSome? fun streamId =>
    match e.streams.lookup streamId with
    | none => some (.streamAbsent userId streamId)
    | some stream =>
      if stream.tree.contains userId then none else some (.userNotInStreamTree userId streamId)

def ownerFault (e : StreamlineEngine) (userId : Uuid) (streamIds : List Nat) :
    Option StreamlineConsistencyError :=
  streamIds.findSome? fun streamId =>
    match e.streams.lookup streamId with
    | none => some (.ownerStreamAbsent userId streamId)
    | some stream =>
      if stream.ownerId = userId then none
      else some (.streamOwnerMismatch userId streamId stream.ownerId)

def checkCursor (e : StreamlineEngine) : Query StreamlineConsistencyError Unit :=
  match e.streams.keys.max? with
  | some highest => stopIf (e.nextStreamId ≤ highest)
      (.err (.streamIdCursorNotPastEnd e.nextStreamId highest))
  | none => .ok ()

/-- Proves that a restored engine's indexes agree with the streams they index. -/
def validateRestored (e : StreamlineEngine) : Query StreamlineConsistencyError Unit := do
  lowestFault (fun key stream => stream.fault key) none e.streams.entries
  e.checkCursor
  stopIf (e.nextStreamId = maxStreamId) (.err (.streamIdCursorExhausted e.nextStreamId))
  lowestFault (fun spot _ => .ok (e.indexFault spot)) none e.treeUsers
  lowestFault (fun userId ids => .ok (e.userFault userId ids)) none e.userStreams.entries
  lowestFault (fun userId ids => .ok (e.ownerFault userId ids)) none e.streamOwners.entries

end StreamlineEngine

end MlmForge.Streamline
