/-
  Subject:   The board plan engine: boards that fill up, cycle their top member out and split.

  * `validateRestored` -- the checks of a restored engine.

  A `u64` counter that would pass its end is a panic, as is an index out of bounds.
-/
import Mathlib.Data.List.AList
import MlmForge.Basis.Passes
import MlmForge.BoardPlan.Board

namespace MlmForge.BoardPlan

open Engine Query

/-! ## 1. State, results and errors -/

inductive ReEntryPosition where
  | bottom
  | sponsorBoard
  deriving DecidableEq, Repr

/-- What the engine reads of its cycling configuration. -/
structure BoardPlanConfig where
  reEntryEnabled : Bool
  reEntryPosition : ReEntryPosition
  maxCascadeDepth : Nat
  cascades : 0 < maxCascadeDepth

structure BoardPlanEngine where
  width : Nat
  height : Nat
  totalPositions : Nat
  boards : AList fun _ : Uuid => Board
  memberBoards : AList fun _ : Uuid => Uuid
  sponsorMap : AList fun _ : Uuid => Uuid
  displacedMembers : List Uuid
  nextBoardSeq : Nat
  config : BoardPlanConfig

inductive BoardPlanError where
  | memberAlreadyExists (userId : Uuid)
  | memberAwaitingReassignment (userId : Uuid)
  | sponsorNotFound (sponsorId : Uuid)
  | boardNotFound (boardId : Uuid)
  | memberNotFound (userId : Uuid)
  | noBoardsAvailable
  | boardFull (boardId : Uuid) (filled total : Nat)
  | invalidDimensions (width height : Nat) (reason : String)
  deriving DecidableEq, Repr

/-- A board cycled and its top position left. -/
structure CycleEvent where
  boardId : Uuid
  cycledMember : Uuid
  newBoards : List Uuid
  reEntryBoard : Option Uuid
  deriving DecidableEq, Repr

structure AddMemberResult where
  boardId : Uuid
  position : Nat
  cycleEvents : List CycleEvent
  deriving DecidableEq, Repr

structure RemoveMemberResult where
  compacted : List Uuid
  cycleEvents : List CycleEvent
  deriving DecidableEq, Repr

structure DissolutionResult where
  dissolvedBoardId : Uuid
  displacedMembers : List Uuid
  cycleEvents : List CycleEvent
  deriving DecidableEq, Repr

structure CompressedMember where
  userId : Uuid
  boardId : Uuid
  deriving DecidableEq, Repr

structure CompressionResult where
  compressed : List CompressedMember
  cycleEvents : List CycleEvent
  deriving DecidableEq, Repr

/-- One past the last value of the `seq` counter. -/
def seqLimit : Nat := 2 ^ 64

/-- The identifiers that new boards draw: the board with `seq` `n` gets `draw n`. -/
structure BoardIds where
  draw : Nat → Uuid
  distinct : ∀ {m n}, m < seqLimit → n < seqLimit → draw m = draw n → m = n

abbrev Action (α : Type) := Call BoardPlanError BoardPlanEngine α

namespace BoardPlanEngine

/-- A new engine with one empty board. -/
def new (ids : BoardIds) (width height : Nat) (config : BoardPlanConfig) (timestamp : Int) :
    Query BoardPlanError BoardPlanEngine := do
  stopIf (¬ (2 ≤ width ∧ width ≤ 5)) (.err (.invalidDimensions width height
    ("width must be 2-5 (got " ++ toString width ++ ")")))
  stopIf (¬ (1 ≤ height ∧ height ≤ 4)) (.err (.invalidDimensions width height
    ("height must be 1-4 (got " ++ toString height ++ ")")))
  let total := BoardPlan.totalPositions width height
  let initialBoard := Board.new (ids.draw 0) total timestamp none 0
  .ok
    { width, height, config
      totalPositions := total
      boards := AList.singleton initialBoard.id initialBoard
      memberBoards := ∅
      sponsorMap := ∅
      displacedMembers := []
      nextBoardSeq := 1 }

/-! ## 2. Finding a board -/

/-- The boards as a pass over the map meets them. -/
def values (e : BoardPlanEngine) : List Board := e.boards.entries.map Sigma.snd

/-- Created before, or at the same time with the lower `seq`. -/
def older (a b : Board) : Bool :=
  decide (a.createdAt < b.createdAt) || (a.createdAt == b.createdAt && decide (a.seq < b.seq))

/-- The oldest board that has an open position. -/
def oldestBoardWithOpening (e : BoardPlanEngine) : Query BoardPlanError Uuid :=
  match foremost older (e.values.filter fun b => b.firstOpenPosition.isSome) with
  | some b => .ok b.id
  | none => .error (.err .noBoardsAvailable)

/-- The board of the sponsor, when it is there and has an open position. -/
def sponsorOpening (e : BoardPlanEngine) (sponsorId : Uuid) : Option Uuid := do
  let boardId ← e.memberBoards.lookup sponsorId
  let board ← e.boards.lookup boardId
  if board.firstOpenPosition.isSome then some boardId else none

def findPlacementBoard (e : BoardPlanEngine) (sponsorId : Uuid) : Query BoardPlanError Uuid :=
  match e.config.reEntryPosition with
  | .bottom => e.oldestBoardWithOpening
  | .sponsorBoard =>
    match e.sponsorOpening sponsorId with
    | some boardId => .ok boardId
    | none => e.oldestBoardWithOpening

/-- The engine with a member seated at a position of a board. -/
def seat (e : BoardPlanEngine) (board : Board) (boardId userId : Uuid) (position : Nat)
    (timestamp : Int) : BoardPlanEngine :=
  { e with
    boards := e.boards.insert boardId
      { board with positions := board.positions.set position (some userId), lastActivityAt := timestamp }
    memberBoards := e.memberBoards.insert userId boardId }

/-- Seats a member at the first open position of a board, when there is one. -/
def trySeat (userId boardId : Uuid) (timestamp : Int) : Action Bool := do
  let e ← get
  match e.boards.lookup boardId with
  | none => pure false
  | some board =>
    match board.firstOpenPosition with
    | none => pure false
    | some position => do
        modify fun e => e.seat board boardId userId position timestamp
        pure true

/-! ## 3. Cycling -/

/-- A new empty board with the next `seq`. -/
def newBoard (ids : BoardIds) (timestamp : Int) (parentBoardId : Option Uuid) : Action Board := do
  let e ← get
  if e.nextBoardSeq + 1 < seqLimit then do
    modify fun e => { e with nextBoardSeq := e.nextBoardSeq + 1 }
    pure (Board.new (ids.draw e.nextBoardSeq) e.totalPositions timestamp parentBoardId e.nextBoardSeq)
  else throw (.panic "attempt to add with overflow")

/-- Moves the members at positions of a board to a new one, from position `newPos` on. -/
def moveMembers (board : Board) : Nat → List Nat → Board → Action Board
  | _, [], fresh => pure fresh
  | newPos, oldIndex :: rest, fresh =>
    match board.positions[oldIndex]? with
    | none => throw (.panic "index out of bounds")
    | some none => moveMembers board (newPos + 1) rest fresh
    | some (some memberId) =>
      if newPos < fresh.positions.length then do
        modify fun e => { e with memberBoards := e.memberBoards.insert memberId fresh.id }
        moveMembers board (newPos + 1) rest
          { fresh with positions := fresh.positions.set newPos (some memberId) }
      else throw (.panic "index out of bounds")

/-- One new board for each of some children of the top. -/
def splitInto (ids : BoardIds) (board : Board) (timestamp : Int) : List Nat → Action (List Uuid)
  | [] => pure []
  | child :: rest => do
      let e ← get
      match subtreeIndices child e.width (e.totalPositions - 1) with
      | none => throw .loop
      | some subtree => do
          let fresh ← newBoard ids timestamp (some board.id)
          let fresh ← moveMembers board 0 subtree fresh
          modify fun e => { e with boards := e.boards.insert fresh.id fresh }
          let more ← splitInto ids board timestamp rest
          pure (fresh.id :: more)

/-- Splits a full board into one board for each child of its top. -/
def splitBoard (ids : BoardIds) (board : Board) (timestamp : Int) : Action (List Uuid) := do
  let e ← get
  if e.totalPositions = 0 then throw (.panic "attempt to subtract with overflow")
  else splitInto ids board timestamp (List.range' 1 e.width)

/-- Puts a member on the waiting list. -/
def displace (userId : Uuid) : Action Unit :=
  modify fun e => { e with displacedMembers := e.displacedMembers ++ [userId] }

/-- Seats a member who cycled out again, or displaces them. -/
def reEnter (cycledMember : Uuid) (timestamp : Int) : Action (Option Uuid) := do
  let e ← get
  if e.config.reEntryEnabled then
    let sponsorId := (e.sponsorMap.lookup cycledMember).getD cycledMember
    match e.findPlacementBoard sponsorId with
    | .ok target => do
        if ← trySeat cycledMember target timestamp then pure (some target)
        else do
          displace cycledMember
          pure none
    | .error _ => do
        displace cycledMember
        pure none
  else do
    displace cycledMember
    pure none

/-- Does something with a board if it is full. -/
def ifFull (cycle : Uuid → Action (List CycleEvent)) (boardId : Uuid) : Action (List CycleEvent) := do
  let e ← get
  if (e.boards.lookup boardId).any Board.isFull then cycle boardId else pure []

/-- Cycles those of some boards that are full. -/
def cascadeAll (cascade : Uuid → Action (List CycleEvent)) : List Uuid → Action (List CycleEvent)
  | [] => pure []
  | boardId :: rest => do
      let here ← ifFull cascade boardId
      let more ← cascadeAll cascade rest
      pure (here ++ more)

/-- One cycle of a board, if it is full; `cascade` is what boards that are full then do. -/
def cycleOnce (ids : BoardIds) (timestamp : Int) (cascade : Uuid → Action (List CycleEvent))
    (boardId : Uuid) : Action (List CycleEvent) := do
  let e ← get
  match e.boards.lookup boardId with
  | none => pure []
  | some board =>
    if board.isFull then
      match board.positions[0]? with
      | none => throw (.panic "index out of bounds")
      | some none => pure []
      | some (some cycledMember) => do
          let newBoards ← splitBoard ids board timestamp
          modify fun e =>
            { e with
              boards := e.boards.erase boardId
              memberBoards := e.memberBoards.erase cycledMember }
          let reEntryBoard ← reEnter cycledMember timestamp
          let later ← cascadeAll cascade (reEntryBoard.toList ++ newBoards)
          pure (⟨boardId, cycledMember, newBoards, reEntryBoard⟩ :: later)
    else pure []

/-- Cycles a full board; `left` is what is left of the maximal depth of a cascade. -/
def processCycles (ids : BoardIds) (timestamp : Int) : Nat → Uuid → Action (List CycleEvent)
  | 0, _ => pure []
  | left + 1, boardId => cycleOnce ids timestamp (processCycles ids timestamp left) boardId

/-- Cycles a board with a fresh cascade budget. -/
def cycleBoard (ids : BoardIds) (timestamp : Int) (boardId : Uuid) : Action (List CycleEvent) := do
  let e ← get
  processCycles ids timestamp e.config.maxCascadeDepth boardId

/-- Cycles boards one after the other. -/
def cycleEach (ids : BoardIds) (timestamp : Int) : List Uuid → Action (List CycleEvent)
  | [] => pure []
  | boardId :: rest => do
      let here ← cycleBoard ids timestamp boardId
      let more ← cycleEach ids timestamp rest
      pure (here ++ more)

/-- The boards that are full, oldest first. -/
def fullBoards (e : BoardPlanEngine) : List Uuid :=
  ((e.values.filter Board.isFull).insertionSort fun a b => older b a = false).map Board.id

/-- Cycles every board that is full when called. -/
def drainFullBoards (ids : BoardIds) (timestamp : Int) : Action (List CycleEvent) := do
  let e ← get
  cycleEach ids timestamp e.fullBoards

/-- Cycles a board with a fresh cascade budget, if it is full. -/
def cycleIfFull (ids : BoardIds) (timestamp : Int) (boardId : Uuid) : Action (List CycleEvent) :=
  ifFull (cycleBoard ids timestamp) boardId

/-- Seats a displaced member in the oldest board with an opening; who finds none waits on. -/
def placeOne (ids : BoardIds) (timestamp : Int) (memberId : Uuid) : Action (List CycleEvent) := do
  let e ← get
  match e.oldestBoardWithOpening with
  | .ok boardId => do
      if ← trySeat memberId boardId timestamp then cycleIfFull ids timestamp boardId
      else do
        displace memberId
        pure []
  | .error _ => do
      displace memberId
      pure []

def placeEach (ids : BoardIds) (timestamp : Int) : List Uuid → Action (List CycleEvent)
  | [] => pure []
  | memberId :: rest => do
      let here ← placeOne ids timestamp memberId
      let more ← placeEach ids timestamp rest
      pure (here ++ more)

def placeDisplacedMembers (ids : BoardIds) (timestamp : Int) : Action (List CycleEvent) := do
  let e ← get
  modify fun e => { e with displacedMembers := [] }
  placeEach ids timestamp e.displacedMembers

/-! ## 4. The calls -/

/-- The checks before anything is written. -/
def checkAddMember (e : BoardPlanEngine) (userId sponsorId : Uuid) : Query BoardPlanError Unit := do
  stopIf ((e.memberBoards.lookup userId).isSome) (.err (.memberAlreadyExists userId))
  stopIf (e.displacedMembers.contains userId) (.err (.memberAwaitingReassignment userId))
  stopIf (¬ (e.memberBoards.keys = [] ∧ e.sponsorMap.keys = []) ∧
    (e.memberBoards.lookup sponsorId).isNone ∧ ¬ e.displacedMembers.contains sponsorId)
    (.err (.sponsorNotFound sponsorId))
  stopIf (e.boards.keys = []) (.err .noBoardsAvailable)

/-- Seats a new member on a board, at its first open position. -/
def seatNew (userId boardId : Uuid) (timestamp : Int) : Action Nat := do
  let e ← get
  match e.boards.lookup boardId with
  | none => throw (.err (.boardNotFound boardId))
  | some board =>
    match board.firstOpenPosition with
    | none => throw (.err .noBoardsAvailable)
    | some position => do
        modify fun e => e.seat board boardId userId position timestamp
        pure position

def addMember (ids : BoardIds) (userId sponsorId : Uuid) (timestamp : Int) :
    Action AddMemberResult := do
  Call.reads fun e => e.checkAddMember userId sponsorId
  modify fun e => { e with sponsorMap := e.sponsorMap.insert userId sponsorId }
  let drained ← drainFullBoards ids timestamp
  let placed ← placeDisplacedMembers ids timestamp
  let boardId ← Call.reads fun e => e.findPlacementBoard sponsorId
  let position ← seatNew userId boardId timestamp
  let cycled ← cycleIfFull ids timestamp boardId
  pure ⟨boardId, position, drained ++ placed ++ cycled⟩

/-- Puts members into a row of positions, from position `newPos` on. -/
def rePlace : Nat → List Uuid → List (Option Uuid) → List (Option Uuid)
  | _, [], row => row
  | newPos, memberId :: rest, row => rePlace (newPos + 1) rest (row.set newPos (some memberId))

/-- The members of a board with their positions. -/
def membersWithPositions (b : Board) : List (Nat × Uuid) :=
  b.positions.zipIdx.filterMap fun p => p.1.map fun memberId => (p.2, memberId)

/-- Shifts the members of a board to its front, and reports whom that moved. -/
def compactBoard (boardId : Uuid) : Action (List Uuid) := do
  let e ← get
  match e.boards.lookup boardId with
  | none => pure []
  | some board => do
      let cleared := board.positions.map fun _ => none
      modify fun e =>
        { e with
          boards := e.boards.insert boardId
            { board with positions := rePlace 0 board.members cleared }
          memberBoards := board.members.foldl (fun m memberId => m.insert memberId boardId)
            e.memberBoards }
      pure (((membersWithPositions board).zipIdx.filter fun p => p.2 ≠ p.1.1).map fun p => p.1.2)

/-- The positions of a board with the place of a member cleared. -/
def clearedRow (board : Board) (userId : Uuid) : List (Option Uuid) :=
  match takenBy board.positions userId with
  | some position => board.positions.set position none
  | none => board.positions

/-- The engine with a member's seat on a board cleared. -/
def unseat (e : BoardPlanEngine) (board : Board) (boardId userId : Uuid) (timestamp : Int) :
    BoardPlanEngine :=
  { e with
    boards := e.boards.insert boardId
      { board with
        positions := clearedRow board userId
        lastActivityAt := timestamp }
    memberBoards := e.memberBoards.erase userId }

/-- Cycles the board of a member, if it is full. -/
def cycleBoardOf (ids : BoardIds) (timestamp : Int) (userId : Uuid) : Action (List CycleEvent) := do
  let e ← get
  match e.memberBoards.lookup userId with
  | some boardId => cycleIfFull ids timestamp boardId
  | none => pure []

/-- Clears the place of a member, on their board or on the waiting list. -/
def vacate (userId : Uuid) (timestamp : Int) : Action (List Uuid) := do
  let e ← get
  match e.memberBoards.lookup userId with
  | none => do
      modify fun e => { e with displacedMembers := e.displacedMembers.filter fun m => m != userId }
      pure []
  | some boardId =>
    match e.boards.lookup boardId with
    | none => throw (.err (.boardNotFound boardId))
    | some board => do
        modify fun e => e.unseat board boardId userId timestamp
        compactBoard boardId

/-- Takes a member off their board, or off the waiting list. Cycling can move the member, so their place
    is read again after it. -/
def takeMemberOut (ids : BoardIds) (userId : Uuid) (timestamp : Int) :
    Action (List Uuid × List CycleEvent) := do
  let events ← cycleBoardOf ids timestamp userId
  let moved ← vacate userId timestamp
  pure (moved, events)

/-- Somebody who is on a board or on the waiting list. -/
def listed (e : BoardPlanEngine) (userId : Uuid) : Bool :=
  (e.memberBoards.lookup userId).isSome || e.displacedMembers.contains userId

def removeMember (ids : BoardIds) (userId : Uuid) (timestamp : Int) : Action RemoveMemberResult := do
  Call.reads fun e => stopIf (e.listed userId = false) (.err (.memberNotFound userId))
  let drained ← drainFullBoards ids timestamp
  let (compacted, cycled) ← takeMemberOut ids userId timestamp
  pure ⟨compacted, drained ++ cycled⟩

/-- The board that a call to dissolve may take away. -/
def checkDissolve (e : BoardPlanEngine) (boardId : Uuid) : Query BoardPlanError Board :=
  match e.boards.lookup boardId with
  | none => .error (.err (.boardNotFound boardId))
  | some board =>
    if board.isFull then .error (.err (.boardFull boardId board.filledCount board.positions.length))
    else .ok board

def dissolveBoard (ids : BoardIds) (boardId : Uuid) (timestamp : Int) : Action DissolutionResult := do
  let board ← Call.reads fun e => e.checkDissolve boardId
  modify fun e =>
    { e with
      boards := e.boards.erase boardId
      memberBoards := board.members.foldl (fun m memberId => m.erase memberId) e.memberBoards
      displacedMembers := e.displacedMembers ++ board.members }
  let drained ← drainFullBoards ids timestamp
  pure ⟨boardId, board.members, drained⟩

/-- Takes out those who were seated when the call began; a repeated one is already out. -/
def compressEach (ids : BoardIds) (timestamp : Int) :
    List CompressedMember → Action (List CompressedMember × List CycleEvent)
  | [] => pure ([], [])
  | m :: rest => do
      let e ← get
      if e.listed m.userId then do
        let (_, here) ← takeMemberOut ids m.userId timestamp
        let (compressed, more) ← compressEach ids timestamp rest
        pure (m :: compressed, here ++ more)
      else compressEach ids timestamp rest

/-- Those of some members who are on a board, with it. -/
def seatedOf (e : BoardPlanEngine) (members : List Uuid) : List CompressedMember :=
  members.filterMap fun memberId => (e.memberBoards.lookup memberId).map fun boardId =>
    ⟨memberId, boardId⟩

def compressInactive (ids : BoardIds) (inactiveMembers : List Uuid) (timestamp : Int) :
    Action CompressionResult := do
  let e ← get
  let drained ← drainFullBoards ids timestamp
  let (compressed, cycled) ← compressEach ids timestamp (e.seatedOf inactiveMembers)
  pure ⟨compressed, drained ++ cycled⟩

end BoardPlanEngine

/-! ## 5. Restoring -/

/-- A restored engine whose values are out of range or whose index disagrees with its boards. -/
inductive BoardConsistencyError where
  | boardDimensionsOutOfRange (width height : Nat)
  | boardTotalPositionsMismatch (found width height expected : Nat)
  | boardIdMismatch (key boardId : Uuid)
  | boardPositionCountMismatch (boardId : Uuid) (found expected : Nat)
  | memberOnTwoBoards (userId firstBoard secondBoard : Uuid)
  | memberSeatedTwiceOnBoard (userId boardId : Uuid)
  | boardAbsent (userId boardId : Uuid)
  | memberNotOnBoard (userId boardId : Uuid)
  | occupantNotIndexed (userId boardId : Uuid)
  | memberDisplacedTwice (userId : Uuid)
  | memberDisplacedAndSeated (userId boardId : Uuid)
  | boardOccupantAboveOpening (boardId : Uuid) (openPosition occupiedPosition : Nat)
  | boardSeqCounterExhausted (nextBoardSeq : Nat)
  | boardSeqNotBelowCounter (boardId : Uuid) (seq nextBoardSeq : Nat)
  | boardSeqRepeated (seq : Nat) (firstBoard secondBoard : Uuid)
  deriving DecidableEq, Repr

/-- The highest counter that a restored engine may have. -/
def maxRestoredBoardSeq : Nat := (2 ^ 64 - 1) / 2

namespace BoardPlanEngine

def keyFault (key : Uuid) (b : Board) : Option BoardConsistencyError :=
  if key = b.id then none else some (.boardIdMismatch key b.id)

def sizeFault (e : BoardPlanEngine) (boardId : Uuid) (b : Board) : Option BoardConsistencyError :=
  if b.positions.length = e.totalPositions then none
  else some (.boardPositionCountMismatch boardId b.positions.length e.totalPositions)

/-- Every occupant of every board, with the board. -/
def seats (e : BoardPlanEngine) : List (Sigma fun _ : Uuid => Uuid) :=
  e.boards.entries.flatMap fun entry => entry.2.members.map fun u => ⟨u, entry.1⟩

/-- The lowest occupant that a walk meets again, with the board it does so on. -/
def duplicateSeat : List Uuid → Option (Uuid × Uuid) → List (Sigma fun _ : Uuid => Uuid) →
    Option (Uuid × Uuid)
  | _, held, [] => held
  | seen, held, ⟨u, boardId⟩ :: rest =>
    duplicateSeat (u :: seen) (if seen.contains u then keepLowest held u boardId else held) rest

/-- The boards that a user sits on, lowest first. -/
def boardsHolding (e : BoardPlanEngine) (userId : Uuid) : List Uuid :=
  ((e.boards.entries.filter fun entry => entry.2.members.contains userId).map Sigma.fst).insertionSort
    (· ≤ ·)

def checkDuplicates (e : BoardPlanEngine) : Query BoardConsistencyError Unit :=
  match duplicateSeat [] none e.seats with
  | none => .ok ()
  | some (userId, seenOn) =>
    match e.boardsHolding userId with
    | firstBoard :: secondBoard :: _ =>
      .error (.err (.memberOnTwoBoards userId firstBoard secondBoard))
    | _ => .error (.err (.memberSeatedTwiceOnBoard userId seenOn))

def indexFault (e : BoardPlanEngine) (userId boardId : Uuid) : Option BoardConsistencyError :=
  match e.boards.lookup boardId with
  | none => some (.boardAbsent userId boardId)
  | some b => if b.members.contains userId then none else some (.memberNotOnBoard userId boardId)

def seatFault (e : BoardPlanEngine) (userId boardId : Uuid) : Option BoardConsistencyError :=
  if e.memberBoards.lookup userId = some boardId then none
  else some (.occupantNotIndexed userId boardId)

def displacedFault (e : BoardPlanEngine) (userId : Uuid) : Query BoardConsistencyError Unit :=
  match e.memberBoards.lookup userId with
  | none => .ok ()
  | some boardId => .error (.err (.memberDisplacedAndSeated userId boardId))

def gapFault (boardId : Uuid) (b : Board) : Option BoardConsistencyError :=
  (behindOpening b.positions).map fun p => .boardOccupantAboveOpening boardId p.1 p.2

def seqFault (e : BoardPlanEngine) (boardId : Uuid) (b : Board) : Option BoardConsistencyError :=
  if b.seq < e.nextBoardSeq then none
  else some (.boardSeqNotBelowCounter boardId b.seq e.nextBoardSeq)

/-- The boards that carry a `seq`, lowest first. -/
def holders (e : BoardPlanEngine) (seq : Nat) : List Uuid :=
  ((e.boards.entries.filter fun entry => entry.2.seq == seq).map Sigma.fst).insertionSort (· ≤ ·)

/-- The lowest repeated `seq` is reported with its two lowest boards. -/
def checkSeqs (e : BoardPlanEngine) : Query BoardConsistencyError Unit :=
  match ((e.values.map Board.seq).insertionSort (· ≤ ·)).find? fun seq => 1 < (e.holders seq).length with
  | none => .ok ()
  | some seq =>
    match e.holders seq with
    | firstBoard :: secondBoard :: _ => .error (.err (.boardSeqRepeated seq firstBoard secondBoard))
    | _ => .error (.panic "index out of bounds")

/-- Proves a restored engine's values in range and its boards in agreement with its index. -/
def validateRestored (e : BoardPlanEngine) : Query BoardConsistencyError Unit := do
  stopIf (¬ (2 ≤ e.width ∧ e.width ≤ 5) ∨ ¬ (1 ≤ e.height ∧ e.height ≤ 4))
    (.err (.boardDimensionsOutOfRange e.width e.height))
  let expected := BoardPlan.totalPositions e.width e.height
  stopIf (e.totalPositions ≠ expected)
    (.err (.boardTotalPositionsMismatch e.totalPositions e.width e.height expected))
  lowestFault (fun key b => .ok (keyFault key b)) none e.boards.entries
  lowestFault (fun boardId b => .ok (e.sizeFault boardId b)) none e.boards.entries
  e.checkDuplicates
  lowestFault (fun userId boardId => .ok (e.indexFault userId boardId)) none e.memberBoards.entries
  lowestFault (fun userId boardId => .ok (e.seatFault userId boardId)) none e.seats
  forDistinct (fun _ => .ok ()) BoardConsistencyError.memberDisplacedTwice e.displacedFault []
    e.displacedMembers
  lowestFault (fun boardId b => .ok (gapFault boardId b)) none e.boards.entries
  stopIf (maxRestoredBoardSeq < e.nextBoardSeq)
    (.err (.boardSeqCounterExhausted e.nextBoardSeq))
  lowestFault (fun boardId b => .ok (e.seqFault boardId b)) none e.boards.entries
  e.checkSeqs

end BoardPlanEngine

end MlmForge.BoardPlan
