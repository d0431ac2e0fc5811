/-
  Subject:   The read-only view of a tree of any type.

  All tree types answer these queries from their arena. Of `get_position` only the depth is kept,
  which is what the callers of this view read; the whole of it is in `Engine/Position`.

  * `TreeInstance.Valid.getChildren_mem` -- a child is a member.
-/
import MlmForge.Engine.Instance
import MlmForge.Engine.Walks

namespace MlmForge.Engine.TreeInstance

open Query Arena

/-! ## 1. The queries -/

def contains (t : TreeInstance) (userId : Uuid) : Bool := (t.arena.index.lookup userId).isSome

def userIds (t : TreeInstance) : List Uuid := t.arena.index.keys

def getChildren (t : TreeInstance) (userId : Uuid) : Query TreeError (List Node) := do
  let idx ← t.arena.resolve userId
  let n ← t.arena.node idx
  n.children.mapM t.arena.node

/-- The nodes below a user in breadth-first order; all levels when `depth` is 0. -/
def getDownline (t : TreeInstance) (userId : Uuid) (depth : Nat) : Query TreeError (List Node) := do
  let idx ← t.arena.resolve userId
  t.arena.bfsDownline idx depth

/-- The nodes above a user, from the parent to the root; all levels when `depth` is 0. -/
def getUpline (t : TreeInstance) (userId : Uuid) (depth : Nat) : Query TreeError (List Node) := do
  let idx ← t.arena.resolve userId
  t.arena.walkUpline idx depth

def countDownline (t : TreeInstance) (userId : Uuid) (depth : Nat) : Query TreeError Nat := do
  let idx ← t.arena.resolve userId
  t.arena.countDownline idx depth

/-- Nobody is a descendant of themselves. -/
def isDescendantOf (t : TreeInstance) (userId ancestorId : Uuid) : Query TreeError Bool := do
  let ancestorIdx ← t.arena.resolve ancestorId
  if userId = ancestorId then .ok false
  else
    let userIdx ← t.arena.resolve userId
    t.arena.isDescendantOf userIdx ancestorIdx

/-- The depth in a user's position. -/
def getDepth (t : TreeInstance) (userId : Uuid) : Query TreeError Nat := do
  let idx ← t.arena.resolve userId
  let n ← t.arena.slot idx
  .ok n.depth

/-! ## 2. In a valid tree -/

variable {t : TreeInstance}

theorem Valid.arena (h : t.Valid) : t.arena.Valid := by
  cases t with
  | unilevel t => exact h
  | binary t => exact BinaryTree.Valid.arena h
  | matrix t => exact MatrixTree.Valid.arena h

theorem contains_iff {u : Uuid} : t.contains u = true ↔ ∃ i, t.arena.index.lookup u = some i :=
  Option.isSome_iff_exists

theorem Valid.getDownline_ok (h : t.Valid) {u : Uuid} (hu : t.contains u = true) (depth : Nat) :
    ∃ l, t.getDownline u depth = .ok l := by
  obtain ⟨i, hi⟩ := contains_iff.mp hu
  have hlive : t.arena.Live i := by
    obtain ⟨hne, heq⟩ := h.arena.index_iff.mp hi
    exact fun hnil => hne (heq.symm.trans hnil)
  obtain ⟨l, hrun, -⟩ := h.arena.bfsDownline (ε := TreeError) hlive depth
  exact ⟨_, bind_eq_ok.mpr ⟨i, resolve_eq_ok.mpr hi, hrun⟩⟩

theorem Valid.getChildren_mem (h : t.Valid) {u : Uuid} {l : List Node} {c : Node}
    (hl : t.getChildren u = .ok l) (hc : c ∈ l) : t.contains c.userId = true := by
  obtain ⟨i, -, hl⟩ := bind_eq_ok.mp hl
  obtain ⟨n, -, hl⟩ := bind_eq_ok.mp hl
  obtain ⟨j, -, hj⟩ := exists_of_mem_mapM hl hc
  obtain ⟨hne, rfl⟩ := of_node_ok hj
  exact contains_iff.mpr ⟨j, h.arena.index_iff.mpr ⟨hne, rfl⟩⟩

end MlmForge.Engine.TreeInstance
