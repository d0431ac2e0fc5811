/-
  Subject:   Positions and branches: the queries that the tree types answer each in their own way.

  In a unilevel tree a position is a place in the list of children. In a binary and in a matrix tree it
  is a slot, empty ones counted.

  * `TreeInstance.places` -- who is at the positions of a node.
-/
import MlmForge.Basis.Maps
import MlmForge.Engine.Navigator
import MlmForge.Engine.Seating

namespace MlmForge.Engine

open Query List Arena Maps TreeInstance

/-! ## 1. The queries -/

/-- A full position snapshot. -/
structure TreePosition where
  userId : Uuid
  parentUserId : Option Uuid
  sponsorUserId : Option Uuid
  position : Nat
  depth : Nat
  childCount : Nat
  /-- the number of descendants below the child at each position, that child not included -/
  downlineCounts : AList fun _ : Nat => Nat
  enrolledAt : Int
  deriving DecidableEq

namespace Arena

/-- Counts all descendants of a node, not including the node itself. -/
def countSubtree (a : Arena) (startIdx : NodeIndex) : Query TreeError Nat := a.countDownline startIdx 0

def slotCount (a : Arena) : Option NodeIndex → Query TreeError Nat
  | some childIdx => a.countSubtree childIdx
  | none => .ok 0

/-- The counts of all slots, by position. -/
def downlineCounts (a : Arena) (slots : List (Option NodeIndex)) :
    Query TreeError (AList fun _ : Nat => Nat) := do
  let counts ← slots.mapM a.slotCount
  .ok (indexed counts)

/-- `self.nodes[link.0].user_id`, where there is a link. -/
def linkedUser (a : Arena) (link : Option NodeIndex) : Query TreeError (Option Uuid) :=
  match link with
  | none => .ok none
  | some idx => do
      let n ← a.slot idx
      .ok (some n.userId)

/-- The place of a node among its parent's children. -/
def childPosition (a : Arena) (idx : NodeIndex) (parent : Option NodeIndex) : Query TreeError Nat :=
  match parent with
  | none => .ok 0
  | some parentIdx => do
      let p ← a.slot parentIdx
      match p.children.idxOf? idx with
      | some position => .ok position
      | none => .error (.panic "node not found in parent's children list — tree is corrupt")

def getPosition (a : Arena) (idx : NodeIndex) : Query TreeError TreePosition := do
  let n ← a.slot idx
  let parentUserId ← a.linkedUser n.parent
  let sponsorUserId ← a.linkedUser n.sponsor
  let position ← a.childPosition idx n.parent
  let counts ← a.downlineCounts (n.children.map some)
  .ok { userId := n.userId, parentUserId, sponsorUserId, position, depth := n.depth
        childCount := n.children.length, downlineCounts := counts, enrolledAt := n.enrolledAt }

/-- The nodes at and below a slot of a row. -/
def slotBranch (a : Arena) (row : List (Option NodeIndex)) (position : Nat) :
    Query TreeError (List Node) :=
  match row[position]? with
  | none => .error (.panic "index out of bounds")
  | some none => .ok []
  | some (some childIdx) => a.collectSubtree childIdx

/-- The number of nodes at and below a slot of a row. -/
def slotBranchCount (a : Arena) (row : List (Option NodeIndex)) (position : Nat) :
    Query TreeError Nat :=
  match row[position]? with
  | none => .error (.panic "index out of bounds")
  | some none => .ok 0
  | some (some childIdx) => do
      let n ← a.countSubtree childIdx
      .ok (1 + n)

end Arena

namespace UnilevelTree

def getPosition (t : UnilevelTree) (userId : Uuid) : Query TreeError TreePosition := do
  let idx ← t.arena.resolve userId
  t.arena.getPosition idx

def getBranch (t : UnilevelTree) (userId : Uuid) (position : Nat) : Query TreeError (List Node) := do
  let idx ← t.arena.resolve userId
  t.arena.getBranch idx position

def countBranch (t : UnilevelTree) (userId : Uuid) (position : Nat) : Query TreeError Nat := do
  let idx ← t.arena.resolve userId
  t.arena.countBranch idx position

end UnilevelTree

namespace BinaryTree

/-- The position is the slot, not the place among the children, and the counts are by slot. -/
def getPosition (t : BinaryTree) (userId : Uuid) : Query TreeError TreePosition := do
  let idx ← t.arena.resolve userId
  let pos ← t.arena.getPosition idx
  let n ← t.arena.node idx
  let position ← match n.parent with
    | none => .ok pos.position
    | some parentIdx => do
        let row ← t.slotsOf parentIdx
        .ok ((takenBy row.toList idx).getD pos.position)
  let row ← t.slotsOf idx
  let counts ← t.arena.downlineCounts row.toList
  .ok { pos with position, downlineCounts := counts }

def getBranch (t : BinaryTree) (userId : Uuid) (position : Nat) : Query TreeError (List Node) := do
  let idx ← t.arena.resolve userId
  let row ← t.slotsOf idx
  stopIf (1 < position) (.err (.positionOutOfRange userId position 2))
  t.arena.slotBranch row.toList position

def countBranch (t : BinaryTree) (userId : Uuid) (position : Nat) : Query TreeError Nat := do
  let idx ← t.arena.resolve userId
  let row ← t.slotsOf idx
  stopIf (1 < position) (.err (.positionOutOfRange userId position 2))
  t.arena.slotBranchCount row.toList position

end BinaryTree

namespace MatrixTree

/-- The position is the slot, not the place among the children, and the counts are by slot. -/
def getPosition (t : MatrixTree) (userId : Uuid) : Query TreeError TreePosition := do
  let idx ← t.arena.resolve userId
  let pos ← t.arena.getPosition idx
  let n ← t.arena.node idx
  let position ← match n.parent with
    | none => .ok pos.position
    | some parentIdx => do
        let row ← t.slotsOf parentIdx
        .ok ((takenBy row idx).getD pos.position)
  let row ← t.slotsOf idx
  let counts ← t.arena.downlineCounts row
  .ok { pos with position, downlineCounts := counts }

def getBranch (t : MatrixTree) (userId : Uuid) (position : Nat) : Query TreeError (List Node) := do
  let idx ← t.arena.resolve userId
  let row ← t.slotsOf idx
  stopIf (t.width.toNat ≤ position) (.err (.positionOutOfRange userId position t.width.toNat))
  t.arena.slotBranch row position

def countBranch (t : MatrixTree) (userId : Uuid) (position : Nat) : Query TreeError Nat := do
  let idx ← t.arena.resolve userId
  let row ← t.slotsOf idx
  stopIf (t.width.toNat ≤ position) (.err (.positionOutOfRange userId position t.width.toNat))
  t.arena.slotBranchCount row position

end MatrixTree

namespace TreeInstance

def getPosition (t : TreeInstance) (userId : Uuid) : Query TreeError TreePosition :=
  match t with
  | unilevel t => t.getPosition userId
  | binary t => t.getPosition userId
  | matrix t => t.getPosition userId

def getBranch (t : TreeInstance) (userId : Uuid) (position : Nat) : Query TreeError (List Node) :=
  match t with
  | unilevel t => t.getBranch userId position
  | binary t => t.getBranch userId position
  | matrix t => t.getBranch userId position

def countBranch (t : TreeInstance) (userId : Uuid) (position : Nat) : Query TreeError Nat :=
  match t with
  | unilevel t => t.countBranch userId position
  | binary t => t.countBranch userId position
  | matrix t => t.countBranch userId position

/-- Who is at the positions of a node: its slots where the tree has slots, its children where not. -/
def places (t : TreeInstance) (idx : NodeIndex) : List (Option NodeIndex) :=
  match t with
  | unilevel t => (t.arena.childrenOf idx).map some
  | binary t => (t.rows idx).getD []
  | matrix t => (t.slots.lookup idx).getD []

/-- The slot that a roster gives a node. -/
def slotAt (t : TreeInstance) : NodeIndex → Option Nat :=
  match t with
  | unilevel _ => fun _ => none
  | binary t => t.arena.slotIn t.rows
  | matrix t => t.arena.slotIn t.slots.lookup

theorem roster_eq (t : TreeInstance) : t.roster = t.arena.roster t.slotAt := by
  cases t <;> rfl

end TreeInstance

/-! ## 2. The answers -/

namespace Arena

section Answers

variable {a : Arena} {i : NodeIndex} (h : a.Valid)

theorem linkedUser_ok {link : Option NodeIndex} (hl : ∀ j, link = some j → a.Live j) :
    a.linkedUser link = .ok (link.map a.userAt) := by
  cases link with
  | none => rfl
  | some j =>
    rw [linkedUser, bind_ok (slot_ok (hl j rfl).lt)]
    rfl

def sizeBelow (a : Arena) (c : NodeIndex) : Nat := (a.countSubtree c).toOption.getD 0

include h

variable {c : NodeIndex}

theorem Valid.countSubtree (hc : a.Live c) : a.countSubtree c = .ok (a.sizeBelow c) := by
  obtain ⟨order, -, hcount, -⟩ := h.bfsDownline (ε := TreeError) hc 0
  rw [sizeBelow, Arena.countSubtree, hcount]
  rfl

/-- **A branch is one more than what is below its own root.** -/
theorem Valid.length_branch (hc : a.Live c) {branch : List NodeIndex}
    (hnd : branch.Nodup) (hmem : ∀ x, x ∈ branch ↔ Above a.parentOf x c) :
    branch.length = a.sizeBelow c + 1 := by
  obtain ⟨order, -, hcount, hond, homem, -⟩ := h.bfsDownline (ε := TreeError) hc 0
  have hself : c ∉ order := fun hin => h.forest.ranked.irrefl c ((homem c).mp hin).1
  have hperm : branch.Perm (c :: order) := by
    refine (perm_ext_iff_of_nodup hnd (nodup_cons.mpr ⟨hself, hond⟩)).mpr fun x => ?_
    rw [hmem, mem_cons, homem, Above, Relation.reflTransGen_iff_eq_or_transGen]
    simp [eq_comm, StrictlyAbove]
  rw [hperm.length_eq, length_cons, sizeBelow, Arena.countSubtree, hcount]
  rfl

variable {row : List (Option NodeIndex)}

theorem Valid.downlineCounts (hocc : row.reduceOption = a.childrenOf i) : a.downlineCounts row =
      .ok (indexed (row.map fun slot => slot.elim 0 a.sizeBelow)) := by
  have hcounts : row.mapM a.slotCount = .ok (row.map fun slot => slot.elim 0 a.sizeBelow) := by
    refine mapM_eq_ok fun slot hslot => ?_
    cases slot with
    | none => rfl
    | some c =>
      exact h.countSubtree (h.live_child (hocc ▸ reduceOption_mem_iff.mpr hslot))
  rw [Arena.downlineCounts, bind_ok hcounts]

theorem Valid.childPosition : ∃ q, a.childPosition i (a.nodeAt i).parent = .ok q := by
  unfold Arena.childPosition
  cases hp : (a.nodeAt i).parent with
  | none => exact ⟨0, rfl⟩
  | some p =>
    have hmem : i ∈ (a.nodeAt p).children := h.placed.mem_iff.mpr hp
    obtain ⟨q, hq⟩ : ∃ q, (a.nodeAt p).children.idxOf? i = some q := by
      cases hq : (a.nodeAt p).children.idxOf? i with
      | none => exact absurd hmem (idxOf?_eq_none_iff.mp hq)
      | some q => exact ⟨q, rfl⟩
    refine ⟨q, ?_⟩
    simp only
    rw [bind_ok (slot_ok (h.live_parent hp).lt)]
    simp only [hq]

theorem Valid.getPosition (hi : a.Live i) :
    ∃ q, a.getPosition i = .ok ⟨a.userAt i, (a.parentOf i).map a.userAt,
      (a.sponsorOf i).map a.userAt, q, (a.nodeAt i).depth, (a.childrenOf i).length,
      indexed ((a.childrenOf i).map a.sizeBelow), (a.nodeAt i).enrolledAt⟩ := by
  obtain ⟨q, hq⟩ := h.childPosition (i := i)
  have hcounts : a.downlineCounts ((a.childrenOf i).map some) =
      .ok (indexed ((a.childrenOf i).map a.sizeBelow)) := by
    rw [h.downlineCounts (i := i) (by simp [reduceOption]), map_map]
    rfl
  refine ⟨q, ?_⟩
  unfold Arena.getPosition
  rw [bind_ok (slot_ok hi.lt), bind_ok (linkedUser_ok fun j hj => h.live_parent hj),
    bind_ok (linkedUser_ok fun j hj => h.live_sponsor hj), bind_ok hq,
    bind_ok hcounts]
  rfl

theorem Valid.slotBranch (hocc : row.reduceOption = a.childrenOf i)
    {q : Nat} (hq : row[q]? = some (some c)) : ∃ branch : List NodeIndex,
    a.slotBranch row q = .ok (branch.map a.nodeAt) ∧ a.slotBranchCount row q = .ok branch.length ∧
      branch.Nodup ∧ ∀ x, x ∈ branch ↔ Above a.parentOf x c := by
  have hc : a.Live c := h.live_child (hocc ▸ reduceOption_mem_iff.mpr (mem_of_getElem? hq))
  obtain ⟨branch, hrun, hnd, hmem⟩ := h.collectSubtree (ε := TreeError) hc
  refine ⟨branch, ?_, ?_, hnd, hmem⟩
  · simp only [Arena.slotBranch, hq, hrun]
  · simp only [Arena.slotBranchCount, hq]
    rw [bind_ok (h.countSubtree hc), h.length_branch hc hnd hmem, Nat.add_comm]

omit h in
theorem slotBranch_empty {q : Nat} (hq : row[q]? = some none) :
    a.slotBranch row q = .ok [] ∧ a.slotBranchCount row q = .ok 0 := by
  simp only [Arena.slotBranch, Arena.slotBranchCount, hq, and_self]

end Answers

end Arena

/-- **What a tree answers for a node about its positions**: a branch for each, nothing at and below an
    empty slot, a refusal beyond the last one, and in the snapshot the number of children and one count
    for each position. -/
structure TreeInstance.Answers (t : TreeInstance) (i : NodeIndex) : Prop where
  children : (t.places i).reduceOption = t.arena.childrenOf i
  taken : ∀ {q c}, (t.places i)[q]? = some (some c) → ∃ branch : List NodeIndex,
    t.getBranch (t.arena.userAt i) q = .ok (branch.map t.arena.nodeAt) ∧
    t.countBranch (t.arena.userAt i) q = .ok branch.length ∧ branch.Nodup ∧
    ∀ x, x ∈ branch ↔ Above t.arena.parentOf x c
  empty : ∀ {q}, (t.places i)[q]? = some none →
    t.getBranch (t.arena.userAt i) q = .ok [] ∧ t.countBranch (t.arena.userAt i) q = .ok 0
  beyond : ∀ {q}, (t.places i)[q]? = none →
    t.getBranch (t.arena.userAt i) q = .error (.err (.positionOutOfRange (t.arena.userAt i) q
      (t.places i).length)) ∧
    t.countBranch (t.arena.userAt i) q = .error (.err (.positionOutOfRange (t.arena.userAt i) q
      (t.places i).length))
  snapshot : ∃ pos, t.getPosition (t.arena.userAt i) = .ok pos ∧
    pos.childCount = (t.arena.childrenOf i).length ∧
    pos.downlineCounts = indexed ((t.places i).map fun slot => slot.elim 0 t.arena.sizeBelow)

section Trees

variable {i : NodeIndex}

theorem UnilevelTree.answers {t : UnilevelTree} (h : t.arena.Valid) (hi : t.arena.Live i) :
    (unilevel t).Answers i := by
  have hres := h.resolve_userAt hi
  have hplace : ∀ {q : Nat} {o : Option NodeIndex},
      ((t.arena.childrenOf i).map some)[q]? = some o → ∃ c, o = some c ∧
        (t.arena.childrenOf i)[q]? = some c := by
    intro q o hq
    rw [getElem?_map] at hq
    obtain ⟨c, hc, rfl⟩ := Option.map_eq_some_iff.mp hq
    exact ⟨c, rfl, hc⟩
  refine ⟨by simp [TreeInstance.places, TreeInstance.arena, reduceOption], fun {q c} hq => ?_,
    fun {q} hq => ?_, fun {q} hq => ?_, ?_⟩
  · obtain ⟨_, e, hc⟩ := hplace hq
    cases e
    obtain ⟨branch, h1, h2, hnd, hmem⟩ := h.getBranch_some hi hc
    exact ⟨branch, (bind_ok hres _).trans h1, (bind_ok hres _).trans h2, hnd, hmem⟩
  · obtain ⟨c, e, -⟩ := hplace hq
    cases e
  · have hc : (t.arena.childrenOf i)[q]? = none := by
      simpa [places] using hq
    obtain ⟨h1, h2⟩ := getBranch_none hi hc
    rw [show ((unilevel t).places i).length = (t.arena.childrenOf i).length from length_map _]
    exact ⟨(bind_ok hres _).trans h1, (bind_ok hres _).trans h2⟩
  · obtain ⟨q, hq⟩ := h.getPosition hi
    refine ⟨_, (bind_ok hres _).trans hq, rfl, ?_⟩
    rw [places, map_map]
    rfl

variable {t : TreeInstance}

theorem TreeInstance.answers_of_row (h : t.arena.Valid) (hi : t.arena.Live i)
    {row : List (Option NodeIndex)} {n : Nat} (hplaces : t.places i = row)
    (hocc : row.reduceOption = t.arena.childrenOf i) (hlen : row.length = n)
    (hget : ∀ q, t.getBranch (t.arena.userAt i) q = (do
      stopIf (n ≤ q) (.err (.positionOutOfRange (t.arena.userAt i) q n))
      t.arena.slotBranch row q))
    (hcount : ∀ q, t.countBranch (t.arena.userAt i) q = (do
      stopIf (n ≤ q) (.err (.positionOutOfRange (t.arena.userAt i) q n))
      t.arena.slotBranchCount row q))
    (hpos : ∀ {pos counts}, t.arena.getPosition i = .ok pos → t.arena.downlineCounts row = .ok counts →
      ∃ q, t.getPosition (t.arena.userAt i) = .ok { pos with position := q, downlineCounts := counts }) :
    t.Answers i := by
  subst hplaces hlen
  have hin : ∀ {q : Nat} {o : Option NodeIndex}, (t.places i)[q]? = some o →
      ¬ (t.places i).length ≤ q := fun hq => Nat.not_le.mpr (List.getElem?_eq_some_iff.mp hq).1
  refine ⟨hocc, fun {q c} hq => ?_, fun {q} hq => ?_, fun {q} hq => ?_, ?_⟩
  · obtain ⟨branch, h1, h2, hnd, hmem⟩ := h.slotBranch hocc hq
    rw [hget, hcount, stopIf, if_neg (hin hq)]
    exact ⟨branch, h1, h2, hnd, hmem⟩
  · rw [hget, hcount, stopIf, if_neg (hin hq)]
    exact Arena.slotBranch_empty hq
  · rw [hget, hcount, stopIf, if_pos (List.getElem?_eq_none_iff.mp hq)]
    exact ⟨rfl, rfl⟩
  · obtain ⟨_, hself⟩ := h.getPosition hi
    obtain ⟨q, hq⟩ := hpos hself (h.downlineCounts hocc)
    exact ⟨_, hq, rfl, rfl⟩

theorem BinaryTree.answers {t : BinaryTree} (h : t.Valid) (hi : t.arena.Live i) :
    (binary t).Answers i := by
  have hres := h.arena.resolve_userAt hi
  obtain ⟨row, hrow⟩ := h.agree.exists_row hi
  refine answers_of_row h.arena hi ?_ (h.agree.children hrow)
    row.length_toList (fun q => (bind_ok hres _).trans (bind_ok (slotsOf_ok hrow) _))
    (fun q => (bind_ok hres _).trans (bind_ok (slotsOf_ok hrow) _)) fun {pos counts} hp hc => ?_
  · rw [places, BinaryTree.rows, hrow]
    rfl
  · have hp' : t.arena.getPosition i = .ok pos := hp
    show ∃ q, t.getPosition (t.arena.userAt i) = _
    unfold BinaryTree.getPosition
    rw [bind_ok hres, bind_ok hp', bind_ok (node_ok hi)]
    cases hpar : (t.arena.nodeAt i).parent with
    | none =>
      simp only [bind_ok (slotsOf_ok hrow)]
      exact ⟨pos.position, (bind_ok rfl _).trans (bind_ok hc _)⟩
    | some p =>
      obtain ⟨above, habove⟩ := h.agree.exists_row (h.arena.live_parent hpar)
      simp only [bind_ok (slotsOf_ok habove), bind_ok (slotsOf_ok hrow)]
      exact ⟨_, (bind_ok rfl _).trans (bind_ok hc _)⟩

theorem MatrixTree.answers {t : MatrixTree} (h : t.Valid) (hi : t.arena.Live i) :
    (matrix t).Answers i := by
  have hres := h.arena.resolve_userAt hi
  obtain ⟨row, hrow, hocc, hlen⟩ := h.exists_row hi
  refine answers_of_row h.arena hi ?_ hocc hlen
    (fun q => (bind_ok hres _).trans (bind_ok (slotsOf_ok hrow) _))
    (fun q => (bind_ok hres _).trans (bind_ok (slotsOf_ok hrow) _))
    fun {pos counts} hp hc => ?_
  · rw [places, hrow]
    rfl
  · have hp' : t.arena.getPosition i = .ok pos := hp
    show ∃ q, t.getPosition (t.arena.userAt i) = _
    unfold MatrixTree.getPosition
    rw [bind_ok hres, bind_ok hp', bind_ok (node_ok hi)]
    cases hpar : (t.arena.nodeAt i).parent with
    | none =>
      simp only [bind_ok (slotsOf_ok hrow)]
      exact ⟨pos.position, (bind_ok rfl _).trans (bind_ok hc _)⟩
    | some p =>
      obtain ⟨above, habove, -⟩ := h.exists_row (h.arena.live_parent hpar)
      simp only [bind_ok (slotsOf_ok habove), bind_ok (slotsOf_ok hrow)]
      exact ⟨_, (bind_ok rfl _).trans (bind_ok hc _)⟩

theorem TreeInstance.Valid.answers (h : t.Valid) (hi : t.arena.Live i) : t.Answers i := by
  cases t with
  | unilevel t => exact UnilevelTree.answers h hi
  | binary t => exact BinaryTree.answers h hi
  | matrix t => exact MatrixTree.answers h hi

end Trees

end MlmForge.Engine
