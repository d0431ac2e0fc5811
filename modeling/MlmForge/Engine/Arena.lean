/-
  Subject:   Arena storage of a tree: nodes in slots, the user index, the free list, the root, and
             the operations on them that every tree shares.

  A read past the end of the node list and a read of a freed slot are panics. `nodeAt` reads a slot
  without either: a slot past the end reads as a freed one, so that what a state means can be said
  for every index.
-/
import Mathlib.Data.List.AList
import Mathlib.Data.List.GetD
import MlmForge.Basis.Passes
import MlmForge.Engine.Node

namespace MlmForge.Engine

open List Query Call

/-- Shared arena storage of all tree types. -/
structure Arena where
  nodes : List Node
  index : AList fun _ : Uuid => NodeIndex
  freeList : List NodeIndex
  root : Option NodeIndex
  deriving DecidableEq

namespace Arena

variable {ε : Type}

def new : Arena where
  nodes := []
  index := ∅
  freeList := []
  root := none

/-- The node in a slot; a slot past the end reads as a freed one. -/
def nodeAt (a : Arena) (idx : NodeIndex) : Node := a.nodes.getD idx Node.freed

/-- A slot is live when it holds a user. -/
def Live (a : Arena) (idx : NodeIndex) : Prop := (a.nodeAt idx).userId ≠ Uuid.nil

instance (a : Arena) (idx : NodeIndex) : Decidable (a.Live idx) :=
  inferInstanceAs (Decidable (_ ≠ _))

/-- Fewer slots than a `u32` can count, and so no depth at the end of its range. -/
abbrev Roomy (a : Arena) : Prop := a.nodes.length < 2 ^ 32

/-- The arena with the node in one slot rewritten. -/
def upd (a : Arena) (idx : NodeIndex) (f : Node → Node) : Arena :=
  { a with nodes := a.nodes.modify idx f }

/-! ## 1. Reading and writing slots -/

/-- `self.nodes[idx.0]` -/
def slot (a : Arena) (idx : NodeIndex) : Query ε Node :=
  match a.nodes[idx]? with
  | some n => .ok n
  | none => .error (.panic "index out of bounds")

/-- A write through `&mut self.nodes[idx.0]`. -/
def slotMut (idx : NodeIndex) (f : Node → Node) : Call ε Arena Unit := do
  let _ ← Call.reads fun a => a.slot idx
  modify fun a => a.upd idx f

/-- Direct arena access by index. -/
def node (a : Arena) (idx : NodeIndex) : Query ε Node := do
  let n ← a.slot idx
  if n.userId = Uuid.nil then .error (.panic "accessed tombstoned slot") else .ok n

/-- A write through mutable arena access by index. -/
def nodeMut (idx : NodeIndex) (f : Node → Node) : Call ε Arena Unit := do
  let _ ← Call.reads fun a => a.node idx
  modify fun a => a.upd idx f

/-- Resolves a user ID to a node index. -/
def resolve (a : Arena) (userId : Uuid) : Query TreeError NodeIndex :=
  match a.index.lookup userId with
  | some idx => .ok idx
  | none => .error (.err (.userNotFound userId))

/-- `resolve` for a sponsor: `map_err` renames the one error it has. -/
def resolveSponsor (a : Arena) (sponsorId : Uuid) : Query TreeError NodeIndex :=
  match a.resolve sponsorId with
  | .error (.err (.userNotFound id)) => .error (.err (.sponsorNotFound id))
  | other => other

/-- Allocates a slot, a freed one when there is one. -/
def allocSlot (node : Node) : Call ε Arena NodeIndex := do
  let a ← get
  match a.freeList.getLast? with
  | some freeIdx => do
      modify fun a => { a with freeList := a.freeList.dropLast }
      slotMut freeIdx fun _ => node
      pure freeIdx
  | none => do
      modify fun a => { a with nodes := a.nodes ++ [node] }
      pure a.nodes.length

def checkUserId (userId : Uuid) : Query TreeError Unit :=
  stopIf (userId = Uuid.nil) (.err .nilUserId)

/-- Clears a slot and adds it to the free list. The first check is a `debug_assert!`. -/
def tombstone (idx : NodeIndex) : Call ε Arena Unit := do
  Call.reads fun a => stopIf (idx ∈ a.freeList) (.panic "double tombstone")
  slotMut idx fun _ => Node.freed
  modify fun a => { a with freeList := a.freeList ++ [idx] }

/-! ## 2. Sponsors of removed nodes -/

/-- The loop of `survivingSponsor`: at most `bound` candidates are looked at. -/
def sponsorWalk (a : Arena) (removed : List NodeIndex) (cycle : TreeError) :
    Nat → Option NodeIndex → Query TreeError (Option NodeIndex)
  | 0, _ => .error (.err cycle)
  | _ + 1, none => .ok none
  | bound + 1, some candidate =>
    if candidate ∉ removed then .ok (some candidate)
    else do
      let n ← a.slot candidate
      sponsorWalk a removed cycle bound n.sponsor

/-- Finds the nearest sponsor of `idx` that is not in `removed`. -/
def survivingSponsor (a : Arena) (idx : NodeIndex) (removed : List NodeIndex) :
    Query TreeError (Option NodeIndex) := do
  let n ← a.slot idx
  sponsorWalk a removed (.sponsorCycle n.userId a.nodes.length) a.nodes.length n.sponsor

/-- The recruits of `idx` that are not themselves in `removed`. -/
def survivingRecruits (a : Arena) (idx : NodeIndex) (removed : List NodeIndex) :
    Query ε (List NodeIndex) := do
  let n ← a.slot idx
  .ok (n.sponsored.filter (· ∉ removed))

/-- One round of `checkSponsoredRemovable`. -/
def checkRecruitsMovable (a : Arena) (removed : List NodeIndex) (idx : NodeIndex) :
    Query TreeError Unit := do
  let survivors ← a.survivingRecruits idx removed
  if survivors = [] then .ok ()
  else
    let n ← a.slot idx
    match ← a.survivingSponsor idx removed with
    | none => .error (.err (.sponsorlessWithRecruits n.userId survivors.length))
    | some target =>
      -- a target among the recruits being moved would end up sponsoring itself
      stopIf (target ∈ survivors) (.err (.sponsorCycle n.userId a.nodes.length))

/-- Reports whether every node in `removed` can give up its recruits. -/
def checkSponsoredRemovable (a : Arena) (removed : List NodeIndex) : Query TreeError Unit :=
  forM removed (a.checkRecruitsMovable removed)

/-- What one removed node gives up: its recruits that stay, and where they go. -/
structure Handover where
  idx : NodeIndex
  survivors : List NodeIndex
  target : Option NodeIndex

/-- The plan of `reparentSponsored` for one removed node. -/
def planHandover (a : Arena) (removed : List NodeIndex) (idx : NodeIndex) :
    Query TreeError Handover := do
  let survivors ← a.survivingRecruits idx removed
  if survivors = [] then .ok ⟨idx, survivors, none⟩
  else
    match a.survivingSponsor idx removed with
    | .error (.err _) => .error (.panic "sponsor chain did not terminate")
    | .error e => .error e
    | .ok target => .ok ⟨idx, survivors, target⟩

/-- Moves one recruit to the new sponsor. -/
def handOver (target : Option NodeIndex) (s : NodeIndex) : Call TreeError Arena (List Responsored) :=
  do
    slotMut s fun n => { n with sponsor := target }
    match target with
    | none => pure []
    | some targetIdx => do
        slotMut targetIdx fun n => { n with sponsored := n.sponsored ++ [s] }
        let moved ← Call.reads fun a => a.slot s
        let sponsor ← Call.reads fun a => a.slot targetIdx
        pure [⟨moved.userId, sponsor.userId⟩]

/-- The inner loop of `reparentSponsored`. -/
def handOverAll (target : Option NodeIndex) : List NodeIndex →
    Call TreeError Arena (List Responsored)
  | [] => pure []
  | s :: survivors => do
      let first ← handOver target s
      let rest ← handOverAll target survivors
      pure (first ++ rest)

/-- The apply loop of `reparentSponsored`. -/
def applyHandovers : List Handover → Call TreeError Arena (List Responsored)
  | [] => pure []
  | h :: plan => do
      let first ← handOverAll h.target h.survivors
      slotMut h.idx fun n => { n with sponsored := [] }
      let rest ← applyHandovers plan
      pure (first ++ rest)

/-- Moves the recruits of every node in `removed` onto their nearest surviving sponsor, and reports
    who moved. Every target is resolved before anything moves. -/
def reparentSponsored (removed : List NodeIndex) : Call TreeError Arena (List Responsored) := do
  let plan ← Call.reads fun a => (firstSeen [] removed).mapM (a.planHandover removed)
  applyHandovers plan

/-! ## 3. What the readers and writers do -/

section Slots

variable {a : Arena} {idx : NodeIndex}

theorem Live.lt (h : a.Live idx) : idx < a.nodes.length := by
  refine Nat.lt_of_not_le fun hle => h ?_
  unfold nodeAt
  rw [getD_eq_default _ _ hle]
  rfl

theorem nodeAt_of_le (h : a.nodes.length ≤ idx) : a.nodeAt idx = Node.freed :=
  getD_eq_default _ _ h

theorem getElem?_eq_nodeAt (h : idx < a.nodes.length) : a.nodes[idx]? = some (a.nodeAt idx) := by
  unfold nodeAt
  rw [getD_eq_getElem _ _ h, getElem?_eq_getElem h]

@[simp] theorem upd_index (f : Node → Node) : (a.upd idx f).index = a.index := rfl

@[simp] theorem upd_root (f : Node → Node) : (a.upd idx f).root = a.root := rfl

@[simp] theorem upd_freeList (f : Node → Node) : (a.upd idx f).freeList = a.freeList := rfl

@[simp] theorem length_upd (f : Node → Node) : (a.upd idx f).nodes.length = a.nodes.length := length_modify ..

theorem nodeAt_upd (h : idx < a.nodes.length) (f : Node → Node) (j : NodeIndex) :
    (a.upd idx f).nodeAt j = if j = idx then f (a.nodeAt j) else a.nodeAt j := by
  unfold nodeAt upd
  simp only [getD_eq_getElem?_getD, getElem?_modify]
  by_cases hj : j = idx
  · subst hj
    simp [getElem?_eq_getElem h]
  · simp [hj, Ne.symm hj]

theorem slot_ok (h : idx < a.nodes.length) : (a.slot idx : Query ε Node) = .ok (a.nodeAt idx) := by
  unfold slot
  rw [getElem?_eq_nodeAt h]

theorem slot_eq_ok {n : Node} :
    (a.slot idx : Query ε Node) = .ok n ↔ idx < a.nodes.length ∧ n = a.nodeAt idx := by
  by_cases h : idx < a.nodes.length
  · simp [slot_ok h, h, eq_comm]
  · unfold slot
    rw [getElem?_eq_none (Nat.le_of_not_lt h)]
    simp [h]

theorem node_ok (h : a.Live idx) : (a.node idx : Query ε Node) = .ok (a.nodeAt idx) := by
  unfold node
  rw [bind_ok (slot_ok h.lt), if_neg h]

theorem of_node_ok {n : Node} (h : (a.node idx : Query ε Node) = .ok n) : a.Live idx ∧ a.nodeAt idx = n := by
  obtain ⟨n', hn', h⟩ := bind_eq_ok.mp h
  obtain ⟨-, rfl⟩ := slot_eq_ok.mp hn'
  split at h
  · cases h
  · rename_i hlive
    cases h
    exact ⟨hlive, rfl⟩

theorem slotMut_ok (h : idx < a.nodes.length) (f : Node → Node) :
    (slotMut idx f : Call ε Arena Unit).run a = .ok () (a.upd idx f) := by
  simp [slotMut, slot_ok h]

theorem nodeMut_ok (h : a.Live idx) (f : Node → Node) :
    (nodeMut idx f : Call ε Arena Unit).run a = .ok () (a.upd idx f) := by
  simp [nodeMut, node_ok h]

theorem resolve_eq_ok {u : Uuid} : a.resolve u = .ok idx ↔ a.index.lookup u = some idx := by
  unfold resolve
  split <;> simp_all

theorem resolve_eq_error {u : Uuid} {e : Stop TreeError} :
    a.resolve u = .error e ↔ a.index.lookup u = none ∧ e = .err (.userNotFound u) := by
  unfold resolve
  cases a.index.lookup u with
  | none => simp [eq_comm]
  | some i => simp

theorem resolveSponsor_eq_ok {u : Uuid} : a.resolveSponsor u = .ok idx ↔ a.index.lookup u = some idx := by
  unfold resolveSponsor resolve
  cases a.index.lookup u <;> simp

theorem resolve_safe (u : Uuid) : Query.Safe (a.resolve u) := by
  unfold resolve
  split
  · exact safe_ok _
  · exact safe_err _

theorem resolveSponsor_safe (u : Uuid) : Query.Safe (a.resolveSponsor u) := by
  unfold resolveSponsor resolve
  cases a.index.lookup u with
  | none => exact safe_err _
  | some i => exact safe_ok i

end Slots

/-! ## 4. Allocation -/

/-- `a'` is `a` with node `n` in the fresh slot `k`. -/
structure Allocated (a a' : Arena) (k : NodeIndex) (n : Node) : Prop where
  fresh : ¬ a.Live k
  nodeAt : ∀ j, a'.nodeAt j = if j = k then n else a.nodeAt j
  index : a'.index = a.index
  root : a'.root = a.root
  lt : k < a'.nodes.length
  length : a.nodes.length ≤ a'.nodes.length ∧ a'.nodes.length ≤ a.nodes.length + 1
  free_sub : ∀ i ∈ a'.freeList, i ∈ a.freeList ∧ i ≠ k
  free_nodup : a'.freeList.Nodup

theorem allocSlot_ok {a : Arena} (hfree : ∀ i ∈ a.freeList, i < a.nodes.length ∧ ¬ a.Live i)
    (hnd : a.freeList.Nodup) (n : Node) :
    ∃ a' k, (allocSlot n : Call ε Arena NodeIndex).run a = .ok k a' ∧ Allocated a a' k n := by
  cases hl : a.freeList.getLast? with
  | none =>
    refine ⟨{ a with nodes := a.nodes ++ [n] }, a.nodes.length, by simp [allocSlot, hl],
      ⟨?_, fun j => ?_, rfl, rfl, by simp, by simp, fun i hi => ?_, hnd⟩⟩
    · exact fun h => Nat.lt_irrefl _ h.lt
    · show (a.nodes ++ [n]).getD j _ = _
      rcases Nat.lt_trichotomy j a.nodes.length with h | h | h
      · rw [getD_append _ _ _ _ h, if_neg (Nat.ne_of_lt h)]
        rfl
      · subst h
        simp
      · rw [if_neg (Nat.ne_of_gt h), nodeAt_of_le (Nat.le_of_lt h), getD_eq_default]
        rw [length_append]
        exact h
    · rw [getLast?_eq_none_iff.mp hl] at hi
      exact absurd hi not_mem_nil
  | some free =>
    obtain ⟨rest, hrest⟩ := getLast?_eq_some_iff.mp hl
    have hmem : free ∈ a.freeList := by rw [hrest]; simp
    have hdrop : a.freeList.dropLast = rest := by rw [hrest]; simp
    obtain ⟨hlt, hdead⟩ := hfree free hmem
    rw [hrest] at hnd
    obtain ⟨hrnd, -, hdis⟩ := nodup_append.mp hnd
    let popped : Arena := { a with freeList := rest }
    have hlt' : free < popped.nodes.length := hlt
    refine ⟨popped.upd free fun _ => n, free, ?_,
      ⟨hdead, fun j => ?_, rfl, rfl, by simpa, by simp [popped], fun i hi => ?_, hrnd⟩⟩
    · have hrun : (slotMut free fun _ => n : Call ε Arena Unit).run
          { a with freeList := a.freeList.dropLast } = .ok () (popped.upd free fun _ => n) := by
        rw [hdrop]
        exact slotMut_ok hlt' _
      simp only [allocSlot, run_bind, run_get, hl, run_modify, hrun, run_pure]
    · rw [nodeAt_upd hlt']
      rfl
    · refine ⟨by rw [hrest]; exact mem_append_left _ hi, ?_⟩
      exact hdis i hi free (mem_singleton.mpr rfl)

end Arena

end MlmForge.Engine
