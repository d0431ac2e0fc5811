/-
  Subject:   The binary tree: two child slots for each node, left and right.

  The children of a node are rebuilt from its slots after each change.

  * **`validateRestored_iff`** -- what a restored binary tree is accepted for.
-/
import MlmForge.Engine.Slots

namespace MlmForge.Engine

open Query Call Arena Option AList

/-- The left and the right child slot of a node. -/
abbrev BinarySlots := Vector (Option NodeIndex) 2

/-- Arena-backed binary tree. -/
structure BinaryTree where
  arena : Arena
  slots : Arena.SlotMap BinarySlots
  deriving DecidableEq

namespace BinaryTree

def new : BinaryTree := ⟨Arena.new, ∅⟩

/-- A call on the tree's arena. -/
def onArena {α : Type} (m : Call TreeError Arena α) : Call TreeError BinaryTree α :=
  zoom arena (fun t a => { t with arena := a }) m

def validateRestored (t : BinaryTree) : Query SnapshotConsistencyError Unit := do
  t.arena.validateRestored
  lowestFault (fun p c => .ok (t.arena.entryFault Vector.toList (fun _ _ => none) p c)) none
    t.slots.entries
  t.arena.checkEveryLiveNodeHasASlot t.slots
  t.arena.checkEveryLiveNodeIsSlottedOnce Vector.toList t.slots
  t.arena.checkChildrenMatchSlots Vector.toList t.slots

/-! ## 1. Operations -/

/-- `self.slots.get(&idx).expect(..)` -/
def slotsOf (t : BinaryTree) (idx : NodeIndex) : Query TreeError BinarySlots :=
  match t.slots.lookup idx with
  | some row => .ok row
  | none => .error (.panic "slots entry missing for node -- arena and slots map out of sync")

def insertSlots (t : BinaryTree) (idx : NodeIndex) (row : BinarySlots) : BinaryTree :=
  { t with slots := t.slots.insert idx row }

/-- Rebuilds a node's children from its slots: the left one first, occupied slots only. -/
def rebuildChildren (parentIdx : NodeIndex) : Call TreeError BinaryTree Unit := do
  let row ← reads fun t => t.slotsOf parentIdx
  onArena (nodeMut parentIdx fun n => { n with children := row.toList.reduceOption })

def checkAddRoot (t : BinaryTree) (userId : Uuid) : Query TreeError Unit :=
  t.arena.checkAddRoot userId

def addRoot (userId : Uuid) (enrolledAt : Int) : Call TreeError BinaryTree NodeIndex := do
  reads fun t => t.checkAddRoot userId
  let idx ← onArena (allocSlot (Node.leaf userId none none 0 enrolledAt))
  onArena (modify fun a => a.indexInsert userId idx)
  onArena (modify fun a => { a with root := some idx })
  modify fun t => t.insertSlots idx #v[none, none]
  pure idx

def checkAddNode (t : BinaryTree) (userId parentId : Uuid) (position : Nat) (sponsorId : Uuid) :
    Query TreeError Unit := do
  checkUserId userId
  stopIf (1 < position) (.err (.positionOutOfRange parentId position 2))
  stopIf (t.arena.index.lookup userId).isSome (.err (.userAlreadyExists userId))
  let parentIdx ← t.arena.resolve parentId
  let _ ← t.arena.resolveSponsor sponsorId
  let parentSlots := (t.slots.lookup parentIdx).getD #v[none, none]
  match parentSlots[position]? with
  | none => .error (.panic "index out of bounds")
  | some place => stopIf place.isSome (.err (.positionOccupied parentId position))

/-- Adds a child node at an explicit position under a parent. -/
def addNode [Build] (userId parentId : Uuid) (position : Nat) (sponsorId : Uuid) (enrolledAt : Int) :
    Call TreeError BinaryTree NodeIndex := do
  reads fun t => t.checkAddNode userId parentId position sponsorId
  let parentIdx ← reads fun t => t.arena.resolve parentId
  let sponsorIdx ← reads fun t => t.arena.resolve sponsorId
  let parent ← reads fun t => t.arena.node parentIdx
  let depth ← reads fun _ => deeper parent.depth
  let idx ← onArena (allocSlot (Node.leaf userId (some parentIdx) (some sponsorIdx) depth enrolledAt))
  onArena (modify fun a => a.indexInsert userId idx)
  modify fun t => t.insertSlots idx #v[none, none]
  let row ← reads fun t => t.slotsOf parentIdx
  reads fun _ => stopIf (2 ≤ position) (.panic "index out of bounds")
  modify fun t => t.insertSlots parentIdx (row.setIfInBounds position (some idx))
  rebuildChildren parentIdx
  onArena (nodeMut sponsorIdx fun n => { n with sponsored := n.sponsored ++ [idx] })
  pure idx

def checkRemoveNode (t : BinaryTree) (userId : Uuid) : Query TreeError Unit :=
  t.arena.checkRemoveLeaf userId

/-- Takes a node out of its parent's slots. -/
def unslot (idx : NodeIndex) : Call TreeError BinaryTree Unit := do
  let n ← reads fun t => t.arena.node idx
  match n.parent with
  | none => pure ()
  | some parentIdx => do
      let row ← reads fun t => t.slotsOf parentIdx
      modify fun t => t.insertSlots parentIdx
        (row.map fun slot => if slot = some idx then none else slot)
      rebuildChildren parentIdx

def removeNode (userId : Uuid) : Call TreeError BinaryTree (List Responsored) := do
  reads fun t => t.checkRemoveNode userId
  let idx ← reads fun t => t.arena.resolve userId
  unslot idx
  onArena (unlinkSponsor idx)
  onArena (modify fun a => if a.root = some idx then { a with root := none } else a)
  let moved ← onArena (reparentSponsored [idx])
  modify fun t => { t with slots := t.slots.erase idx }
  onArena (modify fun a => a.indexRemove userId)
  onArena (tombstone idx)
  pure moved

/-! ## 2. Valid binary trees -/

/-- A valid arena whose children lists are what the slots hold. -/
structure Valid (t : BinaryTree) : Prop where
  arena : t.arena.Valid
  agree : Arena.SlotsAgree Vector.toList t.arena t.slots

/-- **A restored binary tree is accepted exactly when it is valid.** -/
theorem validateRestored_iff {t : BinaryTree} : t.validateRestored = .ok () ↔ t.Valid := by
  unfold validateRestored
  rw [seq_eq_ok, Arena.validateRestored_iff]
  simp only [seq_eq_ok]
  constructor
  · rintro ⟨hv, h⟩
    exact ⟨hv, ((checkSlots_iff hv).mp h).1⟩
  · rintro ⟨hv, h⟩
    exact ⟨hv, (checkSlots_iff hv).mpr ⟨h, fun _ _ _ => rfl⟩⟩

theorem new_valid : Valid new where
  arena := Arena.new_valid
  agree := ⟨fun _ => ⟨fun h => absurd rfl h, fun h => absurd rfl h⟩, nofun⟩

/-! ## 3. What the operations do -/

section Specs

variable {t : BinaryTree} {u : Uuid} {i : NodeIndex} {row : BinarySlots}

theorem slotsOf_ok (h : t.slots.lookup i = some row) : t.slotsOf i = .ok row := by
  unfold slotsOf
  rw [h]

theorem rebuildChildren_ok (h : t.slots.lookup i = some row)
    (hi : t.arena.Live i) : (rebuildChildren i).run t = .ok () { t with
      arena := t.arena.upd i fun n => { n with children := row.toList.reduceOption } } := by
  simp only [rebuildChildren, run_bind, run_reads, slotsOf_ok h, onArena, run_zoom, nodeMut_ok hi]

theorem addRoot_spec (h : t.Valid) (hc : t.checkAddRoot u = .ok ()) (e : Int) :
    ∃ k t', (addRoot u e).run t = .ok k t' ∧ Arena.Grown t.arena t'.arena k (Node.leaf u none none 0 e) [] ∧
      t'.slots = t.slots.insert k #v[none, none] ∧ t'.Valid := by
  obtain ⟨a, k, hrun, g, hv⟩ := h.arena.addRoot hc e
  refine ⟨k, ⟨_, t.slots.insert k #v[none, none]⟩, ?_, g, rfl, hv, h.agree.insert_root g (leaf_root hc) rfl rfl⟩
  simp [addRoot, onArena, hc, hrun, insertSlots]

variable {parentId sponsorId : Uuid} {position : Nat}

theorem checkAddNode_eq_ok (hc : t.checkAddNode u parentId position sponsorId = .ok ()) (h : t.Valid) :
    u ≠ Uuid.nil ∧ t.arena.index.lookup u = none ∧ position < 2 ∧
      ∃ p s row, t.arena.index.lookup parentId = some p ∧ t.arena.index.lookup sponsorId = some s ∧
        t.slots.lookup p = some row ∧ row.toList[position]? = some none := by
  simp only [checkAddNode, checkUserId, bind_eq_ok, stopIf_eq_ok, resolve_eq_ok, resolveSponsor_eq_ok] at hc
  obtain ⟨_, hu, _, hpos, _, hn, p, hp, s, hs, hplace⟩ := hc
  obtain ⟨row, hrow⟩ := h.agree.exists_row (h.arena.live_of_lookup hp)
  refine ⟨hu, by simpa using hn, by omega, p, s, row, hp, hs, hrow, ?_⟩
  rw [hrow, getD_some] at hplace
  have hget : row.toList[position]? = row[position]? := by simp
  rw [hget]
  split at hplace
  · cases hplace
  · rename_i place hpl
    rw [hpl]
    simpa using hplace

theorem checkAddNode_safe (parentId sponsorId : Uuid) (position : Nat) :
    Query.Safe (t.checkAddNode u parentId position sponsorId) := by
  refine (safe_stopIf _).bind fun _ _ => (safe_stopIf _).bind fun _ hpos =>
    (safe_stopIf _).bind fun _ _ => (resolve_safe _).bind fun p _ =>
      (resolveSponsor_safe _).bind fun _ _ => ?_
  have hpos : position < 2 := by
    rw [stopIf_eq_ok] at hpos
    omega
  dsimp only
  rw [Vector.getElem?_eq_getElem hpos]
  exact safe_stopIf _

theorem addNode_spec [Build] (h : t.Valid) (hc : t.checkAddNode u parentId position sponsorId = .ok ())
    (hroom : t.arena.Roomy) (e : Int) : ∃ k t' p s row, t.arena.index.lookup parentId = some p ∧
      t.arena.index.lookup sponsorId = some s ∧ t.slots.lookup p = some row ∧
      (addNode u parentId position sponsorId e).run t = .ok k t' ∧ Arena.Grown t.arena t'.arena k
        (Node.leaf u (some p) (some s) ((t.arena.nodeAt p).depth + 1) e)
        (row.toList.set position (some k)).reduceOption ∧
      t'.slots = (t.slots.insert k #v[none, none]).insert p
        (row.setIfInBounds position (some k)) ∧ t'.Valid := by
  obtain ⟨hu, hn, hpos, p, s, row, hp, hs, hrow, hempty⟩ := checkAddNode_eq_ok hc h
  have hpl := h.arena.live_of_lookup hp
  have hsl := h.arena.live_of_lookup hs
  have hl : Arena.Leaf t.arena (Node.leaf u (some p) (some s) ((t.arena.nodeAt p).depth + 1) e) :=
    leaf_node hu hn hpl fun _ e => some.inj e ▸ hsl
  obtain ⟨a, k, hrun, al⟩ := allocSlot_ok (ε := TreeError) h.arena.free_freed
    h.arena.free_nodup (Node.leaf u (some p) (some s) ((t.arena.nodeAt p).depth + 1) e)
  have hpk : p ≠ k := fun e => al.fresh (e ▸ hpl)
  have hfill : (row.setIfInBounds position (some k)).toList = row.toList.set position (some k) := by
    simp
  have g := grown_node al rfl hpl (fun e => some.inj e ▸ hsl) fun _ => (row.setIfInBounds position (some k)).toList.reduceOption
  have hocc : row.toList.reduceOption = t.arena.childrenOf p := h.agree.children hrow
  have hk : k ∉ row.toList.reduceOption := by
    rw [hocc]
    exact fun hmem => al.fresh (h.arena.live_child hmem)
  refine ⟨k, ⟨_, (t.slots.insert k #v[none, none]).insert p
    (row.setIfInBounds position (some k))⟩, p, s, row, hp, hs, hrow, ?_, hfill ▸ g, rfl,
    g.valid h.arena hl (fun q hq y => ?_) fun _ => ?_, h.agree.insert_node g hl rfl rfl⟩
  · have hlook : (t.slots.insert k #v[none, none]).lookup p = some row := by
      rw [lookup_insert_ne hpk, hrow]
    have hpl' : (a.indexInsert u k).Live p := al.live hpl
    have hsl' : ((a.indexInsert u k).upd p fun n => { n with children :=
        (row.setIfInBounds position (some k)).toList.reduceOption }).Live s := by
      show (nodeAt _ s).userId ≠ _
      rw [nodeAt_upd hpl'.lt]
      split <;> exact al.live hsl
    have r1 : BinaryTree.slotsOf ⟨a.indexInsert u k, t.slots.insert k #v[none, none]⟩ p = .ok row :=
      slotsOf_ok hlook
    have r2 : (rebuildChildren p).run ⟨a.indexInsert u k, (t.slots.insert k #v[none, none]).insert p
        (row.setIfInBounds position (some k))⟩ = .ok () _ :=
      rebuildChildren_ok (AList.lookup_insert _) hpl'
    have r3 := nodeMut_ok (ε := TreeError) hsl' fun n => { n with sponsored := n.sponsored ++ [k] }
    simp only [addNode, run_bind, run_reads, hc, resolve_eq_ok.mpr hp,
      resolve_eq_ok.mpr hs, node_ok hpl, h.arena.deeper_ok hroom hpl, onArena, run_zoom, hrun, run_modify,
      insertSlots, r1, stopIf, Nat.not_le.mpr hpos, if_false, r2, r3, run_pure]
    rfl
  · cases hq
    rw [hfill, mem_fill hempty, hocc]
  · rw [hfill]
    exact nodup_fill hempty hk (hocc ▸ h.arena.placed.nodup p)

/-- A row without one occupant. -/
def cleared (i : NodeIndex) (row : BinarySlots) : BinarySlots :=
  row.map fun slot => if slot = some i then none else slot

theorem toList_cleared (i : NodeIndex) (row : BinarySlots) :
    (cleared i row).toList = row.toList.map fun slot => if slot = some i then none else slot :=
  Vector.toList_map

theorem Valid.cleared_row (h : t.Valid) {j : NodeIndex} (hj : t.arena.parentOf i ≠ some j) :
    (t.slots.lookup j).map (cleared i) = t.slots.lookup j := by
  cases hrow : t.slots.lookup j with
  | none => rfl
  | some row =>
    have hnot : some i ∉ row.toList := by
      intro hm
      rw [← List.reduceOption_mem_iff, h.agree.children hrow, h.arena.placed.mem_iff] at hm
      exact hj hm
    refine congrArg some (Vector.toList_inj.mp ?_)
    rw [toList_cleared]
    refine (List.map_congr_left fun slot hs => ?_).trans (List.map_id _)
    have hne : slot ≠ some i := by
      rintro rfl
      exact hnot hs
    exact if_neg hne

theorem unslot_ok (h : t.Valid) (hi : t.arena.Live i) :
    ∃ t', (unslot i).run t = .ok () t' ∧ Arena.Unlisted t.arena t'.arena i ∧ t'.arena.root = t.arena.root ∧
      ∀ j, t'.slots.lookup j = (t.slots.lookup j).map (cleared i) := by
  cases hp : t.arena.parentOf i with
  | none =>
    refine ⟨t, ?_, unlisted_top h.arena hp, rfl, fun j => (h.cleared_row (by rw [hp]; nofun)).symm⟩
    simp only [unslot, run_bind, run_reads, node_ok hi]
    rw [show (t.arena.nodeAt i).parent = none from hp]
    rfl
  | some p =>
    have hpl := h.arena.live_parent hp
    obtain ⟨row, hrow⟩ := h.agree.exists_row hpl
    have hrow' : (cleared i row).toList.reduceOption = (t.arena.childrenOf p).filter (· ≠ i) := by
      rw [← h.agree.children hrow, ← reduceOption_clearAll, toList_cleared]
    have hunl := h.arena.unlisted hp (fun _ => (cleared i row).toList.reduceOption) hrow'
    refine ⟨⟨_, t.slots.insert p (cleared i row)⟩, ?_, hunl, rfl, fun j => ?_⟩
    · have r1 : (rebuildChildren p).run ⟨t.arena, t.slots.insert p (cleared i row)⟩ = .ok () _ :=
        rebuildChildren_ok (AList.lookup_insert _) hpl
      simp only [unslot, run_bind, run_reads, node_ok hi]
      rw [show (t.arena.nodeAt i).parent = some p from hp]
      simp only [run_bind, run_reads, slotsOf_ok hrow, run_modify, insertSlots]
      exact r1
    · by_cases hj : j = p
      · subst hj
        rw [AList.lookup_insert, hrow]
        rfl
      · rw [lookup_insert_ne hj, h.cleared_row]
        rw [hp]
        exact fun e => hj (some.inj e).symm

theorem removeNode_spec (h : t.Valid) (hc : t.checkRemoveNode u = .ok ()) :
    ∃ i t' m, t.arena.index.lookup u = some i ∧ (removeNode u).run t = .ok (t.arena.responsored [i]) t' ∧
      Arena.Pruned t.arena t'.arena [i] ∧ Arena.Unlisted t.arena m i ∧ Arena.Cleared m t'.arena i ∧
      (∀ j, t'.slots.lookup j = if j = i then none else (t.slots.lookup j).map (cleared i)) ∧
      t'.Valid := by
  obtain ⟨i, hi, hleaf, -⟩ := h.arena.checkRemoveLeaf_eq_ok hc
  have hl := h.arena.live_of_lookup hi
  have huser := (h.arena.index_iff.mp hi).2
  obtain ⟨t1, h1, hm, hr1, hrows⟩ := unslot_ok h hl
  obtain ⟨b, b', a', h2, hr2, h3, h4, hp, hcl, hroot⟩ := release_ok h.arena hm.toRepositioned hl
    (if t.arena.root = some i then none else t.arena.root)
  have hlook : ∀ j, (t1.slots.erase i).lookup j =
      if j = i then none else (t.slots.lookup j).map (cleared i) := fun j => by
    rw [Maps.lookup_erase, hrows]
  refine ⟨i, ⟨a', t1.slots.erase i⟩, t1.arena, hi, ?_, hp, hm, hcl, hlook,
    hp.valid_of_leaf h.arena hleaf hm hcl hroot, h.agree.of_pruned hp (fun j => ?_) fun {j c} hj => ?_⟩
  · rw [huser] at h4
    simp only [removeNode, run_bind, run_reads, hc, resolve_eq_ok.mpr hi, h1,
      onArena, run_zoom, h2, run_modify, clearRoot_eq, hr2, hr1, h3, h4, run_pure]
  · show (t1.slots.erase i).lookup j ≠ none ↔ _
    rw [hlook]
    by_cases hji : j = i <;> simp [hji]
  · have hj : (t1.slots.erase i).lookup j = some c := hj
    rw [hlook] at hj
    split at hj
    · cases hj
    · rename_i hji
      obtain ⟨row, hrow, rfl⟩ := map_eq_some_iff.mp hj
      show _ = a'.childrenOf j
      rw [hcl.childrenOf, if_neg hji, hm.childrenOf, ← h.agree.children hrow,
        ← reduceOption_clearAll, toList_cleared]

end Specs

end BinaryTree

end MlmForge.Engine
