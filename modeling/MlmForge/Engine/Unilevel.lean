/-
  Subject:   The unilevel tree: any number of children, a position is an index into the children.

  * `addRoot_spec`, `addNode_spec`, `removeNode_spec` -- on a valid tree each operation either is
    refused by its check, with the tree unchanged, or succeeds with a valid tree.
-/
import MlmForge.Engine.Grow
import MlmForge.Engine.Prune

namespace MlmForge.Engine

open Query Call Arena List

/-- Arena-backed unilevel tree. -/
structure UnilevelTree where
  arena : Arena
  deriving DecidableEq

namespace UnilevelTree

def new : UnilevelTree := ⟨Arena.new⟩

/-- A call on the tree's arena. -/
def onArena {α : Type} (m : Call TreeError Arena α) : Call TreeError UnilevelTree α :=
  zoom arena (fun t a => { t with arena := a }) m

def validateRestored (t : UnilevelTree) : Query SnapshotConsistencyError Unit :=
  t.arena.validateRestored

/-! ## 1. Operations -/

def checkAddRoot (t : UnilevelTree) (userId : Uuid) : Query TreeError Unit :=
  t.arena.checkAddRoot userId

def addRoot (userId : Uuid) (enrolledAt : Int) : Call TreeError UnilevelTree NodeIndex := do
  reads fun t => t.checkAddRoot userId
  let idx ← onArena (allocSlot (Node.leaf userId none none 0 enrolledAt))
  onArena (modify fun a => a.indexInsert userId idx)
  onArena (modify fun a => { a with root := some idx })
  pure idx

def checkAddNode (t : UnilevelTree) (userId parentId sponsorId : Uuid) : Query TreeError Unit := do
  checkUserId userId
  stopIf (t.arena.index.lookup userId).isSome (.err (.userAlreadyExists userId))
  let _ ← t.arena.resolve parentId
  let _ ← t.arena.resolveSponsor sponsorId
  .ok ()

/-- Adds a child node under an existing parent, as the last of its children. -/
def addNode [Build] (userId parentId sponsorId : Uuid) (enrolledAt : Int) :
    Call TreeError UnilevelTree NodeIndex := do
  reads fun t => t.checkAddNode userId parentId sponsorId
  let parentIdx ← reads fun t => t.arena.resolve parentId
  let sponsorIdx ← reads fun t => t.arena.resolve sponsorId
  let parent ← reads fun t => t.arena.node parentIdx
  let depth ← reads fun _ => deeper parent.depth
  let idx ← onArena (allocSlot (Node.leaf userId (some parentIdx) (some sponsorIdx) depth enrolledAt))
  onArena (modify fun a => a.indexInsert userId idx)
  onArena (nodeMut parentIdx fun n => { n with children := n.children ++ [idx] })
  onArena (nodeMut sponsorIdx fun n => { n with sponsored := n.sponsored ++ [idx] })
  pure idx

def checkRemoveNode (t : UnilevelTree) (userId : Uuid) : Query TreeError Unit :=
  t.arena.checkRemoveLeaf userId

/-- Takes a node off its parent's list of children. -/
def unlist (idx : NodeIndex) : Call TreeError UnilevelTree Unit := do
  let n ← reads fun t => t.arena.node idx
  match n.parent with
  | none => pure ()
  | some parentIdx =>
    onArena (nodeMut parentIdx fun p => { p with children := p.children.filter (· ≠ idx) })

def removeNode (userId : Uuid) : Call TreeError UnilevelTree (List Responsored) := do
  reads fun t => t.checkRemoveNode userId
  let idx ← reads fun t => t.arena.resolve userId
  unlist idx
  onArena (unlinkSponsor idx)
  onArena (modify fun a => if a.root = some idx then { a with root := none } else a)
  let moved ← onArena (reparentSponsored [idx])
  onArena (modify fun a => a.indexRemove userId)
  onArena (tombstone idx)
  pure moved

/-! ## 2. What they do -/

section Specs

variable {t : UnilevelTree} {u : Uuid}

theorem addRoot_spec (h : t.arena.Valid) (hc : t.checkAddRoot u = .ok ()) (e : Int) :
    ∃ k t', (addRoot u e).run t = .ok k t' ∧
      Arena.Grown t.arena t'.arena k (Node.leaf u none none 0 e) [] ∧ t'.arena.Valid := by
  obtain ⟨a, k, hrun, g, hv⟩ := h.addRoot hc e
  refine ⟨k, ⟨_⟩, ?_, g, hv⟩
  simp [addRoot, onArena, hc, hrun]

variable {parentId sponsorId : Uuid}

theorem checkAddNode_eq_ok (hc : t.checkAddNode u parentId sponsorId = .ok ()) :
    u ≠ Uuid.nil ∧ t.arena.index.lookup u = none ∧
      ∃ p s, t.arena.index.lookup parentId = some p ∧ t.arena.index.lookup sponsorId = some s := by
  simp only [checkAddNode, checkUserId, bind_eq_ok, stopIf_eq_ok, resolve_eq_ok, resolveSponsor_eq_ok] at hc
  obtain ⟨_, hu, _, hn, p, hp, s, hs, -⟩ := hc
  exact ⟨hu, by simpa using hn, p, s, hp, hs⟩

theorem checkAddNode_ok {p s : NodeIndex} (hu : u ≠ Uuid.nil)
    (hn : t.arena.index.lookup u = none) (hp : t.arena.index.lookup parentId = some p)
    (hs : t.arena.index.lookup sponsorId = some s) : t.checkAddNode u parentId sponsorId = .ok () := by
  simp only [checkAddNode, checkUserId, bind_eq_ok, stopIf_eq_ok, resolve_eq_ok, resolveSponsor_eq_ok]
  exact ⟨(), hu, (), by simp [hn], p, hp, s, hs, trivial⟩

theorem checkAddNode_safe (parentId sponsorId : Uuid) : Query.Safe (t.checkAddNode u parentId sponsorId) :=
  (safe_stopIf _).bind fun _ _ => (safe_stopIf _).bind fun _ _ =>
    (resolve_safe _).bind fun _ _ => (resolveSponsor_safe _).bind fun _ _ => safe_ok _

theorem addNode_run [Build] (h : t.arena.Valid) (hc : t.checkAddNode u parentId sponsorId = .ok ())
    {p s : NodeIndex} (hp : t.arena.index.lookup parentId = some p)
    (hs : t.arena.index.lookup sponsorId = some s) {d : Nat}
    (hd : deeper (ε := TreeError) (t.arena.nodeAt p).depth = .ok d) (e : Int) :
    ∃ k t', (addNode u parentId sponsorId e).run t = .ok k t' ∧ Arena.Grown t.arena t'.arena k
      (Node.leaf u (some p) (some s) d e) (t.arena.childrenOf p ++ [k]) := by
  have hpl := h.live_of_lookup hp
  have hsl := h.live_of_lookup hs
  obtain ⟨a, k, hrun, al⟩ := allocSlot_ok (ε := TreeError) h.free_freed h.free_nodup
    (Node.leaf u (some p) (some s) d e)
  refine ⟨k, ⟨_⟩, ?_, grown_node al rfl hpl (fun e => Option.some.inj e ▸ hsl) (· ++ [k])⟩
  have hpl' : (a.indexInsert u k).Live p := al.live hpl
  have e1 := nodeMut_ok (ε := TreeError) hpl' fun n => { n with children := n.children ++ [k] }
  have hsl' : ((a.indexInsert u k).upd p fun n => { n with children := n.children ++ [k] }).Live s := by
    show (nodeAt _ s).userId ≠ _
    rw [nodeAt_upd hpl'.lt]
    split <;> exact al.live hsl
  have e2 := nodeMut_ok (ε := TreeError) hsl' fun n => { n with sponsored := n.sponsored ++ [k] }
  simp only [addNode, run_bind, run_reads, hc, resolve_eq_ok.mpr hp,
    resolve_eq_ok.mpr hs, node_ok hpl, hd, onArena, run_zoom, hrun, run_modify, e1, e2, run_pure]
  rfl

theorem addNode_spec [Build] (h : t.arena.Valid) (hc : t.checkAddNode u parentId sponsorId = .ok ())
    (hroom : ∀ p, t.arena.index.lookup parentId = some p → (t.arena.nodeAt p).depth + 1 < 2 ^ 32) (e : Int) :
    ∃ k t' p s, t.arena.index.lookup parentId = some p ∧ t.arena.index.lookup sponsorId = some s ∧
      (addNode u parentId sponsorId e).run t = .ok k t' ∧ Arena.Grown t.arena t'.arena k
        (Node.leaf u (some p) (some s) ((t.arena.nodeAt p).depth + 1) e)
        (t.arena.childrenOf p ++ [k]) ∧ t'.arena.Valid := by
  obtain ⟨hu, hn, p, s, hp, hs⟩ := checkAddNode_eq_ok hc
  have hl : Arena.Leaf t.arena (Node.leaf u (some p) (some s) ((t.arena.nodeAt p).depth + 1) e) :=
    leaf_node hu hn (h.live_of_lookup hp) fun _ e => Option.some.inj e ▸ h.live_of_lookup hs
  obtain ⟨k, t', hrun, g⟩ := addNode_run h hc hp hs (deeper_ok (hroom p hp)) e
  have hk : k ∉ t.arena.childrenOf p := fun hmem => g.fresh (h.live_child hmem)
  refine ⟨k, t', p, s, hp, hs, hrun, g, g.valid h hl (fun q hq y => ?_) fun _ => ?_⟩
  · cases hq
    simp [or_comm]
  · exact nodup_append.mpr ⟨h.placed.nodup p, nodup_singleton k,
      fun x hx y hy e => hk (mem_singleton.mp hy ▸ e ▸ hx)⟩

theorem addNode_full (h : t.arena.Valid) (hc : t.checkAddNode u parentId sponsorId = .ok ())
    {p : NodeIndex} (hp : t.arena.index.lookup parentId = some p)
    (hfull : ¬ (t.arena.nodeAt p).depth + 1 < 2 ^ 32) (e : Int) :
    (@addNode .dev u parentId sponsorId e).run t = .error depthPanic t := by
  obtain ⟨-, -, i, s, hi, hs⟩ := checkAddNode_eq_ok hc
  cases hp.symm.trans hi
  have hdeeper : @deeper .dev TreeError (t.arena.nodeAt p).depth = .error depthPanic := by
    rw [deeper, if_neg hfull]
    rfl
  simp only [addNode, run_bind, run_reads, hc, resolve_eq_ok.mpr hp, resolve_eq_ok.mpr hs,
    node_ok (h.live_of_lookup hp), hdeeper]

theorem unlist_ok (h : t.arena.Valid) {i : NodeIndex} (hi : t.arena.Live i) :
    ∃ t', (unlist i).run t = .ok () t' ∧ Arena.Unlisted t.arena t'.arena i ∧
      t'.arena.root = t.arena.root := by
  cases hp : t.arena.parentOf i with
  | none =>
    refine ⟨t, ?_, unlisted_top h hp, rfl⟩
    simp only [unlist, run_bind, run_reads, node_ok hi]
    rw [show (t.arena.nodeAt i).parent = none from hp]
    rfl
  | some p =>
    refine ⟨⟨t.arena.upd p fun n => { n with children := n.children.filter (· ≠ i) }⟩, ?_,
      h.unlisted hp (·.filter (· ≠ i)) rfl, rfl⟩
    simp only [unlist, run_bind, run_reads, node_ok hi]
    rw [show (t.arena.nodeAt i).parent = some p from hp]
    simp only [onArena, run_zoom, nodeMut_ok (h.live_parent hp)]

theorem removeNode_spec (h : t.arena.Valid) (hc : t.checkRemoveNode u = .ok ()) :
    ∃ i t' m, t.arena.index.lookup u = some i ∧ (removeNode u).run t = .ok (t.arena.responsored [i]) t' ∧
      Arena.Pruned t.arena t'.arena [i] ∧ Arena.Unlisted t.arena m i ∧
      Arena.Cleared m t'.arena i ∧ t'.arena.Valid := by
  obtain ⟨i, hi, hleaf, -⟩ := h.checkRemoveLeaf_eq_ok hc
  have hl := h.live_of_lookup hi
  have huser := (h.index_iff.mp hi).2
  obtain ⟨t1, h1, hm, hr1⟩ := unlist_ok h hl
  obtain ⟨b, b', a', h2, hr2, h3, h4, hp, hcl, hroot⟩ := release_ok h hm.toRepositioned hl
    (if t.arena.root = some i then none else t.arena.root)
  refine ⟨i, ⟨a'⟩, t1.arena, hi, ?_, hp, hm, hcl, hp.valid_of_leaf h hleaf hm hcl hroot⟩
  rw [huser] at h4
  simp only [removeNode, run_bind, run_reads, hc, resolve_eq_ok.mpr hi, h1,
    onArena, run_zoom, h2, run_modify, clearRoot_eq, hr2, hr1, h3, h4, run_pure]

end Specs

end UnilevelTree

end MlmForge.Engine
