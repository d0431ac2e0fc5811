/-
  Subject:   `MatrixTree::remove_node`, both modes.

  * **`removeNode_spec`** -- a removal whose check passes cuts a subtree off or promotes a child, and
    leaves a valid tree.
-/
import MlmForge.Engine.MatrixTank

namespace MlmForge.Engine

open Query Call List Arena

namespace MatrixTree

section Check

variable {t : MatrixTree} {u : Uuid} {mode : PruningMode}

theorem Valid.removalSet (h : t.Valid) {i : NodeIndex} (hi : t.arena.Live i) (mode : PruningMode) :
    ∃ gone, t.removalSet i mode = .ok gone ∧ i ∈ gone ∧ ∀ x ∈ gone, t.arena.Live x := by
  cases mode with
  | promoteEarliest =>
    refine ⟨[i], rfl, mem_singleton.mpr rfl, fun x hx => ?_⟩
    rw [mem_singleton.mp hx]
    exact hi
  | holdingTank =>
    obtain ⟨below, hbelow, -, hmem⟩ := h.descendants hi
    refine ⟨i :: below, by rw [MatrixTree.removalSet, bind_ok hbelow], mem_cons_self, fun x hx => ?_⟩
    rcases mem_cons.mp hx with rfl | hx
    · exact hi
    · exact h.arena.live_below hi ((hmem x).mp hx).to_reflTransGen

theorem Valid.checkRemoveNode_safe (h : t.Valid) : Query.Safe (t.checkRemoveNode u mode) := by
  refine (resolve_safe u).bind fun i hi => (safe_stopIf _).bind fun _ _ => ?_
  obtain ⟨gone, hgone, -, hlive⟩ := h.removalSet (h.arena.live_of_lookup (resolve_eq_ok.mp hi)) mode
  rw [bind_ok hgone]
  exact h.arena.checkSponsoredRemovable_safe fun x hx => (hlive x hx).lt

theorem Valid.checkRemoveNode_eq_ok (h : t.Valid) (hc : t.checkRemoveNode u mode = .ok ()) :
    ∃ i p gone, t.arena.index.lookup u = some i ∧ t.arena.parentOf i = some p ∧
      t.removalSet i mode = .ok gone ∧ t.arena.checkSponsoredRemovable gone = .ok () := by
  simp only [checkRemoveNode, bind_eq_ok, stopIf_eq_ok, resolve_eq_ok] at hc
  obtain ⟨i, hi, _, hroot, gone, hgone, hs⟩ := hc
  obtain ⟨p, hp⟩ := h.arena.parent_of_ne_root (h.arena.live_of_lookup hi) hroot
  exact ⟨i, p, gone, hi, hp, hgone, hs⟩

theorem Valid.checkRemoveNode_error (h : t.Valid) {e : TreeError}
    (hc : t.checkRemoveNode u mode = .error (.err e)) :
    e = .userNotFound u ∨ e = .cannotRemoveRoot ∨ ∃ v n, e = .sponsorlessWithRecruits v n := by
  simp only [checkRemoveNode, bind_eq_error, stopIf_eq_ok, stopIf_eq_error,
    resolve_eq_ok, resolve_eq_error] at hc
  rcases hc with ⟨-, hc⟩ | ⟨i, hi, ⟨-, hc⟩ | ⟨_, -, hc | ⟨gone, hgone, hc⟩⟩⟩
  · cases hc
    exact .inl rfl
  · cases hc
    exact .inr (.inl rfl)
  all_goals obtain ⟨gone', hgone', -, hlive⟩ := h.removalSet (h.arena.live_of_lookup hi) mode
  · rw [hgone'] at hc
    cases hc
  · rw [hgone'] at hgone
    cases hgone
    obtain ⟨x, hx, hc⟩ := exists_of_forM_error hc
    rw [h.arena.checkRecruitsMovable (hlive x hx).lt] at hc
    split at hc
    · cases hc
      exact .inr (.inr ⟨_, _, rfl⟩)
    · cases hc

end Check

/-- The users that leave the tree: the one removed, or in holding-tank mode all that went there. -/
def leavers (result : RemovalResult) : PruningMode → List Uuid
  | .promoteEarliest => [result.removed]
  | .holdingTank => result.movedToTank

/-- What a removal of `idx` leaves, and what it reports: `gone` are the nodes that left, `moved` the
    nodes whose placement changed. -/
structure Removed (t t' : MatrixTree) (mode : PruningMode) (idx : NodeIndex)
    (gone moved : List NodeIndex) (result : RemovalResult) : Prop where
  valid : t'.Valid
  pruned : Arena.Pruned t.arena t'.arena gone
  mem : idx ∈ gone
  root : t'.arena.root = t.arena.root
  width : t'.width = t.width
  removed : result.removed = (t.arena.nodeAt idx).userId
  leavers_nodup : (leavers result mode).Nodup
  leavers_iff : ∀ u, u ∈ leavers result mode ↔ ∃ x ∈ gone, (t.arena.nodeAt x).userId = u
  responsored : result.responsored = t.arena.responsored gone
  relocated : result.relocated = moved.map t'.relocation
  nodup : moved.Nodup
  moved_up : ∀ x ∈ moved, (t'.arena.parentOf x).isSome
  target_free : ∀ x ∈ moved, ∀ {p y : NodeIndex} {row : MatrixSlots},
    t'.arena.parentOf x = some p → t.slots.lookup p = some row →
    row[t'.positionIn x]? = some (some y) → y ∉ gone → y = x
  kept : ∀ x, x ∉ gone → x ∉ moved → t'.placement x = t.placement x

/-- A place that was taken before a promotion keeps its occupant, so nobody is moved into one. -/
theorem Promotion.target_free {t t' : MatrixTree} {removed promoted parent : NodeIndex}
    (h : Promotion t t' removed promoted parent) (hv' : t'.Valid) {x p y : NodeIndex}
    {row : MatrixSlots} (hp : t'.arena.parentOf x = some p) (hrow : t.slots.lookup p = some row)
    (hy : row[t'.positionIn x]? = some (some y)) (hyr : y ≠ removed) : y = x := by
  have hpr : p ≠ removed := by
    rintro rfl
    exact (h.pruned.live_iff.mp (hv'.arena.live_parent hp)).1 (mem_singleton.mpr rfl)
  obtain ⟨row1, hrow1, hy1⟩ := h.kept hpr hrow hy hyr
  obtain ⟨row2, q, hrow2, -, hx, e⟩ := hv'.place hp
  rw [hrow1] at hrow2
  cases hrow2
  rw [e, hx] at hy1
  cases hy1
  rfl

section Remove

variable [Build] {t : MatrixTree} {u : Uuid} {mode : PruningMode} {i : NodeIndex}

theorem run_promoteEarliest (h : t.Valid) (hc : t.checkRemoveNode u .promoteEarliest = .ok ())
    (hi : t.arena.index.lookup u = some i) : (removeNode u .promoteEarliest).run t =
      (removePromoteEarliest i (t.arena.nodeAt i).userId).run t := by
  simp only [removeNode, run_bind, run_reads, hc, resolve_eq_ok.mpr hi, (h.arena.index_iff.mp hi).2]

/-- **A node with children is replaced by the earliest-enrolled of them**, and what is reported as
    moved is what changed its placement, in breadth-first order. -/
theorem removeNode_promoted (h : t.Valid) (hroom : t.arena.Roomy)
    (hc : t.checkRemoveNode u .promoteEarliest = .ok ()) {p : NodeIndex} (hi : t.arena.index.lookup u = some i) (hp : t.arena.parentOf i = some p)
    (hkids : t.arena.childrenOf i ≠ []) : ∃ promoted moved result t', t.arena.parentOf promoted = some i ∧
      (removeNode u .promoteEarliest).run t = .ok result t' ∧
      Removed t t' .promoteEarliest i [i] moved result ∧ Promotion t t' i promoted p ∧
      result.promoted = some (t.arena.nodeAt promoted).userId ∧
      (∀ x ∈ moved, t'.placement x ≠ t.placement x) ∧ moved.Pairwise t'.Precedes ∧ ∀ c ∈ t.arena.childrenOf i,
        (t.arena.nodeAt promoted).enrolledAt ≤ (t.arena.nodeAt c).enrolledAt := by
  obtain ⟨promoted, t', moved, hpp, hrun, hprom, hnd, habove, hkept, hdiff, hlevels, hmin⟩ :=
    removePromoted_ok h hp hroom hkids
  refine ⟨promoted, moved, _, t', hpp, (run_promoteEarliest h hc hi).trans hrun, ?_, hprom, rfl, hdiff,
    hlevels, hmin⟩
  exact { valid := hprom.valid h hpp hp, pruned := hprom.pruned
          mem := mem_singleton.mpr rfl, root := hprom.root, width := hprom.width
          removed := rfl
          leavers_nodup := nodup_singleton _
          leavers_iff := fun v => by simp [leavers, eq_comm]
          responsored := rfl, relocated := rfl, nodup := hnd
          moved_up := fun x hx => by
            rcases Relation.ReflTransGen.cases_head (habove x hx) with rfl | ⟨y, hy, -⟩
            · rw [hprom.promoted_up]; rfl
            · rw [hy]; rfl
          target_free := fun x _ {_ _ _} hq hrow hy hyg =>
            hprom.target_free (hprom.valid h hpp hp) hq hrow hy (by simpa using hyg)
          kept := fun x hx hxm => hkept x (by simpa using hx) hxm }

/-- **A removal whose check passes succeeds**: it cuts off a subtree, or it promotes a child. -/
theorem removeNode_spec (h : t.Valid) (hc : t.checkRemoveNode u mode = .ok ())
    (hroom : mode = .promoteEarliest → t.arena.Roomy) :
    ∃ i p gone moved result t', t.arena.index.lookup u = some i ∧ t.arena.parentOf i = some p ∧
      t.removalSet i mode = .ok gone ∧ t.arena.checkSponsoredRemovable gone = .ok () ∧
      (removeNode u mode).run t = .ok result t' ∧ Removed t t' mode i gone moved result ∧
      (Cut t t' i p gone ∨ ∃ promoted, t.arena.parentOf promoted = some i ∧ gone = [i] ∧
        Promotion t t' i promoted p) := by
  obtain ⟨i, p, gone, hi, hp, hgone, hs⟩ := h.checkRemoveNode_eq_ok hc
  have huser := (h.arena.index_iff.mp hi).2
  cases mode with
  | promoteEarliest =>
    cases hgone
    by_cases hkids : t.arena.childrenOf i = []
    · obtain ⟨t', hrun, hcut, htank⟩ := removeLeaf_ok h hp hkids
      have hv := hcut.valid h hp (htank ▸ h.tank.pruned hcut.pruned)
      refine ⟨i, p, [i], [], _, t', hi, hp, rfl, hs, (run_promoteEarliest h hc hi).trans hrun, ?_, .inl hcut⟩
      exact { valid := hv, pruned := hcut.pruned, mem := mem_singleton.mpr rfl
              root := hcut.root, width := hcut.width, removed := rfl
              leavers_nodup := nodup_singleton _
              leavers_iff := fun v => by simp [leavers, eq_comm], responsored := rfl
              relocated := rfl, nodup := nodup_nil, moved_up := by simp
              target_free := fun x hx => absurd hx not_mem_nil
              kept := fun x hx _ => hcut.placement h hp hx }
    · obtain ⟨promoted, moved, result, t', hpp, hrun, hr, hprom, -⟩ :=
        removeNode_promoted h (hroom rfl) hc hi hp hkids
      exact ⟨i, p, [i], moved, result, t', hi, hp, rfl, hs, hrun, hr, .inr ⟨promoted, hpp, rfl, hprom⟩⟩
  | holdingTank =>
    obtain ⟨below, t', hbelow, hrun, hcut, -, hv⟩ := removeToHoldingTank_ok h hp
    have hset : t.removalSet i .holdingTank = .ok (i :: below) := by
      rw [MatrixTree.removalSet, bind_ok hbelow]
    rw [hset] at hgone
    cases hgone
    have hstart : (removeNode u .holdingTank).run t =
        (removeToHoldingTank i (t.arena.nodeAt i).userId).run t := by
      simp only [removeNode, run_bind, run_reads, hc, resolve_eq_ok.mpr hi, huser]
    refine ⟨i, p, i :: below, [], _, t', hi, hp, hset, hs, hstart.trans hrun, ?_, .inl hcut⟩
    exact { valid := hv, pruned := hcut.pruned, mem := mem_cons_self, root := hcut.root
            width := hcut.width, removed := rfl
            leavers_nodup := by
              have hnd : (below ++ [i]).Nodup :=
                (perm_append_singleton i below).nodup_iff.mpr hcut.pruned.nodup
              refine hnd.map_on fun x hx y _ e => h.arena.userId_inj (hcut.pruned.live x ?_) e
              simpa [or_comm] using hx
            leavers_iff := fun v => by simp [leavers, or_comm, eq_comm]
            responsored := rfl, relocated := rfl, nodup := nodup_nil, moved_up := by simp
            target_free := fun x hx => absurd hx not_mem_nil
            kept := fun x hx _ => hcut.placement h hp hx }

variable {result : RemovalResult} {t' : MatrixTree}

theorem checkRemoveNode_of_run (hrun : (removeNode u mode).run t = .ok result t') :
    t.checkRemoveNode u mode = .ok () := by
  simp only [removeNode, run_bind, run_reads] at hrun
  cases hc : t.checkRemoveNode u mode with
  | error e =>
    rw [hc] at hrun
    cases hrun
  | ok _ => rfl

theorem removeNode_holdingTank (h : t.Valid) (hrun : (removeNode u .holdingTank).run t = .ok result t') :
    ∃ i p below, t.arena.index.lookup u = some i ∧ t.arena.parentOf i = some p ∧
      (∀ x, x ∈ below ↔ StrictlyAbove t.arena.parentOf x i) ∧
      t.arena.checkSponsoredRemovable (i :: below) = .ok () ∧
      Removed t t' .holdingTank i (i :: below) [] result ∧
      result.movedToTank = (below ++ [i]).map (fun x => (t.arena.nodeAt x).userId) ∧ result.relocated = [] ∧
      t'.holdingTank = t.holdingTank ++ (below ++ [i]).map t.entryOf := by
  have hc := checkRemoveNode_of_run hrun
  obtain ⟨i, p, gone, moved, result', t'', hi, hp, hgone, hmov, hrun', hr, -⟩ :=
    removeNode_spec h hc nofun
  cases hrun'.symm.trans hrun
  obtain ⟨below, t1, hbelow, htank, -, hentries, -⟩ := removeToHoldingTank_ok h hp
  obtain ⟨below', hbelow', -, hmem⟩ := h.descendants (h.arena.live_of_parent hp)
  cases hbelow'.symm.trans hbelow
  rw [MatrixTree.removalSet, bind_ok hbelow] at hgone
  cases hgone
  rw [(h.arena.index_iff.mp hi).2] at htank
  simp only [removeNode, run_bind, run_reads, hc, resolve_eq_ok.mpr hi, htank] at hrun
  cases hrun
  have hmoved : moved = [] := map_eq_nil_iff.mp hr.relocated.symm
  exact ⟨i, p, below, hi, hp, hmem, hmov, hmoved ▸ hr, rfl, rfl, hentries⟩

theorem relocated_holdingTank (h : t.Valid)
    (hrun : (removeNode u .holdingTank).run t = .ok result t') : result.relocated = [] := by
  obtain ⟨_, _, _, -, -, -, -, -, -, hreloc, -⟩ := removeNode_holdingTank h hrun
  exact hreloc

end Remove

end MatrixTree

end MlmForge.Engine
