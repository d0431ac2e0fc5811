/-
  Subject:   `remove_node` with `PruningMode::PromoteEarliest`: the whole removal.

  * `removeLeaf_ok`, `removePromoted_ok` -- the two branches.
-/
import MlmForge.Engine.MatrixDepth
import MlmForge.Engine.MatrixPromote

namespace MlmForge.Engine

open Call List Arena Option

namespace MatrixTree

theorem TankOk.pruned {a a' : Arena} {tank : List HoldingTankEntry} {gone : List NodeIndex}
    (h : TankOk a tank) (p : Arena.Pruned a a' gone) : TankOk a' tank where
  user := h.user
  sponsor := h.sponsor
  absent e he := by rw [p.index, h.absent e he]; rfl
  nodup := h.nodup
  chains := h.chains

/-! ## 1. Clearing one node -/

theorem releaseNode_ok {t s : MatrixTree} (hv : t.Valid) (hm : Arena.Repositioned t.arena s.arena)
    {idx : NodeIndex} (hi : t.arena.Live idx) : ∃ s', (releaseNode idx (t.arena.nodeAt idx).userId).run s =
        .ok (t.arena.responsored [idx]) s' ∧
      Arena.Pruned t.arena s'.arena [idx] ∧ Arena.Cleared s.arena s'.arena idx ∧
      s'.arena.root = s.arena.root ∧
      s' = { s with arena := s'.arena, slots := s.slots.erase idx } := by
  obtain ⟨b, b', a', h1, hroot, h2, h3, hp, hc, hr⟩ := release_ok hv.arena hm hi s.arena.root
  have hb : { b with root := s.arena.root } = b := by rw [← hroot]
  rw [hb] at h2
  refine ⟨{ s with arena := a', slots := s.slots.erase idx }, ?_, hp, hc, hr, rfl⟩
  simp only [releaseNode, run_bind, onArena, run_zoom, h1, h2, run_modify, h3, run_pure]

/-! ## 2. What a promotion leaves -/

/-- `t'` is `t` with `removed` taken out, its place under `parent` given to its child `promoted`, and
    its other children moved below that one. -/
structure Promotion (t t' : MatrixTree) (removed promoted parent : NodeIndex) : Prop where
  pruned : Arena.Pruned t.arena t'.arena [removed]
  forest : Forest t'.arena.childrenOf t'.arena.parentOf
  removed_up : t'.arena.parentOf removed = none
  promoted_up : t'.arena.parentOf promoted = some parent
  unmoved : ∀ x, x ≠ removed → x ≠ promoted → t.arena.parentOf x ≠ some removed →
    t'.arena.parentOf x = t.arena.parentOf x
  moved : ∀ x, t.arena.parentOf x = some removed → Above t'.arena.parentOf x promoted
  rows_live : ∀ x, t'.slots.lookup x ≠ none ↔ t'.arena.Live x
  rows_width : ∀ x row, t'.slots.lookup x = some row → row.length = t.width.toNat
  occupants : ∀ x, ((t'.slots.lookup x).getD []).reduceOption = t'.arena.childrenOf x
  outside : ∀ x, x ≠ removed → ¬ Above t'.arena.parentOf x promoted →
    t'.slots.lookup x = (t.slots.lookup x).map (relabel removed promoted)
  kept : ∀ {x y : NodeIndex} {row : MatrixSlots} {q : Nat}, x ≠ removed →
    t.slots.lookup x = some row → row[q]? = some (some y) →
    y ≠ removed → ∃ row', t'.slots.lookup x = some row' ∧ row'[q]? = some (some y)
  depth_promoted : t'.depths promoted = t.depths parent + 1
  depth_outside : ∀ x, x ≠ removed → ¬ Above t'.arena.parentOf x promoted →
    t'.depths x = t.depths x
  depth_below : ∀ x q, Above t'.arena.parentOf q promoted → t'.arena.parentOf x = some q →
    t'.depths x = t'.depths q + 1
  root : t'.arena.root = t.arena.root
  width : t'.width = t.width
  spillover : t'.spillover = t.spillover
  tank : t'.holdingTank = t.holdingTank

theorem takenBy_relabel {removed promoted x : NodeIndex} {row : MatrixSlots} (hr : x ≠ removed)
    (hp : x ≠ promoted) : takenBy (relabel removed promoted row) x = takenBy row x := by
  unfold takenBy relabel
  rw [findIdx?_map]
  congr 1
  funext place
  by_cases e : place = some removed
  · simp [e, hr.symm, hp.symm]
  · simp [e]

section Promotion

variable {t t' : MatrixTree} {removed promoted parent : NodeIndex}
  (h : Promotion t t' removed promoted parent)
include h

variable {x : NodeIndex}

theorem Promotion.parent_outside (hx : x ≠ removed)
    (hout : ¬ Above t'.arena.parentOf x promoted) : t'.arena.parentOf x = t.arena.parentOf x :=
  h.unmoved x hx (fun e => hout (e ▸ .refl)) fun e => hout (h.moved x e)

theorem Promotion.top_outside (hx : t'.arena.parentOf x = none) : ¬ Above t'.arena.parentOf x promoted := by
  intro hb
  rcases Relation.ReflTransGen.cases_head hb with rfl | ⟨y, hy, -⟩
  · rw [h.promoted_up] at hx
    cases hx
  · rw [hx] at hy
    cases hy

/-- **A placement that is not below the promoted node has not changed.** -/
theorem Promotion.placement_outside (hx : x ≠ removed)
    (hout : ¬ Above t'.arena.parentOf x promoted) : t'.placement x = t.placement x := by
  have hup := h.parent_outside hx hout
  have hd : (t'.arena.nodeAt x).depth = (t.arena.nodeAt x).depth := h.depth_outside x hx hout
  cases hq : t'.arena.parentOf x with
  | none =>
    rw [hq] at hup
    simp [placement, positionIn, hq, ← hup, hd]
  | some q =>
    have hqout : ¬ Above t'.arena.parentOf q promoted := fun hb => hout (.head hq hb)
    have hqr : q ≠ removed := by
      rintro rfl
      exact hout (h.moved x (hup ▸ hq))
    have hpos : t'.positionIn x = t.positionIn x := by
      rw [positionIn_eq hq, positionIn_eq (hup ▸ hq), h.outside q hqr hqout]
      cases t.slots.lookup q with
      | none => rfl
      | some row =>
        exact congrArg (·.getD 0) (takenBy_relabel hx (fun e => hout (e ▸ .refl)))
    have huser : (t'.arena.nodeAt q).userId = (t.arena.nodeAt q).userId := by
      rw [h.pruned.userId, if_neg (by simpa using hqr)]
    simp only [placement, hq, ← hup, hd, hpos, map_some, huser]

theorem Promotion.below_removed (hp : t.arena.parentOf promoted = some removed)
    (hx : Above t'.arena.parentOf x promoted) : StrictlyAbove t.arena.parentOf x removed := by
  induction hx using Relation.ReflTransGen.head_induction_on with
  | refl => exact .single hp
  | @head x y hxy _ ih =>
    by_cases hxp : x = promoted
    · exact hxp ▸ .single hp
    · by_cases hxr : t.arena.parentOf x = some removed
      · exact .single hxr
      · have hne : x ≠ removed := by
          rintro rfl
          rw [h.removed_up] at hxy
          cases hxy
        rw [h.unmoved x hne hxp hxr] at hxy
        exact .head hxy ih

variable (hv : t.Valid) (hp : t.arena.parentOf promoted = some removed)
include hv hp

theorem Promotion.cleared (hx : ¬ t'.arena.Live x) :
    t'.arena.parentOf x = none ∧ t'.arena.childrenOf x = [] := by
  refine ⟨?_, ?_⟩
  · by_cases hxr : x = removed
    · exact hxr ▸ h.removed_up
    · have hdead : ¬ t.arena.Live x := fun hl => hx (h.pruned.live_iff.mpr ⟨by simp [hxr], hl⟩)
      rw [h.unmoved x hxr (fun e => hdead (e ▸ hv.arena.live_of_parent hp))
        fun e => hdead (hv.arena.live_of_parent e)]
      exact (hv.arena.cleared hdead).1
  · have hnone : t'.slots.lookup x = none := by
      by_contra hne
      exact hx ((h.rows_live x).mp hne)
    rw [← h.occupants, hnone]
    rfl

theorem Promotion.depth_below_all {q : NodeIndex} (hq : t'.arena.parentOf x = some q) :
    t'.depths x = t'.depths q + 1 := by
  by_cases hb : Above t'.arena.parentOf q promoted
  · exact h.depth_below x q hb hq
  have hqr : q ≠ removed := by
    rintro rfl
    have := h.forest.mem_iff.mpr hq
    rw [(h.cleared hv hp fun hl => (h.pruned.live_iff.mp hl).1 (by simp)).2] at this
    cases this
  by_cases hxp : x = promoted
  · subst hxp
    rw [h.promoted_up] at hq
    cases hq
    rw [h.depth_promoted, h.depth_outside _ hqr hb]
  · have hxr : x ≠ removed := by
      rintro rfl
      rw [h.removed_up] at hq
      cases hq
    have hout : ¬ Above t'.arena.parentOf x promoted := by
      intro hxb
      rcases Relation.ReflTransGen.cases_head hxb with e | ⟨y, hy, hyb⟩
      · exact hxp e
      · rw [hq] at hy
        cases hy
        exact hb hyb
    have hq' := h.parent_outside hxr hout
    rw [hq] at hq'
    rw [h.depth_outside x hxr hout, h.depth_outside q hqr hb]
    exact hv.arena.depth_below hq'.symm

/-- **A promotion leaves a valid tree.** -/
theorem Promotion.valid (hr : t.arena.parentOf removed = some parent) : t'.Valid := by
  have hlive : ∀ {j}, t'.arena.Live j → j ≠ removed ∧ t.arena.Live j := fun {j} hj => by
    have := h.pruned.live_iff.mp hj
    exact ⟨fun e => this.1 (by simp [e]), this.2⟩
  have htop : ∀ {j}, t'.arena.Live j → t'.arena.parentOf j = none → t.arena.parentOf j = none :=
    fun {j} hj hnone => by
      rw [← h.parent_outside (hlive hj).1 (h.top_outside hnone)]
      exact hnone
  refine { width := h.width ▸ hv.width, spillover := h.spillover ▸ hv.spillover, arena := ?_,
           agree := ⟨h.rows_live, fun {i c} hc => ?_⟩,
           rows := fun i row hrow => h.width ▸ h.rows_width i row hrow,
           tank := h.tank ▸ hv.tank.pruned h.pruned }
  · refine h.pruned.valid hv.arena h.forest.toLinked (h.cleared hv hp) (fun {j} hj hnone => ?_)
      (h.depth_below_all hv hp) (fun {r} hroot => ?_) (fun {i} hi hnone => ?_)
    · rw [← hv.arena.depth_top (hlive hj).2 (htop hj hnone)]
      exact h.depth_outside j (hlive hj).1 (h.top_outside hnone)
    · rw [h.root] at hroot
      refine ⟨hroot, fun hm => ?_⟩
      rw [mem_singleton.mp hm] at hroot
      rw [hv.arena.root_parent hroot] at hr
      cases hr
    · rw [h.root]
      exact hv.arena.top_root (hlive hi).2 (htop hi hnone)
  · rw [← h.occupants i, hc]
    rfl

end Promotion

/-! ## 3. The end of the loop -/

/-- **The writes after the spill loop end the promotion.** -/
theorem Spilling.finish [Build] {t s : MatrixTree} {removed promoted parent : NodeIndex} (hv : t.Valid)
    (hroom : t.arena.Roomy) (hr : t.arena.parentOf removed = some parent) (hp : t.arena.parentOf promoted = some removed)
    (h : Spilling t s removed promoted parent []) : ∃ s2 s3 t', (rebuildChildren promoted).run s = .ok () s2 ∧
      (releaseNode removed (t.arena.nodeAt removed).userId).run s2 = .ok (t.arena.responsored [removed]) s3 ∧
      (recalculateDepths promoted).run s3 = .ok () t' ∧ Promotion t t' removed promoted parent := by
  have hpl := hv.arena.live_of_parent hp
  have hrl := hv.arena.live_of_parent hr
  have hpr : promoted ≠ removed := hv.arena.forest.ranked.ne hp
  have hrp : parent ≠ removed := (hv.arena.forest.ranked.ne hr).symm
  obtain ⟨-, row, hrow, hocc, -⟩ := h.row_below hv hp hpr .refl
  have hspl := h.arena.live_iff.mpr hpl
  let s2 : MatrixTree :=
    { s with arena := s.arena.upd promoted fun n => { n with children := row.reduceOption } }
  have h2 : Arena.Repositioned s.arena s2.arena := repositioned_upd hspl.lt fun _ => ⟨rfl, rfl, rfl, rfl⟩
  have hnode : ∀ x, s2.arena.nodeAt x = { s.arena.nodeAt x with
      children := if x = promoted then row.reduceOption else s.arena.childrenOf x } := by
    intro x
    simp only [s2, nodeAt_upd hspl.lt]
    split_ifs <;> rfl
  obtain ⟨s3, hrun3, hpruned, hcl, hroot, hrest⟩ := releaseNode_ok hv (h.arena.trans h2) hrl
  have hup : s3.arena.parentOf = s.upIn removed := by
    funext x
    rw [hcl.parentOf, upIn, Arena.parentOf, hnode]
  have hdown : s3.arena.childrenOf = s.downIn removed [] := by
    funext x
    rw [hcl.childrenOf, Arena.childrenOf, hnode]
    by_cases hxr : x = removed
    · simp [downIn, hxr]
    · by_cases hxp : x = promoted
      · simp [hxp, hpr, hocc]
      · simp [hxr, hxp, h.children x hxr hxp]
  have hF : Forest s3.arena.childrenOf s3.arena.parentOf := by
    rw [hdown, hup]
    exact h.forest
  have hlive : ∀ {x}, t.arena.Live x → x ≠ removed → s3.arena.Live x := fun hx hxr =>
    hpruned.live_iff.mpr ⟨by simpa using hxr, hx⟩
  have hp3 : s3.arena.parentOf promoted = some parent := by
    rw [hup, upIn, if_neg hpr, h.promoted_up]
  have hbelow : ∀ x, Above s3.arena.parentOf x promoted → s3.arena.Live x := fun x hx => by
    rw [hup] at hx
    refine hlive (h.row_below hv hp hpr hx).1 ?_
    rintro rfl
    exact h.not_below_removed hpr hx .refl
  -- the depths the walk is to set are those of a valid tree, and so in range
  suffices hprom : ∀ t', DepthsSet s3 t' promoted parent → Promotion t t' removed promoted parent by
    obtain ⟨t', hrun4, hd⟩ := recalculateDepths_ok hF hp3 hbelow (hlive (hv.arena.live_parent hr) hrp)
      fun t' hd x hx => Nat.lt_of_lt_of_le (((hprom t' hd).valid hv hp hr).arena.depth_lt
        (hd.redepthed.arena.live_iff.mpr (hbelow x hx))) ((hprom t' hd).pruned.length ▸ hroom.le)
    exact ⟨s2, s3, t', rebuildChildren_ok hrow hspl, hrun3, hrun4, hprom t' hd⟩
  rintro t' ⟨hd, hdp, hdo, hdb⟩
  have hdepth : ∀ x, x ≠ removed → s3.depths x = t.depths x := by
    intro x hx
    rw [depths, hcl.depth x hx, hnode]
    exact h.depth x
  have hslots : t'.slots = s.slots.erase removed := by rw [hd.rest, hrest]
  have hlook : ∀ x, t'.slots.lookup x = if x = removed then none else s.slots.lookup x := by
    intro x
    rw [hslots, Maps.lookup_erase]
  have hup' : t'.arena.parentOf = s.upIn removed := hd.arena.parentOf.trans hup
  have hpr' : Arena.Pruned t.arena t'.arena [removed] := hpruned.redepthed hd.arena
  refine { pruned := hpr', forest := ?forest, removed_up := ?removed_up, promoted_up := ?promoted_up,
           unmoved := ?unmoved, moved := ?moved, rows_live := ?rows_live, rows_width := ?rows_width,
           occupants := ?occupants, outside := ?outside, kept := ?kept,
           depth_promoted := ?depth_promoted,
           depth_outside := ?depth_outside, depth_below := ?depth_below, root := ?root,
           width := ?width, spillover := ?spillover, tank := ?tank }
  case forest => rwa [hd.arena.childrenOf, hd.arena.parentOf]
  case removed_up => rw [hup', upIn, if_pos rfl]
  case promoted_up => rw [hd.arena.parentOf, hp3]
  case unmoved =>
    intro x hxr hxp hx
    rw [hup', upIn, if_neg hxr, h.unmoved x hxr hxp hx]
  case moved =>
    intro x hx
    rw [hup']
    exact h.moved x hx not_mem_nil
  case rows_live =>
    intro x
    rw [hlook, hpr'.live_iff, ← h.rows_live x]
    by_cases hxr : x = removed <;> simp [hxr]
  case rows_width =>
    intro x row hrow
    rw [hlook] at hrow
    split at hrow
    · cases hrow
    · exact h.rows_width x row hrow
  case occupants =>
    intro x
    rw [hlook, hd.arena.childrenOf, hdown, downIn]
    split <;> rfl
  case outside =>
    intro x hxr hx
    rw [hlook, if_neg hxr]
    exact h.outside x hxr (hup' ▸ hx)
  case kept =>
    intro x y row q hxr hrow hy hyr
    rw [hlook, if_neg hxr]
    exact h.kept hxr hrow hy hyr
  case depth_promoted => rw [hdp, hdepth parent hrp]
  case depth_outside =>
    intro x hxr hx
    rw [hdo x (hd.arena.parentOf ▸ hx), hdepth x hxr]
  case depth_below =>
    intro x q hq hxq
    rw [hd.arena.parentOf] at hq hxq
    exact hdb x q hq hxq
  case root =>
    rw [hd.arena.root, hroot]
    exact h.root
  case width =>
    rw [hd.rest, hrest]
    exact h.width
  case spillover =>
    rw [hd.rest, hrest]
    exact h.spillover
  case tank =>
    rw [hd.rest, hrest]
    exact h.tank

/-! ## 4. Taking a whole subtree out -/

/-- `gone` is `top` with everything below it. -/
structure Subtree (t : MatrixTree) (top : NodeIndex) (gone : List NodeIndex) : Prop where
  mem : top ∈ gone
  down : ∀ {j q}, t.arena.parentOf j = some q → q ∈ gone → j ∈ gone
  up : ∀ {j}, j ∈ gone → j = top ∨ ∃ q ∈ gone, t.arena.parentOf j = some q

/-- `t'` is `t` without the subtree `gone` of `top`. -/
structure Cut (t t' : MatrixTree) (top parent : NodeIndex) (gone : List NodeIndex) : Prop where
  subtree : Subtree t top gone
  pruned : Arena.Pruned t.arena t'.arena gone
  parentOf : ∀ x, t'.arena.parentOf x = if x ∈ gone then none else t.arena.parentOf x
  childrenOf : ∀ x, t'.arena.childrenOf x =
    if x ∈ gone then [] else (t.arena.childrenOf x).filter (· ≠ top)
  depth : ∀ x, x ∉ gone → (t'.arena.nodeAt x).depth = (t.arena.nodeAt x).depth
  lookup : ∀ x, t'.slots.lookup x = if x ∈ gone then none else
    if x = parent then (t.slots.lookup x).map fun row => row.set (t.positionIn top) none
    else t.slots.lookup x
  root : t'.arena.root = t.arena.root
  width : t'.width = t.width
  spillover : t'.spillover = t.spillover

section Cut

variable {t t' : MatrixTree} {top parent : NodeIndex} {gone : List NodeIndex} (hv : t.Valid)
  (hr : t.arena.parentOf top = some parent)
include hv hr

theorem Valid.cleared_row : ∃ row, t.slots.lookup parent = some row ∧ t.positionIn top < row.length ∧
    (row.set (t.positionIn top) none).reduceOption = (t.arena.childrenOf parent).filter (· ≠ top) ∧
    ∀ x, x ≠ top → takenBy (row.set (t.positionIn top) none) x = takenBy row x := by
  obtain ⟨row, q, hrow, -, hq, e⟩ := hv.place hr
  have hocc : row.reduceOption = t.arena.childrenOf parent := hv.agree.children hrow
  refine ⟨row, hrow, e ▸ (List.getElem?_eq_some_iff.mp hq).1, ?_, fun x hx => ?_⟩
  · rw [e, reduceOption_clear hq (hocc ▸ hv.arena.placed.nodup parent), hocc]
  · rw [e]
    exact takenBy_clear hq hx

variable (h : Cut t t' top parent gone)
include h

theorem Cut.arena_valid : t'.arena.Valid := by
  have hnot : ∀ {x q}, t'.arena.parentOf x = some q → x ∉ gone ∧ t.arena.parentOf x = some q := by
    intro x q hq
    rw [h.parentOf] at hq
    split at hq
    · cases hq
    · exact ⟨‹_›, hq⟩
  have htop : ∀ {x}, t'.arena.Live x → t'.arena.parentOf x = none →
      t.arena.Live x ∧ x ∉ gone ∧ t.arena.parentOf x = none := by
    intro x hx hnone
    obtain ⟨hg, hl⟩ := h.pruned.live_iff.mp hx
    rw [h.parentOf, if_neg hg] at hnone
    exact ⟨hl, hg, hnone⟩
  refine h.pruned.valid hv.arena ⟨fun {x y} => ?_, fun x => ?_⟩ (fun {j} hj => ?_)
    (fun {j} hj hnone => ?_) (fun {i q} hq => ?_) (fun {r} hroot => ?_) (fun {i} hi hnone => ?_)
  · rw [h.childrenOf, h.parentOf]
    by_cases hx : x ∈ gone
    · rw [if_pos hx]
      refine ⟨nofun, fun hy => ?_⟩
      split at hy
      · cases hy
      · exact absurd (h.subtree.down hy hx) ‹_›
    · rw [if_neg hx, mem_filter, hv.arena.placed.mem_iff, decide_eq_true_eq]
      by_cases hy : y ∈ gone
      · rw [if_pos hy]
        refine ⟨fun ⟨hyx, hne⟩ => ?_, nofun⟩
        rcases h.subtree.up hy with e | ⟨q, hq, hyq⟩
        · exact absurd e hne
        · rw [hyx] at hyq
          cases hyq
          exact absurd hq hx
      · rw [if_neg hy, and_iff_left]
        rintro rfl
        exact hy h.subtree.mem
  · rw [h.childrenOf]
    split
    · exact nodup_nil
    · exact (hv.arena.placed.nodup x).filter _
  · rw [h.parentOf, h.childrenOf]
    by_cases hg : j ∈ gone
    · simp [hg]
    · obtain ⟨h1, -, h2, -⟩ := hv.arena.cleared fun hl => hj (h.pruned.live_iff.mpr ⟨hg, hl⟩)
      simp [hg, h1, h2]
  · obtain ⟨hl, hg, hnone⟩ := htop hj hnone
    rw [h.depth j hg]
    exact hv.arena.depth_top hl hnone
  · obtain ⟨hg, hq⟩ := hnot hq
    rw [h.depth i hg, h.depth q fun hqg => hg (h.subtree.down hq hqg)]
    exact hv.arena.depth_below hq
  · rw [h.root] at hroot
    have hnone := hv.arena.root_parent hroot
    refine ⟨hroot, fun hg => ?_⟩
    rcases h.subtree.up hg with rfl | ⟨q, -, hq⟩
    · rw [hnone] at hr
      cases hr
    · rw [hnone] at hq
      cases hq
  · obtain ⟨hl, -, hnone⟩ := htop hi hnone
    rw [h.root]
    exact hv.arena.top_root hl hnone

/-- **Without a subtree the tree is valid**, if the holding tank is in order. -/
theorem Cut.valid (htank : TankOk t'.arena t'.holdingTank) : t'.Valid := by
  obtain ⟨row, hrow, -, hocc, -⟩ := hv.cleared_row hr
  have hlook : ∀ {x c}, t'.slots.lookup x = some c → x ∉ gone ∧ (t.slots.lookup x = some c ∧ x ≠ parent ∨
        x = parent ∧ c = row.set (t.positionIn top) none) := by
    intro x c hc
    rw [h.lookup] at hc
    split at hc
    · cases hc
    · refine ⟨‹_›, ?_⟩
      split at hc
      · rename_i hx
        rw [hx, hrow] at hc
        cases hc
        exact .inr ⟨hx, rfl⟩
      · exact .inl ⟨hc, ‹_›⟩
  refine { width := h.width ▸ hv.width, spillover := h.spillover ▸ hv.spillover,
           arena := h.arena_valid hv hr, agree := hv.agree.of_pruned h.pruned (fun x => ?_) ?_,
           rows := fun x c hc => ?_, tank := htank }
  · rw [h.lookup]
    by_cases hx : x ∈ gone
    · simp [hx]
    · by_cases hxp : x = parent
      · simp [hxp]
      · simp [hx, hxp]
  · intro x c hc
    obtain ⟨hg, hc⟩ := hlook hc
    rw [h.childrenOf, if_neg hg]
    rcases hc with ⟨hc, hxp⟩ | ⟨rfl, rfl⟩
    · rw [hv.agree.children hc]
      refine (filter_eq_self.mpr fun y hy => decide_eq_true ?_).symm
      rintro rfl
      have := hv.arena.placed.mem_iff.mp hy
      rw [hr] at this
      exact hxp (some.inj this).symm
    · exact hocc
  · rw [h.width]
    rcases (hlook hc).2 with ⟨hc, -⟩ | ⟨rfl, rfl⟩
    · exact hv.rows x c hc
    · rw [length_set]
      exact hv.rows x row hrow

/-- **Taking a subtree out changes no other placement.** -/
theorem Cut.placement {x : NodeIndex} (hx : x ∉ gone) : t'.placement x = t.placement x := by
  have hup := h.parentOf x
  rw [if_neg hx] at hup
  cases hq : t.arena.parentOf x with
  | none =>
    rw [hq] at hup
    simp [MatrixTree.placement, positionIn, hq, hup, h.depth x hx]
  | some q =>
    have hqg : q ∉ gone := fun hqg => hx (h.subtree.down hq hqg)
    rw [hq] at hup
    have hpos : t'.positionIn x = t.positionIn x := by
      rw [positionIn_eq hq, positionIn_eq hup, h.lookup, if_neg hqg]
      by_cases hqp : q = parent
      · obtain ⟨row, hrow, -, -, htaken⟩ := hv.cleared_row hr
        rw [if_pos hqp, hqp, hrow]
        exact congrArg (·.getD 0) (htaken x fun e => hx (e ▸ h.subtree.mem))
      · rw [if_neg hqp]
    have huser : (t'.arena.nodeAt q).userId = (t.arena.nodeAt q).userId := by
      rw [h.pruned.userId, if_neg hqg]
    simp only [MatrixTree.placement, hq, hup, hpos, h.depth x hx, map_some, huser]

end Cut

/-! ## 5. The two branches -/

section Branches

variable {t : MatrixTree} {idx parent : NodeIndex} (hv : t.Valid)
  (hr : t.arena.parentOf idx = some parent)
include hv hr

/-- **A node with children**: the earliest-enrolled one takes its place, the others are moved below
    that one, and every placement that changed is reported. -/
theorem removePromoted_ok [Build] (hroom : t.arena.Roomy) (hkids : t.arena.childrenOf idx ≠ []) :
    ∃ (promoted : NodeIndex) (t' : MatrixTree) (moved : List NodeIndex),
      t.arena.parentOf promoted = some idx ∧
      (removePromoteEarliest idx (t.arena.nodeAt idx).userId).run t = .ok
        { removed := (t.arena.nodeAt idx).userId
          promoted := some (t.arena.nodeAt promoted).userId
          repositioned := ((t.arena.childrenOf idx).filter (· ≠ promoted)).map
            fun x => (t.arena.nodeAt x).userId
          movedToTank := []
          relocated := moved.map t'.relocation
          responsored := t.arena.responsored [idx] } t' ∧
      Promotion t t' idx promoted parent ∧ moved.Nodup ∧
      (∀ x ∈ moved, Above t'.arena.parentOf x promoted) ∧
      (∀ x, x ≠ idx → x ∉ moved → t'.placement x = t.placement x) ∧
      (∀ x ∈ moved, t'.placement x ≠ t.placement x) ∧ moved.Pairwise t'.Precedes ∧
      ∀ c ∈ t.arena.childrenOf idx, (t.arena.nodeAt promoted).enrolledAt ≤ (t.arena.nodeAt c).enrolledAt := by
  have hi := hv.arena.live_of_parent hr
  obtain ⟨row, hrow, hocc, -⟩ := hv.exists_row hi
  obtain ⟨first, rest, hfirst⟩ := exists_cons_of_ne_nil hkids
  obtain ⟨promoted, hmem, hearliest, hmin⟩ := @earliest_ok t rest first
    fun c hc => hv.arena.live_child (hfirst ▸ hc)
  have hp : t.arena.parentOf promoted = some idx := hv.arena.placed.mem_iff.mp (hfirst ▸ hmem)
  obtain ⟨before, hbefore, hplaced, hbelow⟩ := hv.placementsBelow hi
  obtain ⟨s0, hrun0, h0⟩ := promote_ok hv hr hp
  obtain ⟨s1, hrun1, h1⟩ := spillAll_ok hv hp (t.arena.nodeAt promoted).userId (h0.spilling hv hr hp)
  obtain ⟨s2, s3, t', hrun2, hrun3, hrun4, hprom⟩ := h1.finish hv hroom hr hp
  have hv' := hprom.valid hv hp hr
  obtain ⟨moved, hmoved, hnd, hlevels, hmem'⟩ := hv'.relocationsFrom (by rw [hprom.promoted_up]; rfl) before
  refine ⟨promoted, t', moved, hp, ?_, hprom, hnd, fun x hx => ((hmem' x).mp hx).1,
    fun x hx hxm => ?_, fun x hx e => ?_, hlevels, fun c hc => hmin c (hfirst ▸ hc)⟩
  · rw [hfirst] at hrun1 ⊢
    simp only [removePromoteEarliest, run_bind, run_reads, hv.parentOf_ok hr,
      hv.findSlotPosition hr, slotsOf_ok hrow, hocc, hfirst, hearliest,
      node_ok (hv.arena.live_of_parent hp), hbefore, hrun0, hrun1, hrun2, hrun3, hrun4, hmoved, run_pure]
  · by_cases hb : Above t'.arena.parentOf x promoted
    · have : before.lookup x = some (t'.placement x) := by
        by_contra hne
        exact hxm ((hmem' x).mpr ⟨hb, hne⟩)
      exact hplaced x _ this
    · exact hprom.placement_outside hx hb
  · obtain ⟨habove, hne⟩ := (hmem' x).mp hx
    rw [hbelow x (hprom.below_removed hp habove)] at hne
    exact hne (congrArg some e.symm)

/-- **A node without children** is cleared. -/
theorem removeLeaf_ok [Build] (hkids : t.arena.childrenOf idx = []) :
    ∃ t', (removePromoteEarliest idx (t.arena.nodeAt idx).userId).run t = .ok
        { removed := (t.arena.nodeAt idx).userId, promoted := none, repositioned := [],
          movedToTank := [], relocated := [], responsored := t.arena.responsored [idx] } t' ∧
      Cut t t' idx parent [idx] ∧ t'.holdingTank = t.holdingTank := by
  have hi := hv.arena.live_of_parent hr
  obtain ⟨own, hown, hocc, -⟩ := hv.exists_row hi
  obtain ⟨row, hrow, hq, hclear, -⟩ := hv.cleared_row hr
  have hpar := hv.arena.live_parent hr
  have hne : parent ≠ idx := (hv.arena.forest.ranked.ne hr).symm
  let row' := row.set (t.positionIn idx) none
  let m := t.arena.upd parent fun n => { n with children := row'.reduceOption }
  let s : MatrixTree := { t.insertSlots parent row' with arena := m }
  have hm : Arena.Unlisted t.arena m idx := hv.arena.unlisted hr (fun _ => row'.reduceOption) hclear
  obtain ⟨t', hrun, hp, hcl, hroot, hrest⟩ := releaseNode_ok (s := s) hv hm.toRepositioned hi
  refine ⟨t', ?_, ?_, by rw [hrest]; rfl⟩
  · have h1 : (setSlot parent (t.positionIn idx) none).run t = .ok () (t.insertSlots parent row') :=
      setSlot_ok hrow hq none
    have h2 : (rebuildChildren parent).run (t.insertSlots parent row') = .ok () s :=
      rebuildChildren_ok (AList.lookup_insert _) hpar
    rw [hkids] at hocc
    simp only [removePromoteEarliest, run_bind, run_reads, hv.parentOf_ok hr,
      hv.findSlotPosition hr, slotsOf_ok hown, hocc, detachAndTombstone, h1, h2, hrun, run_pure]
  · refine { subtree := ⟨mem_singleton.mpr rfl, fun {j q} hq hqg => ?_, fun hj => .inl (by simpa using hj)⟩
             pruned := hp, parentOf := fun x => ?_, childrenOf := fun x => ?_,
             depth := fun x hx => ?_, lookup := fun x => ?_, root := hroot,
             width := by rw [hrest]; rfl, spillover := by rw [hrest]; rfl }
    · rw [mem_singleton.mp hqg] at hq
      exact absurd hq (hv.arena.placed.no_link_to hkids j)
    · rw [hcl.parentOf, hm.parentOf]
      simp only [mem_singleton]
    · rw [hcl.childrenOf, hm.childrenOf]
      simp only [mem_singleton]
    · rw [hcl.depth x (by simpa using hx), hm.depth]
    · rw [hrest]
      show (AList.erase idx (t.slots.insert parent row')).lookup x = _
      rw [Maps.lookup_erase, Maps.lookup_insert]
      simp only [mem_singleton]
      split_ifs with h1 h2
      · rfl
      · rw [h2, hrow]
        rfl
      · rfl

end Branches

end MatrixTree

end MlmForge.Engine
