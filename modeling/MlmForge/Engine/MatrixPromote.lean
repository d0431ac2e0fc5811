/-
  Subject:   Removal by promotion keeps a matrix tree valid.

  The removed node's place is taken by its earliest-enrolled child, and the other children are moved
  below that one. In between the removed node is still in the arena, with stale links:

  * `removePromoteEarliest_ok` -- the whole removal.
-/
import MlmForge.Engine.MatrixWalk

namespace MlmForge.Engine

open Call List AList Function Option Arena

namespace MatrixTree

/-! ## 1. The placement while the removed node is being replaced -/

/-- The parents, with the removed node cut off from its own. -/
def upIn (s : MatrixTree) (removed x : NodeIndex) : Option NodeIndex :=
  if x = removed then none else s.arena.parentOf x

/-- The occupants of the slots, and below the removed node the children still to be moved. -/
def downIn (s : MatrixTree) (removed : NodeIndex) (left : List NodeIndex) (x : NodeIndex) :
    List NodeIndex :=
  if x = removed then left else ((s.slots.lookup x).getD []).reduceOption

/-- The removed node's place, in any row, given to another. -/
def relabel (removed promoted : NodeIndex) (row : MatrixSlots) : MatrixSlots :=
  row.map fun place => if place = some removed then some promoted else place

/-- `s` comes from the valid tree `t` by giving the place of `removed`, under `parent`, to its child
    `promoted`, and moving its other children below `promoted`, except those in `left`. -/
structure Spilling (t s : MatrixTree) (removed promoted parent : NodeIndex)
    (left : List NodeIndex) : Prop where
  forest : Forest (s.downIn removed left) (s.upIn removed)
  apart : ¬ Above (s.upIn removed) promoted removed
  promoted_up : s.arena.parentOf promoted = some parent
  rows_live : ∀ x, s.slots.lookup x ≠ none ↔ t.arena.Live x
  rows_width : ∀ x row, s.slots.lookup x = some row → row.length = t.width.toNat
  children : ∀ x, x ≠ removed → x ≠ promoted → s.arena.childrenOf x = s.downIn removed left x
  unmoved : ∀ x, x ≠ removed → x ≠ promoted → t.arena.parentOf x ≠ some removed →
    s.arena.parentOf x = t.arena.parentOf x
  moved : ∀ x, t.arena.parentOf x = some removed → x ∉ left → Above (s.upIn removed) x promoted
  outside : ∀ x, x ≠ removed → ¬ Above (s.upIn removed) x promoted →
    s.slots.lookup x = (t.slots.lookup x).map (relabel removed promoted)
  kept : ∀ {x y : NodeIndex} {row : MatrixSlots} {q : Nat}, x ≠ removed →
    t.slots.lookup x = some row → row[q]? = some (some y) →
    y ≠ removed → ∃ row', s.slots.lookup x = some row' ∧ row'[q]? = some (some y)
  arena : Arena.Repositioned t.arena s.arena
  depth : ∀ x, (s.arena.nodeAt x).depth = (t.arena.nodeAt x).depth
  root : s.arena.root = t.arena.root
  width : s.width = t.width
  spillover : s.spillover = t.spillover
  tank : s.holdingTank = t.holdingTank

/-- `s'` is `s` with `child` hung into the place `position` of `target`. Only the list of children
    of `promoted` may lag behind. -/
structure Hung (s s' : MatrixTree) (promoted child target : NodeIndex) (row : MatrixSlots) :
    Prop where
  slots : s'.slots = s.slots.insert target row
  parentOf : ∀ x, s'.arena.parentOf x = if x = child then some target else s.arena.parentOf x
  childrenOf : ∀ x, x ≠ promoted →
    s'.arena.childrenOf x = if x = target then row.reduceOption else s.arena.childrenOf x
  arena : Arena.Repositioned s.arena s'.arena
  depth : ∀ x, (s'.arena.nodeAt x).depth = (s.arena.nodeAt x).depth
  root : s'.arena.root = s.arena.root
  width : s'.width = s.width
  spillover : s'.spillover = s.spillover
  tank : s'.holdingTank = s.holdingTank

section Step

variable {t s s' : MatrixTree} {removed promoted parent child target : NodeIndex}
  {left : List NodeIndex} {row : MatrixSlots}

theorem Spilling.not_below_removed (h : Spilling t s removed promoted parent left)
    (hne : promoted ≠ removed) {x : NodeIndex} (hx : Above (s.upIn removed) x promoted) :
    ¬ Above (s.upIn removed) x removed := by
  intro hr
  rcases hx.total hr with hpr | hrp
  · exact h.apart hpr
  · rcases Relation.ReflTransGen.cases_head hrp with e | ⟨y, hy, -⟩
    · exact hne e.symm
    · simp [upIn] at hy

variable (h : Spilling t s removed promoted parent (child :: left))
include h

theorem Spilling.child_up : s.upIn removed child = some removed :=
  h.forest.mem_iff.mp (by simp [downIn])

theorem Spilling.child_ne : child ≠ removed := by
  rintro rfl
  have := h.child_up
  simp [upIn] at this

theorem Spilling.child_ne_promoted : child ≠ promoted := by
  rintro rfl
  exact h.apart (.single h.child_up)

theorem Spilling.child_parent : t.arena.parentOf child = some removed := by
  by_contra hc
  have hup := h.child_up
  rw [upIn, if_neg h.child_ne, h.unmoved child h.child_ne h.child_ne_promoted hc] at hup
  exact hc hup

variable (hne : promoted ≠ removed)
include hne

theorem Spilling.child_not_below : ¬ Above (s.upIn removed) child promoted := fun hc =>
  h.not_below_removed hne hc (.single (h.child_up))

/-- **Hanging the next child below the promoted node keeps the invariant.** -/
theorem Spilling.hang {q : Nat} (htarget : Above (s.upIn removed) target promoted)
    (hrow : s.slots.lookup target = some row) (hq : row[q]? = some none)
    (hs' : Hung s s' promoted child target (row.set q (some child))) :
    Spilling t s' removed promoted parent left := by
  have hcup := h.child_up
  have hcne := h.child_ne
  have htne : target ≠ removed := by
    rintro rfl
    exact h.not_below_removed hne htarget .refl
  have hup : s'.upIn removed = update (s.upIn removed) child (some target) := by
    funext x
    rw [update_apply]
    unfold upIn
    rw [hs'.parentOf]
    by_cases hx : x = child
    · simp [hx, hcne]
    · simp [hx]
  have hdown : ∀ x, s'.downIn removed left x = if x = target then (row.set q (some child)).reduceOption
      else if x = removed then left else s.downIn removed (child :: left) x := by
    intro x
    unfold downIn
    rw [hs'.slots]
    by_cases hx : x = target
    · subst hx
      simp [htne]
    · by_cases hr : x = removed
      · simp [hr, htne.symm]
      · simp [hx, hr, lookup_insert_ne hx]
  have hkeep : ∀ {x}, Above (s.upIn removed) x promoted → Above (s'.upIn removed) x promoted :=
    fun hx => hup ▸ hx.update (h.child_not_below hne) _
  have hfull : ((s.slots.lookup target).getD []).reduceOption = row.reduceOption := by rw [hrow]; rfl
  have hnd := h.forest.nodup target
  rw [downIn, if_neg htne, hfull] at hnd
  have hcnot : child ∉ row.reduceOption := by
    intro hm
    have := h.forest.mem_iff (x := target) (y := child)
    rw [downIn, if_neg htne, hfull, hcup] at this
    exact htne (some.inj (this.mp hm)).symm
  have hleft := h.forest.nodup removed
  rw [downIn, if_pos rfl, nodup_cons] at hleft
  refine { forest := ?forest, apart := ?apart, promoted_up := ?promoted_up, rows_live := ?rows_live, rows_width := ?rows_width,
           children := ?children, unmoved := ?unmoved, moved := ?moved, outside := ?outside,
           kept := ?kept, arena := ?arena,
           depth := fun x => (hs'.depth x).trans (h.depth x), root := hs'.root.trans h.root,
           width := hs'.width.trans h.width, spillover := hs'.spillover.trans h.spillover,
           tank := hs'.tank.trans h.tank }
  case forest =>
    refine h.forest.move hcup (fun hc => ?_) htne hup ?_ (fun y => ?_) ?_ (fun x hxr hxt => ?_)
    · exact h.not_below_removed hne htarget (hc.tail hcup)
    · rw [hdown, if_neg htne.symm, if_pos rfl, downIn, if_pos rfl, filter_cons_of_neg (by simp)]
      refine (filter_eq_self.mpr fun x hx => decide_eq_true ?_).symm
      rintro rfl
      exact hleft.1 hx
    · rw [hdown, if_pos rfl, downIn, if_neg htne, hfull]
      exact mem_fill hq child y
    · rw [hdown, if_pos rfl]
      exact nodup_fill hq hcnot hnd
    · rw [hdown, if_neg hxt, if_neg hxr]
  case apart => exact fun hpr => h.apart ((hup ▸ hpr).of_update (.single hcup))
  case promoted_up =>
    rw [hs'.parentOf, if_neg h.child_ne_promoted.symm]
    exact h.promoted_up
  case rows_live =>
    intro x
    rw [hs'.slots]
    by_cases hx : x = target
    · subst hx
      simpa [hrow] using h.rows_live x
    · rw [lookup_insert_ne hx]
      exact h.rows_live x
  case rows_width =>
    intro x row' hrow'
    rw [hs'.slots] at hrow'
    by_cases hx : x = target
    · subst hx
      rw [lookup_insert] at hrow'
      cases hrow'
      rw [length_set]
      exact h.rows_width x row hrow
    · rw [lookup_insert_ne hx] at hrow'
      exact h.rows_width x row' hrow'
  case children =>
    intro x hxr hxp
    rw [hs'.childrenOf x hxp, hdown, if_neg hxr, h.children x hxr hxp]
  case unmoved =>
    intro x hxr hxp hx
    have hxc : x ≠ child := fun e => hx (e ▸ h.child_parent)
    rw [hs'.parentOf, if_neg hxc]
    exact h.unmoved x hxr hxp hx
  case moved =>
    intro x hx hxl
    by_cases hxc : x = child
    · subst hxc
      exact .head (by rw [hup, update_self]) (hkeep htarget)
    · exact hkeep (h.moved x hx (by simp [hxc, hxl]))
  case outside =>
    intro x hxr hx
    have hxt : x ≠ target := fun e => hx (e ▸ hkeep htarget)
    rw [hs'.slots, lookup_insert_ne hxt]
    exact h.outside x hxr fun hb => hx (hkeep hb)
  case kept =>
    intro x y row1 q1 hxr hrow1 hy hyr
    obtain ⟨row2, hrow2, hy2⟩ := h.kept hxr hrow1 hy hyr
    rw [hs'.slots]
    by_cases hx : x = target
    · subst hx
      rw [hrow] at hrow2
      cases hrow2
      have hqq : q ≠ q1 := by
        rintro rfl
        rw [hq] at hy2
        cases hy2
      exact ⟨_, lookup_insert _, by rw [getElem?_set_ne hqq, hy2]⟩
    · exact ⟨row2, by rw [lookup_insert_ne hx, hrow2], hy2⟩
  case arena => exact h.arena.trans hs'.arena

end Step

/-! ## 2. The spill loop -/

section Loop

variable {t s : MatrixTree} {removed promoted parent : NodeIndex} {left : List NodeIndex}
  (hv : t.Valid) (hp : t.arena.parentOf promoted = some removed)
include hv hp

theorem Spilling.live_of_up (h : Spilling t s removed promoted parent left) {x y : NodeIndex}
    (hx : s.upIn removed x = some y) : t.arena.Live x := by
  unfold upIn at hx
  split at hx
  · cases hx
  · rename_i hxr
    by_cases hxp : x = promoted
    · exact hxp ▸ hv.arena.live_of_parent hp
    · by_cases hxc : t.arena.parentOf x = some removed
      · exact hv.arena.live_of_parent hxc
      · exact hv.arena.live_of_parent ((h.unmoved x hxr hxp hxc).symm.trans hx)

theorem Spilling.row_below (h : Spilling t s removed promoted parent left)
    (hne : promoted ≠ removed) {x : NodeIndex} (hx : Above (s.upIn removed) x promoted) :
    t.arena.Live x ∧ ∃ row, s.slots.lookup x = some row ∧
      row.reduceOption = s.downIn removed left x ∧ 0 < row.length := by
  have hlive : t.arena.Live x := by
    rcases Relation.ReflTransGen.cases_head hx with rfl | ⟨y, hy, -⟩
    · exact hv.arena.live_of_parent hp
    · exact h.live_of_up hv hp hy
  have hxr : x ≠ removed := by
    rintro rfl
    exact h.not_below_removed hne hx .refl
  obtain ⟨row, hrow⟩ := ne_none_iff_exists'.mp ((h.rows_live x).mpr hlive)
  refine ⟨hlive, row, hrow, by rw [downIn, if_neg hxr, hrow]; rfl, ?_⟩
  rw [h.rows_width x row hrow]
  have := hv.width_pos
  omega

omit hv hp in
theorem hung_direct {child : NodeIndex} (hlt : child < s.arena.nodes.length)
    (promoted : NodeIndex) (row : MatrixSlots) :
    Hung s { s.insertSlots promoted row with
      arena := s.arena.upd child fun n => { n with parent := some promoted } }
      promoted child promoted row := by
  have hnode := Arena.nodeAt_upd hlt fun n => { n with parent := some promoted }
  refine { slots := rfl, parentOf := fun x => ?_, childrenOf := fun x hx => ?_,
           arena := Arena.repositioned_upd hlt fun _ => ⟨rfl, rfl, rfl, rfl⟩,
           depth := fun x => ?_, root := rfl, width := rfl, spillover := rfl, tank := rfl }
  · simp only [Arena.parentOf, hnode]
    split <;> rfl
  · simp only [Arena.childrenOf, hnode, if_neg hx]
    split <;> rfl
  · simp only [hnode]
    split <;> rfl

omit hv hp in
theorem hung_below {child target : NodeIndex} (hlt : child < s.arena.nodes.length)
    (htl : target < s.arena.nodes.length) (promoted : NodeIndex) (row : MatrixSlots) :
    Hung s { s.insertSlots target row with
      arena := (s.arena.upd target fun n => { n with children := row.reduceOption }).upd child
        fun n => { n with parent := some target } } promoted child target row := by
  let mid := s.arena.upd target fun n => { n with children := row.reduceOption }
  have hmid : Arena.Repositioned s.arena mid := Arena.repositioned_upd htl fun _ => ⟨rfl, rfl, rfl, rfl⟩
  have hlt' : child < mid.nodes.length := by rwa [hmid.length]
  have hend : Arena.Repositioned mid (mid.upd child fun n => { n with parent := some target }) :=
    Arena.repositioned_upd hlt' fun _ => ⟨rfl, rfl, rfl, rfl⟩
  have hnode := Arena.nodeAt_upd hlt' fun n => { n with parent := some target }
  simp only [mid, Arena.nodeAt_upd htl] at hnode
  refine { slots := rfl, parentOf := fun x => ?_, childrenOf := fun x hx => ?_,
           arena := hmid.trans hend, depth := fun x => ?_, root := rfl, width := rfl, spillover := rfl, tank := rfl }
  · simp only [Arena.parentOf, hnode]
    split_ifs <;> rfl
  · simp only [Arena.childrenOf, hnode]
    split_ifs <;> rfl
  · simp only [hnode]
    split_ifs <;> rfl

/-- **One sibling is moved below the promoted node**; there is always a slot for it. -/
theorem spill_ok {child : NodeIndex} (h : Spilling t s removed promoted parent (child :: left))
    (userId : Uuid) : ∃ s', (spill promoted userId child).run s = .ok (t.arena.nodeAt child).userId s' ∧
      Spilling t s' removed promoted parent left := by
  have hne : promoted ≠ removed := hv.arena.forest.ranked.ne hp
  have hchild := hv.arena.live_of_parent h.child_parent
  have hlt : child < s.arena.nodes.length := h.arena.length ▸ hchild.lt
  have hlive := h.arena.live_iff.mpr hchild
  have huser : (s.arena.nodeAt child).userId = (t.arena.nodeAt child).userId := h.arena.userId child
  obtain ⟨-, prow, hprow, -, -⟩ := h.row_below hv hp hne .refl
  simp only [spill, run_bind, run_reads, slotsOf_ok hprow]
  cases hq : firstEmpty prow with
  | some q =>
    have hplace := firstEmpty_eq_some hq
    have hung := hung_direct hlt promoted (prow.set q (some child))
    refine ⟨_, ?_, h.hang hne .refl hprow hplace hung⟩
    simp only [run_bind, setSlot_ok hprow (List.getElem?_eq_some_iff.mp hplace).1, onArena,
      run_zoom, insertSlots_arena, nodeMut_ok hlive, run_reads,
      node_ok (hung.arena.live_iff.mpr hlive), run_pure, hung.arena.userId, huser]
  | none =>
    obtain ⟨target, q, row, hfind, htarget, hrow, hempty⟩ := findSpilloverSlot_ok h.forest
      (fun x hx => (h.row_below hv hp hne hx).2)
      (fun x hx => h.arena.length ▸ (h.row_below hv hp hne hx).1.lt)
    have hplace := firstEmpty_eq_some hempty
    have htl := h.arena.live_iff.mpr (h.row_below hv hp hne htarget).1
    have hung := hung_below hlt htl.lt promoted (row.set q (some child))
    refine ⟨_, ?_, h.hang hne htarget hrow hplace hung⟩
    have hrebuild := rebuildChildren_ok (t := s.insertSlots target (row.set q (some child)))
      (lookup_insert s.slots) htl
    have hlive' := (repositioned_upd (f := fun n =>
      { n with children := (row.set q (some child)).reduceOption }) htl.lt
      fun _ => ⟨rfl, rfl, rfl, rfl⟩).live_iff.mpr hlive
    simp only [hfind, run_bind, setSlot_ok hrow (List.getElem?_eq_some_iff.mp hplace).1,
      hrebuild, onArena, run_zoom, insertSlots_arena, nodeMut_ok hlive', run_reads,
      node_ok (hung.arena.live_iff.mpr hlive), run_pure, hung.arena.userId, huser]

/-- **The spill loop moves every sibling**, and reports them in the order of their slots. -/
theorem spillAll_ok (userId : Uuid) : ∀ {left : List NodeIndex} {s : MatrixTree},
    Spilling t s removed promoted parent left → ∃ s', (spillAll promoted userId left).run s =
        .ok (left.map fun x => (t.arena.nodeAt x).userId) s' ∧ Spilling t s' removed promoted parent [] := by
  intro left
  induction left with
  | nil => exact fun h => ⟨_, rfl, h⟩
  | cons child left ih =>
    intro s h
    obtain ⟨s1, hrun, h1⟩ := spill_ok hv hp h userId
    obtain ⟨s', hrest, h'⟩ := ih h1
    exact ⟨s', by simp only [spillAll, run_bind, hrun, hrest, run_pure, map_cons], h'⟩

end Loop

/-! ## 3. The start of the loop: the promotion -/

variable {removed : NodeIndex} {row : MatrixSlots}

theorem relabel_of_not_mem
    (h : removed ∉ row.reduceOption) (promoted : NodeIndex) : relabel removed promoted row = row := by
  refine (map_congr_left fun place hp => ?_).trans (map_id row)
  refine if_neg ?_
  rintro rfl
  exact h (reduceOption_mem_iff.mpr hp)

theorem set_eq_relabel {q : Nat}
    (hq : row[q]? = some (some removed)) (hnd : row.reduceOption.Nodup) (promoted : NodeIndex) :
    row.set q (some promoted) = relabel removed promoted row := by
  obtain ⟨l1, l2, e, hset⟩ := split_at hq
  have hocc : row.reduceOption = l1.reduceOption ++ removed :: l2.reduceOption := by
    rw [e, reduceOption_append, reduceOption_cons_of_some]
  rw [hocc] at hnd
  obtain ⟨-, h2, hdis⟩ := nodup_append.mp hnd
  have e1 := relabel_of_not_mem (fun hm => hdis removed hm removed mem_cons_self rfl) promoted
  have e2 := relabel_of_not_mem (nodup_cons.mp h2).1 promoted
  rw [hset, e, relabel, map_append, map_cons, if_pos rfl]
  exact (congr (congrArg _ e1) (congrArg _ e2)).symm

/-- `s` is `t` with the place of `removed` given to `promoted`. -/
structure Promoting (t s : MatrixTree) (removed promoted parent : NodeIndex) : Prop where
  lookup : ∀ x, x ≠ removed →
    s.slots.lookup x = (t.slots.lookup x).map (relabel removed promoted)
  own : ∃ row, s.slots.lookup removed = some row ∧ row.length = t.width.toNat
  parentOf : ∀ x, s.arena.parentOf x = if x = promoted then some parent else t.arena.parentOf x
  childrenOf : ∀ x, x ≠ removed →
    s.arena.childrenOf x = ((s.slots.lookup x).getD []).reduceOption
  arena : Arena.Repositioned t.arena s.arena
  depth : ∀ x, (s.arena.nodeAt x).depth = (t.arena.nodeAt x).depth
  root : s.arena.root = t.arena.root
  width : s.width = t.width
  spillover : s.spillover = t.spillover
  tank : s.holdingTank = t.holdingTank

section Promote

variable {t : MatrixTree} {removed promoted parent : NodeIndex} (hv : t.Valid)
  (hr : t.arena.parentOf removed = some parent) (hp : t.arena.parentOf promoted = some removed)
include hv hr

theorem Valid.relabel_row {x : NodeIndex} (hx : x ≠ parent) :
    (t.slots.lookup x).map (relabel removed promoted) = t.slots.lookup x := by
  cases hrow : t.slots.lookup x with
  | none => rfl
  | some row =>
    refine congrArg some (relabel_of_not_mem (fun hm => hx ?_) promoted)
    rw [show row.reduceOption = _ from hv.agree.children hrow, hv.arena.placed.mem_iff, hr] at hm
    exact (some.inj hm).symm

include hp

theorem promote_ok : ∃ s, (promote removed parent (t.positionIn removed) promoted).run t = .ok () s ∧
    Promoting t s removed promoted parent := by
  obtain ⟨prow, pos, hprow, -, hpos, epos⟩ := hv.place hr
  obtain ⟨rrow, pp, hrrow, -, hpp, epp⟩ := hv.place hp
  have hrp : removed ≠ parent := hv.arena.forest.ranked.ne hr
  have hpar := hv.arena.live_parent hr
  have hpl := hv.arena.live_of_parent hp
  have hocc : prow.reduceOption = t.arena.childrenOf parent := hv.agree.children hprow
  let prow' := prow.set pos (some promoted)
  let s1 := t.insertSlots removed (rrow.set pp none)
  let s2 := s1.insertSlots parent prow'
  let mid := t.arena.upd parent fun n => { n with children := prow'.reduceOption }
  let s : MatrixTree := { s2 with arena := mid.upd promoted fun n => { n with parent := some parent } }
  have hmid : Repositioned t.arena mid := repositioned_upd hpar.lt fun _ => ⟨rfl, rfl, rfl, rfl⟩
  have hlt : promoted < mid.nodes.length := hmid.length ▸ hpl.lt
  have hend : Repositioned mid s.arena := repositioned_upd hlt fun _ => ⟨rfl, rfl, rfl, rfl⟩
  have hnode : ∀ x, s.arena.nodeAt x = { t.arena.nodeAt x with
      parent := if x = promoted then some parent else t.arena.parentOf x
      children := if x = parent then prow'.reduceOption else t.arena.childrenOf x } := by
    intro x
    simp only [s, mid, nodeAt_upd hlt, nodeAt_upd hpar.lt]
    split_ifs <;> rfl
  have hlook : ∀ x, s.slots.lookup x = if x = parent then some prow' else
      if x = removed then some (rrow.set pp none) else t.slots.lookup x := by
    intro x
    show ((t.slots.insert removed _).insert parent prow').lookup x = _
    rw [Maps.lookup_insert, Maps.lookup_insert]
  refine ⟨s, ?_, ?_⟩
  · have h1 : (setSlot removed pp none).run t = .ok () s1 :=
      setSlot_ok hrrow (List.getElem?_eq_some_iff.mp hpp).1 none
    have h2 : (setSlot parent pos (some promoted)).run s1 = .ok () s2 :=
      setSlot_ok ((lookup_insert_ne hrp.symm).trans hprow) (List.getElem?_eq_some_iff.mp hpos).1 _
    have h3 : (rebuildChildren parent).run s2 = .ok () { s2 with arena := mid } :=
      rebuildChildren_ok (lookup_insert _) hpar
    have h4 := nodeMut_ok (ε := TreeError) (hmid.live_iff.mpr hpl)
      fun n => { n with parent := some parent }
    simp only [promote, run_bind, run_reads, hv.findSlotPosition hp, epp, epos, h1, h2, h3,
      onArena, run_zoom, h4]
    rfl
  · refine { lookup := fun x hx => ?_, own := ⟨rrow.set pp none, ?_, ?_⟩, parentOf := fun x => ?_,
             childrenOf := fun x hx => ?_, arena := hmid.trans hend, depth := fun x => by rw [hnode],
             root := rfl, width := rfl, spillover := rfl, tank := rfl }
    · rw [hlook]
      by_cases hxp : x = parent
      · rw [if_pos hxp, hxp, hprow]
        exact congrArg some (set_eq_relabel hpos (hocc ▸ hv.arena.placed.nodup parent) promoted)
      · rw [if_neg hxp, if_neg hx, hv.relabel_row hr hxp]
    · rw [hlook, if_neg hrp, if_pos rfl]
    · rw [length_set]
      exact hv.rows removed rrow hrrow
    · rw [Arena.parentOf, hnode]
    · rw [childrenOf, hnode, hlook, if_neg hx]
      by_cases hxp : x = parent
      · simp [hxp]
      · rw [if_neg hxp, if_neg hxp, hv.occupants]

variable {s : MatrixTree}

/-- The removed node is cut off and its child moved to its parent. -/
theorem Promoting.forest (h : Promoting t s removed promoted parent) :
    Forest (s.downIn removed ((t.arena.childrenOf removed).filter (· ≠ promoted))) (s.upIn removed) := by
  have hF := hv.arena.forest
  have hrp : removed ≠ parent := hF.ranked.ne hr
  have hpr : promoted ≠ removed := hF.ranked.ne hp
  let up1 := update t.arena.parentOf removed none
  let down1 := update t.arena.childrenOf parent ((t.arena.childrenOf parent).filter (· ≠ removed))
  have hsub : ∀ a b, up1 a = some b → t.arena.parentOf a = some b := by
    intro a b hab
    simp only [up1, update_apply] at hab
    split at hab
    · cases hab
    · exact hab
  have hcut : Forest down1 up1 :=
    { toLinked := hF.toLinked.detach hr (fun y => update_apply _ _ _ y)
        (update_self parent _ _) (fun x hx => update_of_ne hx _ _)
      ranked := hF.ranked.mono hsub }
  have hdown : ∀ x, x ≠ removed → x ≠ parent →
      s.downIn removed ((t.arena.childrenOf removed).filter (· ≠ promoted)) x = t.arena.childrenOf x := by
    intro x hx hxp
    rw [downIn, if_neg hx, h.lookup x hx, hv.relabel_row hr hxp, hv.occupants]
  obtain ⟨prow, pos, hprow, -, hpos, -⟩ := hv.place hr
  have hocc : prow.reduceOption = t.arena.childrenOf parent := hv.agree.children hprow
  have hnd : prow.reduceOption.Nodup := hocc ▸ hv.arena.placed.nodup parent
  have hperm : (s.downIn removed ((t.arena.childrenOf removed).filter (· ≠ promoted)) parent).Perm
      (promoted :: down1 parent) := by
    rw [downIn, if_neg hrp.symm, h.lookup parent hrp.symm, hprow]
    simp only [down1, update_self, ← hocc]
    rw [map_some, getD_some, ← set_eq_relabel hpos hnd promoted]
    exact perm_swap hpos hnd promoted
  have hout : promoted ∉ down1 parent := by
    intro hm
    have hm := hsub _ _ (hcut.mem_iff.mp hm)
    rw [hp] at hm
    exact hrp (some.inj hm)
  refine hcut.move (c := promoted) (r := removed) (t := parent) ?_ (fun hab => ?_) hrp.symm
    (funext fun x => ?_) ?_ (fun y => ?_) ?_ (fun x hxr hxp => ?_)
  · simp only [up1, update_of_ne hpr]
    exact hp
  · have hab' : Above t.arena.parentOf parent promoted := hab.of_shortcut fun a b e => .single (hsub a b e)
    exact hF.ranked.irrefl parent (.trans_right hab' (.head hp (.single hr)))
  · simp only [up1, upIn, update_apply, h.parentOf]
    split_ifs with h1 h2
    · exact absurd (h2.symm.trans h1) hpr
    all_goals rfl
  · simp only [down1, update_of_ne hrp, downIn, if_true]
  · rw [hperm.mem_iff, mem_cons]
  · exact hperm.nodup_iff.mpr (nodup_cons.mpr ⟨hout, hcut.nodup parent⟩)
  · rw [hdown x hxr hxp]
    simp only [down1, update_of_ne hxp]

/-- **After the promotion the spill loop's invariant holds**, with all siblings still to move. -/
theorem Promoting.spilling (h : Promoting t s removed promoted parent) : Spilling t s removed promoted parent
      ((t.arena.childrenOf removed).filter (· ≠ promoted)) := by
  have hrp : removed ≠ parent := hv.arena.forest.ranked.ne hr
  have hpr : promoted ≠ removed := hv.arena.forest.ranked.ne hp
  have hup : ∀ x y, s.upIn removed x = some y → StrictlyAbove t.arena.parentOf x y := by
    intro x y hxy
    unfold upIn at hxy
    rw [h.parentOf] at hxy
    split_ifs at hxy with h1 h2
    · cases hxy
      exact h2 ▸ .head hp (.single hr)
    · exact .single hxy
  refine { forest := ?forest, apart := ?apart, promoted_up := ?promoted_up, rows_live := ?rows_live,
           rows_width := ?rows_width, children := ?children, unmoved := ?unmoved, moved := ?moved,
           outside := fun x hx _ => h.lookup x hx, kept := ?kept, arena := h.arena, depth := h.depth,
           root := h.root,
           width := h.width, spillover := h.spillover, tank := h.tank }
  case forest => exact h.forest hv hr hp
  case apart =>
    intro hab
    rcases Relation.ReflTransGen.cases_head hab with e | ⟨y, hy, hyr⟩
    · exact hpr e
    · rw [upIn, if_neg hpr, h.parentOf, if_pos rfl] at hy
      cases hy
      exact hv.arena.forest.ranked.irrefl removed (.head' hr (Above.of_shortcut hup hyr))
  case promoted_up => rw [h.parentOf, if_pos rfl]
  case rows_live =>
    intro x
    by_cases hx : x = removed
    · subst hx
      obtain ⟨row, hrow, -⟩ := h.own
      simp [hrow, hv.arena.live_of_parent hr]
    · rw [h.lookup x hx, ← hv.agree.live x]
      simp
  case rows_width =>
    intro x row hrow
    by_cases hx : x = removed
    · obtain ⟨row', hrow', hlen⟩ := h.own
      rw [hx, hrow'] at hrow
      cases hrow
      exact hlen
    · rw [h.lookup x hx, map_eq_some_iff] at hrow
      obtain ⟨row', hrow', rfl⟩ := hrow
      rw [relabel, length_map]
      exact hv.rows x row' hrow'
  case children =>
    intro x hxr _
    rw [downIn, if_neg hxr, h.childrenOf x hxr]
  case unmoved =>
    intro x _ hxp _
    rw [h.parentOf, if_neg hxp]
  case moved =>
    intro x hx hxl
    have : x = promoted := by
      by_contra hxp
      exact hxl (mem_filter.mpr ⟨hv.arena.placed.mem_iff.mpr hx, decide_eq_true hxp⟩)
    exact this ▸ .refl
  case kept =>
    intro x y row q hxr hrow hy hyr
    refine ⟨relabel removed promoted row, by rw [h.lookup x hxr, hrow]; rfl, ?_⟩
    rw [relabel, getElem?_map, hy]
    simp [hyr]

end Promote

end MatrixTree

end MlmForge.Engine
