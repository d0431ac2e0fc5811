/-
  Subject:   What the read-only walks of a removal find in a valid matrix tree.

  * `earliest_ok` -- the earliest-enrolled of some live nodes.
-/
import MlmForge.Engine.MatrixPlace

namespace MlmForge.Engine

open Query List Arena

namespace MatrixTree

/-- The place of a node in its parent's row. -/
def positionIn (t : MatrixTree) (x : NodeIndex) : Nat :=
  (((t.arena.parentOf x).bind t.slots.lookup).bind fun row => takenBy row x).getD 0

theorem positionIn_eq {t : MatrixTree} {x q : NodeIndex} (hq : t.arena.parentOf x = some q) :
    t.positionIn x = ((t.slots.lookup q).bind fun row => takenBy row x).getD 0 := by
  rw [positionIn, hq]
  rfl

/-- The placement of a node that has a parent. -/
def placement (t : MatrixTree) (x : NodeIndex) : Placement where
  parentId := ((t.arena.parentOf x).map fun p => (t.arena.nodeAt p).userId).getD Uuid.nil
  position := UInt8.ofNat (t.positionIn x)
  depth := (t.arena.nodeAt x).depth

theorem earliest_ok (t : MatrixTree) : ∀ {rest : List NodeIndex} {best : NodeIndex},
    (∀ c ∈ best :: rest, t.arena.Live c) → ∃ c ∈ best :: rest, t.earliest best rest = .ok c ∧
      ∀ d ∈ best :: rest, (t.arena.nodeAt c).enrolledAt ≤ (t.arena.nodeAt d).enrolledAt := by
  intro rest
  induction rest with
  | nil =>
    intro best _
    refine ⟨best, mem_cons_self, rfl, fun d hd => ?_⟩
    rw [mem_singleton.mp hd]
  | cons x rest ih =>
    intro best hl
    have hb := hl best mem_cons_self
    have hx := hl x (by simp)
    rw [MatrixTree.earliest, bind_ok (node_ok hb), bind_ok (node_ok hx)]
    by_cases hlt : (t.arena.nodeAt x).enrolledAt < (t.arena.nodeAt best).enrolledAt
    · obtain ⟨c, hc, hrun, hmin⟩ := @ih x fun c hc => hl c (mem_cons_of_mem _ hc)
      refine ⟨c, mem_cons_of_mem _ hc, by simpa only [if_pos hlt] using hrun, fun d hd => ?_⟩
      rcases mem_cons.mp hd with rfl | hd
      · have := hmin x mem_cons_self
        omega
      · exact hmin d hd
    · obtain ⟨c, hc, hrun, hmin⟩ := @ih best fun c hc => by
        rcases mem_cons.mp hc with rfl | hc
        · exact hb
        · exact hl c (by simp [hc])
      refine ⟨c, ?_, by simpa only [if_neg hlt] using hrun, fun d hd => ?_⟩
      · rcases mem_cons.mp hc with rfl | hc
        · exact mem_cons_self
        · simp [hc]
      · have hbest := hmin best mem_cons_self
        rcases mem_cons.mp hd with rfl | hd
        · exact hbest
        · rcases mem_cons.mp hd with rfl | hd
          · omega
          · exact hmin d (mem_cons_of_mem _ hd)

/-- The report of a node's placement. -/
def relocation (t : MatrixTree) (x : NodeIndex) : Relocation :=
  ⟨(t.arena.nodeAt x).userId, (t.placement x).parentId, (t.placement x).position, (t.placement x).depth⟩

section Walks

variable {t : MatrixTree} (h : t.Valid)
include h

/-! ## 1. One node -/

/-- A node with a parent has a place in its parent's row. -/
theorem Valid.place {x p : NodeIndex} (hp : t.arena.parentOf x = some p) :
    ∃ row q, t.slots.lookup p = some row ∧ takenBy row x = some q ∧ row[q]? = some (some x) ∧
      t.positionIn x = q := by
  obtain ⟨row, hrow, hocc, -⟩ := h.exists_row (h.arena.live_parent hp)
  obtain ⟨q, hq⟩ := exists_takenBy (l := row) (k := x) (by
    rw [hocc]
    exact h.arena.placed.mem_iff.mpr hp)
  exact ⟨row, q, hrow, hq, takenBy_eq_some hq, by simp [positionIn, hp, hrow, hq]⟩

theorem Valid.findSlotPosition {x p : NodeIndex} (hp : t.arena.parentOf x = some p) :
    t.findSlotPosition p x = .ok (t.positionIn x) := by
  obtain ⟨row, q, hrow, hq, -, hpos⟩ := h.place hp
  rw [hpos, MatrixTree.findSlotPosition, bind_ok (slotsOf_ok hrow), hq]

theorem Valid.parentOf_ok {x p : NodeIndex} (hp : t.arena.parentOf x = some p) (msg : String) :
    t.parentOf x msg = .ok p := by
  rw [MatrixTree.parentOf, bind_ok (node_ok (h.arena.live_of_parent hp))]
  rw [show (t.arena.nodeAt x).parent = some p from hp]

theorem Valid.placementOf {x p : NodeIndex} (hp : t.arena.parentOf x = some p) :
    t.placementOf x = .ok (t.placement x) := by
  rw [MatrixTree.placementOf, bind_ok (h.parentOf_ok hp _),
    bind_ok (h.findSlotPosition hp), bind_ok (node_ok (h.arena.live_parent hp)),
    bind_ok (node_ok (h.arena.live_of_parent hp))]
  simp [placement, hp]

/-! ## 2. Subtrees -/

/-- **The descendants of a node are the nodes strictly below it, once each.** -/
theorem Valid.descendants {idx : NodeIndex} (hi : t.arena.Live idx) :
    ∃ below, t.descendants idx = .ok below ∧ below.Nodup ∧
      ∀ x, x ∈ below ↔ StrictlyAbove t.arena.parentOf x idx := by
  obtain ⟨order, ho, hnd, hmem, -⟩ := bfsOrder_forest h.arena.forest (t.arena.nodes.length + 1) _
    (Finset.range t.arena.nodes.length) (by simp)
    (fun _ q hq hx => Finset.mem_range.mpr (h.arena.below_lt (h.arena.live_child hq).lt hx))
    (h.arena.antichain_children idx)
  have hlive : ∀ x ∈ order, t.arena.Live x := by
    intro x hx
    obtain ⟨q, hq, hxq⟩ := (hmem x).mp hx
    exact h.arena.live_below (h.arena.live_child hq) hxq
  refine ⟨order, ?_, hnd, fun x => ?_⟩
  · rw [MatrixTree.descendants, bind_ok (node_ok hi)]
    refine (bfsFold_eq (fun found x hx => bind_ok (node_ok (hlive x hx)) _) ho).trans ?_
    rw [foldl_append_eq_append, ← flatMap_def, flatMap_singleton', nil_append]
  · rw [hmem]
    constructor
    · rintro ⟨q, hq, hxq⟩
      exact Relation.TransGen.tail' hxq (h.arena.placed.mem_iff.mp hq)
    · intro hx
      obtain ⟨q, hxq, hq⟩ := Relation.TransGen.tail'_iff.mp hx
      exact ⟨q, h.arena.placed.mem_iff.mpr hq, hxq⟩

theorem Valid.placementsBelow {idx : NodeIndex} (hi : t.arena.Live idx) :
    ∃ before, t.placementsBelow idx = .ok before ∧
      (∀ x placed, before.lookup x = some placed → placed = t.placement x) ∧
      ∀ x, StrictlyAbove t.arena.parentOf x idx → before.lookup x = some (t.placement x) := by
  obtain ⟨below, hbelow, -, hmem⟩ := h.descendants hi
  have hread : ∀ x placed, (below.map fun x => (x, t.placement x)).lookup x = some placed →
      placed = t.placement x := by
    intro x placed hl
    obtain ⟨l1, l2, e, -⟩ := lookup_eq_some_iff.mp hl
    have hm : (x, placed) ∈ below.map fun x => (x, t.placement x) := by simp [e]
    obtain ⟨y, -, hy⟩ := mem_map.mp hm
    cases hy
    rfl
  refine ⟨below.map fun x => (x, t.placement x), ?_, hread, fun x hx => ?_⟩
  · rw [MatrixTree.placementsBelow, bind_ok hbelow]
    refine mapM_eq_ok fun x hx => ?_
    obtain ⟨p, hp, -⟩ := Relation.TransGen.head'_iff.mp ((hmem x).mp hx)
    rw [bind_ok (h.placementOf hp)]
  · cases hl : (below.map fun x => (x, t.placement x)).lookup x with
    | none =>
      rw [lookup_eq_none_iff] at hl
      have := hl (x, t.placement x) (mem_map_of_mem ((hmem x).mpr hx))
      simp at this
    | some placed => rw [hread x placed hl]

theorem Valid.pairwise_children (x : NodeIndex) :
    (t.arena.childrenOf x).Pairwise fun c d => t.positionIn c < t.positionIn d := by
  by_cases hx : t.arena.Live x
  · obtain ⟨row, hrow, hocc, -⟩ := h.exists_row hx
    rw [← hocc]
    refine (pairwise_takenBy (hocc ▸ h.arena.placed.nodup x)).imp_of_mem fun {c d} hc hd hcd => ?_
    have hup : ∀ {c}, c ∈ row.reduceOption → t.positionIn c = (takenBy row c).getD 0 := by
      intro c hc
      rw [positionIn_eq (h.arena.placed.mem_iff.mp (hocc ▸ hc)), hrow]
      rfl
    rw [hup hc, hup hd]
    exact hcd
  · rw [(h.arena.cleared hx).2.2.1]
    exact List.Pairwise.nil

/-- **Breadth-first order in a tree**: level by level, below one parent by place. -/
def Precedes (t : MatrixTree) : NodeIndex → NodeIndex → Prop :=
  LevelBefore t.arena.parentOf (fun x => (t.arena.nodeAt x).depth) t.positionIn

/-- What `relocationsFrom` reports: the nodes below `start` whose placement is not the one before,
    each with its placement. -/
theorem Valid.relocationsFrom {start : NodeIndex} (hs : (t.arena.parentOf start).isSome)
    (before : List (NodeIndex × Placement)) :
    ∃ moved : List NodeIndex, t.relocationsFrom start before = .ok (moved.map t.relocation) ∧
      moved.Nodup ∧ moved.Pairwise t.Precedes ∧ ∀ x, x ∈ moved ↔
        Above t.arena.parentOf x start ∧ before.lookup x ≠ some (t.placement x) := by
  obtain ⟨p, hp⟩ := Option.isSome_iff_exists.mp hs
  have hlive := h.arena.live_of_parent hp
  obtain ⟨order, ho, hnd, hbelow, -⟩ := bfsOrder_single h.arena.forest (Nat.le_succ _) fun x =>
    h.arena.below_lt hlive.lt
  have hlevels := (bfsOrder_levels h.arena.forest (fun hp => h.arena.depth_below hp)
    h.pairwise_children (levelled_singleton start) ho).2
  refine ⟨order.filter fun x => before.lookup x ≠ some (t.placement x), ?_, hnd.filter _,
    hlevels.filter _, fun x => by simp [hbelow]⟩
  have hstep : ∀ acc, ∀ x ∈ order, (do
      let now ← t.placementOf x
      let n ← t.arena.node x
      let moved := if before.lookup x ≠ some now then
        acc ++ [⟨n.userId, now.parentId, now.position, now.depth⟩] else acc
      let row ← t.slotsOf x
      .ok (moved, row.reduceOption) : Query TreeError (List Relocation × List NodeIndex)) =
        .ok (acc ++ ([x].filter fun x => before.lookup x ≠ some (t.placement x)).map t.relocation,
          t.arena.childrenOf x) := by
    intro acc x hx
    have habove := (hbelow x).mp hx
    have hxl := h.arena.live_below hlive habove
    obtain ⟨q, hq⟩ : ∃ q, t.arena.parentOf x = some q := by
      rcases Relation.ReflTransGen.cases_head habove with rfl | ⟨q, hq, -⟩
      · exact ⟨p, hp⟩
      · exact ⟨q, hq⟩
    obtain ⟨row, hrow, hocc, -⟩ := h.exists_row hxl
    rw [bind_ok (h.placementOf hq), bind_ok (node_ok hxl), bind_ok (slotsOf_ok hrow), hocc]
    by_cases hb : before.lookup x ≠ some (t.placement x)
    · simp [hb, relocation]
    · simp [hb]
  refine (bfsFold_eq hstep ho).trans (congrArg Except.ok ?_)
  rw [foldl_append_eq_append, nil_append, ← flatMap_def]
  clear * -
  induction order with
  | nil => rfl
  | cons x order ih => simp only [flatMap_cons, ih, ← map_append, ← filter_append, singleton_append]

end Walks

end MatrixTree

end MlmForge.Engine
