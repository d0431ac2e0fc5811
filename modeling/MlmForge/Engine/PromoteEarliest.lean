/-
  Subject:   A removal by promotion, said of users.

  The earliest-enrolled child takes the removed user's slot, the other children go into open slots
  below that one, one after another, and whole subtrees change their depth on the way. What can be
  seen of it from outside:

  * **`promotion_disturbs_nobody`** -- all of it.
-/
import MlmForge.Engine.TankRoundTrip

namespace MlmForge.Engine

open List Arena Option

namespace Roster

/-- How deep a user sits. -/
def depthOf (r : Roster) (u : Uuid) : Nat := ((r u).map fun seat => seat.depth.toNat).getD 0

/-- The slot of a user under their parent. -/
def slotOf (r : Roster) (u : Uuid) : Nat := (((r u).bind Seat.position).map Int.toNat).getD 0

/-- A child of `u` who enrolled no later than the others. -/
def Eldest (r : Roster) (u c : Uuid) : Prop :=
  r.parentOf c = some u ∧ ∀ v a b, r.parentOf v = some u → r c = some a → r v = some b →
    a.enrolledAt ≤ b.enrolledAt

/-- Breadth-first order among users: level by level, below one parent by slot. -/
def Precedes (r : Roster) : Uuid → Uuid → Prop := LevelBefore r.parentOf r.depthOf r.slotOf

end Roster

namespace MatrixTree

section Seats

variable {t : MatrixTree} (h : t.Valid)
include h

theorem Valid.depthOf_userAt {x : NodeIndex} (hx : t.arena.Live x) :
    t.roster.depthOf (t.arena.userAt x) = (t.arena.nodeAt x).depth := by
  rw [Roster.depthOf, roster, h.arena.roster_userAt hx]
  rfl

theorem Valid.slotOf_userAt {x p : NodeIndex} (hp : t.arena.parentOf x = some p) :
    t.roster.slotOf (t.arena.userAt x) = t.positionIn x := by
  rw [Roster.slotOf, roster, h.arena.roster_userAt (h.arena.live_of_parent hp)]
  simp [seatAt, (h.slotIn hp).1]

theorem Valid.precedes_userAt {x y : NodeIndex} (hxy : t.Precedes x y) (hx : t.arena.Live x)
    (hy : t.arena.Live y) : t.roster.Precedes (t.arena.userAt x) (t.arena.userAt y) := by
  refine hxy.map (g := t.arena.userAt) (P := t.arena.Live) (fun {x p} hp => ?_)
    (fun {x} hx => h.depthOf_userAt hx) (fun {x p} hp => h.slotOf_userAt hp) hx hy
  exact ⟨h.arena.roster_parentOf_eq_some.mpr ⟨x, p, hp, rfl, rfl⟩, h.arena.live_parent hp⟩

theorem Valid.eldest {x u : NodeIndex} (hx : t.arena.parentOf x = some u)
    (hmin : ∀ c ∈ t.arena.childrenOf u, (t.arena.nodeAt x).enrolledAt ≤ (t.arena.nodeAt c).enrolledAt) :
    t.roster.Eldest (t.arena.userAt u) (t.arena.userAt x) := by
  refine ⟨h.arena.roster_parentOf_eq_some.mpr ⟨x, u, hx, rfl, rfl⟩, fun v a b hv ha hb => ?_⟩
  obtain ⟨y, j, hyj, rfl, hj⟩ := h.arena.roster_parentOf_eq_some.mp hv
  cases h.arena.userAt_inj (h.arena.live_parent hyj) hj
  cases ha.symm.trans (h.arena.roster_userAt (h.arena.live_of_parent hx))
  cases hb.symm.trans (h.arena.roster_userAt (h.arena.live_of_parent hyj))
  exact hmin y (h.arena.placed.mem_iff.mpr hyj)

end Seats

/-! ## 1. The slots -/

section Slots

variable {t t' : MatrixTree} {removed promoted parent : NodeIndex}
  (h : Promotion t t' removed promoted parent) (hv : t.Valid) (hv' : t'.Valid)
  (hr : t.arena.parentOf removed = some parent)
include h

theorem Promotion.parent_apart : ¬ Above t'.arena.parentOf parent promoted := fun hab =>
  h.forest.ranked.irrefl promoted (.head' h.promoted_up hab)

include hv hr

theorem Promotion.slot_taken {x y : NodeIndex} {row row' : MatrixSlots} {q : Nat} (hx : x ≠ removed)
    (hrow : t.slots.lookup x = some row) (hrow' : t'.slots.lookup x = some row')
    (hy : row[q]? = some (some y)) :
    row'[q]? = some (some (if y = removed then promoted else y)) := by
  by_cases hyr : y = removed
  · subst hyr
    have hup : t.arena.parentOf y = some x := by
      rw [← hv.arena.placed.mem_iff, ← hv.agree.children hrow]
      exact reduceOption_mem_iff.mpr (mem_of_getElem? hy)
    rw [hr] at hup
    cases hup
    rw [h.outside _ hx h.parent_apart, hrow] at hrow'
    cases hrow'
    simp [relabel, hy]
  · obtain ⟨row1, hrow1, hy1⟩ := h.kept hx hrow hy hyr
    cases hrow1.symm.trans hrow'
    rw [if_neg hyr, hy1]

include hv'

theorem Promotion.slot_open {x : NodeIndex} {row row' : MatrixSlots} {q : Nat} (hx : x ≠ removed)
    (hrow : t.slots.lookup x = some row) (hrow' : t'.slots.lookup x = some row') (hq : row[q]? = some none) :
    row'[q]? = some none ∨ ∃ y, row'[q]? = some (some y) ∧ y ≠ promoted ∧
      t.arena.parentOf y = some removed := by
  have hlen : row'.length = row.length := by
    rw [hv'.rows x row' hrow', h.width, hv.rows x row hrow]
  have hlt : q < row'.length := hlen ▸ (List.getElem?_eq_some_iff.mp hq).1
  cases hy : row'[q] with
  | none => exact .inl (by rw [getElem?_eq_getElem hlt, hy])
  | some y =>
    have hat : row'[q]? = some (some y) := by rw [getElem?_eq_getElem hlt, hy]
    have hocc := hv'.agree.children hrow'
    have hup : t'.arena.parentOf y = some x := by
      rw [← hv'.arena.placed.mem_iff, ← hocc]
      exact reduceOption_mem_iff.mpr (mem_of_getElem? hat)
    have hyp : y ≠ promoted := by
      rintro rfl
      rw [h.promoted_up] at hup
      cases hup
      rw [h.outside _ hx h.parent_apart, hrow] at hrow'
      cases hrow'
      simp [relabel, hq] at hat
    refine .inr ⟨y, hat, hyp, ?_⟩
    -- whoever was not moved was in this row before, and in this very slot
    by_contra hne
    have hyr : y ≠ removed := by
      rintro rfl
      rw [h.removed_up] at hup
      cases hup
    rw [h.unmoved y hyr hyp hne] at hup
    obtain ⟨row1, q1, hrow1, -, hy1, -⟩ := hv.place hup
    cases hrow1.symm.trans hrow
    have hq1 := h.slot_taken hv hr hx hrow hrow' hy1
    rw [if_neg hyr] at hq1
    have hnd : row'.reduceOption.Nodup := hocc ▸ hv'.arena.placed.nodup x
    rw [place_unique hnd hq1 hat, hq] at hy1
    cases hy1

theorem Promotion.slotIn_promoted : t'.arena.slotIn t'.slots.lookup promoted =
    t.arena.slotIn t.slots.lookup removed := by
  have hne : parent ≠ removed := (hv.arena.forest.ranked.ne hr).symm
  obtain ⟨row, q, hrow, htaken, hat, -⟩ := hv.place hr
  obtain ⟨row', hrow', hocc, -⟩ := hv'.exists_row (hv'.arena.live_parent h.promoted_up)
  have hat' := h.slot_taken hv hr hne hrow hrow' hat
  rw [if_pos rfl] at hat'
  rw [slotIn_of h.promoted_up hrow', slotIn_of hr hrow, htaken]
  exact takenBy_of_getElem? hat' (hocc ▸ hv'.arena.placed.nodup parent)

theorem Promotion.slotIn_unmoved (hp : t.arena.parentOf promoted = some removed) {x : NodeIndex}
    (hx : x ≠ removed) (hxr : t.arena.parentOf x ≠ some removed) : t'.arena.parentOf x = t.arena.parentOf x ∧
      t'.arena.slotIn t'.slots.lookup x = t.arena.slotIn t.slots.lookup x := by
  have hup := h.unmoved x hx (fun e => hxr (e ▸ hp)) hxr
  refine ⟨hup, ?_⟩
  cases hq : t.arena.parentOf x with
  | none => rw [slotIn_top hq, slotIn_top (hup.trans hq)]
  | some p =>
    have hpr : p ≠ removed := fun e => hxr (e ▸ hq)
    have hq' := hup.trans hq
    obtain ⟨row, q, hrow, htaken, hat, -⟩ := hv.place hq
    obtain ⟨row', hrow', hocc, -⟩ := hv'.exists_row (hv'.arena.live_parent hq')
    have hat' := h.slot_taken hv hr hpr hrow hrow' hat
    rw [if_neg hx] at hat'
    rw [slotIn_of hq' hrow', slotIn_of hq hrow, htaken]
    exact takenBy_of_getElem? hat' (hocc ▸ hv'.arena.placed.nodup p)

end Slots

/-! ## 2. The report -/

section Report

variable {t t' : MatrixTree} {mode : PruningMode} {idx : NodeIndex} {gone moved : List NodeIndex}
  {result : RemovalResult} (hr : Removed t t' mode idx gone moved result) (h : t.Valid)
include hr h

theorem Removed.placement_congr {x : NodeIndex} (hx : x ∈ moved)
    (e : (t'.arena.seatAt (t'.arena.slotIn t'.slots.lookup) x).placement =
      (t.arena.seatAt (t.arena.slotIn t.slots.lookup) x).placement) : t'.placement x = t.placement x := by
  obtain ⟨p', hp'⟩ := isSome_iff_exists.mp (hr.moved_up x hx)
  simp only [Seat.placement, seatAt, Prod.mk.injEq, hp', map_some] at e
  obtain ⟨hpar, hpos, hdepth⟩ := e
  obtain ⟨p, hp, hpu⟩ := map_eq_some_iff.mp hpar.symm
  rw [(hr.valid.slotIn hp').1, (h.slotIn hp).1] at hpos
  have hpos : t'.positionIn x = t.positionIn x := by simpa using hpos
  have hdepth : (t'.arena.nodeAt x).depth = (t.arena.nodeAt x).depth := by simpa using hdepth
  have huser : (t'.arena.nodeAt p').userId = (t.arena.nodeAt p).userId := hpu.symm
  simp only [MatrixTree.placement, hp, hp', hpos, hdepth, map_some, huser]

/-- **Who is reported as relocated**: exactly the survivors whose placement changed, with the new
    one. -/
theorem Removed.mem_relocated (hdiff : ∀ x ∈ moved, t'.placement x ≠ t.placement x)
    (m : Relocation) : m ∈ result.relocated ↔
      ∃ before after, t.roster m.userId = some before ∧ t'.roster m.userId = some after ∧
        after.placement ≠ before.placement ∧
        after.placement = (some m.parentId, some (m.position.toNat : Int), (m.depth : Int)) := by
  -- a report says what the seat is afterwards
  have hsaid : ∀ {x}, x ∈ moved → t.roster (t'.relocation x).userId =
        some (t.arena.seatAt (t.arena.slotIn t.slots.lookup) x) ∧
      t'.roster (t'.relocation x).userId = some (t'.arena.seatAt (t'.arena.slotIn t'.slots.lookup) x) ∧
      (t'.arena.seatAt (t'.arena.slotIn t'.slots.lookup) x).placement =
        (some (t'.relocation x).parentId, some ((t'.relocation x).position.toNat : Int),
          ((t'.relocation x).depth : Int)) := by
    intro x hx
    obtain ⟨p, hp⟩ := isSome_iff_exists.mp (hr.moved_up x hx)
    have hxl' := hr.valid.arena.live_of_parent hp
    obtain ⟨hxg, hxl⟩ := hr.pruned.live_iff.mp hxl'
    obtain ⟨huser, hparent, hslot⟩ := hr.relocation hp
    have hpg := (hr.pruned.live_iff.mp (hr.valid.arena.live_parent hp)).1
    refine ⟨?_, hr.valid.arena.roster_userAt hxl', ?_⟩
    · rw [huser]
      exact h.arena.roster_userAt hxl
    · rw [hparent]
      simp only [Seat.placement, seatAt, hp, hslot, map_some, hr.pruned.userAt hpg]
      rfl
  rw [hr.relocated]
  constructor
  · intro hm
    obtain ⟨x, hx, rfl⟩ := mem_map.mp hm
    obtain ⟨hbefore, hafter, hsays⟩ := hsaid hx
    exact ⟨_, _, hbefore, hafter, fun e => hdiff x hx (hr.placement_congr h hx e), hsays⟩
  · intro hm
    obtain ⟨before, after, hbefore, hafter, hne, hsays⟩ := hm
    obtain ⟨x, hx', hxu, rfl⟩ := hr.valid.arena.roster_eq_some.mp hafter
    obtain ⟨hxg, hx⟩ := hr.pruned.live_iff.mp hx'
    rw [hr.pruned.userAt hxg] at hxu
    rw [← hxu] at hbefore
    cases hbefore.symm.trans (h.arena.roster_userAt hx)
    have hxm : x ∈ moved := by
      by_contra hxm
      obtain ⟨hpar, hplace, hdepth⟩ := (hr.relocates h).kept x hx hxg fun m' hm' e => by
        rw [hr.relocated] at hm'
        obtain ⟨y, hy, rfl⟩ := mem_map.mp hm'
        obtain ⟨p, hp⟩ := isSome_iff_exists.mp (hr.moved_up y hy)
        rw [(hr.relocation hp).1] at e
        exact hxm (h.arena.userAt_inj hx e.symm ▸ hy)
      refine hne ?_
      simp only [Seat.placement, seatAt, hpar, hplace, hdepth]
    refine mem_map.mpr ⟨x, hxm, ?_⟩
    obtain ⟨-, -, hsaid⟩ := hsaid hxm
    rw [hsaid] at hsays
    simp only [Prod.mk.injEq, some.injEq, Nat.cast_inj] at hsays
    obtain ⟨hp, hq, hd⟩ := hsays
    have hu : (t'.relocation x).userId = m.userId := (hr.pruned.userAt hxg).trans hxu
    calc t'.relocation x = ⟨(t'.relocation x).userId, (t'.relocation x).parentId, (t'.relocation x).position,
            (t'.relocation x).depth⟩ := rfl
      _ = m := by rw [hu, hp, UInt8.toNat_inj.mp hq, hd]

omit h in
theorem Removed.relocated_levels (hlevels : moved.Pairwise t'.Precedes) :
    (result.relocated.map Relocation.userId).Pairwise t'.roster.Precedes := by
  rw [hr.relocated, List.map_map]
  refine pairwise_map.mpr (hlevels.imp_of_mem fun {x y} hx hy hxy => ?_)
  have hlive : ∀ {x}, x ∈ moved → t'.arena.Live x := fun hx => by
    obtain ⟨p, hp⟩ := Option.isSome_iff_exists.mp (hr.moved_up _ hx)
    exact hr.valid.arena.live_of_parent hp
  exact hr.valid.precedes_userAt hxy (hlive hx) (hlive hy)

end Report

/-! ## 3. The whole removal -/

/-- **What a removal of `u` that promotes `c` does**: nobody but `u` leaves; `c` is an earliest child
    and takes the slot of `u`; whoever was not a child of `u` keeps parent and slot, and a slot that
    was open stays open or gets a sibling of `c`; the placements that changed are reported, once each,
    level by level; and so are the changed sponsors. -/
structure PromoteRemoval (t t' : MatrixTree) (u c : Uuid) (result : RemovalResult) : Prop where
  valid : t'.Valid
  live : ∀ v, t'.roster v ≠ none ↔ t.roster v ≠ none ∧ v ≠ u
  promoted : result.promoted = some c
  child : t.roster.parentOf c = some u
  earliest : ∀ v a b, t.roster.parentOf v = some u → t.roster c = some a → t.roster v = some b →
    a.enrolledAt ≤ b.enrolledAt
  slot : ∃ a b, t.roster u = some a ∧ t'.roster c = some b ∧ b.parent = a.parent ∧
    b.position = a.position
  kept : ∀ v, v ≠ u → t.roster.parentOf v ≠ some u →
    ((t'.roster v).map fun seat => (seat.parent, seat.position)) =
      (t.roster v).map fun seat => (seat.parent, seat.position)
  rows : ∀ p row, p ≠ u → t.rowAt p = some row → ∃ row', t'.rowAt p = some row' ∧
    row'.length = row.length ∧
    (∀ (q : Nat) v, row[q]? = some (some v) → row'[q]? = some (some (if v = u then c else v))) ∧
    ∀ q : Nat, row[q]? = some none → row'[q]? = some none ∨
      ∃ v, row'[q]? = some (some v) ∧ v ≠ c ∧ t.roster.parentOf v = some u
  relocated_nodup : (result.relocated.map Relocation.userId).Nodup
  relocated : ∀ m, m ∈ result.relocated ↔
    ∃ before after, t.roster m.userId = some before ∧ t'.roster m.userId = some after ∧
      after.placement ≠ before.placement ∧
      after.placement = (some m.parentId, some (m.position.toNat : Int), (m.depth : Int))
  relocated_levels : (result.relocated.map Relocation.userId).Pairwise t'.roster.Precedes
  responsored_nodup : (result.responsored.map Responsored.userId).Nodup
  responsored : ∀ v, v ≠ u →
    ((∃ w, ⟨v, w⟩ ∈ result.responsored) ↔ t'.roster.sponsorOf v ≠ t.roster.sponsorOf v)
  heir : ∀ m ∈ result.responsored, m.userId ≠ u ∧ t.roster.sponsorOf m.userId = some u ∧
    t'.roster.sponsorOf m.userId = some m.newSponsorId ∧
    FirstKept t.roster.sponsorOf (· = u) u m.newSponsorId

section Whole

variable {t t' : MatrixTree} {removed promoted parent : NodeIndex}
  (h : Promotion t t' removed promoted parent) (hv : t.Valid) (hv' : t'.Valid)
  (hr : t.arena.parentOf removed = some parent) (hp : t.arena.parentOf promoted = some removed)
include h hv hv' hr hp

/-- The rows by user. -/
theorem Promotion.rowAt {v : Uuid} {row : List (Option Uuid)} (hne : v ≠ t.arena.userAt removed)
    (hrow : t.rowAt v = some row) : ∃ row', t'.rowAt v = some row' ∧ row'.length = row.length ∧
      (∀ (q : Nat) w, row[q]? = some (some w) → row'[q]? = some (some
        (if w = t.arena.userAt removed then t.arena.userAt promoted else w))) ∧
      ∀ q : Nat, row[q]? = some none → row'[q]? = some none ∨
        ∃ w, row'[q]? = some (some w) ∧ w ≠ t.arena.userAt promoted ∧
          t.roster.parentOf w = some (t.arena.userAt removed) := by
  obtain ⟨x, hx, hmap⟩ := bind_eq_some_iff.mp hrow
  obtain ⟨own, hown, rfl⟩ := map_eq_some_iff.mp hmap
  have hxl := hv.arena.live_of_lookup hx
  obtain rfl : t.arena.userAt x = v := (hv.arena.index_iff.mp hx).2
  have hxr : x ≠ removed := fun e => hne (congrArg _ e)
  have hrl := hv.arena.live_of_parent hr
  have hpl := hv.arena.live_of_parent hp
  have hxg : x ∉ [removed] := by simpa using hxr
  obtain ⟨own', hown', hocc', hlen'⟩ := hv'.exists_row (h.pruned.live_iff.mpr ⟨hxg, hxl⟩)
  have hname : ∀ {y}, t'.arena.Live y → t'.arena.userAt y = t.arena.userAt y := fun hy =>
    h.pruned.userAt (h.pruned.live_iff.mp hy).1
  have hheld : ∀ {q y}, own'[q]? = some (some y) → t'.arena.Live y := fun hy =>
    hv'.arena.live_child (hocc' ▸ reduceOption_mem_iff.mpr (mem_of_getElem? hy))
  refine ⟨own'.map (Option.map t'.arena.userAt), ?_, ?_, fun q w hq => ?_, fun q hq => ?_⟩
  · rw [← h.pruned.userAt hxg]
    exact hv'.rowAt_userAt hown'
  · rw [length_map, length_map, hlen', h.width, hv.rows x own hown]
  · rw [getElem?_map, map_eq_some_iff] at hq
    obtain ⟨o, ho, hw⟩ := hq
    obtain ⟨y, rfl, rfl⟩ := map_eq_some_iff.mp hw
    have hat := h.slot_taken hv hr hxr hown hown' ho
    have hyr : t.arena.userAt y = t.arena.userAt removed ↔ y = removed :=
      ⟨fun e => (hv.arena.userAt_inj hrl e.symm).symm, fun e => congrArg _ e⟩
    rw [getElem?_map, hat]
    simp only [map_some, hname (hheld hat), hyr]
    split <;> rfl
  · have hq : own[q]? = some none := by simpa using hq
    rcases h.slot_open hv hv' hr hxr hown hown' hq with hq' | ⟨y, hq', hyp, hyr⟩
    · refine .inl ?_
      rw [getElem?_map, hq']
      rfl
    · refine .inr ⟨t.arena.userAt y, ?_, fun e => hyp (hv.arena.userAt_inj hpl e.symm).symm, ?_⟩
      · rw [getElem?_map, hq']
        simp only [map_some, hname (hheld hq')]
      · exact hv.arena.roster_parentOf_eq_some.mpr ⟨y, removed, hyr, rfl, rfl⟩

end Whole

/-- **A removal by promotion loses and disturbs nobody.** -/
theorem promotion_disturbs_nobody {t : MatrixTree} {u : Uuid} (h : t.Valid) (hroom : t.arena.Roomy)
    (hc : t.checkRemoveNode u .promoteEarliest = .ok ()) (hkids : ∃ v, t.roster.parentOf v = some u) :
    ∃ c result t', (removeNode u .promoteEarliest).run t = .ok result t' ∧
      PromoteRemoval t t' u c result := by
  obtain ⟨i, p, gone, hi, hp, hgone, hmov⟩ := h.checkRemoveNode_eq_ok hc
  cases hgone
  have hil := h.arena.live_of_lookup hi
  obtain rfl : t.arena.userAt i = u := (h.arena.index_iff.mp hi).2
  have hkids : t.arena.childrenOf i ≠ [] := by
    obtain ⟨v, hv⟩ := hkids
    obtain ⟨x, j, hxj, -, hj⟩ := h.arena.roster_parentOf_eq_some.mp hv
    cases h.arena.userAt_inj (h.arena.live_parent hxj) hj
    exact ne_nil_of_mem (h.arena.placed.mem_iff.mpr hxj)
  obtain ⟨promoted, moved, result, t', hpp, hrun, hr, hprom, hresult, hdiff, hlevels, hmin⟩ :=
    removeNode_promoted h hroom hc hi hp hkids
  have hv' := hr.valid
  have hn : t.arena.Names [i] [t.arena.userAt i] := fun v => by simp [eq_comm]
  have hresp : Responsors t.roster t'.roster [t.arena.userAt i] result.responsored :=
    hr.responsored ▸ hprom.pruned.responsors h.arena hn hv'.arena hmov
  have hpg : promoted ∉ [i] := by simpa using h.arena.forest.ranked.ne hpp
  have hpl := h.arena.live_of_parent hpp
  refine ⟨t.arena.userAt promoted, result, t', hrun,
    { valid := hv', live := fun v => ?live, promoted := hresult
      child := h.arena.roster_parentOf_eq_some.mpr ⟨promoted, i, hpp, rfl, rfl⟩
      earliest := ?earliest, slot := ?slot, kept := ?kept
      rows := fun v row hne hrow => hprom.rowAt h hv' hp hpp hne hrow
      relocated_nodup := (hr.relocates h).nodup
      relocated := hr.mem_relocated h hdiff, relocated_levels := hr.relocated_levels hlevels
      responsored_nodup := hresp.nodup
      responsored := fun v hv => hresp.changed_iff (by simpa using hv), heir := ?heir }⟩
  case live =>
    constructor
    · intro hv
      refine ⟨fun e => hv ?_, fun e => hv (hr.roster_gone h hn (by simp [e]))⟩
      by_cases hm : v ∈ [t.arena.userAt i]
      · exact hr.roster_gone h hn hm
      · rcases hr.roster_kept h hn hm with ⟨-, h2⟩ | ⟨x, -, -, -, -, h1⟩
        · exact h2
        · rw [e] at h1
          cases h1
    · intro hv
      rcases hr.roster_kept h hn (v := v) (by simpa using hv.2) with ⟨h1, -⟩ | ⟨x, -, -, -, h2, -⟩
      · exact absurd h1 hv.1
      · rw [h2]
        nofun
  case earliest => exact (h.eldest hpp hmin).2
  case slot =>
    refine ⟨_, t'.arena.seatAt (t'.arena.slotIn t'.slots.lookup) promoted, h.arena.roster_userAt hil, ?_, ?_,
      congrArg (Option.map Int.ofNat) (hprom.slotIn_promoted h hv' hp)⟩
    · rw [← hprom.pruned.userAt hpg]
      exact hv'.arena.roster_userAt (hprom.pruned.live_iff.mpr ⟨hpg, hpl⟩)
    · have hparent : p ∉ [i] := by simpa using (h.arena.forest.ranked.ne hp).symm
      simp only [seatAt, hprom.promoted_up, hp, map_some, hprom.pruned.userAt hparent]
  case kept =>
    intro v hvu hvp
    rcases hr.roster_kept h hn (v := v) (by simpa using hvu) with ⟨h1, h2⟩ | ⟨x, hx, hxg, rfl, h2, h1⟩
    · rw [h1, h2]
    · have hxi : x ≠ i := by simpa using hxg
      have hxp : t.arena.parentOf x ≠ some i := fun e =>
        hvp (h.arena.roster_parentOf_eq_some.mpr ⟨x, i, e, rfl, rfl⟩)
      obtain ⟨hup, hslot⟩ := hprom.slotIn_unmoved h hv' hp hpp hxi hxp
      have hparent : (t'.arena.parentOf x).map t'.arena.userAt = (t.arena.parentOf x).map t.arena.userAt := by
        rw [hup]
        refine map_congr fun q hq => hprom.pruned.userAt fun hqi => hxp ?_
        rw [hq, mem_singleton.mp hqi]
      rw [h1, h2]
      simp only [map_some, seatAt, hparent, hslot]
  case heir =>
    intro m hm
    obtain ⟨hmu, ⟨s, hs, hms⟩, hfirst⟩ := (hresp.listed m).mp hm
    obtain rfl := mem_singleton.mp hs
    refine ⟨by simpa using hmu, hms, hresp.now hm, ?_⟩
    simp only [mem_singleton] at hfirst
    cases hfirst with
    | stop hmw hw => exact absurd (some.inj (hms.symm.trans hmw)).symm hw
    | skip hmb _ hrest =>
      rw [hms] at hmb
      cases hmb
      exact hrest

theorem promotion_disturbs_nobody_six :
    sixTree.checkRemoveNode 2 .promoteEarliest = .ok () ∧ (∃ v, sixTree.roster.parentOf v = some 2) ∧
      ∃ c result t', (removeNode 2 .promoteEarliest).run sixTree = .ok result t' ∧
        PromoteRemoval sixTree t' 2 c result := by
  have hc : sixTree.checkRemoveNode 2 .promoteEarliest = .ok () := by decide +kernel
  have hkids : sixTree.roster.parentOf 3 = some 2 := by decide +kernel
  exact ⟨hc, ⟨3, hkids⟩, promotion_disturbs_nobody sixTree_valid (by decide) hc ⟨3, hkids⟩⟩

end MatrixTree

end MlmForge.Engine
