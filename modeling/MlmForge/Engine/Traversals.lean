/-
  Subject:   The traversals of a tree of any type agree with its parent relation and with each other.

  Everything is said of users, over the roster: who is placed under whom, and in which slot.

  * **`traversals_agree`** -- all of it, for every user of a valid tree.
-/
import MlmForge.Engine.Position
import MlmForge.Engine.TankRoundTrip

namespace MlmForge.Engine

open Query List Arena Function

/-! ## 1. What the traversals promise -/

namespace TreeInstance

/-- Who is at the positions of a user. -/
def placesAt (t : TreeInstance) (u : Uuid) : List (Option Uuid) :=
  ((t.arena.index.lookup u).map fun i => (t.places i).map (Option.map t.arena.userAt)).getD []

/-- The positions of a user where somebody is. -/
def occupied (t : TreeInstance) (u : Uuid) : List Nat := takenPlaces (t.placesAt u)

/-- The users at most `d` links below `u`, all of them when `d` is 0: once each, by depth. -/
structure IsDownline (t : TreeInstance) (u : Uuid) (d : Nat) (nodes : List Node) : Prop where
  nodup : (nodes.map Node.userId).Nodup
  mem : ∀ v, v ∈ nodes.map Node.userId ↔
    ∃ n, (d = 0 ∨ n + 1 ≤ d) ∧ climb t.roster.parentOf (n + 1) v = some u
  by_depth : nodes.Pairwise fun x y => x.depth ≤ y.depth

/-- **The branches of `u` partition its downline**, and the counts of its position say how many are below
    the root of each. -/
structure Partitioned (t : TreeInstance) (u : Uuid) (branch : Nat → List Node) (all : List Node)
    (pos : TreePosition) : Prop where
  branches : ∀ q place, (t.placesAt u)[q]? = some place → t.getBranch u q = .ok (branch q) ∧
    t.countBranch u q = .ok (branch q).length ∧
    ∀ v, v ∈ (branch q).map Node.userId ↔ ∃ c, place = some c ∧ Above t.roster.parentOf v c
  beyond : ∀ q, (t.placesAt u).length ≤ q →
    t.getBranch u q = .error (.err (.positionOutOfRange u q (t.placesAt u).length)) ∧
    t.countBranch u q = .error (.err (.positionOutOfRange u q (t.placesAt u).length))
  downline : t.getDownline u 0 = .ok all
  whole : ((t.occupied u).flatMap branch).Perm all
  position : t.getPosition u = .ok pos
  children : pos.childCount = (t.occupied u).length
  counts : ∀ q ∈ t.occupied u, ∃ n, pos.downlineCounts.lookup q = some n ∧ (branch q).length = n + 1
  total : (pos.downlineCounts.entries.map Sigma.snd).sum + pos.childCount = all.length

/-- **What the traversals promise of a user.** -/
structure Traversed (t : TreeInstance) (u : Uuid) : Prop where
  downline : ∀ d, ∃ nodes, t.getDownline u d = .ok nodes ∧
    t.countDownline u d = .ok nodes.length ∧ t.IsDownline u d nodes
  upline : ∀ d, ∃ nodes, t.getUpline u d = .ok nodes ∧ ∀ k : Nat, (nodes.map Node.userId)[k]? =
    if d = 0 ∨ k < d then climb t.roster.parentOf (k + 1) u else none
  decided : ∀ v, t.roster v ≠ none → ∃ b, t.isDescendantOf v u = .ok b
  descendant : ∀ v, t.isDescendantOf v u = .ok true ↔
    ∃ nodes, t.getDownline u 0 = .ok nodes ∧ v ∈ nodes.map Node.userId
  children : ∀ c, some c ∈ t.placesAt u ↔ t.roster.parentOf c = some u
  slots : ∀ n, t.limit = some n → (t.placesAt u).length = n ∧ ∀ (q : Nat) c,
    (t.placesAt u)[q]? = some (some c) ↔
      ∃ seat, t.roster c = some seat ∧ seat.parent = some u ∧ seat.position = some (q : Int)
  partition : ∃ branch all pos, t.Partitioned u branch all pos

end TreeInstance

/-! ## 2. Up and down -/

namespace Arena

section Climbs

variable {a : Arena} {place : NodeIndex → Option Nat} (h : a.Valid)
include h

theorem Valid.climb_roster : ∀ {n : Nat} {x : NodeIndex}, a.Live x →
    climb (a.roster place).parentOf n (a.userAt x) = (climb a.parentOf n x).map a.userAt := by
  intro n
  induction n with
  | zero => exact fun _ => rfl
  | succ n ih =>
    intro x hx
    show ((a.roster place).parentOf (a.userAt x)).bind _ = ((a.parentOf x).bind _).map _
    rw [h.roster_parentOf hx]
    cases hp : a.parentOf x with
    | none => rfl
    | some p => exact ih (h.live_parent hp)

variable {i : NodeIndex}

theorem Valid.climb_roster_eq_some {n : Nat} {v : Uuid} (hi : a.Live i) :
    climb (a.roster place).parentOf (n + 1) v = some (a.userAt i) ↔
      ∃ x, a.Live x ∧ a.userAt x = v ∧ climb a.parentOf (n + 1) x = some i := by
  constructor
  · intro hv
    obtain ⟨w, hw, -⟩ := Option.bind_eq_some_iff.mp hv
    obtain ⟨x, p, hxp, rfl, -⟩ := h.roster_parentOf_eq_some.mp hw
    have hx := h.live_of_parent hxp
    rw [h.climb_roster hx] at hv
    obtain ⟨j, hj, hji⟩ := Option.map_eq_some_iff.mp hv
    exact ⟨x, hx, rfl, h.userAt_inj hi hji.symm ▸ hj⟩
  · intro hv
    obtain ⟨x, hx, rfl, hc⟩ := hv
    rw [h.climb_roster hx, hc]
    rfl

theorem Valid.depth_climb : ∀ {n : Nat} {x i : NodeIndex}, climb a.parentOf n x = some i →
    (a.nodeAt x).depth = (a.nodeAt i).depth + n := by
  intro n
  induction n with
  | zero =>
    intro x i hc
    cases hc
    rfl
  | succ n ih =>
    intro x i hc
    obtain ⟨p, hp, hpi⟩ := Option.bind_eq_some_iff.mp hc
    rw [h.depth_below hp, ih hpi]
    omega

variable {order : List NodeIndex}

/-- **Who is listed below a node**, by user. -/
theorem Valid.mem_downline {d : Nat} (hi : a.Live i) (hmem : ∀ x, x ∈ order ↔ StrictlyAbove a.parentOf x i ∧
      (d = 0 ∨ (a.nodeAt x).depth - (a.nodeAt i).depth ≤ d)) (v : Uuid) :
    v ∈ (order.map a.nodeAt).map Node.userId ↔ ∃ n, (d = 0 ∨ n + 1 ≤ d) ∧
      climb (a.roster place).parentOf (n + 1) v = some (a.userAt i) := by
  rw [map_map, mem_map]
  constructor
  · intro hv
    obtain ⟨x, hx, rfl⟩ := hv
    obtain ⟨hxi, hd⟩ := (hmem x).mp hx
    obtain ⟨n, hn⟩ := strictlyAbove_iff_climb.mp hxi
    have hdepth := h.depth_climb hn
    refine ⟨n, by omega, (h.climb_roster_eq_some hi).mpr ⟨x, ?_, rfl, hn⟩⟩
    exact h.live_below hi hxi.to_reflTransGen
  · intro hv
    obtain ⟨n, hd, hc⟩ := hv
    obtain ⟨x, -, rfl, hx⟩ := (h.climb_roster_eq_some hi).mp hc
    have hdepth := h.depth_climb hx
    exact ⟨x, (hmem x).mpr ⟨strictlyAbove_iff_climb.mpr ⟨n, hx⟩, by omega⟩, rfl⟩

theorem Valid.nodup_users (hnd : order.Nodup) (hl : ∀ x ∈ order, a.Live x) :
    ((order.map a.nodeAt).map Node.userId).Nodup := by
  rw [map_map]
  exact hnd.map_on fun x hx y _ e => h.userAt_inj (hl x hx) e

theorem Valid.child_unique {c c' x : NodeIndex} (hc : a.parentOf c = some i)
    (hc' : a.parentOf c' = some i) (hx : Above a.parentOf x c) (hx' : Above a.parentOf x c') : c = c' := by
  obtain ⟨n, hn⟩ := above_iff_climb.mp hx
  obtain ⟨m, hm⟩ := above_iff_climb.mp hx'
  have h1 := h.depth_climb hn
  have h2 := h.depth_climb hm
  have h3 := h.depth_below hc
  have h4 := h.depth_below hc'
  obtain rfl : n = m := by omega
  exact Option.some.inj (hn.symm.trans hm)

end Climbs

end Arena

/-! ## 3. Branches -/

namespace TreeInstance

section Branches

variable {t : TreeInstance} {i : NodeIndex} (h : t.Valid) (hi : t.arena.Live i)
include h hi

theorem Valid.placesAt_userAt :
    t.placesAt (t.arena.userAt i) = (t.places i).map (Option.map t.arena.userAt) := by
  rw [placesAt, userAt, h.arena.lookup_of_live hi]
  rfl

theorem Valid.occupied_userAt : t.occupied (t.arena.userAt i) = takenPlaces (t.places i) := by
  rw [occupied, h.placesAt_userAt hi, takenPlaces, takenPlaces, length_map]
  refine filter_congr fun q _ => ?_
  rw [getElem?_map]
  cases (t.places i)[q]? with
  | none => rfl
  | some o => cases o <;> rfl

theorem Valid.exists_branch (q : Nat) : ∃ br : List NodeIndex, ∀ o, (t.places i)[q]? = some o →
    t.getBranch (t.arena.userAt i) q = .ok (br.map t.arena.nodeAt) ∧
    t.countBranch (t.arena.userAt i) q = .ok br.length ∧ br.Nodup ∧
    ∀ x, x ∈ br ↔ ∃ c, o = some c ∧ Above t.arena.parentOf x c := by
  have ans := h.answers hi
  cases hq : (t.places i)[q]? with
  | none => exact ⟨[], nofun⟩
  | some o =>
    cases o with
    | none =>
      obtain ⟨h1, h2⟩ := ans.empty hq
      refine ⟨[], fun o ho => ?_⟩
      cases ho
      exact ⟨h1, h2, nodup_nil, by simp⟩
    | some c =>
      obtain ⟨br, h1, h2, hnd, hmem⟩ := ans.taken hq
      refine ⟨br, fun o ho => ?_⟩
      cases ho
      exact ⟨h1, h2, hnd, fun x => by simp [hmem]⟩

variable {br : Nat → List NodeIndex}
  (hbr : ∀ q o, (t.places i)[q]? = some o →
    t.getBranch (t.arena.userAt i) q = .ok ((br q).map t.arena.nodeAt) ∧
    t.countBranch (t.arena.userAt i) q = .ok (br q).length ∧ (br q).Nodup ∧
    ∀ x, x ∈ br q ↔ ∃ c, o = some c ∧ Above t.arena.parentOf x c)
include hbr

omit h hi in
theorem branch_taken {q : Nat} {c x : NodeIndex} (hq : (t.places i)[q]? = some (some c)) :
    x ∈ br q ↔ Above t.arena.parentOf x c := by
  rw [(hbr q _ hq).2.2.2]
  simp

/-- **The branches over the occupied positions are what is below a node, put together.** -/
theorem Valid.perm_branches {order : List NodeIndex} (hnd : order.Nodup)
    (hmem : ∀ x, x ∈ order ↔ StrictlyAbove t.arena.parentOf x i) :
    ((takenPlaces (t.places i)).flatMap br).Perm order := by
  have hocc := (h.answers hi).children
  have hkid : ∀ {q : Nat} {c}, (t.places i)[q]? = some (some c) → t.arena.parentOf c = some i := by
    intro q c hq
    rw [← h.arena.placed.mem_iff, ← hocc]
    exact reduceOption_mem_iff.mpr (mem_of_getElem? hq)
  refine (perm_ext_iff_of_nodup (nodup_flatMap.mpr ⟨fun q hq => ?_, ?_⟩) hnd).mpr fun x => ?_
  · obtain ⟨c, hc⟩ := mem_takenPlaces.mp hq
    exact (hbr q _ hc).2.2.1
  · refine (nodup_takenPlaces _).imp_of_mem fun {q q'} hq hq' hne x hx hx' => hne ?_
    obtain ⟨c, hc⟩ := mem_takenPlaces.mp hq
    obtain ⟨c', hc'⟩ := mem_takenPlaces.mp hq'
    rw [branch_taken hbr hc] at hx
    rw [branch_taken hbr hc'] at hx'
    obtain rfl := h.arena.child_unique (hkid hc) (hkid hc') hx hx'
    exact place_unique (hocc ▸ h.arena.placed.nodup i) hc hc'
  · rw [mem_flatMap, hmem]
    constructor
    · intro hx
      obtain ⟨q, hq, hx⟩ := hx
      obtain ⟨c, hc⟩ := mem_takenPlaces.mp hq
      exact Relation.TransGen.tail' ((branch_taken hbr hc).mp hx) (hkid hc)
    · intro hx
      obtain ⟨c, hxc, hci⟩ := Relation.TransGen.tail'_iff.mp hx
      have hin : c ∈ (t.places i).reduceOption := hocc ▸ h.arena.placed.mem_iff.mpr hci
      obtain ⟨q, hq⟩ := mem_iff_getElem?.mp (reduceOption_mem_iff.mp hin)
      exact ⟨q, mem_takenPlaces.mpr ⟨c, hq⟩, (branch_taken hbr hq).mpr hxc⟩

theorem Valid.length_branch {q : Nat} {c : NodeIndex} (hq : (t.places i)[q]? = some (some c)) :
    (br q).length = t.arena.sizeBelow c + 1 := by
  have hin : c ∈ t.arena.childrenOf i := by
    rw [← (h.answers hi).children]
    exact reduceOption_mem_iff.mpr (mem_of_getElem? hq)
  exact h.arena.length_branch (h.arena.live_child hin) (hbr q _ hq).2.2.1 fun x => branch_taken hbr hq

theorem Valid.length_branches : ((takenPlaces (t.places i)).flatMap br).length =
    ((t.places i).map fun slot => slot.elim 0 t.arena.sizeBelow).sum + (t.arena.childrenOf i).length := by
  have hone : (takenPlaces (t.places i)).map (fun q => (br q).length) =
      ((takenPlaces (t.places i)).map fun q => (t.places i)[q]?.join).map fun slot =>
        slot.elim 0 t.arena.sizeBelow + 1 := by
    rw [map_map]
    refine map_congr_left fun q hq => ?_
    obtain ⟨c, hc⟩ := mem_takenPlaces.mp hq
    rw [h.length_branch hi hbr hc, comp_apply, hc]
    rfl
  rw [length_flatMap, hone, map_takenPlaces, map_map, sum_places, (h.answers hi).children]
  induction t.arena.childrenOf i with
  | nil => rfl
  | cons c l ih =>
    simp only [map_cons, sum_cons, length_cons, comp_apply, Option.elim_some] at ih ⊢
    omega

end Branches

/-- **The branches partition the downline.** -/
theorem Valid.partitioned {t : TreeInstance} {i : NodeIndex} (h : t.Valid) (hi : t.arena.Live i) :
    ∃ branch all pos, t.Partitioned (t.arena.userAt i) branch all pos := by
  have ans := h.answers hi
  choose br hbr using h.exists_branch hi
  obtain ⟨order, hrun, -, hnd, hmem, -⟩ := h.arena.bfsDownline (ε := TreeError) hi 0
  obtain ⟨pos, hpos, hkids, hcounts⟩ := ans.snapshot
  have hperm := h.perm_branches hi hbr hnd fun x => (hmem x).trans (by simp)
  have hplaces := h.placesAt_userAt hi
  refine ⟨fun q => (br q).map t.arena.nodeAt, order.map t.arena.nodeAt, pos, ?_⟩
  refine { branches := fun q place hq => ?_, beyond := fun q hq => ?_, downline := ?_, whole := ?_
           position := hpos, children := ?_, counts := fun q hq => ?_, total := ?_ }
  · rw [hplaces, getElem?_map] at hq
    obtain ⟨o, ho, rfl⟩ := Option.map_eq_some_iff.mp hq
    obtain ⟨h1, h2, -, hin⟩ := hbr q o ho
    refine ⟨h1, h2.trans (by rw [length_map]), fun v => ?_⟩
    rw [map_map, mem_map, roster_eq]
    constructor
    · intro hv
      obtain ⟨x, hx, rfl⟩ := hv
      obtain ⟨c, rfl, hxc⟩ := (hin x).mp hx
      have hcl : t.arena.Live c := h.arena.live_child
        (ans.children ▸ reduceOption_mem_iff.mpr (mem_of_getElem? ho))
      exact ⟨_, rfl, (h.arena.above_iff hcl).mpr ⟨x, h.arena.live_below hcl hxc, rfl, hxc⟩⟩
    · intro hv
      obtain ⟨_, hc, hvc⟩ := hv
      obtain ⟨c, rfl, rfl⟩ := Option.map_eq_some_iff.mp hc
      have hcl : t.arena.Live c := h.arena.live_child
        (ans.children ▸ reduceOption_mem_iff.mpr (mem_of_getElem? ho))
      obtain ⟨x, -, rfl, hxc⟩ := (h.arena.above_iff hcl).mp hvc
      exact ⟨x, (hin x).mpr ⟨c, rfl, hxc⟩, rfl⟩
  · rw [hplaces, length_map] at hq ⊢
    exact ans.beyond (List.getElem?_eq_none_iff.mpr hq)
  · exact (bind_ok (h.arena.resolve_userAt hi) _).trans hrun
  · rw [h.occupied_userAt hi, ← map_flatMap]
    exact hperm.map _
  · rw [hkids, h.occupied_userAt hi, ← ans.children]
    simpa using (congrArg length (map_takenPlaces (t.places i))).symm
  · rw [h.occupied_userAt hi] at hq
    obtain ⟨c, hc⟩ := mem_takenPlaces.mp hq
    refine ⟨t.arena.sizeBelow c, ?_, ?_⟩
    · rw [hcounts, Maps.lookup_indexed, getElem?_map, hc]
      rfl
    · rw [length_map, h.length_branch hi hbr hc]
  · rw [hcounts, Maps.sum_indexed, hkids, length_map, ← hperm.length_eq, h.length_branches hi hbr]

/-! ## 4. Slots -/

section Slots

variable {a : Arena} {rows : NodeIndex → Option (List (Option NodeIndex))} {i : NodeIndex}
  {row : List (Option NodeIndex)}

theorem slot_iff (h : a.Valid) (hr : a.RowsAgree rows) (hi : a.Live i) (hrow : rows i = some row)
    (q : Nat) (v : Uuid) : (row.map (Option.map a.userAt))[q]? = some (some v) ↔
      ∃ seat, a.roster (a.slotIn rows) v = some seat ∧ seat.parent = some (a.userAt i) ∧
        seat.position = some (q : Int) := by
  obtain ⟨row', hrow', hocc⟩ := hr i hi
  cases hrow.symm.trans hrow'
  rw [getElem?_map]
  constructor
  · intro hq
    obtain ⟨o, ho, e⟩ := Option.map_eq_some_iff.mp hq
    obtain ⟨c, rfl, rfl⟩ := Option.map_eq_some_iff.mp e
    have hci : a.parentOf c = some i := by
      rw [← h.placed.mem_iff, ← hocc]
      exact reduceOption_mem_iff.mpr (mem_of_getElem? ho)
    refine ⟨_, h.roster_userAt (h.live_of_parent hci), ?_, ?_⟩
    · rw [seatAt, hci]
      rfl
    · rw [seatAt, slotIn_of hci hrow, takenBy_of_getElem? ho (hocc ▸ h.placed.nodup i)]
      rfl
  · intro hv
    obtain ⟨seat, hseat, hpar, hpos⟩ := hv
    obtain ⟨c, -, rfl, rfl⟩ := h.roster_eq_some.mp hseat
    obtain ⟨p, hp, hpi⟩ := Option.map_eq_some_iff.mp hpar
    obtain rfl := h.userAt_inj (h.live_parent hp) hpi
    obtain ⟨row', q', hrow', hq', hat⟩ := hr.slot h hp
    cases hrow.symm.trans hrow'
    obtain ⟨k, hk, e⟩ := Option.map_eq_some_iff.mp hpos
    cases hq'.symm.trans hk
    obtain rfl : q' = q := by simpa using e
    rw [hat]
    rfl

end Slots

section Whole

variable {t : TreeInstance} {i : NodeIndex} (h : t.Valid) (hi : t.arena.Live i)
include h hi

theorem Valid.slots {n : Nat} (hn : t.limit = some n) :
    (t.placesAt (t.arena.userAt i)).length = n ∧ ∀ (q : Nat) c,
      (t.placesAt (t.arena.userAt i))[q]? = some (some c) ↔ ∃ seat, t.roster c = some seat ∧
        seat.parent = some (t.arena.userAt i) ∧ seat.position = some (q : Int) := by
  rw [h.placesAt_userAt hi, length_map]
  cases t with
  | unilevel t => cases hn
  | binary t =>
    cases hn
    have hv : t.Valid := h
    obtain ⟨row, hrow, -⟩ := hv.rowsAgree i hi
    have hplaces : (binary t).places i = row := congrArg (Option.getD · []) hrow
    rw [hplaces]
    refine ⟨?_, slot_iff hv.arena hv.rowsAgree hi hrow⟩
    obtain ⟨v, -, rfl⟩ := Option.map_eq_some_iff.mp hrow
    exact v.length_toList
  | matrix t =>
    cases hn
    have hv : t.Valid := h
    obtain ⟨row, hrow, -⟩ := hv.rowsAgree i hi
    have hplaces : (matrix t).places i = row := congrArg (Option.getD · []) hrow
    rw [hplaces]
    exact ⟨hv.rows i row hrow, slot_iff hv.arena hv.rowsAgree hi hrow⟩

theorem Valid.mem_placesAt (c : Uuid) :
    some c ∈ t.placesAt (t.arena.userAt i) ↔ t.roster.parentOf c = some (t.arena.userAt i) := by
  have hocc := (h.answers hi).children
  rw [h.placesAt_userAt hi, roster_eq, h.arena.roster_parentOf_eq_some, mem_map]
  constructor
  · intro hc
    obtain ⟨o, ho, e⟩ := hc
    obtain ⟨x, rfl, rfl⟩ := Option.map_eq_some_iff.mp e
    refine ⟨x, i, ?_, rfl, rfl⟩
    rw [← h.arena.placed.mem_iff, ← hocc]
    exact reduceOption_mem_iff.mpr ho
  · intro hc
    obtain ⟨x, j, hxj, rfl, hj⟩ := hc
    obtain rfl := h.arena.userAt_inj hi hj.symm
    exact ⟨some x, reduceOption_mem_iff.mp (hocc ▸ h.arena.placed.mem_iff.mpr hxj), rfl⟩

theorem Valid.downline (d : Nat) : ∃ nodes, t.getDownline (t.arena.userAt i) d = .ok nodes ∧
    t.countDownline (t.arena.userAt i) d = .ok nodes.length ∧ t.IsDownline (t.arena.userAt i) d nodes := by
  have hres := h.arena.resolve_userAt hi
  obtain ⟨order, hrun, hcount, hnd, hmem, hdepth⟩ := h.arena.bfsDownline (ε := TreeError) hi d
  refine ⟨order.map t.arena.nodeAt, (bind_ok hres _).trans hrun, ?_, ⟨?_, fun v => ?_, ?_⟩⟩
  · rw [length_map]
    exact (bind_ok hres _).trans hcount
  · exact h.arena.nodup_users hnd fun x hx => h.arena.live_below hi ((hmem x).mp hx).1.to_reflTransGen
  · rw [roster_eq]
    exact h.arena.mem_downline hi hmem v
  · exact pairwise_map.mpr hdepth

theorem Valid.upline (d : Nat) : ∃ nodes, t.getUpline (t.arena.userAt i) d = .ok nodes ∧
    ∀ k : Nat, (nodes.map Node.userId)[k]? =
      if d = 0 ∨ k < d then climb t.roster.parentOf (k + 1) (t.arena.userAt i) else none := by
  have hres := h.arena.resolve_userAt hi
  refine ⟨_, (bind_ok hres _).trans (h.arena.walkUpline_eq hi d), fun k => ?_⟩
  rw [map_map, getElem?_map, h.arena.getElem?_upline hi, roster_eq, h.arena.climb_roster hi]
  split
  · rfl
  · rfl

theorem Valid.isDescendantOf {x : NodeIndex} (hx : t.arena.Live x) :
    ∃ b, t.isDescendantOf (t.arena.userAt x) (t.arena.userAt i) = .ok b ∧
      (b = true ↔ StrictlyAbove t.arena.parentOf x i) := by
  have hres := h.arena.resolve_userAt hi
  unfold TreeInstance.isDescendantOf
  rw [bind_ok hres]
  by_cases hxi : t.arena.userAt x = t.arena.userAt i
  · obtain rfl := h.arena.userAt_inj hx hxi
    exact ⟨false, if_pos rfl, iff_of_false Bool.false_ne_true (h.arena.forest.ranked.irrefl x)⟩
  · rw [if_neg hxi, bind_ok (h.arena.resolve_userAt hx)]
    exact h.arena.isDescendantOf hx i

/-- **Somebody is a descendant exactly when the unlimited downline lists them.** -/
theorem Valid.descendant_iff (v : Uuid) : t.isDescendantOf v (t.arena.userAt i) = .ok true ↔
      ∃ nodes, t.getDownline (t.arena.userAt i) 0 = .ok nodes ∧ v ∈ nodes.map Node.userId := by
  obtain ⟨nodes, hnodes, -, hdown⟩ := h.downline hi 0
  have hlist : (∃ nodes, t.getDownline (t.arena.userAt i) 0 = .ok nodes ∧
      v ∈ nodes.map Node.userId) ↔ v ∈ nodes.map Node.userId := by
    constructor
    · intro hv
      obtain ⟨nodes', hn, hv⟩ := hv
      cases hnodes.symm.trans hn
      exact hv
    · exact fun hv => ⟨nodes, hnodes, hv⟩
  rw [hlist, hdown.mem, roster_eq]
  constructor
  · intro hv
    have hvi : v ≠ t.arena.userAt i := by
      rintro rfl
      obtain ⟨b, hb, hiff⟩ := h.isDescendantOf hi hi
      cases hb.symm.trans hv
      exact h.arena.forest.ranked.irrefl i (hiff.mp rfl)
    obtain ⟨j, -, hv'⟩ := bind_eq_ok.mp hv
    rw [if_neg hvi] at hv'
    obtain ⟨x, hx, -⟩ := bind_eq_ok.mp hv'
    have hx := resolve_eq_ok.mp hx
    have hxl := h.arena.live_of_lookup hx
    obtain rfl : t.arena.userAt x = v := (h.arena.index_iff.mp hx).2
    obtain ⟨b, hb, hiff⟩ := h.isDescendantOf hi hxl
    cases hb.symm.trans hv
    obtain ⟨n, hn⟩ := strictlyAbove_iff_climb.mp (hiff.mp rfl)
    exact ⟨n, .inl rfl, (h.arena.climb_roster_eq_some hi).mpr ⟨x, hxl, rfl, hn⟩⟩
  · intro hv
    obtain ⟨n, -, hn⟩ := hv
    obtain ⟨x, hxl, rfl, hc⟩ := (h.arena.climb_roster_eq_some hi).mp hn
    obtain ⟨b, hb, hiff⟩ := h.isDescendantOf hi hxl
    rw [hb, hiff.mpr (strictlyAbove_iff_climb.mpr ⟨n, hc⟩)]

end Whole

end TreeInstance

/-- **The traversals agree with the tree**: for every user of every valid tree, unilevel, binary or
    matrix, the downline to any limit is the set of proper descendants within it, once each and by
    depth, and is counted right; the upline is the parent chain cut at the limit; descent is membership
    in the unlimited downline; the branches over the occupied positions partition it, slot by slot where
    the tree has slots; and the counts of the position with the number of children make up its size. -/
theorem traversals_agree (t : TreeInstance) (h : t.Valid) (u : Uuid) (hu : t.roster u ≠ none) :
    t.Traversed u := by
  have hlive : ∀ {v}, t.roster v ≠ none → ∃ i, t.arena.Live i ∧ t.arena.userAt i = v := by
    intro v hv
    rw [t.roster_eq] at hv
    exact h.arena.roster_ne_none.mp hv
  obtain ⟨i, hi, rfl⟩ := hlive hu
  refine { downline := h.downline hi, upline := h.upline hi, decided := fun v hv => ?_
           descendant := h.descendant_iff hi, children := h.mem_placesAt hi
           slots := fun n hn => h.slots hi hn, partition := h.partitioned hi }
  obtain ⟨x, hx, rfl⟩ := hlive hv
  obtain ⟨b, hb, -⟩ := h.isDescendantOf hi hx
  exact ⟨b, hb⟩

theorem traversals_agree_six : (TreeInstance.matrix MatrixTree.sixTree).Traversed 4 :=
  traversals_agree (.matrix MatrixTree.sixTree) MatrixTree.sixTree_valid 4 (by decide +kernel)

end MlmForge.Engine
