/-
  Subject:   Into the holding tank and out of it again.

  A removal in holding-tank mode takes a user and all descendants out of the tree; `place_from_tank`
  puts one of them back at a chosen open slot. Users may wait there from many removals, their stored
  sponsors in the tree, in the tank, or gone.

  * **`holding_tank_round_trip`** -- all of it.
-/
import MlmForge.Basis.HashOrder
import MlmForge.Engine.UserView

namespace MlmForge.Engine

open List AList Query Function Option Arena

namespace MatrixTree

/-! ## 1. Into the tank -/

/-- **What a removal of `u` to the holding tank does**: the users of the whole subtree are the ones
    listed, each gets one entry with the sponsor and the enrollment time of their seat, nobody else is
    placed differently, and recruits left behind go to the first sponsor up the chain who stays. -/
structure TankRemoval (t t' : MatrixTree) (u : Uuid) (result : RemovalResult) : Prop where
  valid : t'.Valid
  moved_nodup : result.movedToTank.Nodup
  moved : ∀ v, v ∈ result.movedToTank ↔ Above t.roster.parentOf v u
  tank : ∃ entries : List HoldingTankEntry, t'.holdingTank = t.holdingTank ++ entries ∧
    entries.map HoldingTankEntry.userId = result.movedToTank ∧
    ∀ e ∈ entries, ∃ seat, t.roster e.userId = some seat ∧ e.sponsorUserId = seat.sponsor ∧
      e.enrolledAt = seat.enrolledAt
  gone : ∀ v ∈ result.movedToTank, t'.roster v = none
  placed : ∀ v ∉ result.movedToTank,
    (t'.roster v).map Seat.placement = (t.roster v).map Seat.placement
  sponsors : Responsors t.roster t'.roster result.movedToTank result.responsored

theorem tank_removal {t t' : MatrixTree} {u : Uuid} {result : RemovalResult} (h : t.Valid)
    (hrun : (removeNode u .holdingTank).run t = .ok result t') : TankRemoval t t' u result := by
  obtain ⟨i, p, below, hi, hp, hbelow, hmov, hr, hmoved, hreloc, htank⟩ := removeNode_holdingTank h hrun
  have hil := h.arena.live_of_lookup hi
  obtain rfl : t.arena.userAt i = u := (h.arena.index_iff.mp hi).2
  have hn : t.arena.Names (i :: below) result.movedToTank := hr.leavers_iff
  refine { valid := hr.valid, moved_nodup := hr.leavers_nodup, moved := fun v => ?_, tank := ?_
           gone := fun v hv => hr.roster_gone h hn hv
           placed := fun v hv => hr.placed h hreloc hn hv
           sponsors := hr.responsored ▸ hr.pruned.responsors h.arena hn hr.valid.arena hmov }
  · rw [hn v, roster, h.arena.above_iff hil]
    constructor
    · intro hv
      obtain ⟨x, hx, rfl⟩ := hv
      refine ⟨x, hr.pruned.live x hx, rfl, ?_⟩
      rcases mem_cons.mp hx with rfl | hx
      · exact .refl
      · exact ((hbelow x).mp hx).to_reflTransGen
    · intro hv
      obtain ⟨x, -, rfl, hx⟩ := hv
      refine ⟨x, ?_, rfl⟩
      rcases Relation.reflTransGen_iff_eq_or_transGen.mp hx with rfl | hx
      · exact mem_cons_self
      · exact mem_cons_of_mem _ ((hbelow x).mpr hx)
  · refine ⟨_, htank, ?_, fun e he => ?_⟩
    · rw [hmoved, List.map_map]
      rfl
    · obtain ⟨x, hx, rfl⟩ := mem_map.mp he
      have hxl : t.arena.Live x := hr.pruned.live x (by simpa [or_comm] using hx)
      exact ⟨_, h.arena.roster_userAt hxl, rfl, rfl⟩

/-! ## 2. Out of the tank -/

/-- A slot that a placement may use. -/
def OpenSlot (t : MatrixTree) (parentId : Uuid) (position : UInt8) : Prop :=
  ∃ row, t.rowAt parentId = some row ∧ row[position.toNat]? = some none

/-- **What placing `u` from the tank does**: the entry leaves the tank, the user gets a seat at the
    chosen slot with the stored enrollment time and with the stored sponsor when that one is live, the
    slot and the sponsor's recruit list get the user, and nothing else changes. -/
structure TankPlacement (t t' : MatrixTree) (u parentId : Uuid) (position : UInt8)
    (entry : HoldingTankEntry) : Prop where
  valid : t'.Valid
  waiting : entry ∈ t.holdingTank ∧ entry.userId = u
  tank : t'.holdingTank = t.holdingTank.erase entry
  free : t.OpenSlot parentId position
  seat : ∃ above, t.roster parentId = some above ∧ t'.roster = update t.roster u (some
    { parent := some parentId, position := some (position.toNat : Int), depth := above.depth + 1
      sponsor := entry.sponsorUserId.filter fun s => (t.roster s).isSome
      enrolledAt := entry.enrolledAt })
  rows : ∀ v, t'.rowAt v = if v = u then some (replicate t.width.toNat none) else
    if v = parentId then (t.rowAt v).map fun row => row.set position.toNat (some u) else t.rowAt v
  recruits : ∀ v, t'.recruitsAt v = if v = u then some [] else
    if entry.sponsorUserId = some v then (t.recruitsAt v).map (· ++ [u]) else t.recruitsAt v
  root : t'.arena.root = t.arena.root
  width : t'.width = t.width
  spillover : t'.spillover = t.spillover

theorem TankPlacement.sponsor_iff {t t' : MatrixTree} {u parentId : Uuid} {position : UInt8}
    {entry : HoldingTankEntry} (h : TankPlacement t t' u parentId position entry) (s : Uuid) :
    t'.roster.sponsorOf u = some s ↔ entry.sponsorUserId = some s ∧ t.roster s ≠ none := by
  obtain ⟨above, -, hseat⟩ := h.seat
  rw [Roster.sponsorOf, hseat, update_self, bind_some, filter_eq_some_iff,
    isSome_iff_ne_none]

section Placement

variable {t t' : MatrixTree} {u parentId : Uuid} {position : UInt8} {k p : NodeIndex} {leaf : Node}
  {q : Nat} {row : MatrixSlots}

/-- The rows of a tree that a leaf was placed in, by user. -/
theorem Placed.rowAt (pl : Placed t t' k leaf p q row) (h : t.Valid)
    (hrow : t.slots.lookup p = some row) (v : Uuid) :
    t'.rowAt v = if v = leaf.userId then some (replicate t.width.toNat none) else
      if v = t.arena.userAt p then (t.rowAt v).map fun row => row.set q (some leaf.userId)
      else t.rowAt v := by
  have hpl : t.arena.Live p := h.agree.live_of_row hrow
  have hk : t'.arena.userAt k = leaf.userId := by rw [userAt, pl.grown.userId, if_pos rfl]
  -- who is in a row before is named as before
  have hold : ∀ {i : NodeIndex} {row : MatrixSlots}, t.slots.lookup i = some row →
      row.map (Option.map t'.arena.userAt) = row.map (Option.map t.arena.userAt) := by
    intro i row hrow
    refine map_congr_left fun o ho => Option.map_congr fun j hj => pl.grown.userAt ?_
    have hj : j ∈ row.reduceOption := reduceOption_mem_iff.mpr (hj ▸ ho)
    exact h.arena.live_child (h.agree.children hrow ▸ hj)
  unfold MatrixTree.rowAt
  rw [pl.grown.index, pl.slots]
  by_cases hv : v = leaf.userId
  · have hkp : k ≠ p := (pl.grown.ne hpl).symm
    rw [if_pos hv, hv, lookup_insert, Option.bind_some, lookup_insert_ne hkp, lookup_insert]
    simp [emptySlots]
  · rw [if_neg hv, lookup_insert_ne hv]
    cases hi : t.arena.index.lookup v with
    | none => simp
    | some i =>
      have hil := h.arena.live_of_lookup hi
      obtain rfl : t.arena.userAt i = v := (h.arena.index_iff.mp hi).2
      rw [Option.bind_some, Option.bind_some]
      by_cases hip : i = p
      · subst hip
        rw [if_pos rfl, lookup_insert, hrow]
        simp only [Option.map_some, map_set, hold hrow, hk]
      · have hne : t.arena.userAt i ≠ t.arena.userAt p := fun e => hip (h.arena.userAt_inj hil e)
        rw [if_neg hne, lookup_insert_ne hip, lookup_insert_ne (pl.grown.ne hil)]
        exact Option.map_congr fun row hrow => hold hrow

theorem Placed.recruitsAt (pl : Placed t t' k leaf p q row) (h : t.Valid)
    (hl : Leaf t.arena leaf) (v : Uuid) :
    t'.recruitsAt v = if v = leaf.userId then some [] else
      if leaf.sponsor.map t.arena.userAt = some v then
        (t.recruitsAt v).map (· ++ [leaf.userId]) else t.recruitsAt v := by
  have hk : t'.arena.userAt k = leaf.userId := by rw [userAt, pl.grown.userId, if_pos rfl]
  unfold MatrixTree.recruitsAt
  rw [pl.grown.index]
  by_cases hv : v = leaf.userId
  · rw [if_pos hv, hv, lookup_insert, map_some, sponsoredOf, pl.grown.nodeAt,
      if_pos rfl, hl.sponsored]
    rfl
  · rw [if_neg hv, lookup_insert_ne hv]
    cases hi : t.arena.index.lookup v with
    | none => simp
    | some i =>
      have hil := h.arena.live_of_lookup hi
      obtain rfl : t.arena.userAt i = v := (h.arena.index_iff.mp hi).2
      have hold : (t.arena.sponsoredOf i).map t'.arena.userAt = (t.arena.sponsoredOf i).map t.arena.userAt :=
        map_congr_left fun j hj => pl.grown.userAt (h.arena.live_of_sponsor (h.arena.recruited.mem_iff.mp hj))
      have hsp : leaf.sponsor.map t.arena.userAt = some (t.arena.userAt i) ↔ leaf.sponsor = some i := by
        rw [map_eq_some_iff]
        constructor
        · intro hs
          obtain ⟨s, hs, e⟩ := hs
          rw [hs, h.arena.userAt_inj (hl.sponsor hs) e]
        · exact fun hs => ⟨i, hs, rfl⟩
      rw [map_some, map_some, sponsoredOf, pl.grown.nodeAt, if_neg (pl.grown.ne hil)]
      by_cases hs : leaf.sponsor = some i
      · rw [if_pos (hsp.mpr hs)]
        simp only [if_pos hs, map_append, hold, map_some, map_cons, map_nil, hk]
      · rw [if_neg (mt hsp.mp hs)]
        simp only [if_neg hs, hold]

end Placement

/-- **What a placement that returned has done.** -/
theorem tank_placement {t t' : MatrixTree} {u parentId : Uuid} {position : UInt8} (h : t.Valid)
    (hroom : t.arena.Roomy) (hrun : (placeFromTank u parentId position).run t = .ok () t') :
    ∃ entry, TankPlacement t t' u parentId position entry := by
  obtain ⟨⟨p, pos, entry⟩, hc⟩ : ∃ found, t.checkPlaceFromTank u parentId position = .ok found := by
    cases hc : t.checkPlaceFromTank u parentId position with
    | error e => simp [placeFromTank, Call.run_reads, hc] at hrun
    | ok found => exact ⟨found, rfl⟩
  obtain ⟨k, t1, row, hrun', pl, hrow, hq, hv⟩ := placeFromTank_spec h hroom hc
  cases hrun'.symm.trans hrun
  obtain ⟨hu, hp, -, hent, hue, hsponsor⟩ := checkPlaceFromTank_eq_ok hc
  have hmem := mem_of_getElem? hent
  have hn : t.arena.index.lookup u = none := hue ▸ h.tank.absent entry hmem
  have hpl := h.arena.live_of_lookup hp
  obtain rfl : t.arena.userAt p = parentId := (h.arena.index_iff.mp hp).2
  let t0 : MatrixTree := { t with holdingTank := t.holdingTank.eraseIdx pos }
  have h0 : t0.Valid := ⟨h.width, h.spillover, h.arena, h.agree, h.rows,
    h.tank.sublist (eraseIdx_sublist t.holdingTank pos)⟩
  have hl : Leaf t0.arena (Node.leaf u (some p)
      (entry.sponsorUserId.bind t.arena.index.lookup) ((t.arena.nodeAt p).depth + 1)
      entry.enrolledAt) := by
    refine leaf_node hu hn hpl fun s hs => ?_
    obtain ⟨v, -, hv⟩ := bind_eq_some_iff.mp hs
    exact h.arena.live_of_lookup hv
  have herase : t.holdingTank.eraseIdx pos = t.holdingTank.erase entry := by
    obtain ⟨hlt, hget⟩ := List.getElem?_eq_some_iff.mp hent
    rw [← h.tank.nodup.of_map.erase_getElem pos hlt, hget]
  -- the sponsor that is restored, by user
  have hrestored : (entry.sponsorUserId.bind t.arena.index.lookup).map t.arena.userAt =
      entry.sponsorUserId.filter fun s => (t.roster s).isSome := by
    cases entry.sponsorUserId with
    | none => rfl
    | some s =>
      rw [Option.bind_some, Option.filter, roster, Arena.roster, Option.isSome_map]
      cases hs : t.arena.index.lookup s with
      | none => rfl
      | some i => exact congrArg some (h.arena.index_iff.mp hs).2
  obtain ⟨hslots, hslot⟩ := pl.slotIn h0 hl rfl hrow hq
  refine ⟨entry, { valid := hv, waiting := ⟨hmem, hue⟩, tank := pl.tank.trans herase
                   free := ⟨_, h.rowAt_userAt hrow, by simp [hq]⟩
                   seat := ⟨_, h.arena.roster_userAt hpl, ?_⟩, rows := fun v => pl.rowAt h0 hrow v
                   recruits := fun v => ?_, root := pl.grown.root, width := pl.width
                   spillover := pl.spillover }⟩
  · refine (pl.grown.roster h.arena hl hslots).trans ?_
    show update t.roster u (some (newSeat _ _ _)) = _
    rw [hslot]
    unfold newSeat
    rw [show (Node.leaf u (some p) (entry.sponsorUserId.bind t.arena.index.lookup)
      ((t.arena.nodeAt p).depth + 1) entry.enrolledAt).sponsor.map t.arena.userAt = _ from hrestored]
    rfl
  · refine (pl.recruitsAt h0 hl v).trans ?_
    show (if v = u then some [] else
      if (entry.sponsorUserId.bind t.arena.index.lookup).map t.arena.userAt = some v then
        (t.recruitsAt v).map (· ++ [u]) else t.recruitsAt v) = _
    rw [hrestored]
    by_cases hlive : t.roster v = none
    · -- a sponsor who is not in the tree has no recruit list
      have hnone : t.recruitsAt v = none := by
        rw [recruitsAt, map_eq_none_iff.mp hlive]
        rfl
      simp only [hnone, map_none, ite_self]
    · simp only [filter_eq_some_iff, isSome_iff_ne_none, hlive, ne_eq,
        not_false_eq_true, and_true]

/-! ## 3. Emptying the tank -/

/-- Nobody in the list waits for a sponsor who is not placed before them. -/
def SponsorsFirst : List HoldingTankEntry → Prop
  | [] => True
  | e :: rest =>
    (∀ s, e.sponsorUserId = some s → ∀ e' ∈ e :: rest, e'.userId ≠ s) ∧ SponsorsFirst rest

/-- Placing the users of the list in turn empties the tank, whatever open slots are chosen on the
    way, and there is one to choose at every step. -/
def Empties : List Uuid → MatrixTree → Prop
  | [], t => t.holdingTank = []
  | u :: rest, t => (∃ parentId position, t.OpenSlot parentId position) ∧
      ∀ parentId position, t.OpenSlot parentId position →
        ∃ t', (placeFromTank u parentId position).run t = .ok () t' ∧ Empties rest t'

theorem sponsorsFirst_of_rank (rank : Uuid → Nat) : ∀ {order : List HoldingTankEntry},
    order.Pairwise (fun e e' => rank e.userId ≤ rank e'.userId) →
    (∀ e ∈ order, ∀ s, e.sponsorUserId = some s → rank s < rank e.userId) → SponsorsFirst order := by
  intro order
  induction order with
  | nil => exact fun _ _ => trivial
  | cons e rest ih =>
    intro hsorted hrank
    obtain ⟨hfirst, hsorted⟩ := pairwise_cons.mp hsorted
    refine ⟨fun s hs e' he' hu => ?_, ih hsorted fun e' he' => hrank e' (mem_cons_of_mem _ he')⟩
    have hlt := hrank e mem_cons_self s hs
    subst hu
    rcases mem_cons.mp he' with rfl | he'
    · omega
    · have := hfirst e' he'
      omega

/-- **The sponsor chains of the tank end, so there is an order that puts sponsors first.** -/
theorem TankOk.exists_order {a : Arena} {tank : List HoldingTankEntry} (h : TankOk a tank) :
    ∃ order : List HoldingTankEntry, order.Perm tank ∧ SponsorsFirst order := by
  obtain ⟨rank, hr⟩ := h.chains
  let before : HoldingTankEntry → HoldingTankEntry → Prop := fun e e' => rank e.userId ≤ rank e'.userId
  have : Std.Total before := ⟨fun e e' => Nat.le_total _ _⟩
  have : IsTrans HoldingTankEntry before := ⟨fun _ _ _ h h' => Nat.le_trans h h'⟩
  have hperm := perm_insertionSort before tank
  refine ⟨tank.insertionSort before, hperm, sponsorsFirst_of_rank rank
    (pairwise_insertionSort before tank) fun e he s hs => ?_⟩
  exact hr _ _ ((tankLink_of_mem h.nodup (hperm.mem_iff.mp he)).trans hs)

section Emptying

variable {t : MatrixTree} (h : t.Valid)
include h

/-- **A tree with a node has an open slot.** -/
theorem Valid.exists_open {i : NodeIndex} (hi : t.arena.Live i) :
    ∃ parentId position, t.OpenSlot parentId position := by
  obtain ⟨p, q, row, -, -, -, hrow, hq⟩ := h.findSpilloverSlot hi
  have hempty := firstEmpty_eq_some hq
  have hlt : q < 256 := by
    have := (List.getElem?_eq_some_iff.mp hempty).1
    rw [h.rows p row hrow] at this
    exact this.trans t.width.toNat_lt
  refine ⟨_, UInt8.ofNat q, _, h.rowAt_userAt hrow, ?_⟩
  rw [UInt8.toNat_ofNat', Nat.mod_eq_of_lt hlt, getElem?_map, hempty]
  rfl

/-- **A waiting user whose sponsor does not wait can be placed at every open slot.** -/
theorem Valid.checkPlaceFromTank_of_open {e : HoldingTankEntry} (he : e ∈ t.holdingTank)
    (hs : ∀ s, e.sponsorUserId = some s → ∀ e' ∈ t.holdingTank, e'.userId ≠ s) {parentId : Uuid}
    {position : UInt8} (hopen : t.OpenSlot parentId position) :
    ∃ found, t.checkPlaceFromTank e.userId parentId position = .ok found := by
  obtain ⟨_, hat, hfree⟩ := hopen
  obtain ⟨p, hp, hmap⟩ := Option.bind_eq_some_iff.mp hat
  obtain ⟨row, hrow, rfl⟩ := Option.map_eq_some_iff.mp hmap
  have hempty : row[position.toNat]? = some none := by simpa using hfree
  have hwidth : ¬ t.width ≤ position := by
    have := (List.getElem?_eq_some_iff.mp hempty).1
    rw [h.rows p row hrow] at this
    exact UInt8.not_le.mpr (UInt8.lt_iff_toNat_lt.mpr this)
  obtain ⟨pos, hpos⟩ : ∃ pos, t.holdingTank.findIdx? (fun x => x.userId = e.userId) = some pos := by
    rw [← Option.isSome_iff_exists, findIdx?_isSome, List.any_eq_true]
    exact ⟨e, he, by simp⟩
  obtain ⟨hlt, hat, -⟩ := findIdx?_eq_some_iff_getElem.mp hpos
  have hentry : t.holdingTank[pos]? = some e := by
    rw [getElem?_eq_getElem hlt]
    exact congrArg some (inj_on_of_nodup_map h.tank.nodup (getElem_mem hlt) he (of_decide_eq_true hat))
  have hwaits : t.checkTankSponsor e.userId e = .ok () := by
    unfold checkTankSponsor
    cases hsp : e.sponsorUserId with
    | none => rfl
    | some s => exact stopIf_eq_ok.mpr (by simpa [inTank] using hs s hsp)
  refine ⟨(p, pos, e), ?_⟩
  simp only [checkPlaceFromTank, checkUserId, bind_eq_ok, stopIf_eq_ok,
    resolve_eq_ok, placeAt_eq_ok]
  refine ⟨(), h.tank.user e he, (), hwidth, p, hp, row, slotsOf_ok hrow, none, hempty, (), by simp, ?_⟩
  simp only [hpos, hentry]
  exact bind_ok hwaits _

end Emptying

/-- **Placing sponsors first empties the tank.** -/
theorem empties_of_sponsorsFirst : ∀ {order : List HoldingTankEntry} {t : MatrixTree}, t.Valid →
    t.arena.nodes.length + order.length ≤ 2 ^ 32 → (∃ i, t.arena.Live i) → order.Perm t.holdingTank → SponsorsFirst order →
    Empties (order.map HoldingTankEntry.userId) t := by
  intro order
  induction order with
  | nil => exact fun _ _ _ hperm _ => List.Perm.eq_nil hperm.symm
  | cons e rest ih =>
    intro t h hslots hlive hperm hfirst
    rw [length_cons] at hslots
    have hroom : t.arena.Roomy := by
      unfold Roomy
      omega
    obtain ⟨i, hi⟩ := hlive
    have he : e ∈ t.holdingTank := hperm.mem_iff.mp mem_cons_self
    refine ⟨h.exists_open hi, fun parentId position hopen => ?_⟩
    obtain ⟨⟨p, pos, entry⟩, hc⟩ := h.checkPlaceFromTank_of_open he
      (fun s hs e' he' => hfirst.1 s hs e' (hperm.mem_iff.mpr he')) hopen
    obtain ⟨k, t', row, hrun, pl, -⟩ := placeFromTank_spec h hroom hc
    obtain ⟨entry, hplaced⟩ := tank_placement h hroom hrun
    obtain rfl : entry = e := inj_on_of_nodup_map h.tank.nodup hplaced.waiting.1 he hplaced.waiting.2
    refine ⟨t', hrun, ih hplaced.valid ?_ ⟨k, ?_⟩ ?_ hfirst.2⟩
    · have : t'.arena.nodes.length ≤ t.arena.nodes.length + 1 := pl.grown.length.2
      omega
    · show (t'.arena.nodeAt k).userId ≠ _
      rw [pl.grown.userId, if_pos rfl]
      exact h.tank.user _ he
    · rw [hplaced.tank]
      have := hperm.erase entry
      rwa [erase_cons_head] at this

/-! ## 4. The round trip -/

/-- **The holding tank keeps everything that is needed to go back.** An accepted removal returns and
    does what `TankRemoval` says; then, while the slots can be counted, there is an order in which every
    user of the tank can be placed at whatever open slots are chosen; and in every valid tree a placement does what `TankPlacement`
    says, and restores the stored sponsor exactly when that one is live. -/
theorem holding_tank_round_trip {t : MatrixTree} {u : Uuid} (h : t.Valid)
    (hc : t.checkRemoveNode u .holdingTank = .ok ()) :
    ∃ result t', (removeNode u .holdingTank).run t = .ok result t' ∧ TankRemoval t t' u result ∧
      (t'.arena.nodes.length + t'.holdingTank.length ≤ 2 ^ 32 →
        ∃ order, order.Perm (t'.holdingTank.map HoldingTankEntry.userId) ∧ Empties order t') ∧
      ∀ (s s' : MatrixTree) (v parentId : Uuid) (position : UInt8), s.Valid → s.arena.Roomy →
        (placeFromTank v parentId position).run s = .ok () s' →
        ∃ entry, TankPlacement s s' v parentId position entry ∧ ∀ w, s'.roster.sponsorOf v = some w ↔
            entry.sponsorUserId = some w ∧ s.roster w ≠ none := by
  obtain ⟨i, p, gone, moved, result, t', hi, hp, -, -, hrun, hr, -⟩ := removeNode_spec h hc nofun
  obtain ⟨order, hperm, hfirst⟩ := hr.valid.tank.exists_order
  have hlive : ∃ i, t'.arena.Live i := by
    obtain ⟨r, hroot, -⟩ := h.arena.root_above (h.arena.live_of_lookup hi)
    exact ⟨r, (hr.valid.arena.root_live (hr.root.trans hroot)).1⟩
  refine ⟨result, t', hrun, tank_removal h hrun,
    fun hslots => ⟨_, hperm.map _,
      empties_of_sponsorsFirst hr.valid (hperm.length_eq ▸ hslots) hlive hperm hfirst⟩,
    fun s s' v parentId position hs hroom hplace => ?_⟩
  obtain ⟨entry, hplaced⟩ := tank_placement hs hroom hplace
  exact ⟨entry, hplaced, hplaced.sponsor_iff⟩

/-- Six users, two of them sponsored from inside the subtree of user 2, and one waiting. -/
def sixTree : MatrixTree where
  arena :=
    { nodes := [⟨1, none, [1, 4], none, [1], 0, 0⟩, ⟨2, some 0, [2, 3], some 0, [2, 4], 1, 10⟩,
        ⟨3, some 1, [], some 1, [3], 2, 30⟩, ⟨4, some 1, [5], some 2, [5], 2, 20⟩,
        ⟨5, some 0, [], some 1, [], 1, 40⟩, ⟨6, some 3, [], some 3, [], 3, 50⟩]
      index := Maps.collect [(1, 0), (2, 1), (3, 2), (4, 3), (5, 4), (6, 5)]
      freeList := []
      root := some 0 }
  width := 2
  spillover := .breadthFirst
  slots := Maps.collect [(0, [some 1, some 4]), (1, [some 2, some 3]), (2, [none, none]),
    (3, [none, some 5]), (4, [none, none]), (5, [none, none])]
  holdingTank := [⟨7, some 3, 60⟩]

theorem sixTree_valid : sixTree.Valid := validateRestored_iff.mp (by decide +kernel)

theorem holding_tank_round_trip_six : sixTree.checkRemoveNode 2 .holdingTank = .ok () ∧ ∃ result t',
      (removeNode 2 .holdingTank).run sixTree = .ok result t' ∧ TankRemoval sixTree t' 2 result ∧
      ∃ order, order.Perm (t'.holdingTank.map HoldingTankEntry.userId) ∧ Empties order t' := by
  have hc : sixTree.checkRemoveNode 2 .holdingTank = .ok () := by decide +kernel
  obtain ⟨result, t', hrun, hremoval, hempties, -⟩ := holding_tank_round_trip sixTree_valid hc
  have hend : t' = Call.after (removeNode 2 .holdingTank) sixTree := by rw [Call.after, hrun]
  exact ⟨hc, result, t', hrun, hremoval, hempties (hend ▸ by decide +kernel)⟩

end MatrixTree

end MlmForge.Engine
