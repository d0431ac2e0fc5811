/-
  Subject:   Where `add_node` of a matrix tree puts a new user.

  * **`spillover_is_breadth_first`** -- both.
-/
import MlmForge.Engine.PromoteEarliest

namespace MlmForge.Engine

open List Option Arena Function

namespace MatrixTree

/-- The slots on the way from `s` down to a user. -/
def SlotPath (t : MatrixTree) (s : Uuid) : List Nat → Uuid → Prop :=
  PathFrom t.roster.parentOf t.roster.slotOf s

/-- Slot `k` of `p` is open. -/
def OpenAt (t : MatrixTree) (p : Uuid) (k : Nat) : Prop :=
  ∃ row, t.rowAt p = some row ∧ row[k]? = some none

/-- **Slot `k` of `p` is the least open slot below `s`.** -/
structure LeastOpen (t : MatrixTree) (s : Uuid) (path : List Nat) (p : Uuid) (k : Nat) : Prop where
  way : t.SlotPath s path p
  free : t.OpenAt p k
  least : ∀ path' p' k', t.SlotPath s path' p' → t.OpenAt p' k' →
    t.roster.depthOf p < t.roster.depthOf p' ∨ t.roster.depthOf p = t.roster.depthOf p' ∧
      (List.Lex (· < ·) path path' ∨ path = path' ∧ k ≤ k')

/-- Level `n` below `s` is complete. -/
def LevelFull (t : MatrixTree) (s : Uuid) (n : Nat) : Prop :=
  ∀ path : List Nat, path.length = n → (∀ q ∈ path, q < t.width.toNat) → ∃ v, t.SlotPath s path v

/-- Nobody has this user id: no node, and nobody in the holding tank. -/
structure Fresh (t : MatrixTree) (u : Uuid) : Prop where
  not_nil : u ≠ Uuid.nil
  absent : t.roster u = none
  not_waiting : ∀ e ∈ t.holdingTank, e.userId ≠ u

/-- **What `add_node` does**: the new user gets the least open slot below the sponsor, whose level and
    all levels above it are complete, and nobody else's seat changes. -/
structure Spilled (t t' : MatrixTree) (u s : Uuid) (enrolledAt : Int) : Prop where
  valid : t'.Valid
  seat : ∃ path p k above, t.LeastOpen s path p k ∧ (∀ n ≤ path.length, t.LevelFull s n) ∧
    t.roster p = some above ∧ t'.roster = update t.roster u (some
      { parent := some p, position := some (k : Int), depth := above.depth + 1
        sponsor := some s, enrolledAt := enrolledAt })
  tank : t'.holdingTank = t.holdingTank
  width : t'.width = t.width

/-- Each of the calls in turn does that to the tree it finds. -/
def FillsByLevel (s : Uuid) : List (Uuid × Int) → MatrixTree → Prop
  | [], _ => True
  | (u, enrolledAt) :: rest, t => ∃ k t', (addNode u s enrolledAt).run t = .ok k t' ∧
      Spilled t t' u s enrolledAt ∧ FillsByLevel s rest t'

/-! ## 1. The search -/

section Search

variable {t : MatrixTree} (h : t.Valid)
include h

variable {q k : Nat} {row : MatrixSlots}

/-- **The search stops at the first node, level by level, that has an open slot.** -/
theorem Valid.spillover_first {s p x : NodeIndex}
    (hs : t.arena.Live s) (hfind : t.findSpilloverSlot s = .ok (some (p, q)))
    (hx : Above t.arena.parentOf x s) (hrow : t.slots.lookup x = some row)
    (hk : row[k]? = some none) : x = p ∨ t.Precedes p x := by
  obtain ⟨order, ho, hmem, hrun, -⟩ := findSpilloverSlot_eq h.arena.forest
    (fun _ hx => h.row_below_start hs hx) (fun _ hx => (h.arena.live_below hs hx).lt)
  have hlevels := (bfsOrder_levels h.arena.forest (fun hp => h.arena.depth_below hp)
    h.pairwise_children (levelled_singleton s) ho).2
  rw [hfind] at hrun
  obtain ⟨before, y, after, hsplit, hy, hfull⟩ := findSome?_eq_some_iff.mp (Except.ok.inj hrun).symm
  obtain ⟨rfl, -⟩ := openSlot_eq_some hy
  obtain ⟨q', hq', -⟩ := firstEmpty_le hk
  have hopen : t.openSlot x = some (x, q') := by simp [openSlot, hrow, hq']
  have hxm := (hmem x).mpr hx
  rw [hsplit] at hxm hlevels
  rcases mem_append.mp hxm with hxb | hxa
  · rw [hfull x hxb] at hopen
    cases hopen
  · rcases mem_cons.mp hxa with rfl | hxa
    · exact .inl rfl
    · exact .inr ((pairwise_cons.mp (pairwise_append.mp hlevels).2.1).1 x hxa)

theorem Valid.depthOf_parentOf {u p : Uuid} (hp : t.roster.parentOf u = some p) :
    t.roster.depthOf u = t.roster.depthOf p + 1 := by
  obtain ⟨i, j, hij, rfl, rfl⟩ := h.arena.roster_parentOf_eq_some.mp hp
  rw [h.depthOf_userAt (h.arena.live_of_parent hij), h.depthOf_userAt (h.arena.live_parent hij)]
  exact h.arena.depth_below hij

theorem Valid.openAt_iff {p : Uuid} : t.OpenAt p k ↔ ∃ x row, t.arena.Live x ∧
    t.arena.userAt x = p ∧ t.slots.lookup x = some row ∧ row[k]? = some none := by
  constructor
  · intro ho
    obtain ⟨_, hat, hk⟩ := ho
    obtain ⟨x, hx, hmap⟩ := bind_eq_some_iff.mp hat
    obtain ⟨row, hrow, rfl⟩ := map_eq_some_iff.mp hmap
    exact ⟨x, row, h.arena.live_of_lookup hx, (h.arena.index_iff.mp hx).2, hrow, by simpa using hk⟩
  · intro ho
    obtain ⟨x, row, -, rfl, hrow, hk⟩ := ho
    exact ⟨_, h.rowAt_userAt hrow, by simp [hk]⟩

/-- **The slot that the search finds is the least open one.** -/
theorem Valid.leastOpen {s p : NodeIndex} (hs : t.arena.Live s)
    (hfind : t.findSpilloverSlot s = .ok (some (p, q))) (hp : Above t.arena.parentOf p s)
    (hrow : t.slots.lookup p = some row) (hq : firstEmpty row = some q) :
    ∃ path, t.LeastOpen (t.arena.userAt s) path (t.arena.userAt p) q := by
  have hpl := h.arena.live_below hs hp
  obtain ⟨path, hpath⟩ : ∃ path, t.SlotPath (t.arena.userAt s) path (t.arena.userAt p) :=
    exists_pathFrom ((h.arena.above_iff hs).mpr ⟨p, hpl, rfl, hp⟩)
  refine ⟨path, hpath, h.openAt_iff.mpr ⟨p, row, hpl, rfl, hrow, firstEmpty_eq_some hq⟩,
    fun path' p' k' hpath' hopen => ?_⟩
  obtain ⟨x, row', hxl, rfl, hrow', hk'⟩ := h.openAt_iff.mp hopen
  obtain ⟨y, -, hyx, hy⟩ := (h.arena.above_iff hs).mp hpath'.above
  obtain rfl : y = x := (h.arena.userAt_inj hxl hyx.symm).symm
  rcases h.spillover_first hs hfind hy hrow' hk' with rfl | hbefore
  · cases hrow.symm.trans hrow'
    obtain ⟨q', hq', hle⟩ := firstEmpty_le hk'
    cases hq.symm.trans hq'
    exact .inr ⟨rfl, .inr ⟨hpath.unique (fun hp => h.depthOf_parentOf hp) hpath', hle⟩⟩
  · have hb := h.precedes_userAt hbefore hpl hxl
    rcases Nat.lt_or_eq_of_le (hb.depth_le fun hp => h.depthOf_parentOf hp) with hlt | he
    · exact .inl hlt
    · exact .inr ⟨he, .inl (hb.lex (fun hp => h.depthOf_parentOf hp) hpath hpath' he)⟩

variable {path : List Nat}

theorem Valid.slotPath_down {x y : NodeIndex} {s : Uuid}
    (hrow : t.slots.lookup x = some row) (hy : row[k]? = some (some y))
    (hpath : t.SlotPath s path (t.arena.userAt x)) : t.SlotPath s (path ++ [k]) (t.arena.userAt y) := by
  have hocc := h.agree.children hrow
  have hup : t.arena.parentOf y = some x := by
    rw [← h.arena.placed.mem_iff, ← hocc]
    exact reduceOption_mem_iff.mpr (mem_of_getElem? hy)
  obtain ⟨row', q, hrow', -, hq, e⟩ := h.place hup
  cases hrow.symm.trans hrow'
  have hk : t.roster.slotOf (t.arena.userAt y) = k := by
    rw [h.slotOf_userAt hup, e]
    exact place_unique (hocc ▸ h.arena.placed.nodup x) hq hy
  rw [← hk]
  exact .down (h.arena.roster_parentOf_eq_some.mpr ⟨y, x, hup, rfl, rfl⟩) hpath

/-- **Above the least open slot every level is complete**, and its own level is. -/
theorem Valid.levelFull {s p : Uuid} (hs : t.roster s ≠ none)
    (hleast : t.LeastOpen s path p k) {n : Nat} (hn : n ≤ path.length) : t.LevelFull s n := by
  have hdepth : t.roster.depthOf p = t.roster.depthOf s + path.length :=
    hleast.way.depth_eq fun hp => h.depthOf_parentOf hp
  intro way
  induction way using reverseRecOn generalizing n with
  | nil => exact fun _ _ => ⟨s, .here⟩
  | append_singleton way q ih =>
    intro hlen hq
    rw [length_append, length_singleton] at hlen
    obtain ⟨v, hv⟩ := ih (n := way.length) (by omega) rfl fun q' hq' => hq q' (mem_append_left _ hq')
    obtain ⟨i, hi, rfl⟩ := h.arena.roster_ne_none.mp hs
    obtain ⟨x, hx, rfl, -⟩ := (h.arena.above_iff hi).mp hv.above
    obtain ⟨row, hrow, -, hwidth⟩ := h.exists_row hx
    have hlt : q < row.length := by
      rw [hwidth]
      exact hq q (mem_append_right _ mem_cons_self)
    cases hy : row[q] with
    | some y => exact ⟨_, h.slotPath_down hrow (by rw [getElem?_eq_getElem hlt, hy]) hv⟩
    | none =>
      -- an open slot there would be less than the least one
      have hopen : t.OpenAt (t.arena.userAt x) q :=
        h.openAt_iff.mpr ⟨x, row, hx, rfl, hrow, by rw [getElem?_eq_getElem hlt, hy]⟩
      have hvd : t.roster.depthOf (t.arena.userAt x) = t.roster.depthOf (t.arena.userAt i) + way.length :=
        hv.depth_eq fun hp => h.depthOf_parentOf hp
      rcases hleast.least _ _ _ hv hopen with hl | ⟨he, -⟩ <;> omega

end Search

/-! ## 2. The calls -/

section Calls

variable {t : MatrixTree} (h : t.Valid)
include h

/-- **One call succeeds and fills the least open slot.** -/
theorem Valid.spilled (hroom : t.arena.Roomy) {u s : Uuid} (hu : t.Fresh u) (hs : t.roster s ≠ none) (e : Int) :
    ∃ k t', (addNode u s e).run t = .ok k t' ∧ Spilled t t' u s e ∧
      t'.arena.nodes.length ≤ t.arena.nodes.length + 1 := by
  obtain ⟨i, hi, rfl⟩ := h.arena.roster_ne_none.mp hs
  have hroot : t.arena.root ≠ none := by
    obtain ⟨r, hr, -⟩ := h.arena.root_above hi
    rw [hr]
    nofun
  have hn : t.arena.index.lookup u = none := map_eq_none_iff.mp hu.absent
  have hc : t.checkAddNode u (t.arena.userAt i) = .ok i := checkAddNode_eq_ok.mpr
    ⟨hu.not_nil, hroot, hn, hu.not_waiting, h.arena.lookup_of_live hi⟩
  obtain ⟨p, q, row, hfind, hpl, hab, hrow, hq⟩ := h.findSpilloverSlot hi
  obtain ⟨k, t', hrun, pl, hv⟩ := addNode_at h hroom hc hfind hpl hrow hq e
  obtain ⟨path, hleast⟩ := h.leastOpen hi hfind hab hrow hq
  have hl : Arena.Leaf t.arena (Node.leaf u (some p) (some i) ((t.arena.nodeAt p).depth + 1) e) :=
    leaf_node hu.not_nil hn hpl fun _ e => some.inj e ▸ hi
  obtain ⟨hslots, hslot⟩ := pl.slotIn h hl rfl hrow (firstEmpty_eq_some hq)
  refine ⟨k, t', hrun, { valid := hv, tank := pl.tank, width := pl.width, seat := ?_ }, pl.grown.length.2⟩
  refine ⟨path, t.arena.userAt p, q, _, hleast, fun n hn => h.levelFull hs hleast hn,
    h.arena.roster_userAt hpl, (pl.grown.roster h.arena hl hslots).trans ?_⟩
  show update t.roster u (some (newSeat _ _ _)) = _
  rw [hslot]
  rfl

end Calls

theorem fillsByLevel : ∀ {calls : List (Uuid × Int)} {t : MatrixTree} {s : Uuid}, t.Valid →
    t.arena.nodes.length + calls.length ≤ 2 ^ 32 → t.roster s ≠ none → (calls.map Prod.fst).Nodup → (∀ c ∈ calls, t.Fresh c.1) → FillsByLevel s calls t := by
  intro calls
  induction calls with
  | nil => exact fun _ _ _ _ _ => trivial
  | cons call rest ih =>
    intro t s h hslots hs hnd hfresh
    rw [length_cons] at hslots
    obtain ⟨u, e⟩ := call
    obtain ⟨hu, hnd⟩ := nodup_cons.mp hnd
    have hfu := hfresh _ mem_cons_self
    obtain ⟨k, t', hrun, hsp, hgrown⟩ := h.spilled (Nat.lt_of_lt_of_le (by omega) hslots) hfu hs e
    obtain ⟨_, _, _, _, -, -, -, hseat⟩ := hsp.seat
    refine ⟨k, t', hrun, hsp, ih hsp.valid (by omega) ?_ hnd fun c hc => ?_⟩
    · rw [hseat, update_apply]
      split
      · nofun
      · exact hs
    · have hc' := hfresh c (mem_cons_of_mem _ hc)
      have hne : c.1 ≠ u := fun he => hu (mem_map.mpr ⟨c, hc, he⟩)
      refine ⟨hc'.not_nil, ?_, hsp.tank ▸ hc'.not_waiting⟩
      rw [hseat, update_of_ne hne]
      exact hc'.absent

/-- **Spillover placement is the breadth-first first opening.** Under a live sponsor `add_node` places
    every fresh user, in the least open slot below the sponsor, and moves nobody; and in a run of such
    calls every level below the sponsor is complete before anybody is placed one level deeper; all this
    while the slots can be counted. -/
theorem spillover_is_breadth_first (t : MatrixTree) (h : t.Valid) (s : Uuid) (hs : t.roster s ≠ none) :
    (∀ u enrolledAt, t.arena.Roomy → t.Fresh u → ∃ k t', (addNode u s enrolledAt).run t = .ok k t' ∧
      Spilled t t' u s enrolledAt) ∧
    ∀ calls : List (Uuid × Int), t.arena.nodes.length + calls.length ≤ 2 ^ 32 →
      (calls.map Prod.fst).Nodup → (∀ c ∈ calls, t.Fresh c.1) → FillsByLevel s calls t := by
  refine ⟨fun _ e hroom hu => ?_, fun _ hslots hnd hfresh => fillsByLevel h hslots hs hnd hfresh⟩
  obtain ⟨k, t', hrun, hsp, -⟩ := h.spilled hroom hu hs e
  exact ⟨k, t', hrun, hsp⟩

theorem spillover_is_breadth_first_six :
    (∃ k t', (addNode 8 1 70).run sixTree = .ok k t' ∧ Spilled sixTree t' 8 1 70) ∧
    FillsByLevel 1 [(8, 70), (9, 71), (10, 72)] sixTree := by
  have hs : sixTree.roster 1 ≠ none := by decide +kernel
  have hfresh : ∀ c ∈ ([(8, 70), (9, 71), (10, 72)] : List (Uuid × Int)), sixTree.Fresh c.1 := by
    intro c hc
    have : c.1 ≠ Uuid.nil ∧ sixTree.roster c.1 = none ∧ ∀ e ∈ sixTree.holdingTank, e.userId ≠ c.1 := by
      revert c
      decide +kernel
    exact ⟨this.1, this.2.1, this.2.2⟩
  have h := spillover_is_breadth_first sixTree sixTree_valid 1 hs
  exact ⟨h.1 8 70 (by decide) (hfresh (8, 70) (by decide)), h.2 _ (by decide) (by decide) hfresh⟩

end MatrixTree

end MlmForge.Engine
