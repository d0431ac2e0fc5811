/-
  Subject:   Seating one member, and splitting a full board.

  * **`splitInto_does`** -- after the split only the top member is left on the old board, every new
    board is at least two seats short, and the boards there were are as they were;
  * **`Halfway.finish`** -- without the old board and its top member the engine is ready again.
-/
import MlmForge.Basis.Triple
import MlmForge.BoardPlan.Invariant

namespace MlmForge.BoardPlan

open Engine Call List Maps Option AList

namespace BoardPlanEngine

variable {ids : BoardIds} {e e' : BoardPlanEngine} {u v id old : Uuid} {b : Board} {timestamp : Int}

/-- A sound engine with unused identifiers for the boards to come, and a counter in range. -/
structure Ready (ids : BoardIds) (e : BoardPlanEngine) : Prop extends Sound e where
  unused : ∀ {n}, e.nextBoardSeq ≤ n → n < seqLimit → e.boards.lookup (ids.draw n) = none
  in_range : e.nextBoardSeq < seqLimit

/-- The only thing that stops cycling: the counter has no value left. -/
def Exhausted (stop : Stop BoardPlanError) (e : BoardPlanEngine) : Prop :=
  stop = .panic "attempt to add with overflow" ∧ seqLimit ≤ e.nextBoardSeq + 1

/-! ## 1. One more user -/

/-- One more user is enrolled, and no board gets more than one seat fuller. -/
structure Admits (ids : BoardIds) (u : Uuid) (e e' : BoardPlanEngine) : Prop where
  ready : Ready ids e'
  enrolled : ∀ v, e'.Enrolled v ↔ v = u ∨ e.Enrolled v
  setup : SameSetup e e'
  next : e'.nextBoardSeq = e.nextBoardSeq
  room : ∀ {i b}, e.boards.lookup i = some b →
    ∃ b', e'.boards.lookup i = some b' ∧ b'.members.length ≤ b.members.length + 1

theorem not_enrolled : ¬ e.Enrolled u ↔ e.memberBoards.lookup u = none ∧ u ∉ e.displacedMembers := by
  rw [Enrolled, not_or, not_isSome_iff_eq_none]

/-- **A user seated at the first opening of a board.** -/
theorem Ready.seat (h : Ready ids e) (hb : e.boards.lookup id = some b)
    (hlt : b.members.length < e.totalPositions) (hu : ¬ e.Enrolled u) (timestamp : Int) :
    Admits ids u e (e.seat b id u b.members.length timestamp) := by
  obtain ⟨hnone, hwait⟩ := not_enrolled.mp hu
  have hoff : u ∉ b.members := fun hmem => by
    rw [h.lookup_member hb hmem] at hnone
    cases hnone
  obtain ⟨hmembers, hproper⟩ := (h.proper hb).seat hlt hoff timestamp
  have hlook : ∀ w, (e.seat b id u b.members.length timestamp).memberBoards.lookup w =
      if w = u then some id else e.memberBoards.lookup w := lookup_insert _ _ _
  have hboards : ∀ i, (e.seat b id u b.members.length timestamp).boards.lookup i = if i = id then some
      { b with
        positions := b.positions.set b.members.length (some u)
        lastActivityAt := timestamp } else e.boards.lookup i := lookup_insert _ _ _
  have hapart : ∀ w ∈ e.displacedMembers,
      (e.seat b id u b.members.length timestamp).memberBoards.lookup w = none := by
    intro w hw
    have hne : w ≠ u := fun heq => hwait (heq ▸ hw)
    rw [hlook, if_neg hne]
    exact h.apart w hw
  have hsound : (e.seat b id u b.members.length timestamp).Sound := by
    refine h.toSound.rewrite rfl rfl rfl rfl hb hproper rfl hboards (fun w => ?_) (fun w hw => ?_)
      h.waiting hapart
    · have hiff : w ∈ b.members ++ [u] ↔ w ∈ b.members ∨ w = u := by
        rw [mem_append, mem_singleton]
      rw [hlook, hmembers]
      by_cases hw : w = u
      · rw [if_pos hw, if_pos (hiff.mpr (.inr hw))]
      · rw [if_neg hw]
        by_cases hmem : w ∈ b.members
        · rw [if_pos (hiff.mpr (.inl hmem)), h.lookup_member hb hmem]
        · rw [if_neg fun hx => (hiff.mp hx).elim hmem hw, if_neg hmem]
    · rw [hmembers, mem_append, mem_singleton] at hw
      rcases hw with hw | rfl
      · exact .inl hw
      · exact .inr hnone
  refine ⟨⟨hsound, fun hn hlimit => ?_, h.in_range⟩, fun w => ?_, ⟨rfl, rfl, rfl, rfl, rfl⟩, rfl,
    fun {i c} hc => ?_⟩
  · rw [hboards, if_neg, h.unused hn hlimit]
    intro heq
    have := h.unused hn hlimit
    rw [heq, hb] at this
    cases this
  · unfold Enrolled
    rw [hlook]
    by_cases hw : w = u
    · simp [hw]
    · simp only [false_or, hw]
      rfl
  · rw [hboards]
    by_cases hi : i = id
    · subst hi
      cases hb.symm.trans hc
      refine ⟨_, if_pos rfl, ?_⟩
      rw [hmembers, length_append, length_singleton]
    · exact ⟨c, (if_neg hi).trans hc, Nat.le_succ _⟩

/-- **A user put on the waiting list.** -/
theorem Ready.displaced (h : Ready ids e) (hu : ¬ e.Enrolled u) :
    Admits ids u e { e with displacedMembers := e.displacedMembers ++ [u] } := by
  obtain ⟨hnone, hwait⟩ := not_enrolled.mp hu
  refine ⟨⟨⟨⟨h.width, h.height, h.total, h.proper, h.seq_inj⟩, h.seated, ?_, fun w hw => ?_⟩, h.unused,
    h.in_range⟩, fun w => ?_, ⟨rfl, rfl, rfl, rfl, rfl⟩, rfl, fun {i c} hc => ⟨c, hc, Nat.le_succ _⟩⟩
  · rw [nodup_append]
    refine ⟨h.waiting, nodup_singleton u, fun a ha c hc hac => hwait ?_⟩
    rw [mem_singleton] at hc
    exact hc ▸ hac ▸ ha
  · rcases mem_append.mp hw with hw | hw
    · exact h.apart w hw
    · exact mem_singleton.mp hw ▸ hnone
  · unfold Enrolled
    simp only [mem_append, mem_singleton]
    tauto

/-! ## 2. Moving members to a new board -/

/-- The members at some positions. -/
def pick (l : List Uuid) (positions : List Nat) : List Uuid := positions.filterMap (l[·]?)

variable {l : List Uuid} {positions : List Nat}

theorem mem_pick : u ∈ pick l positions ↔ ∃ i ∈ positions, l[i]? = some u := mem_filterMap

theorem length_pick (l : List Uuid) (positions : List Nat) :
    (pick l positions).length ≤ positions.length := length_filterMap_le _ _

theorem nodup_pick (hl : l.Nodup) (hp : positions.Nodup) : (pick l positions).Nodup := by
  refine hp.filterMap fun i j a hi hj => ?_
  obtain ⟨hil, hia⟩ := List.getElem?_eq_some_iff.mp hi
  obtain ⟨hjl, hja⟩ := List.getElem?_eq_some_iff.mp hj
  exact (hl.getElem_inj_iff).mp (hia.trans hja.symm)

variable {board : Board}

theorem moveMembers_run (hrow : board.positions = l.map some) {n : Nat} :
    ∀ (positions : List Nat) (done : List Uuid) (fresh : Board) (e : BoardPlanEngine),
      (∀ i ∈ positions, i < l.length) → fresh.positions = packed n done → done.length + positions.length ≤ n →
      (moveMembers board done.length positions fresh).run e =
        .ok { fresh with positions := packed n (done ++ pick l positions) } { e with
            memberBoards := (pick l positions).foldl (fun m k => m.insert k fresh.id) e.memberBoards } := by
  intro positions
  induction positions with
  | nil =>
    intro done fresh e _ hfresh _
    rw [pick, filterMap_nil, append_nil, ← hfresh]
    rfl
  | cons i rest ih =>
    intro done fresh e hlt hfresh hlen
    rw [length_cons] at hlen
    have hi := hlt i mem_cons_self
    have hat : board.positions[i]? = some (some l[i]) := by
      rw [hrow, getElem?_map, getElem?_eq_getElem hi]
      rfl
    have hpick : pick l (i :: rest) = l[i] :: pick l rest := by
      rw [pick, filterMap_cons, getElem?_eq_getElem hi]
      rfl
    have hfits : done.length < fresh.positions.length := by
      rw [hfresh, length_packed (by omega)]
      omega
    have hset : fresh.positions.set done.length (some l[i]) = packed n (done ++ [l[i]]) := by
      rw [hfresh]
      exact set_packed (by omega) _
    have hrest := ih (done ++ [l[i]]) { fresh with positions := fresh.positions.set done.length (some l[i]) }
      { e with memberBoards := e.memberBoards.insert l[i] fresh.id }
      (fun j hj => hlt j (mem_cons_of_mem _ hj)) hset (by
        rw [length_append, length_singleton]
        omega)
    rw [length_append, length_singleton] at hrest
    rw [moveMembers, hat]
    simp only [if_pos hfits, run_bind, run_modify, hrest, hpick, foldl_cons, append_assoc, singleton_append]

/-! ## 3. Between two boards of a split -/

/-- An engine in the middle of a split: on the old board only those count who were not moved yet. -/
structure Halfway (ids : BoardIds) (e : BoardPlanEngine) (old : Uuid) (left : Uuid → Prop) : Prop
    extends Shaped e where
  present : ∃ b, e.boards.lookup old = some b
  seated : ∀ {u id}, e.memberBoards.lookup u = some id ↔ if id = old then left u else e.On u id
  waiting : e.displacedMembers.Nodup
  apart : ∀ u ∈ e.displacedMembers, e.memberBoards.lookup u = none
  unused : ∀ {n}, e.nextBoardSeq ≤ n → n < seqLimit → e.boards.lookup (ids.draw n) = none
  in_range : e.nextBoardSeq < seqLimit

/-- The engine with a new board that takes some members over. -/
def withBoard (e : BoardPlanEngine) (fresh : Board) : BoardPlanEngine :=
  { e with
    nextBoardSeq := e.nextBoardSeq + 1
    memberBoards := fresh.members.foldl (fun m k => m.insert k fresh.id) e.memberBoards
    boards := e.boards.insert fresh.id fresh }

variable {left : Uuid → Prop}

/-- **A new board takes over members of the old one.** -/
theorem Halfway.grow (h : Halfway ids e old left)
    (hlimit : e.nextBoardSeq + 1 < seqLimit) {fresh : Board} (hid : fresh.id = ids.draw e.nextBoardSeq)
    (hseq : fresh.seq = e.nextBoardSeq)
    (hproper : fresh.Proper e.totalPositions (e.nextBoardSeq + 1) fresh.id)
    (hpart : ∀ v ∈ fresh.members, left v) :
    Halfway ids (e.withBoard fresh) old fun v => left v ∧ v ∉ fresh.members := by
  obtain ⟨b0, hb0⟩ := h.present
  have hnew : e.boards.lookup fresh.id = none := hid ▸ h.unused (Nat.le_refl _) h.in_range
  have hne : fresh.id ≠ old := fun heq => by
    rw [heq, hb0] at hnew
    cases hnew
  have hboards : ∀ i, (e.withBoard fresh).boards.lookup i =
      if i = fresh.id then some fresh else e.boards.lookup i := lookup_insert _ _ _
  have hlook : ∀ v, (e.withBoard fresh).memberBoards.lookup v =
      if v ∈ fresh.members then some fresh.id else e.memberBoards.lookup v :=
    fun v => lookup_foldl_insert _ _ _ _
  have hon : ∀ v i, (e.withBoard fresh).On v i ↔ if i = fresh.id then v ∈ fresh.members else e.On v i := by
    intro v i
    unfold On
    rw [hboards]
    split
    · simp
    · rfl
  refine ⟨h.toShaped.change rfl rfl rfl (Nat.le_succ _) fun i c hc => ?_, ⟨b0, ?_⟩, fun {v i} => ?_,
    h.waiting, fun v hv => ?_, fun {n} hn hlim => ?_, hlimit⟩
  · rw [hboards] at hc
    split at hc
    · rename_i hi
      subst hi
      cases hc
      refine .inr ⟨hproper, fun j d hd hs => ?_⟩
      rw [hboards] at hd
      split at hd
      · assumption
      · have := (h.proper hd).seq_lt
        omega
    · exact .inl hc
  · rw [hboards, if_neg hne.symm]
    exact hb0
  · rw [hlook, hon]
    by_cases hv : v ∈ fresh.members
    · rw [if_pos hv, Option.some.injEq]
      have hold : e.memberBoards.lookup v = some old := h.seated.mpr (by rw [if_pos rfl]; exact hpart v hv)
      by_cases hi : i = fresh.id
      · rw [if_neg (hi ▸ hne), if_pos hi]
        exact iff_of_true hi.symm hv
      · refine iff_of_false (fun hx => hi hx.symm) fun hx => ?_
        split at hx
        · exact hx.2 hv
        · rename_i hio
          have hlk := h.seated.mpr (by rw [if_neg hio]; exact hx)
          rw [hold] at hlk
          exact hio (some.inj hlk).symm
    · rw [if_neg hv, h.seated]
      by_cases hio : i = old
      · rw [if_pos hio, if_pos hio]
        exact (and_iff_left hv).symm
      · rw [if_neg hio, if_neg hio]
        by_cases hi : i = fresh.id
        · rw [if_pos hi]
          refine iff_of_false (fun hx => ?_) hv
          obtain ⟨c, hc, -⟩ := hx
          rw [hi, hnew] at hc
          cases hc
        · rw [if_neg hi]
  · rw [hlook, if_neg, h.apart v hv]
    intro hmem
    have hold : e.memberBoards.lookup v = some old := h.seated.mpr (by rw [if_pos rfl]; exact hpart v hmem)
    rw [h.apart v hv] at hold
    cases hold
  · have hn' : e.nextBoardSeq + 1 ≤ n := hn
    rw [hboards, if_neg, h.unused (by omega) hlim]
    intro heq
    have := ids.distinct hlim h.in_range (heq.trans hid)
    omega

/-- **Without the old board and its last member** the engine is ready, and only that member is gone. -/
theorem Halfway.finish {t : Uuid} (h : Halfway ids e old left) (hleft : ∀ v, left v ↔ v = t) :
    Ready ids { e with boards := e.boards.erase old, memberBoards := e.memberBoards.erase t } := by
  have hboards : ∀ i, (e.boards.erase old).lookup i = if i = old then none else e.boards.lookup i :=
    lookup_erase _ _
  have hlook : ∀ v, (e.memberBoards.erase t).lookup v =
      if v = t then none else e.memberBoards.lookup v := lookup_erase _ _
  have htop : e.memberBoards.lookup t = some old := h.seated.mpr (by rw [if_pos rfl]; exact (hleft t).mpr rfl)
  refine ⟨⟨h.toShaped.change rfl rfl rfl (Nat.le_refl _) fun i c hc => .inl ?_, fun {v i} => ?_,
    h.waiting, fun v hv => ?_⟩, fun hn hlim => ?_, h.in_range⟩
  · have hc' : (e.boards.erase old).lookup i = some c := hc
    rw [hboards] at hc'
    split at hc'
    · cases hc'
    · exact hc'
  · show (e.memberBoards.erase t).lookup v = some i ↔ ∃ c, (e.boards.erase old).lookup i = some c ∧ _
    rw [hlook, hboards]
    by_cases hv : v = t
    · rw [if_pos hv]
      refine iff_of_false (fun hx => by cases hx) fun hx => ?_
      obtain ⟨c, hc, hmem⟩ := hx
      split at hc
      · cases hc
      · rename_i hio
        have hlk := h.seated.mpr (by rw [if_neg hio]; exact ⟨c, hc, hmem⟩)
        rw [hv, htop] at hlk
        exact hio (some.inj hlk).symm
    · rw [if_neg hv, h.seated]
      by_cases hio : i = old
      · rw [if_pos hio, if_pos hio, hleft]
        refine iff_of_false hv fun hx => ?_
        obtain ⟨c, hc, -⟩ := hx
        cases hc
      · rw [if_neg hio, if_neg hio]
        rfl
  · show (e.memberBoards.erase t).lookup v = none
    rw [hlook]
    split
    · rfl
    · exact h.apart v hv
  · show (e.boards.erase old).lookup _ = none
    rw [hboards]
    split
    · rfl
    · exact h.unused hn hlim

/-! ## 4. The split -/

/-- Who is on the old board while the subtrees of `children` are still to be moved. -/
def Left (w : Nat) (l : List Uuid) (children : List Nat) (u : Uuid) : Prop :=
  ∃ i, l[i]? = some u ∧ (i = 0 ∨ ∃ c ∈ children, Above (parentUpTo w (l.length - 1)) i c)

theorem left_all {w : Nat} (hw : 0 < w) : Left w l (range' 1 w) u ↔ u ∈ l := by
  constructor
  · intro h
    obtain ⟨i, hi, -⟩ := h
    exact mem_of_getElem? hi
  · intro h
    obtain ⟨i, hi⟩ := mem_iff_getElem?.mp h
    refine ⟨i, hi, ?_⟩
    by_cases h0 : i = 0
    · exact .inl h0
    · have hlt := (List.getElem?_eq_some_iff.mp hi).1
      obtain ⟨c, hc, habove⟩ := exists_subtree (m := l.length - 1) hw (i := i) (by omega) (by omega)
      exact .inr ⟨c, mem_range'_1.mpr (by omega), habove⟩

variable {c : Nat} {children order : List Nat}

theorem left_cons {w : Nat} (hl : l.Nodup)
    (hw : w ≤ l.length - 1) (hrange : ∀ d ∈ c :: children, 1 ≤ d ∧ d ≤ w) (hc : c ∉ children)
    (hmem : ∀ i, i ∈ order ↔ Above (parentUpTo w (l.length - 1)) i c) :
    (Left w l (c :: children) u ∧ u ∉ pick l order) ↔ Left w l children u := by
  have hc1 := hrange c mem_cons_self
  constructor
  · intro h
    obtain ⟨⟨i, hi, hcase⟩, hout⟩ := h
    refine ⟨i, hi, hcase.imp_right fun hx => ?_⟩
    obtain ⟨d, hd, habove⟩ := hx
    rcases mem_cons.mp hd with rfl | hd
    · exact absurd (mem_pick.mpr ⟨i, (hmem i).mpr habove, hi⟩) hout
    · exact ⟨d, hd, habove⟩
  · intro h
    obtain ⟨i, hi, hcase⟩ := h
    refine ⟨⟨i, hi, hcase.imp_right fun ⟨d, hd, habove⟩ => ⟨d, mem_cons_of_mem _ hd, habove⟩⟩, ?_⟩
    intro hpick
    obtain ⟨j, hj, hju⟩ := mem_pick.mp hpick
    -- nobody sits at two positions, and no position is below two children
    obtain ⟨hil, hie⟩ := List.getElem?_eq_some_iff.mp hi
    obtain ⟨hjl, hje⟩ := List.getElem?_eq_some_iff.mp hju
    have hij : i = j := (hl.getElem_inj_iff).mp (hie.trans hje.symm)
    subst hij
    have habove := (hmem i).mp hj
    rcases hcase with rfl | ⟨d, hd, hd'⟩
    · have := above_zero habove
      omega
    · have := subtree_unique hw hc1 (hrange d (mem_cons_of_mem _ hd)) habove hd'
      exact hc (this ▸ hd)

/-- What a split left: only the top member on the old board, and new boards two seats short. -/
structure SplitOff (ids : BoardIds) (old : Uuid) (left : Uuid → Prop) (e : BoardPlanEngine)
    (newBoards : List Uuid) (e' : BoardPlanEngine) : Prop where
  halfway : Halfway ids e' old left
  setup : SameSetup e e'
  displaced : e'.displacedMembers = e.displacedMembers
  index : ∀ v, (e'.memberBoards.lookup v).isSome = (e.memberBoards.lookup v).isSome
  next : e.nextBoardSeq ≤ e'.nextBoardSeq
  kept : ∀ {i b}, e.boards.lookup i = some b → e'.boards.lookup i = some b
  short : ∀ i ∈ newBoards, i ≠ old ∧
    ∃ b, e'.boards.lookup i = some b ∧ b.members.length + 2 ≤ e'.totalPositions

/-- The board that a child's subtree is moved to. -/
def childBoard (ids : BoardIds) (e : BoardPlanEngine) (board : Board) (timestamp : Int) (l : List Uuid)
    (order : List Nat) : Board :=
  { Board.new (ids.draw e.nextBoardSeq) e.totalPositions timestamp (some board.id) e.nextBoardSeq with
    positions := packed e.totalPositions (pick l order) }

theorem childBoard_members :
    (childBoard ids e board timestamp l order).members = pick l order := reduceOption_packed

theorem splitInto_cons (hrow : board.positions = l.map some)
    (horder : subtreeIndices c e.width (e.totalPositions - 1) = some order)
    (hlt : ∀ i ∈ order, i < l.length) (hlen : order.length ≤ e.totalPositions) :
    (splitInto ids board timestamp (c :: children)).run e = if e.nextBoardSeq + 1 < seqLimit then
        ((fun more => ids.draw e.nextBoardSeq :: more) <$> splitInto ids board timestamp children).run
          (e.withBoard (childBoard ids e board timestamp l order))
      else .error (.panic "attempt to add with overflow") e := by
  rw [splitInto]
  simp only [run_bind, run_get, horder, newBoard]
  by_cases hlimit : e.nextBoardSeq + 1 < seqLimit
  · have hfresh : (Board.new (ids.draw e.nextBoardSeq) e.totalPositions timestamp (some board.id)
        e.nextBoardSeq).positions = packed e.totalPositions [] := rfl
    have hmove := moveMembers_run hrow order [] _ { e with nextBoardSeq := e.nextBoardSeq + 1 } hlt hfresh
      (by simpa using hlen)
    rw [length_nil, nil_append] at hmove
    simp only [if_pos hlimit, run_bind, run_modify, run_pure, hmove, run_map]
    rw [withBoard, childBoard_members]
    rfl
  · simp only [if_neg hlimit, run_throw]

/-- **A split moves every child's subtree to a board of its own.** -/
theorem splitInto_does (hrow : board.positions = l.map some)
    (hl : l.Nodup) : ∀ (children : List Nat) {e : BoardPlanEngine},
      Halfway ids e old (Left e.width l children) → l.length = e.totalPositions →
      (∀ d ∈ children, 1 ≤ d ∧ d ≤ e.width) → children.Nodup →
      Call.Does (splitInto ids board timestamp children) e
        (fun new e' => new.length = children.length ∧ SplitOff ids old (Left e.width l []) e new e' ∧
          ∀ i, if i ∈ new then ∃ n, e.nextBoardSeq ≤ n ∧ n < seqLimit ∧ i = ids.draw n
            else e'.boards.lookup i = e.boards.lookup i)
        Exhausted := by
  intro children
  induction children with
  | nil =>
    intro e h _ _ _
    exact does_pure ⟨rfl, ⟨h, SameSetup.refl e, rfl, fun _ => rfl, Nat.le_refl _, fun hb => hb,
      fun i hi => absurd hi not_mem_nil⟩, fun i => by rw [if_neg not_mem_nil]⟩
  | cons c children ih =>
    intro e h hlen hrange hnd
    obtain ⟨hc, hnd'⟩ := nodup_cons.mp hnd
    have hc1 := hrange c mem_cons_self
    have hwt := h.toShaped.width_lt
    have hw2 := h.width.1
    have hmax : e.totalPositions - 1 = l.length - 1 := by rw [hlen]
    obtain ⟨order, horder, hond, hmem⟩ :=
      subtreeIndices_spec (w := e.width) (r := c) (m := e.totalPositions - 1) (by omega) (by omega)
    have hshort := subtree_short hw2 (by omega) hc1 hond hmem
    have hlt : ∀ i ∈ order, i < l.length := fun i hi => by
      have := le_of_above (by omega) ((hmem i).mp hi)
      omega
    unfold Call.Does
    rw [splitInto_cons hrow horder hlt (by omega)]
    by_cases hlimit : e.nextBoardSeq + 1 < seqLimit
    · rw [if_pos hlimit]
      have hpl := length_pick l order
      have hmembers : (childBoard ids e board timestamp l order).members = pick l order := childBoard_members
      have hproper : (childBoard ids e board timestamp l order).Proper e.totalPositions
          (e.nextBoardSeq + 1) (childBoard ids e board timestamp l order).id :=
        ⟨rfl, by rw [hmembers]; rfl, by rw [hmembers]; omega,
          by rw [hmembers]; exact nodup_pick hl hond, Nat.lt_succ_self _⟩
      have hpart : ∀ v ∈ (childBoard ids e board timestamp l order).members,
          Left e.width l (c :: children) v := fun v hv => by
        rw [hmembers] at hv
        obtain ⟨i, hi, hiv⟩ := mem_pick.mp hv
        exact ⟨i, hiv, .inr ⟨c, mem_cons_self, hmax ▸ (hmem i).mp hi⟩⟩
      have hgrow := h.grow hlimit rfl rfl hproper hpart
      have hnext : Halfway ids (e.withBoard (childBoard ids e board timestamp l order)) old
          (Left e.width l children) := by
        refine (funext fun v => propext ?_ : (fun v => Left e.width l (c :: children) v ∧
          v ∉ (childBoard ids e board timestamp l order).members) = Left e.width l children) ▸ hgrow
        rw [hmembers]
        exact left_cons hl (by omega) hrange hc (hmax ▸ hmem)
      have hrest := ih hnext hlen (fun d hd => hrange d (mem_cons_of_mem _ hd)) hnd'
      -- the new board was not there, and whoever it took was seated
      have hunused := h.unused (Nat.le_refl _) h.in_range
      have hnewboard : (e.withBoard (childBoard ids e board timestamp l order)).boards.lookup
          (ids.draw e.nextBoardSeq) = some (childBoard ids e board timestamp l order) :=
        AList.lookup_insert _
      obtain ⟨b0, hb0⟩ := h.present
      have hne : ids.draw e.nextBoardSeq ≠ old := fun heq => by
        rw [heq, hb0] at hunused
        cases hunused
      have hkept : ∀ {i b}, e.boards.lookup i = some b →
          (e.withBoard (childBoard ids e board timestamp l order)).boards.lookup i = some b := by
        intro i b hb
        refine (lookup_insert_ne fun heq => ?_).trans hb
        rw [heq] at hb
        exact absurd (hb.symm.trans hunused) (some_ne_none b)
      have hindex : ∀ v, ((e.withBoard (childBoard ids e board timestamp l order)).memberBoards.lookup
          v).isSome = (e.memberBoards.lookup v).isSome := by
        intro v
        rw [withBoard, lookup_foldl_insert]
        split
        · rename_i hv
          rw [h.seated.mpr (by rw [if_pos rfl]; exact hpart v hv)]
          rfl
        · rfl
      unfold Call.Does at hrest
      rw [run_map]
      cases hrun : (splitInto ids board timestamp children).run
          (e.withBoard (childBoard ids e board timestamp l order)) with
      | error stop e' =>
        rw [hrun] at hrest
        exact hrest
      | ok more e' =>
        rw [hrun] at hrest
        obtain ⟨hcount, hs, hframe⟩ := hrest
        have hset : SameSetup e (e.withBoard (childBoard ids e board timestamp l order)) :=
          ⟨rfl, rfl, rfl, rfl, rfl⟩
        refine ⟨by simp [hcount], ⟨hs.halfway, hset.trans hs.setup, hs.displaced,
          fun v => (hs.index v).trans (hindex v), Nat.le_trans (Nat.le_succ _) hs.next,
          fun hb => hs.kept (hkept hb), fun i hi => ?_⟩, fun i => ?_⟩
        · rcases mem_cons.mp hi with rfl | hi
          · refine ⟨hne, _, hs.kept hnewboard, ?_⟩
            rw [hmembers, hs.setup.total]
            show _ ≤ e.totalPositions
            omega
          · exact hs.short i hi
        · have hi := hframe i
          by_cases hdrawn : i = ids.draw e.nextBoardSeq
          · rw [if_pos (mem_cons.mpr (.inl hdrawn))]
            exact ⟨_, Nat.le_refl _, h.in_range, hdrawn⟩
          · have hsame : (e.withBoard (childBoard ids e board timestamp l order)).boards.lookup i =
                e.boards.lookup i := lookup_insert_ne hdrawn
            by_cases hmore : i ∈ more
            · rw [if_pos hmore] at hi
              obtain ⟨n, hn, hlim, hi⟩ := hi
              rw [if_pos (mem_cons_of_mem _ hmore)]
              exact ⟨n, Nat.le_of_succ_le hn, hlim, hi⟩
            · rw [if_neg hmore, hsame] at hi
              rw [if_neg fun hx => (mem_cons.mp hx).elim hdrawn hmore]
              exact hi
    · rw [if_neg hlimit]
      exact ⟨rfl, Nat.not_lt.mp hlimit⟩

end BoardPlanEngine

end MlmForge.BoardPlan
