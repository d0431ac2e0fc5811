/-
  Subject:   When a board plan engine is sound, and that this is what a restore checks.

  * **`validateRestored_iff`** -- a restore accepts exactly the sound engines with a counter in range.
-/
import MlmForge.Basis.Maps
import MlmForge.BoardPlan.Engine

namespace MlmForge.BoardPlan

open Engine List Maps AList Query

/-! ## 1. Boards -/

/-- A board under its own id, filled from the front, without repeats, with a `seq` that was given. -/
structure Board.Proper (total next : Nat) (id : Uuid) (b : Board) : Prop where
  keyed : b.id = id
  row : b.positions = packed total b.members
  fits : b.members.length ≤ total
  nodup : b.members.Nodup
  seq_lt : b.seq < next

namespace Board

variable {total next : Nat} {id : Uuid} {b : Board}

theorem Proper.mono (h : b.Proper total next id) {next' : Nat} (hle : next ≤ next') :
    b.Proper total next' id :=
  ⟨h.keyed, h.row, h.fits, h.nodup, Nat.lt_of_lt_of_le h.seq_lt hle⟩

theorem Proper.firstOpenPosition (h : b.Proper total next id) :
    b.firstOpenPosition = if b.members.length < total then some b.members.length else none := by
  rw [Board.firstOpenPosition, h.row, firstEmpty_packed h.fits]

/-- The position of the top holds the first member. -/
theorem Proper.top (hp : b.Proper total next id) {u : Uuid}
    (hu : b.members[0]? = some u) : b.positions[0]? = some (some u) := by
  have hlt := (List.getElem?_eq_some_iff.mp hu).1
  rw [hp.row, packed, getElem?_append_left (by rwa [length_map]), getElem?_map, hu]
  rfl

theorem Proper.opens (h : b.Proper total next id) (hlt : b.members.length < total) :
    b.firstOpenPosition = some b.members.length := by
  rw [h.firstOpenPosition, if_pos hlt]

theorem Proper.lt_of_opens (h : b.Proper total next id) (ho : b.firstOpenPosition.isSome = true) :
    b.members.length < total := by
  by_contra hlt
  rw [h.firstOpenPosition, if_neg hlt] at ho
  cases ho

theorem isFull_eq_true : b.isFull = true ↔ firstEmpty b.positions = none := by
  rw [isFull, all_eq_true, firstEmpty, findIdx?_eq_none_iff]
  simp only [Option.isNone_eq_false_iff]

theorem Proper.isFull (h : b.Proper total next id) : b.isFull = true ↔ b.members.length = total := by
  have hfits := h.fits
  have hfirst := h.firstOpenPosition
  rw [isFull_eq_true, ← Board.firstOpenPosition, hfirst]
  split
  · exact iff_of_false (Option.some_ne_none _) (by omega)
  · exact iff_of_true rfl (by omega)

theorem Proper.length (h : b.Proper total next id) : b.positions.length = total := by
  rw [h.row, length_packed h.fits]

/-- The same board with one more member. -/
theorem Proper.seat (h : b.Proper total next id) (hlt : b.members.length < total) {u : Uuid}
    (hu : u ∉ b.members) (timestamp : Int) :
    let b' : Board := { b with
        positions := b.positions.set b.members.length (some u)
        lastActivityAt := timestamp }
    b'.members = b.members ++ [u] ∧ b'.Proper total next id := by
  intro b'
  have hrow : b'.positions = packed total (b.members ++ [u]) := by
    show b.positions.set b.members.length (some u) = _
    conv_lhs => rw [h.row]
    exact set_packed hlt u
  have hmem : b'.members = b.members ++ [u] := by
    rw [members, hrow, reduceOption_packed]
  refine ⟨hmem, h.keyed, hmem ▸ hrow, ?_, ?_, h.seq_lt⟩
  · rw [hmem, length_append, length_singleton]
    exact hlt
  · rw [hmem, nodup_append]
    refine ⟨h.nodup, nodup_singleton u, fun a ha c hc hac => hu ?_⟩
    rw [mem_singleton] at hc
    exact hc ▸ hac ▸ ha

end Board

/-! ## 2. Sound engines -/

namespace BoardPlanEngine

variable {e e' : BoardPlanEngine} {u v id : Uuid} {b b' : Board}

/-- A user sits on a board. -/
def On (e : BoardPlanEngine) (u id : Uuid) : Prop := ∃ b, e.boards.lookup id = some b ∧ u ∈ b.members

/-- A user is seated or waits for a seat. -/
def Enrolled (e : BoardPlanEngine) (u : Uuid) : Prop :=
  (e.memberBoards.lookup u).isSome = true ∨ u ∈ e.displacedMembers

def HasOpening (e : BoardPlanEngine) : Prop :=
  ∃ id b, e.boards.lookup id = some b ∧ b.members.length < e.totalPositions

/-- Dimensions in range, and proper boards with a `seq` of their own each. -/
structure Shaped (e : BoardPlanEngine) : Prop where
  width : 2 ≤ e.width ∧ e.width ≤ 5
  height : 1 ≤ e.height ∧ e.height ≤ 4
  total : e.totalPositions = BoardPlan.totalPositions e.width e.height
  proper : ∀ {id b}, e.boards.lookup id = some b → b.Proper e.totalPositions e.nextBoardSeq id
  seq_inj : ∀ {i j b c}, e.boards.lookup i = some b → e.boards.lookup j = some c → b.seq = c.seq → i = j

/-- The index says exactly who sits where, and who waits does so once and has no seat. -/
structure Sound (e : BoardPlanEngine) : Prop extends Shaped e where
  seated : ∀ {u id}, e.memberBoards.lookup u = some id ↔ e.On u id
  waiting : e.displacedMembers.Nodup
  apart : ∀ u ∈ e.displacedMembers, e.memberBoards.lookup u = none

/-- What cycling leaves as it is. -/
structure SameSetup (e e' : BoardPlanEngine) : Prop where
  width : e'.width = e.width
  height : e'.height = e.height
  total : e'.totalPositions = e.totalPositions
  config : e'.config = e.config
  sponsorMap : e'.sponsorMap = e.sponsorMap

theorem SameSetup.refl (e : BoardPlanEngine) : SameSetup e e := ⟨rfl, rfl, rfl, rfl, rfl⟩

theorem SameSetup.trans {e'' : BoardPlanEngine} (h : SameSetup e e') (h' : SameSetup e' e'') :
    SameSetup e e'' :=
  ⟨h'.width.trans h.width, h'.height.trans h.height, h'.total.trans h.total, h'.config.trans h.config,
    h'.sponsorMap.trans h.sponsorMap⟩

theorem on_of_lookup (hb : e.boards.lookup id = some b) : e.On u id ↔ u ∈ b.members := by
  constructor
  · intro h
    obtain ⟨c, hc, hu⟩ := h
    cases hb.symm.trans hc
    exact hu
  · exact fun hu => ⟨b, hb, hu⟩

theorem Sound.lookup_member (h : e.Sound) (hb : e.boards.lookup id = some b) (hu : u ∈ b.members) :
    e.memberBoards.lookup u = some id := h.seated.mpr ((on_of_lookup hb).mpr hu)

theorem Sound.enrolled (h : e.Sound) (hb : e.boards.lookup id = some b) (hu : u ∈ b.members) : e.Enrolled u :=
  .inl (by rw [h.lookup_member hb hu]; rfl)

theorem Sound.not_waiting (h : e.Sound) (hb : e.boards.lookup id = some b) (hu : u ∈ b.members) :
    u ∉ e.displacedMembers := fun hx => by cases (h.apart u hx).symm.trans (h.lookup_member hb hu)

/-- Boards that stay, or are proper with a `seq` that no other has, keep the shape. -/
theorem Shaped.change (h : e.Shaped) (hw : e'.width = e.width) (hh : e'.height = e.height)
    (ht : e'.totalPositions = e.totalPositions) (hnext : e.nextBoardSeq ≤ e'.nextBoardSeq)
    (hboards : ∀ i b, e'.boards.lookup i = some b → e.boards.lookup i = some b ∨
      (b.Proper e.totalPositions e'.nextBoardSeq i ∧
        ∀ j c, e'.boards.lookup j = some c → c.seq = b.seq → j = i)) : e'.Shaped where
  width := hw ▸ h.width
  height := hh ▸ h.height
  total := by rw [ht, hw, hh, h.total]
  proper {i b} hb := by
    rw [ht]
    rcases hboards i b hb with hold | ⟨hp, -⟩
    · exact (h.proper hold).mono hnext
    · exact hp
  seq_inj {i j b c} hb hc hseq := by
    rcases hboards i b hb with hb' | ⟨-, hfresh⟩
    · rcases hboards j c hc with hc' | ⟨-, hfresh⟩
      · exact h.seq_inj hb' hc' hseq
      · exact hfresh i b hb hseq
    · exact (hfresh j c hc hseq.symm).symm

theorem Shaped.width_lt (h : e.Shaped) : e.width < e.totalPositions := by
  rw [h.total]
  exact width_lt_totalPositions h.height.1

/-- **One board rewritten.** The index follows the board, whoever is on it now was on it or nowhere, and
    the waiting list stays apart. -/
theorem Sound.rewrite (h : e.Sound) (hw : e'.width = e.width) (hh : e'.height = e.height)
    (ht : e'.totalPositions = e.totalPositions) (hnext : e'.nextBoardSeq = e.nextBoardSeq)
    (hb : e.boards.lookup id = some b) (hproper : b'.Proper e.totalPositions e.nextBoardSeq id)
    (hseq : b'.seq = b.seq)
    (hboards : ∀ i, e'.boards.lookup i = if i = id then some b' else e.boards.lookup i)
    (hindex : ∀ v, e'.memberBoards.lookup v = if v ∈ b'.members then some id
      else if v ∈ b.members then none else e.memberBoards.lookup v)
    (hnew : ∀ v ∈ b'.members, v ∈ b.members ∨ e.memberBoards.lookup v = none)
    (hwaiting : e'.displacedMembers.Nodup)
    (hapart : ∀ v ∈ e'.displacedMembers, e'.memberBoards.lookup v = none) : e'.Sound where
  toShaped := by
    refine h.toShaped.change hw hh ht (Nat.le_of_eq hnext.symm) fun i c hc => ?_
    rw [hboards] at hc
    split at hc
    · rename_i hi
      subst hi
      cases hc
      refine .inr ⟨hnext ▸ hproper, fun j d hd hs => ?_⟩
      rw [hboards] at hd
      split at hd
      · assumption
      · exact h.seq_inj hd hb (hs.trans hseq)
    · exact .inl hc
  seated {v j} := by
    have hon : e'.On v j ↔ if j = id then v ∈ b'.members else e.On v j := by
      unfold On
      rw [hboards]
      split
      · simp
      · rfl
    rw [hindex, hon]
    by_cases hv : v ∈ b'.members
    · rw [if_pos hv, Option.some.injEq]
      by_cases hj : j = id
      · rw [if_pos hj]
        exact iff_of_true hj.symm hv
      · rw [if_neg hj]
        refine iff_of_false (fun hx => hj hx.symm) fun hx => ?_
        have hlook := h.seated.mpr hx
        rcases hnew v hv with hold | hnone
        · rw [h.lookup_member hb hold] at hlook
          exact hj (Option.some.inj hlook).symm
        · rw [hnone] at hlook
          cases hlook
    · rw [if_neg hv]
      by_cases hj : j = id
      · rw [if_pos hj]
        refine iff_of_false (fun hx => ?_) hv
        split at hx
        · cases hx
        · rename_i hold
          exact hold ((on_of_lookup hb).mp (hj ▸ h.seated.mp hx))
      · rw [if_neg hj, ← h.seated]
        split
        · rename_i hold
          rw [h.lookup_member hb hold, Option.some.injEq]
          exact iff_of_false (fun hx => by cases hx) fun hx => hj hx.symm
        · rfl
  waiting := hwaiting
  apart := hapart

/-! ## 3. What a restore checks -/

theorem mem_seats {x : Sigma fun _ : Uuid => Uuid} : x ∈ e.seats ↔ e.On x.1 x.2 := by
  unfold seats On
  rw [mem_flatMap]
  constructor
  · intro h
    obtain ⟨entry, hentry, hx⟩ := h
    obtain ⟨u, hu, rfl⟩ := mem_map.mp hx
    exact ⟨entry.2, lookup_of_mem _ hentry, hu⟩
  · intro h
    obtain ⟨b, hb, hu⟩ := h
    exact ⟨⟨x.2, b⟩, mem_lookup_iff.mp hb, mem_map.mpr ⟨x.1, hu, rfl⟩⟩

theorem duplicateSeat_eq_none : ∀ {l : List (Sigma fun _ : Uuid => Uuid)} {seen : List Uuid}
    {held : Option (Uuid × Uuid)}, duplicateSeat seen held l = none ↔
      held = none ∧ (l.map Sigma.fst).Nodup ∧ ∀ x ∈ l, x.1 ∉ seen := by
  intro l
  induction l with
  | nil => intro seen held; simp [duplicateSeat]
  | cons x l ih =>
    intro seen held
    obtain ⟨u, boardId⟩ := x
    rw [duplicateSeat, ih, map_cons, nodup_cons, forall_mem_cons]
    by_cases hu : u ∈ seen
    · rw [if_pos (contains_iff_mem.mpr hu)]
      exact iff_of_false (fun h => keepLowest_ne_none _ _ _ h.1) fun h => h.2.2.1 hu
    · rw [if_neg (fun h => hu (contains_iff_mem.mp h))]
      constructor
      · intro h
        obtain ⟨h0, hnd, hseen⟩ := h
        refine ⟨h0, ⟨fun hmem => ?_, hnd⟩, hu, fun y hy => ?_⟩
        · obtain ⟨y, hy, hyu⟩ := mem_map.mp hmem
          exact hseen y hy (hyu ▸ mem_cons_self)
        · exact fun hx => hseen y hy (mem_cons_of_mem _ hx)
      · intro h
        obtain ⟨h0, ⟨hmem, hnd⟩, -, hseen⟩ := h
        refine ⟨h0, hnd, fun y hy => ?_⟩
        rw [mem_cons, not_or]
        exact ⟨fun hyu => hmem (mem_map.mpr ⟨y, hy, hyu⟩), hseen y hy⟩

theorem checkDuplicates_eq_ok : e.checkDuplicates = .ok () ↔ (e.seats.map Sigma.fst).Nodup := by
  unfold checkDuplicates
  constructor
  · intro h
    split at h
    · rename_i hnone
      exact (duplicateSeat_eq_none.mp hnone).2.1
    · split at h <;> cases h
  · intro h
    rw [duplicateSeat_eq_none.mpr ⟨rfl, h, fun _ _ => not_mem_nil⟩]

theorem nodup_seats : (e.seats.map Sigma.fst).Nodup ↔
    (∀ {id b}, e.boards.lookup id = some b → b.members.Nodup) ∧ ∀ {u i j}, e.On u i → e.On u j → i = j := by
  have hmap : e.seats.map Sigma.fst = e.boards.entries.flatMap fun entry => entry.2.members := by
    unfold seats
    rw [map_flatMap]
    congr 1
    funext entry
    rw [map_map]
    exact map_id _
  have hkeys : e.boards.entries.Pairwise fun x y => x.1 ≠ y.1 := nodupKeys_iff_pairwise.mp e.boards.nodupKeys
  rw [hmap, nodup_flatMap]
  constructor
  · intro h
    obtain ⟨hnd, hdis⟩ := h
    refine ⟨fun {id b} hb => hnd ⟨id, b⟩ (mem_lookup_iff.mp hb), fun {u i j} hi hj => ?_⟩
    obtain ⟨b, hb, hub⟩ := hi
    obtain ⟨c, hc, huc⟩ := hj
    by_contra hne
    have hx : (⟨i, b⟩ : Sigma fun _ : Uuid => Board) ≠ ⟨j, c⟩ := fun heq => hne (congrArg Sigma.fst heq)
    have hsymm : Std.Symm (Function.onFun List.Disjoint fun entry : (Sigma fun _ : Uuid => Board) =>
      entry.2.members) := ⟨fun _ _ h => h.symm⟩
    exact hdis.forall (mem_lookup_iff.mp hb) (mem_lookup_iff.mp hc) hx hub huc
  · intro h
    obtain ⟨hnd, hone⟩ := h
    refine ⟨fun entry hentry => hnd (lookup_of_mem _ hentry), ?_⟩
    refine hkeys.imp_of_mem fun {x y} hx hy hne => ?_
    intro u hux huy
    exact hne (hone ⟨x.2, lookup_of_mem _ hx, hux⟩ ⟨y.2, lookup_of_mem _ hy, huy⟩)

theorem forall_boards (p : Uuid → Board → Prop) :
    (∀ x ∈ e.boards.entries, p x.1 x.2) ↔ ∀ {id b}, e.boards.lookup id = some b → p id b := by
  constructor
  · exact fun h {id b} hb => h ⟨id, b⟩ (mem_lookup_iff.mp hb)
  · exact fun h x hx => h (lookup_of_mem _ hx)

theorem mem_holders {seq : Nat} {i : Uuid} :
    i ∈ e.holders seq ↔ ∃ b, e.boards.lookup i = some b ∧ b.seq = seq := by
  rw [holders, mem_insertionSort, mem_map]
  constructor
  · intro h
    obtain ⟨entry, hentry, rfl⟩ := h
    rw [mem_filter] at hentry
    exact ⟨entry.2, lookup_of_mem _ hentry.1, eq_of_beq hentry.2⟩
  · intro h
    obtain ⟨b, hb, hs⟩ := h
    exact ⟨⟨i, b⟩, mem_filter.mpr ⟨mem_lookup_iff.mp hb, beq_iff_eq.mpr hs⟩, rfl⟩

theorem nodup_holders (seq : Nat) : (e.holders seq).Nodup := by
  rw [holders, (perm_insertionSort _ _).nodup_iff]
  exact List.Nodup.sublist (filter_sublist.map Sigma.fst) e.boards.nodupKeys

theorem checkSeqs_eq_ok : e.checkSeqs = .ok () ↔
    ∀ {i j b c}, e.boards.lookup i = some b → e.boards.lookup j = some c → b.seq = c.seq → i = j := by
  unfold checkSeqs
  constructor
  · intro h i j b c hb hc hs
    split at h
    · rename_i hnone
      have hle := find?_eq_none.mp hnone c.seq (by
        rw [mem_insertionSort, mem_map]
        exact ⟨c, mem_map.mpr ⟨⟨j, c⟩, mem_lookup_iff.mp hc, rfl⟩, rfl⟩)
      rw [decide_eq_true_iff, Nat.not_lt] at hle
      exact (length_le_one (nodup_holders c.seq)).mp hle i (mem_holders.mpr ⟨b, hb, hs⟩) j
        (mem_holders.mpr ⟨c, hc, rfl⟩)
    · split at h <;> cases h
  · intro h
    have hnone : ((e.values.map Board.seq).insertionSort (· ≤ ·)).find?
        (fun seq => 1 < (e.holders seq).length) = none := by
      rw [find?_eq_none]
      intro seq _
      rw [decide_eq_true_iff, Nat.not_lt, length_le_one (nodup_holders seq)]
      intro i hi j hj
      obtain ⟨b, hb, hbs⟩ := mem_holders.mp hi
      obtain ⟨c, hc, hcs⟩ := mem_holders.mp hj
      exact h hb hc (hbs.trans hcs.symm)
    rw [hnone]

theorem indexFault_eq_none : e.indexFault u id = none ↔ e.On u id := by
  unfold indexFault On
  cases e.boards.lookup id with
  | none => simp
  | some b => simp

theorem displacedFault_eq_ok : e.displacedFault u = .ok () ↔ e.memberBoards.lookup u = none := by
  unfold displacedFault
  cases e.memberBoards.lookup u <;> simp

/-- **A restore accepts exactly the sound engines whose counter is in range.** -/
theorem validateRestored_iff :
    e.validateRestored = .ok () ↔ e.Sound ∧ e.nextBoardSeq ≤ maxRestoredBoardSeq := by
  simp only [validateRestored, seq_eq_ok, stopIf_eq_ok, lowestFault_eq_ok, true_and,
    checkDuplicates_eq_ok, nodup_seats, checkSeqs_eq_ok, forDistinct_eq_ok, Except.ok.injEq,
    not_or, not_not, Nat.not_lt, indexFault_eq_none, displacedFault_eq_ok]
  rw [forall_boards fun key b => keyFault key b = none, forall_boards fun id b => e.sizeFault id b = none,
    forall_boards fun id b => gapFault id b = none, forall_boards fun id b => e.seqFault id b = none]
  constructor
  · intro h
    obtain ⟨⟨hw, hh⟩, ht, hkey, hsize, ⟨hnd, -⟩, hindex, hseats, ⟨hapart, hwaiting, -⟩, hgap, hnext, hseq,
      hinj⟩ := h
    refine ⟨⟨⟨hw, hh, ht, fun {id b} hb => ?_, hinj⟩, fun {u id} => ⟨fun hu => ?_, fun hon => ?_⟩,
      hwaiting, hapart⟩, hnext⟩
    · have hlen : b.positions.length = e.totalPositions := by
        by_contra hne
        have := hsize hb
        rw [sizeFault, if_neg hne] at this
        cases this
      have hrow := eq_packed_iff.mp (Option.map_eq_none_iff.mp (hgap hb))
      rw [hlen] at hrow
      refine ⟨?_, hrow, hlen ▸ reduceOption_length_le _, hnd hb, ?_⟩
      · by_contra hne
        have := hkey hb
        rw [keyFault, if_neg (Ne.symm hne)] at this
        cases this
      · by_contra hge
        have := hseq hb
        rw [seqFault, if_neg hge] at this
        cases this
    · exact hindex ⟨u, id⟩ (mem_lookup_iff.mp hu)
    · by_contra hne
      have := hseats ⟨u, id⟩ (mem_seats.mpr hon)
      rw [seatFault, if_neg hne] at this
      cases this
  · intro h
    obtain ⟨h, hnext⟩ := h
    refine ⟨⟨h.width, h.height⟩, h.total, fun {id b} hb => if_pos (h.proper hb).keyed.symm,
      fun {id b} hb => if_pos (h.proper hb).length, ⟨fun {id b} hb => (h.proper hb).nodup, ?_⟩,
      fun x hx => h.seated.mp (lookup_of_mem _ hx), fun x hx => ?_,
      ⟨h.apart, h.waiting, fun _ _ => not_mem_nil⟩, fun {id b} hb => ?_, hnext,
      fun {id b} hb => if_pos (h.proper hb).seq_lt, h.seq_inj⟩
    · intro u i j hi hj
      exact Option.some.inj ((h.seated.mpr hi).symm.trans (h.seated.mpr hj))
    · exact if_pos (h.seated.mpr (mem_seats.mp hx))
    · have hrow := (h.proper hb).row
      rw [gapFault, Option.map_eq_none_iff, eq_packed_iff, (h.proper hb).length]
      exact hrow

end BoardPlanEngine

end MlmForge.BoardPlan
