/-
  Subject:   Cycling keeps the engine ready, everybody enrolled, and an opening somewhere.

  * **`Turn`**, `cycleOnce_turn` -- what one cycle of a full board does before any other board cycles;
  * **`cycleOnce_does`** -- one cycle keeps it, whatever boards that are full then do keeps it, and a board
    that did cycle leaves an opening;
  * **`drainFullBoards_does`** -- after a drain there is an opening, if there is a board at all.
-/
import MlmForge.BoardPlan.Split

namespace MlmForge.BoardPlan

open Engine Call List AList

namespace BoardPlanEngine

variable {ids : BoardIds} {e e' : BoardPlanEngine} {u v id : Uuid} {b : Board} {timestamp : Int}

/-! ## 1. What cycling keeps -/

/-- The engine is ready, has the same users, and has an opening if it had one. -/
structure Keeps (ids : BoardIds) (e e' : BoardPlanEngine) : Prop where
  ready : Ready ids e'
  enrolled : ∀ v, e'.Enrolled v ↔ e.Enrolled v
  setup : SameSetup e e'
  next : e.nextBoardSeq ≤ e'.nextBoardSeq
  opening : e.HasOpening → e'.HasOpening

theorem Keeps.refl (h : Ready ids e) : Keeps ids e e :=
  ⟨h, fun _ => Iff.rfl, SameSetup.refl e, Nat.le_refl _, fun ho => ho⟩

variable {e'' : BoardPlanEngine}

theorem Keeps.trans (h : Keeps ids e e') (h' : Keeps ids e' e'') : Keeps ids e e'' :=
  ⟨h'.ready, fun v => (h'.enrolled v).trans (h.enrolled v), h.setup.trans h'.setup,
    Nat.le_trans h.next h'.next, fun ho => h'.opening (h.opening ho)⟩

/-- A call that keeps the engine, or stops because the counter is exhausted. -/
abbrev Cycling (ids : BoardIds) (m : Action (List CycleEvent)) (e : BoardPlanEngine) : Prop :=
  Call.Does m e (fun _ e' => Keeps ids e e') Exhausted

/-- The board has an open position. -/
def Opens (e : BoardPlanEngine) (id : Uuid) : Prop :=
  ∃ b, e.boards.lookup id = some b ∧ b.members.length < e.totalPositions

/-! ## 2. Finding an opening -/

theorem Shaped.mem_openings (h : e.Shaped) : b ∈ e.values.filter (fun b => b.firstOpenPosition.isSome) ↔
      e.boards.lookup b.id = some b ∧ b.members.length < e.totalPositions := by
  rw [mem_filter, values, mem_map]
  constructor
  · intro hb
    obtain ⟨⟨entry, hentry, rfl⟩, hopen⟩ := hb
    have hlook := Maps.lookup_of_mem _ hentry
    have hp := h.proper hlook
    rw [hp.keyed]
    exact ⟨hlook, hp.lt_of_opens hopen⟩
  · intro hb
    obtain ⟨hlook, hlt⟩ := hb
    refine ⟨⟨⟨b.id, b⟩, mem_lookup_iff.mp hlook, rfl⟩, ?_⟩
    rw [(h.proper hlook).opens hlt]
    rfl

theorem Shaped.oldest_opens (h : e.Shaped) (hf : e.oldestBoardWithOpening = .ok id) : e.Opens id := by
  unfold oldestBoardWithOpening at hf
  split at hf
  · rename_i c hc
    cases hf
    obtain ⟨hlook, hlt⟩ := h.mem_openings.mp (foremost_mem hc)
    exact ⟨c, hlook, hlt⟩
  · cases hf

theorem Shaped.exists_oldest (h : e.Shaped) (ho : e.HasOpening) :
    ∃ id, e.oldestBoardWithOpening = .ok id := by
  obtain ⟨id, b, hb, hlt⟩ := ho
  unfold oldestBoardWithOpening
  cases hf : foremost older (e.values.filter fun b => b.firstOpenPosition.isSome) with
  | some c => exact ⟨c.id, rfl⟩
  | none =>
    have hmem : b ∈ e.values.filter fun b => b.firstOpenPosition.isSome :=
      h.mem_openings.mpr ⟨(h.proper hb).keyed.symm ▸ hb, hlt⟩
    rw [foremost_eq_none.mp hf] at hmem
    exact absurd hmem not_mem_nil

theorem Shaped.sponsorOpening_opens (h : e.Shaped) (hf : e.sponsorOpening u = some id) : e.Opens id := by
  obtain ⟨boardId, -, hf⟩ := Option.bind_eq_some_iff.mp hf
  obtain ⟨c, hc, hf⟩ := Option.bind_eq_some_iff.mp hf
  split at hf
  · rename_i hopen
    cases hf
    exact ⟨c, hc, (h.proper hc).lt_of_opens hopen⟩
  · cases hf

theorem Shaped.placement_opens (h : e.Shaped) (hf : e.findPlacementBoard u = .ok id) : e.Opens id := by
  unfold findPlacementBoard at hf
  split at hf
  · exact h.oldest_opens hf
  · split at hf
    · rename_i hs
      cases hf
      exact h.sponsorOpening_opens hs
    · exact h.oldest_opens hf

/-- **With an opening somewhere, a placement finds one.** -/
theorem Shaped.exists_placement (h : e.Shaped) (ho : e.HasOpening) (u : Uuid) :
    ∃ id, e.findPlacementBoard u = .ok id := by
  unfold findPlacementBoard
  split
  · exact h.exists_oldest ho
  · split
    · exact ⟨_, rfl⟩
    · exact h.exists_oldest ho

theorem Ready.trySeat_run (h : Ready ids e) (ho : e.Opens id) (hu : ¬ e.Enrolled u) (timestamp : Int) :
    ∃ e', (trySeat u id timestamp).run e = .ok true e' ∧ Admits ids u e e' := by
  obtain ⟨b, hb, hlt⟩ := ho
  refine ⟨_, ?_, h.seat hb hlt hu timestamp⟩
  simp only [trySeat, run_bind, run_get, hb, (h.proper hb).opens hlt, run_modify, run_pure]

/-- **A member who cycled out is seated again**, at the first opening of a board, or waits: because the
    plan has no re-entry, or because there is no opening. -/
theorem Ready.reEnter_cases (h : Ready ids e) (u : Uuid) (timestamp : Int) :
    (e.config.reEntryEnabled = true ∧ ∃ target b, e.boards.lookup target = some b ∧
        b.members.length < e.totalPositions ∧ (reEnter u timestamp).run e =
          .ok (some target) (e.seat b target u b.members.length timestamp)) ∨
      ((e.config.reEntryEnabled = true → ¬ e.HasOpening) ∧ (reEnter u timestamp).run e =
        .ok none { e with displacedMembers := e.displacedMembers ++ [u] }) := by
  unfold reEnter
  simp only [run_bind, run_get]
  split
  · rename_i henabled
    cases hf : e.findPlacementBoard ((e.sponsorMap.lookup u).getD u) with
    | error stop =>
      refine .inr ⟨fun _ ho => ?_, rfl⟩
      obtain ⟨target, htarget⟩ := h.toShaped.exists_placement ho ((e.sponsorMap.lookup u).getD u)
      cases hf.symm.trans htarget
    | ok target =>
      obtain ⟨b, hb, hlt⟩ := h.toShaped.placement_opens hf
      refine .inl ⟨henabled, target, b, hb, hlt, ?_⟩
      simp only [trySeat, run_bind, run_get, hb, (h.proper hb).opens hlt, run_modify, run_pure, if_true]
  · rename_i hdisabled
    exact .inr ⟨fun henabled => absurd henabled hdisabled, rfl⟩

/-! ## 3. One cycle -/

theorem ifFull_does {cycle : Uuid → Action (List CycleEvent)}
    (hc : ∀ id e, Ready ids e → Cycling ids (cycle id) e) (h : Ready ids e) (id : Uuid) :
    Cycling ids (ifFull cycle id) e := by
  refine does_get ?_
  split
  · exact hc id e h
  · exact does_pure (Keeps.refl h)

variable {cascade : Uuid → Action (List CycleEvent)}

theorem cascadeAll_does (hc : ∀ id e, Ready ids e → Cycling ids (cascade id) e) :
    ∀ (l : List Uuid) {e : BoardPlanEngine}, Ready ids e → Cycling ids (cascadeAll cascade l) e := by
  intro l
  induction l with
  | nil => exact fun h => does_pure (Keeps.refl h)
  | cons id rest ih =>
    intro e h
    refine (ifFull_does hc h id).bind fun _ e1 h1 => (ih h1.ready).bind fun _ e2 h2 => ?_
    exact does_pure (h1.trans h2)

variable {top : Uuid} {new : List Uuid}

theorem SplitOff.enrolled {old : Uuid} {left : Uuid → Prop}
    (hs : SplitOff ids old left e new e') (htop : top ∉ e.displacedMembers) (v : Uuid) :
    Enrolled { e' with boards := e'.boards.erase old, memberBoards := e'.memberBoards.erase top } v ↔
      e.Enrolled v ∧ v ≠ top := by
  show ((e'.memberBoards.erase top).lookup v).isSome = true ∨ v ∈ e'.displacedMembers ↔ _
  rw [Maps.lookup_erase, hs.displaced, Enrolled, ← hs.index v]
  by_cases hv : v = top
  · subst hv
    simp [htop]
  · simp [hv]

/-- **One turn of a full board**, up to the boards that are full then: its top member leaves, the board is
    gone, the new boards are at least two seats short, and no other board changes but the one on which the
    member re-enters. -/
structure Turn (ids : BoardIds) (e : BoardPlanEngine) (event : CycleEvent) (e' : BoardPlanEngine) :
    Prop where
  keeps : Keeps ids e e'
  opening : e'.HasOpening
  top : ∃ b, e.boards.lookup event.boardId = some b ∧ b.isFull = true ∧
    b.members[0]? = some event.cycledMember
  gone : e'.boards.lookup event.boardId = none
  drawn : ∀ i ∈ event.newBoards, ∃ n, e.nextBoardSeq ≤ n ∧ n < seqLimit ∧ i = ids.draw n
  created : ∀ i ∈ event.newBoards,
    ∃ b, e'.boards.lookup i = some b ∧
      b.members.length + 2 ≤ e.totalPositions + if event.reEntryBoard = some i then 1 else 0
  others : ∀ i, i ∉ event.newBoards → i ≠ event.boardId → event.reEntryBoard ≠ some i →
    e'.boards.lookup i = e.boards.lookup i
  target : ∀ i, i ∉ event.newBoards → event.reEntryBoard = some i →
    ∃ b b', e.boards.lookup i = some b ∧ e'.boards.lookup i = some b' ∧
      b'.members = b.members ++ [event.cycledMember]
  reEntry : if e.config.reEntryEnabled then
      e'.displacedMembers = e.displacedMembers ∧ ∃ target, event.reEntryBoard = some target ∧
        e'.memberBoards.lookup event.cycledMember = some target
    else
      e'.displacedMembers = e.displacedMembers ++ [event.cycledMember] ∧ event.reEntryBoard = none

/-- An engine whose full board `id` was split and removed, and whose top member is nowhere yet. -/
structure Emptied (ids : BoardIds) (e : BoardPlanEngine) (id top : Uuid) (new : List Uuid)
    (e' : BoardPlanEngine) : Prop where
  ready : Ready ids e'
  enrolled : ∀ v, e'.Enrolled v ↔ e.Enrolled v ∧ v ≠ top
  setup : SameSetup e e'
  next : e.nextBoardSeq ≤ e'.nextBoardSeq
  displaced : e'.displacedMembers = e.displacedMembers
  gone : e'.boards.lookup id = none
  divided : new ≠ []
  drawn : ∀ i ∈ new, ∃ n, e.nextBoardSeq ≤ n ∧ n < seqLimit ∧ i = ids.draw n
  created : ∀ i ∈ new, ∃ b, e'.boards.lookup i = some b ∧ b.members.length + 2 ≤ e.totalPositions
  others : ∀ i, i ∉ new → i ≠ id → e'.boards.lookup i = e.boards.lookup i

/-- **A full board is split**, and with it and its top member removed the engine is ready again. -/
theorem Ready.splitBoard_does (h : Ready ids e) (hb : e.boards.lookup id = some b)
    (hfull : b.isFull = true) (htop : b.members[0]? = some top) : Call.Does (splitBoard ids b timestamp) e
      (fun new e1 => Emptied ids e id top new
        { e1 with boards := e1.boards.erase id, memberBoards := e1.memberBoards.erase top })
      Exhausted := by
  have hp := h.proper hb
  have hlen := hp.isFull.mp hfull
  have hwt := h.toShaped.width_lt
  have hw2 := h.width.1
  have hrow : b.positions = b.members.map some := by rw [hp.row, packed_full hlen]
  -- at the start everybody is still on the old board
  have hstart : Halfway ids e id (Left e.width b.members (range' 1 e.width)) := by
    refine ⟨h.toShaped, ⟨b, hb⟩, fun {v i} => ?_, h.waiting, h.apart, h.unused, h.in_range⟩
    rw [h.seated]
    by_cases hi : i = id
    · rw [if_pos hi, hi, on_of_lookup hb, left_all (by omega)]
    · rw [if_neg hi]
  have hrange : ∀ d ∈ range' 1 e.width, 1 ≤ d ∧ d ≤ e.width := fun d hd => by
    have := mem_range'_1.mp hd
    omega
  have hsplit := @splitInto_does ids id timestamp b.members b hrow hp.nodup (range' 1 e.width) e
    hstart hlen hrange nodup_range'
  refine does_get ?_
  rw [if_neg (by omega)]
  refine hsplit.imp fun new e1 hs => ?_
  obtain ⟨hcount, hs, hframe⟩ := hs
  have hready := hs.halfway.finish (t := top) fun v => by
    constructor
    · intro hx
      obtain ⟨i, hi, hcase⟩ := hx
      rcases hcase with rfl | ⟨c, hmem, -⟩
      · exact Option.some.inj (hi.symm.trans htop)
      · exact absurd hmem not_mem_nil
    · exact fun hx => ⟨0, hx ▸ htop, .inl rfl⟩
  have hset := hs.setup
  refine ⟨hready, hs.enrolled (h.not_waiting hb (mem_of_getElem? htop)), hset.trans ⟨rfl, rfl, rfl, rfl, rfl⟩,
    hs.next, hs.displaced, lookup_erase _ _, fun hnil => ?_, fun i hi => ?_, fun i hi => ?_,
    fun i hi hne => ?_⟩
  · rw [hnil, length_range'] at hcount
    exact absurd hcount (by simp; omega)
  · have hfresh := hframe i
    rw [if_pos hi] at hfresh
    exact hfresh
  · obtain ⟨hne, c, hlook, hshort⟩ := hs.short i hi
    exact ⟨c, (lookup_erase_ne hne).trans hlook, hset.total ▸ hshort⟩
  · have hkept := hframe i
    rw [if_neg hi] at hkept
    exact (lookup_erase_ne hne).trans hkept

/-- **The member who cycled out is put back**, which completes the turn. -/
theorem Emptied.turn {e1 : BoardPlanEngine} (he : Emptied ids e id top new e1)
    (hb : e.boards.lookup id = some b) (hfull : b.isFull = true) (htop : b.members[0]? = some top)
    (hon : e.Enrolled top) (timestamp : Int) :
    ∃ r e2, (reEnter top timestamp).run e1 = .ok r e2 ∧ Turn ids e ⟨id, top, new, r⟩ e2 := by
  have hout : ¬ e1.Enrolled top := fun hx => ((he.enrolled top).mp hx).2 rfl
  -- a new board is two seats short, and at most one seat is taken now
  have hopening : ∀ {e2}, Admits ids top e1 e2 → e2.HasOpening := by
    intro e2 hadm
    obtain ⟨i, hi⟩ := exists_mem_of_ne_nil new he.divided
    obtain ⟨c, hc, hshort⟩ := he.created i hi
    obtain ⟨c', hc', hle⟩ := hadm.room hc
    have htotal := hadm.setup.total.trans he.setup.total
    exact ⟨i, c', hc', by omega⟩
  have hkeeps : ∀ {e2}, Admits ids top e1 e2 → Keeps ids e e2 := by
    intro e2 hadm
    refine ⟨hadm.ready, fun v => ?_, he.setup.trans hadm.setup, hadm.next ▸ he.next, fun _ => hopening hadm⟩
    rw [hadm.enrolled, he.enrolled]
    by_cases hv : v = top
    · subst hv
      exact iff_of_true (.inl rfl) hon
    · simp [hv]
  have hconfig : e1.config = e.config := he.setup.config
  rcases he.ready.reEnter_cases top timestamp with ⟨henabled, target, c, hc, hlt, hrun⟩ | ⟨hwhy, hrun⟩
  · have hadm := he.ready.seat hc hlt hout timestamp
    have hoff : top ∉ c.members := fun hmem => hout (he.ready.enrolled hc hmem)
    have hmembers := ((he.ready.proper hc).seat hlt hoff timestamp).1
    have hboards : ∀ i, (e1.seat c target top c.members.length timestamp).boards.lookup i =
        if i = target then some { c with
          positions := c.positions.set c.members.length (some top)
          lastActivityAt := timestamp } else e1.boards.lookup i := Maps.lookup_insert _ _ _
    have hne : id ≠ target := fun heq => by
      rw [← heq, he.gone] at hc
      cases hc
    refine ⟨some target, _, hrun, hkeeps hadm, hopening hadm, ⟨b, hb, hfull, htop⟩, ?_, he.drawn,
      fun i hi => ?_, fun i hi hid htarget => ?_, fun i hi htarget => ?_, ?_⟩
    · rw [hboards, if_neg hne]
      exact he.gone
    · obtain ⟨d, hd, hshort⟩ := he.created i hi
      by_cases heq : i = target
      · subst heq
        cases hd.symm.trans hc
        refine ⟨_, by rw [hboards, if_pos rfl], ?_⟩
        rw [hmembers, length_append, length_singleton, if_pos rfl]
        omega
      · exact ⟨d, by rw [hboards, if_neg heq]; exact hd, Nat.le_add_right_of_le hshort⟩
    · rw [hboards, if_neg fun heq => htarget (congrArg some heq.symm)]
      exact he.others i hi hid
    · cases htarget
      have hsame := he.others target hi hne.symm
      exact ⟨c, _, hsame ▸ hc, by rw [hboards, if_pos rfl], hmembers⟩
    · rw [if_pos (hconfig ▸ henabled)]
      exact ⟨he.displaced, target, rfl, lookup_insert _⟩
  · have hadm := he.ready.displaced hout
    have hdisabled : ¬ e.config.reEntryEnabled = true := fun henabled => by
      obtain ⟨i, hi⟩ := exists_mem_of_ne_nil new he.divided
      obtain ⟨c, hc, hshort⟩ := he.created i hi
      have htotal := he.setup.total
      exact hwhy (hconfig ▸ henabled) ⟨i, c, hc, by omega⟩
    refine ⟨none, _, hrun, hkeeps hadm, hopening hadm, ⟨b, hb, hfull, htop⟩, he.gone, he.drawn,
      fun i hi => ?_, fun i hi hid _ => he.others i hi hid, fun i _ htarget => ?_, ?_⟩
    · obtain ⟨d, hd, hshort⟩ := he.created i hi
      exact ⟨d, hd, Nat.le_add_right_of_le hshort⟩
    · cases htarget
    · rw [if_neg hdisabled]
      exact ⟨congrArg (· ++ [top]) he.displaced, rfl⟩

/-- **One cycle of a full board** is a turn, and then what the boards that are full do. -/
theorem cycleOnce_turn {post : List CycleEvent → BoardPlanEngine → Prop} (h : Ready ids e)
    (hb : e.boards.lookup id = some b) (hfull : b.isFull = true)
    (hthen : ∀ event e', Turn ids e event e' → event.boardId = id →
      Call.Does (cascadeAll cascade (event.reEntryBoard.toList ++ event.newBoards)) e'
        (fun later e'' => post (event :: later) e'') Exhausted) :
    Call.Does (cycleOnce ids timestamp cascade id) e post Exhausted := by
  have hp := h.proper hb
  have hlen := hp.isFull.mp hfull
  have hwt := h.toShaped.width_lt
  obtain ⟨top, htop⟩ : ∃ top, b.members[0]? = some top := ⟨b.members[0], getElem?_eq_getElem (by omega)⟩
  have hat : b.positions[0]? = some (some top) := by
    rw [hp.row, packed_full hlen, getElem?_map, htop]
    rfl
  have hon : e.Enrolled top := h.enrolled hb (mem_of_getElem? htop)
  unfold cycleOnce
  refine does_get ?_
  simp only [hb, hfull, if_true, hat]
  refine (h.splitBoard_does hb hfull htop).bind fun new e1 he => does_modify ?_
  obtain ⟨r, e2, hrun, hturn⟩ := he.turn hb hfull htop hon timestamp
  refine does_run_bind hrun ((hthen _ e2 hturn rfl).bind fun later e3 hpost => ?_)
  exact does_pure hpost

/-- **One cycle of a full board.** The engine keeps its users, and there is an opening after it. -/
theorem cycleOnce_full (hc : ∀ id e, Ready ids e → Cycling ids (cascade id) e) (h : Ready ids e)
    (hb : e.boards.lookup id = some b) (hfull : b.isFull = true) :
    Call.Does (cycleOnce ids timestamp cascade id) e (fun _ e' => Keeps ids e e' ∧ e'.HasOpening)
      Exhausted := by
  refine cycleOnce_turn h hb hfull fun event e1 hturn _ => ?_
  refine (cascadeAll_does hc _ hturn.keeps.ready).imp fun _ e2 h2 => ?_
  exact ⟨hturn.keeps.trans h2, h2.opening hturn.opening⟩

/-- **One cycle keeps the engine**, if what boards that are full then do keeps it. -/
theorem cycleOnce_does (hc : ∀ id e, Ready ids e → Cycling ids (cascade id) e) (h : Ready ids e) (id : Uuid) :
    Cycling ids (cycleOnce ids timestamp cascade id) e := by
  cases hb : e.boards.lookup id with
  | none =>
    refine does_get ?_
    simp only [hb]
    exact does_pure (Keeps.refl h)
  | some b =>
    cases hfull : b.isFull with
    | true => exact (cycleOnce_full hc h hb hfull).imp fun _ _ hk => hk.1
    | false =>
      refine does_get ?_
      simp only [hb, hfull, Bool.false_eq_true, if_false]
      exact does_pure (Keeps.refl h)

/-! ## 4. Cascades and drains -/

/-- **A cascade keeps the engine**, whatever depth is left. -/
theorem processCycles_does : ∀ (left : Nat) (id : Uuid) (e : BoardPlanEngine), Ready ids e →
    Cycling ids (processCycles ids timestamp left id) e := by
  intro left
  induction left with
  | zero => exact fun _ _ h => does_pure (Keeps.refl h)
  | succ left ih => exact fun id _ h => cycleOnce_does ih h id

theorem cycleBoard_does (id : Uuid) (e : BoardPlanEngine) (h : Ready ids e) :
    Cycling ids (cycleBoard ids timestamp id) e :=
  does_get (processCycles_does _ id e h)

theorem cycleBoard_full (h : Ready ids e) (hb : e.boards.lookup id = some b) (hfull : b.isFull = true) :
    Call.Does (cycleBoard ids timestamp id) e (fun _ e' => Keeps ids e e' ∧ e'.HasOpening) Exhausted := by
  refine does_get ?_
  obtain ⟨n, hn⟩ : ∃ n, e.config.maxCascadeDepth = n + 1 :=
    ⟨e.config.maxCascadeDepth - 1, by have := e.config.cascades; omega⟩
  rw [hn]
  exact cycleOnce_full (processCycles_does n) h hb hfull

theorem cycleEach_does : ∀ (l : List Uuid) {e : BoardPlanEngine}, Ready ids e →
    Cycling ids (cycleEach ids timestamp l) e := by
  intro l
  induction l with
  | nil => exact fun h => does_pure (Keeps.refl h)
  | cons id rest ih =>
    intro e h
    refine (cycleBoard_does id e h).bind fun _ e1 h1 => (ih h1.ready).bind fun _ e2 h2 => ?_
    exact does_pure (h1.trans h2)

theorem Shaped.mem_fullBoards (h : e.Shaped) (hb : e.boards.lookup id = some b)
    (hfull : b.isFull = true) : id ∈ e.fullBoards := by
  rw [fullBoards, mem_map]
  refine ⟨b, ?_, (h.proper hb).keyed⟩
  rw [mem_insertionSort, mem_filter]
  exact ⟨mem_map.mpr ⟨⟨id, b⟩, mem_lookup_iff.mp hb, rfl⟩, hfull⟩

theorem Shaped.of_mem_fullBoards (h : e.Shaped) (hid : id ∈ e.fullBoards) :
    ∃ b, e.boards.lookup id = some b ∧ b.isFull = true := by
  obtain ⟨b, hb, rfl⟩ := mem_map.mp hid
  rw [mem_insertionSort, mem_filter] at hb
  obtain ⟨entry, hentry, rfl⟩ := mem_map.mp hb.1
  have hlook := Maps.lookup_of_mem _ hentry
  exact ⟨entry.2, (h.proper hlook).keyed.symm ▸ hlook, hb.2⟩

/-- **A drain keeps the engine, and leaves an opening if there is a board at all.** -/
theorem drainFullBoards_does (h : Ready ids e) : Call.Does (drainFullBoards ids timestamp) e
      (fun _ e' => Keeps ids e e' ∧ ((∃ id b, e.boards.lookup id = some b) → e'.HasOpening))
      Exhausted := by
  refine does_get ?_
  cases hf : e.fullBoards with
  | nil =>
    -- no board is full, so any board there is has an opening
    refine does_pure ⟨Keeps.refl h, fun hex => ?_⟩
    obtain ⟨id, b, hb⟩ := hex
    refine ⟨id, b, hb, Nat.lt_of_le_of_ne (h.proper hb).fits fun hlen => ?_⟩
    have hmem := h.toShaped.mem_fullBoards hb ((h.proper hb).isFull.mpr hlen)
    rw [hf] at hmem
    exact not_mem_nil hmem
  | cons id rest =>
    obtain ⟨b, hb, hfull⟩ := h.toShaped.of_mem_fullBoards (hf ▸ mem_cons_self)
    refine (cycleBoard_full h hb hfull).bind fun _ e1 h1 =>
      (cycleEach_does rest h1.1.ready).bind fun _ e2 h2 => ?_
    exact does_pure ⟨h1.1.trans h2, fun _ => h2.opening h1.2⟩

/-! ## 5. Placing those who wait -/

theorem cycleIfFull_seated (h : Ready ids e) (hb : e.boards.lookup id = some b) :
    Call.Does (cycleIfFull ids timestamp id) e (fun _ e' => Keeps ids e e' ∧ e'.HasOpening)
      Exhausted := by
  refine does_get ?_
  rw [hb, Option.any_some]
  cases hfull : b.isFull with
  | true => exact cycleBoard_full h hb hfull
  | false =>
    refine does_pure ⟨Keeps.refl h, id, b, hb, Nat.lt_of_le_of_ne (h.proper hb).fits fun hlen => ?_⟩
    rw [(h.proper hb).isFull.mpr hlen] at hfull
    cases hfull

/-- What seating one user and cycling does. -/
structure Enrols (ids : BoardIds) (u : Uuid) (e e' : BoardPlanEngine) : Prop where
  ready : Ready ids e'
  enrolled : ∀ v, e'.Enrolled v ↔ v = u ∨ e.Enrolled v
  setup : SameSetup e e'
  next : e.nextBoardSeq ≤ e'.nextBoardSeq
  opening : e'.HasOpening

theorem Admits.enrols (ha : Admits ids u e e') (hk : Keeps ids e' e'')
    (ho : e''.HasOpening) : Enrols ids u e e'' :=
  ⟨hk.ready, fun v => (hk.enrolled v).trans (ha.enrolled v), ha.setup.trans hk.setup, ha.next ▸ hk.next, ho⟩

theorem placeOne_does (h : Ready ids e) (ho : e.HasOpening) (hu : ¬ e.Enrolled u) :
    Call.Does (placeOne ids timestamp u) e (fun _ e' => Enrols ids u e e') Exhausted := by
  obtain ⟨id, hid⟩ := h.toShaped.exists_oldest ho
  have hopens := h.toShaped.oldest_opens hid
  have ⟨b, hb, _⟩ := hopens
  obtain ⟨e1, hrun, hadm⟩ := h.trySeat_run hopens hu timestamp
  obtain ⟨b1, hb1, -⟩ := hadm.room hb
  refine does_get ?_
  simp only [hid]
  refine does_run_bind hrun ?_
  simp only [if_true]
  exact (cycleIfFull_seated hadm.ready hb1).imp fun _ _ hk => hadm.enrols hk.1 hk.2

theorem placeEach_does : ∀ (l : List Uuid) {e : BoardPlanEngine}, Ready ids e → e.HasOpening → l.Nodup →
    (∀ u ∈ l, ¬ e.Enrolled u) → Call.Does (placeEach ids timestamp l) e
      (fun _ e' => Ready ids e' ∧ e'.HasOpening ∧ SameSetup e e' ∧ e.nextBoardSeq ≤ e'.nextBoardSeq ∧
        ∀ v, e'.Enrolled v ↔ v ∈ l ∨ e.Enrolled v) Exhausted := by
  intro l
  induction l with
  | nil =>
    intro e h ho _ _
    exact does_pure ⟨h, ho, SameSetup.refl e, Nat.le_refl _, fun v => by simp⟩
  | cons u rest ih =>
    intro e h ho hnd hout
    obtain ⟨hu, hnd'⟩ := nodup_cons.mp hnd
    refine (placeOne_does h ho (hout u mem_cons_self)).bind fun _ e1 h1 => ?_
    have hout1 : ∀ v ∈ rest, ¬ e1.Enrolled v := fun v hv hx => by
      rcases (h1.enrolled v).mp hx with rfl | hx
      · exact hu hv
      · exact hout v (mem_cons_of_mem _ hv) hx
    refine (ih h1.ready h1.opening hnd' hout1).bind fun _ e2 h2 => ?_
    obtain ⟨hready, hopen, hset, hnext, henr⟩ := h2
    refine does_pure ⟨hready, hopen, h1.setup.trans hset, Nat.le_trans h1.next hnext, fun v => ?_⟩
    rw [henr, h1.enrolled, mem_cons]
    tauto

/-- **With an opening, placing those who wait keeps the engine.** -/
theorem placeDisplacedMembers_does (h : Ready ids e) (ho : e.HasOpening) :
    Call.Does (placeDisplacedMembers ids timestamp) e
      (fun _ e' => Keeps ids e e' ∧ e'.HasOpening) Exhausted := by
  refine does_get (does_modify ?_)
  have hready : Ready ids { e with displacedMembers := [] } :=
    ⟨⟨⟨h.width, h.height, h.total, h.proper, h.seq_inj⟩, h.seated, nodup_nil,
      fun u hu => absurd hu not_mem_nil⟩, h.unused, h.in_range⟩
  have hout : ∀ u ∈ e.displacedMembers, ¬ Enrolled { e with displacedMembers := [] } u := by
    intro u hu hx
    rcases hx with hx | hx
    · have hx' : (e.memberBoards.lookup u).isSome = true := hx
      rw [h.apart u hu] at hx'
      cases hx'
    · exact not_mem_nil hx
  refine (placeEach_does e.displacedMembers hready ho h.waiting hout).imp fun _ e' hp => ?_
  obtain ⟨hr, hopen, hset, hnext, henr⟩ := hp
  have hcleared : SameSetup e { e with displacedMembers := [] } := ⟨rfl, rfl, rfl, rfl, rfl⟩
  refine ⟨⟨hr, fun v => ?_, hcleared.trans hset, hnext, fun _ => hopen⟩, hopen⟩
  rw [henr]
  show v ∈ e.displacedMembers ∨ ((e.memberBoards.lookup v).isSome = true ∨ v ∈ []) ↔
    (e.memberBoards.lookup v).isSome = true ∨ v ∈ e.displacedMembers
  simp only [not_mem_nil, or_false]
  exact or_comm

end BoardPlanEngine

end MlmForge.BoardPlan
