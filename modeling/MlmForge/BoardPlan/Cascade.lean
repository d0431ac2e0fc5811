/-
  Subject:   How a cascade of cycles ends.

  A board that cycles puts its top member on one board. If that fills the board, it cycles in turn; if not,
  the cascade is over, because new boards are two seats short and take at most one member.

  * **`Turn.alone`**, **`Turn.andThen`** -- the two ways on from one turn;
  * **`cascades_settle`** -- a cascade is bounded by its budget and by the boards there were, and settles.
-/
import MlmForge.Basis.HashOrder
import MlmForge.BoardPlan.Runs

namespace MlmForge.BoardPlan

open Engine Call List Option

namespace BoardPlanEngine

variable {ids : BoardIds} {e e1 e' : BoardPlanEngine} {event : CycleEvent} {events : List CycleEvent}
  {id i : Uuid} {b b' : Board} {left : Nat} {timestamp : Int}

/-! ## 1. What a turn does to one board -/

section OneTurn

variable (ht : Turn ids e event e1)
include ht

theorem Turn.not_new (h : Ready ids e) (hb : e.boards.lookup i = some b) : i ∉ event.newBoards := by
  intro hi
  obtain ⟨n, hn, hlim, rfl⟩ := ht.drawn i hi
  rw [h.unused hn hlim] at hb
  cases hb

theorem Turn.survives (h : Ready ids e) (hb : e.boards.lookup i = some b)
    (hne : i ≠ event.boardId) : ∃ b', e1.boards.lookup i = some b' ∧ (b' = b ∨
      event.reEntryBoard = some i ∧ b'.members = b.members ++ [event.cycledMember]) := by
  have hnew := ht.not_new h hb
  by_cases htarget : event.reEntryBoard = some i
  · obtain ⟨c, c', hc, hc', hmembers⟩ := ht.target i hnew htarget
    cases hb.symm.trans hc
    exact ⟨c', hc', .inr ⟨htarget, hmembers⟩⟩
  · exact ⟨b, (ht.others i hnew hne htarget).trans hb, .inl rfl⟩

/-- A board after a turn is a new one, or was there. -/
theorem Turn.source (hb' : e1.boards.lookup i = some b') :
    i ∈ event.newBoards ∨ i ≠ event.boardId ∧ ∃ b, e.boards.lookup i = some b := by
  by_cases hnew : i ∈ event.newBoards
  · exact .inl hnew
  · have hne : i ≠ event.boardId := fun heq => by
      rw [heq, ht.gone] at hb'
      cases hb'
    refine .inr ⟨hne, ?_⟩
    by_cases htarget : event.reEntryBoard = some i
    · obtain ⟨c, -, hc, -⟩ := ht.target i hnew htarget
      exact ⟨c, hc⟩
    · exact ⟨b', (ht.others i hnew hne htarget).symm.trans hb'⟩

theorem Turn.new_open (hi : i ∈ event.newBoards)
    (hb' : e1.boards.lookup i = some b') : b'.members.length < e.totalPositions ∧
      (event.reEntryBoard ≠ some i → b'.members.length + 2 ≤ e.totalPositions) := by
  obtain ⟨c, hc, hshort⟩ := ht.created i hi
  cases hb'.symm.trans hc
  split at hshort
  · rename_i heq
    exact ⟨by omega, fun hne => absurd heq hne⟩
  · exact ⟨by omega, fun _ => hshort⟩

/-- A board that had two seats open did not cycle, and still has one. -/
theorem Turn.roomy (h : Ready ids e) (hb : e.boards.lookup i = some b)
    (hroom : b.members.length + 2 ≤ e.totalPositions) :
    i ≠ event.boardId ∧ ∃ b', e1.boards.lookup i = some b' ∧ b'.members.length < e.totalPositions ∧
      (event.reEntryBoard ≠ some i → b' = b) := by
  obtain ⟨c, hc, hfull, -⟩ := ht.top
  have hne : i ≠ event.boardId := fun heq => by
    rw [heq, hc] at hb
    cases hb
    have := (h.proper hc).isFull.mp hfull
    omega
  obtain ⟨b', hb', hcase⟩ := ht.survives h hb hne
  refine ⟨hne, b', hb', ?_⟩
  rcases hcase with rfl | ⟨htarget, hmembers⟩
  · exact ⟨by omega, fun _ => rfl⟩
  · refine ⟨?_, fun hx => absurd htarget hx⟩
    rw [hmembers, length_append, length_singleton]
    omega

/-- An identifier that no board has or can get stays unused. -/
theorem Turn.unborn (hnone : e.boards.lookup i = none)
    (hdrawn : ∀ n, e.nextBoardSeq ≤ n → n < seqLimit → i ≠ ids.draw n) : e1.boards.lookup i = none := by
  cases hb' : e1.boards.lookup i with
  | none => rfl
  | some b' =>
    rcases ht.source hb' with hi | ⟨-, b, hb⟩
    · obtain ⟨n, hn, hlim, hi⟩ := ht.drawn i hi
      exact absurd hi (hdrawn n hn hlim)
    · cases hnone.symm.trans hb

end OneTurn

/-! ## 2. Runs of turns -/

/-- Turns one after the other. -/
inductive Cascade (ids : BoardIds) : BoardPlanEngine → List CycleEvent → BoardPlanEngine → Prop
  | done {e : BoardPlanEngine} : Cascade ids e [] e
  | turn {e e1 e' : BoardPlanEngine} {event : CycleEvent} {events : List CycleEvent}
      (ht : Turn ids e event e1) (hrest : Cascade ids e1 events e') : Cascade ids e (event :: events) e'

theorem Cascade.keeps (h : Ready ids e) (hc : Cascade ids e events e') : Keeps ids e e' := by
  induction hc with
  | done => exact Keeps.refl h
  | turn ht _ ih => exact ht.keeps.trans (ih ht.keeps.ready)

/-- **With re-entry nobody is displaced, without it everybody who cycles is.** -/
theorem Cascade.waiting (hc : Cascade ids e events e') : if e.config.reEntryEnabled then
      e'.displacedMembers = e.displacedMembers ∧ ∀ event ∈ events, event.reEntryBoard ≠ none
    else
      e'.displacedMembers = e.displacedMembers ++ events.map CycleEvent.cycledMember ∧
        ∀ event ∈ events, event.reEntryBoard = none := by
  induction hc with
  | done => split <;> simp
  | turn ht _ ih =>
    have hre := ht.reEntry
    rw [ht.keeps.setup.config] at ih
    split at hre
    · rename_i henabled
      rw [if_pos henabled] at ih ⊢
      obtain ⟨hlist, target, htarget, -⟩ := hre
      refine ⟨ih.1.trans hlist, fun event hevent => ?_⟩
      rcases mem_cons.mp hevent with rfl | hevent
      · rw [htarget]
        exact some_ne_none target
      · exact ih.2 event hevent
    · rename_i hdisabled
      rw [if_neg hdisabled] at ih ⊢
      obtain ⟨hlist, htarget⟩ := hre
      refine ⟨by rw [ih.1, hlist, map_cons, append_assoc, singleton_append], fun event hevent => ?_⟩
      rcases mem_cons.mp hevent with rfl | hevent
      · exact htarget
      · exact ih.2 event hevent

/-- **What a cascade from a full board has done**, with `left` turns to go when it was called. -/
structure Cascaded (ids : BoardIds) (left : Nat) (id : Uuid) (e : BoardPlanEngine)
    (events : List CycleEvent) (e' : BoardPlanEngine) : Prop where
  run : Cascade ids e events e'
  count : events.length ≤ left
  first : left ≠ 0 → id ∈ events.map CycleEvent.boardId
  existed : ∀ event ∈ events, ∃ b, e.boards.lookup event.boardId = some b ∧
    b.members[0]? = some event.cycledMember
  once : (events.map CycleEvent.boardId).Nodup
  cycled : ∀ {i b}, e.boards.lookup i = some b →
    (i ∈ events.map CycleEvent.boardId ↔ e'.boards.lookup i = none)
  roomy : ∀ {i b}, e.boards.lookup i = some b → b.members.length + 2 ≤ e.totalPositions →
    ∃ b', e'.boards.lookup i = some b' ∧ b'.members.length < e.totalPositions
  fresh : ∀ {i b}, e.boards.lookup i = none → e'.boards.lookup i = some b →
    b.members.length < e.totalPositions
  full : ∀ {i b'}, e'.boards.lookup i = some b' → b'.members.length = e.totalPositions →
    (∃ b, e.boards.lookup i = some b ∧ b.members.length = e.totalPositions) ∨ events.length = left
  unborn : ∀ {i}, e.boards.lookup i = none →
    (∀ n, e.nextBoardSeq ≤ n → n < seqLimit → i ≠ ids.draw n) → e'.boards.lookup i = none

theorem cascaded_none (id : Uuid) (e : BoardPlanEngine) : Cascaded ids 0 id e [] e where
  run := .done
  count := Nat.le_refl 0
  first hne := absurd rfl hne
  existed event hevent := absurd hevent not_mem_nil
  once := nodup_nil
  cycled hb := iff_of_false not_mem_nil fun hnone => by cases hb.symm.trans hnone
  roomy {i b} hb hroom := ⟨b, hb, by omega⟩
  fresh hnone hb := by cases hnone.symm.trans hb
  full {i b'} hb' hlen := .inl ⟨b', hb', hlen⟩
  unborn hnone _ := hnone

/-- **A turn that fills no board ends the cascade.** -/
theorem Turn.alone (ht : Turn ids e event e1) (h : Ready ids e)
    (hopen : ∀ t c, event.reEntryBoard = some t → e1.boards.lookup t = some c →
      c.members.length < e.totalPositions) :
    Cascaded ids (left + 1) event.boardId e [event] e1 where
  run := .turn ht .done
  count := Nat.le_add_left 1 left
  first _ := mem_singleton_self _
  existed other hother := by
    rw [mem_singleton.mp hother]
    obtain ⟨b, hb, -, htop⟩ := ht.top
    exact ⟨b, hb, htop⟩
  once := nodup_singleton _
  cycled {i b} hb := by
    rw [map_singleton, mem_singleton]
    constructor
    · intro heq
      rw [heq]
      exact ht.gone
    · intro hnone
      by_contra hne
      obtain ⟨b', hb', -⟩ := ht.survives h hb hne
      cases hnone.symm.trans hb'
  roomy {i b} hb hroom := by
    obtain ⟨-, b', hb', hlt, -⟩ := ht.roomy h hb hroom
    exact ⟨b', hb', hlt⟩
  fresh {i b} hnone hb := by
    rcases ht.source hb with hi | ⟨-, c, hc⟩
    · exact (ht.new_open hi hb).1
    · cases hnone.symm.trans hc
  full {i b'} hb' hlen := by
    rcases ht.source hb' with hi | ⟨hne, b, hb⟩
    · have := (ht.new_open hi hb').1
      omega
    · obtain ⟨c, hc, hcase⟩ := ht.survives h hb hne
      cases hb'.symm.trans hc
      rcases hcase with rfl | ⟨htarget, -⟩
      · exact .inl ⟨b', hb, hlen⟩
      · have := hopen i b' htarget hb'
        omega
  unborn := ht.unborn

/-- **A turn that fills a board is followed by the cascade from that board.** -/
theorem Turn.andThen (ht : Turn ids e event e1) (h : Ready ids e) {t : Uuid} {c : Board}
    (htarget : event.reEntryBoard = some t) (hc : e1.boards.lookup t = some c)
    (hfilled : c.members.length = e.totalPositions) (hrest : Cascaded ids left t e1 events e') :
    Cascaded ids (left + 1) event.boardId e (event :: events) e' := by
  have htotal : e1.totalPositions = e.totalPositions := ht.keeps.setup.total
  have hwt := h.toShaped.width_lt
  have hw2 := h.width.1
  -- the board that was filled is not a new one, so every new one has two seats open
  have hold : t ∉ event.newBoards := fun ht' => by
    have := (ht.new_open ht' hc).1
    omega
  have hroomy : ∀ {i b}, i ∈ event.newBoards → e1.boards.lookup i = some b →
      b.members.length + 2 ≤ e1.totalPositions := by
    intro i b hi hb
    rw [htotal]
    refine (ht.new_open hi hb).2 fun heq => hold ?_
    cases htarget.symm.trans heq
    exact hi
  -- and no new one cycles
  have hstays : ∀ other ∈ events, other.boardId ∉ event.newBoards := by
    intro other hother hi
    obtain ⟨b, hb, -⟩ := hrest.existed other hother
    obtain ⟨b', hb', -⟩ := hrest.roomy hb (hroomy hi hb)
    have hnone := (hrest.cycled hb).mp (mem_map_of_mem hother)
    cases hnone.symm.trans hb'
  refine ⟨.turn ht hrest.run, Nat.succ_le_succ hrest.count, fun _ => mem_cons_self, ?_, ?_, ?_, ?_, ?_,
    ?_, ?_⟩
  · intro other hother
    rcases mem_cons.mp hother with rfl | hother
    · obtain ⟨b, hb, -, htop⟩ := ht.top
      exact ⟨b, hb, htop⟩
    · obtain ⟨b1, hb1, htop⟩ := hrest.existed other hother
      rcases ht.source hb1 with hi | ⟨hne, b, hb⟩
      · exact absurd hi (hstays other hother)
      · obtain ⟨d, hd, hcase⟩ := ht.survives h hb hne
        cases hb1.symm.trans hd
        refine ⟨b, hb, ?_⟩
        rcases hcase with rfl | ⟨heq, hmembers⟩
        · exact htop
        · -- the board that was filled had its top before
          cases htarget.symm.trans heq
          cases hb1.symm.trans hc
          rw [hmembers, length_append, length_singleton] at hfilled
          rwa [hmembers, getElem?_append_left (by omega)] at htop
  · rw [map_cons, nodup_cons]
    refine ⟨fun hmem => ?_, hrest.once⟩
    obtain ⟨other, hother, heq⟩ := mem_map.mp hmem
    obtain ⟨b, hb, -⟩ := hrest.existed other hother
    rw [heq, ht.gone] at hb
    cases hb
  · intro i b hb
    rw [map_cons, mem_cons]
    by_cases hi : i = event.boardId
    · refine iff_of_true (.inl hi) ?_
      rw [hi] at hb ⊢
      refine hrest.unborn ht.gone fun n hn hlim heq => ?_
      rw [heq, h.unused (Nat.le_trans ht.keeps.next hn) hlim] at hb
      cases hb
    · obtain ⟨b', hb', -⟩ := ht.survives h hb hi
      rw [← hrest.cycled hb']
      exact or_iff_right hi
  · intro i b hb hroom
    obtain ⟨-, b', hb', hlt, hsame⟩ := ht.roomy h hb hroom
    have hne : event.reEntryBoard ≠ some i := fun heq => by
      cases htarget.symm.trans heq
      cases hb'.symm.trans hc
      omega
    rw [hsame hne] at hb'
    rw [← htotal] at hroom ⊢
    exact hrest.roomy hb' hroom
  · intro i b hnone hb
    rw [← htotal]
    cases hb1 : e1.boards.lookup i with
    | none => exact hrest.fresh hb1 hb
    | some b1 =>
      rcases ht.source hb1 with hi | ⟨-, d, hd⟩
      · obtain ⟨b', hb', hlt⟩ := hrest.roomy hb1 (hroomy hi hb1)
        cases hb.symm.trans hb'
        exact hlt
      · cases hnone.symm.trans hd
  · intro i b' hb' hlen
    rcases hrest.full hb' (hlen.trans htotal.symm) with ⟨b1, hb1, hlen1⟩ | hspent
    · rcases ht.source hb1 with hi | ⟨hne, b, hb⟩
      · have := hroomy hi hb1
        omega
      · obtain ⟨d, hd, hcase⟩ := ht.survives h hb hne
        cases hb1.symm.trans hd
        rcases hcase with rfl | ⟨heq, -⟩
        · exact .inl ⟨b1, hb, hlen1.trans htotal⟩
        · -- the board that was filled did cycle, unless no turn was left for it
          cases htarget.symm.trans heq
          refine .inr ?_
          by_cases hleft : left = 0
          · have hcount := hrest.count
            rw [length_cons]
            omega
          · have hnone := (hrest.cycled hb1).mp (hrest.first hleft)
            cases hnone.symm.trans hb'
    · exact .inr (congrArg Nat.succ hspent)
  · intro i hnone hdrawn
    exact hrest.unborn (ht.unborn hnone hdrawn) fun n hn => hdrawn n (Nat.le_trans ht.keeps.next hn)

/-! ## 3. A whole call -/

theorem cascadeAll_idle {cascade : Uuid → Action (List CycleEvent)} : ∀ {l : List Uuid},
    (∀ i ∈ l, ∀ b, e.boards.lookup i = some b → b.isFull = false) →
    (cascadeAll cascade l).run e = .ok [] e := by
  intro l
  induction l with
  | nil => exact fun _ => rfl
  | cons i rest ih =>
    intro hidle
    have hany : (e.boards.lookup i).any Board.isFull = false := by
      cases hb : e.boards.lookup i with
      | none => rfl
      | some b => exact hidle i mem_cons_self b hb
    have hrest := ih fun j hj => hidle j (mem_cons_of_mem _ hj)
    simp only [cascadeAll, ifFull, run_bind, run_get, hany, Bool.false_eq_true, if_false,
      run_pure, hrest, append_nil]

theorem Ready.isFull_eq_false (h : Ready ids e) (hb : e.boards.lookup i = some b)
    (hlt : b.members.length < e.totalPositions) : b.isFull = false := by
  rw [← Bool.not_eq_true, (h.proper hb).isFull]
  omega

/-- **A call on a full board cascades**, by induction on the turns that are left. -/
theorem processCycles_cascades : ∀ (left : Nat) {id : Uuid} {e : BoardPlanEngine} {b : Board},
    Ready ids e → e.boards.lookup id = some b → b.isFull = true →
    Call.Does (processCycles ids timestamp left id) e (Cascaded ids left id e) Exhausted := by
  intro left
  induction left with
  | zero => exact fun {id e _} _ _ _ => does_pure (cascaded_none id e)
  | succ left ih =>
    intro id e b h hb hfull
    refine cycleOnce_turn h hb hfull fun event e1 ht hid => ?_
    subst hid
    have h1 := ht.keeps.ready
    have htotal : e1.totalPositions = e.totalPositions := ht.keeps.setup.total
    have hidle : ∀ i ∈ event.newBoards, ∀ c, e1.boards.lookup i = some c → c.isFull = false :=
      fun i hi c hc => h1.isFull_eq_false hc (htotal ▸ (ht.new_open hi hc).1)
    cases htarget : event.reEntryBoard with
    | none =>
      refine does_of_run (cascadeAll_idle hidle) (ht.alone h fun t c ht' => ?_)
      cases htarget.symm.trans ht'
    | some t =>
      rw [toList_some, singleton_append]
      by_cases hfilled : (e1.boards.lookup t).any Board.isFull = true
      · obtain ⟨c, hc, hcfull⟩ := (Option.any_eq_true _ _).mp hfilled
        have hlen := ((h1.proper hc).isFull.mp hcfull).trans htotal
        refine (does_get (by rw [if_pos hfilled]; exact ih h1 hc hcfull)).bind fun events e2 hrest => ?_
        have h2 := (hrest.run.keeps h1).ready
        have htotal2 := (hrest.run.keeps h1).setup.total
        -- the new boards have two seats open before the cascade goes on, so one when it returns
        have hstill : ∀ i ∈ event.newBoards, ∀ d, e2.boards.lookup i = some d → d.isFull = false := by
          intro i hi d hd
          obtain ⟨d1, hd1, -⟩ := ht.created i hi
          have hne : event.reEntryBoard ≠ some i := fun heq => by
            cases htarget.symm.trans heq
            have := (ht.new_open hi hc).1
            omega
          have hroom := (ht.new_open hi hd1).2 hne
          rw [← htotal] at hroom
          obtain ⟨d', hd', hlt⟩ := hrest.roomy hd1 hroom
          cases hd.symm.trans hd'
          exact h2.isFull_eq_false hd (htotal2 ▸ hlt)
        refine does_run_bind (cascadeAll_idle hstill) (does_pure ?_)
        rw [append_nil]
        exact ht.andThen h htarget hc hlen hrest
      · have hopen : ∀ c, e1.boards.lookup t = some c → c.isFull = false := fun c hc => by
          rw [hc, any_some, Bool.not_eq_true] at hfilled
          exact hfilled
        have hall : ∀ i ∈ t :: event.newBoards, ∀ c, e1.boards.lookup i = some c → c.isFull = false := by
          intro i hi
          rcases mem_cons.mp hi with rfl | hi
          · exact hopen
          · exact hidle i hi
        refine does_of_run (cascadeAll_idle hall) (ht.alone h fun t' c ht' hc => ?_)
        cases htarget.symm.trans ht'
        have hproper := h1.proper hc
        have hfits := hproper.fits
        have hne : c.members.length ≠ e1.totalPositions := fun heq => by
          have := hproper.isFull.mpr heq
          rw [hopen c hc] at this
          cases this
        omega

/-- **How a call that cycles a full board ends.** -/
structure Settled (id : Uuid) (e : BoardPlanEngine) (events : List CycleEvent) (e' : BoardPlanEngine) :
    Prop where
  bounded : events.length ≤ min e.config.maxCascadeDepth e.boards.entries.length
  first : id ∈ events.map CycleEvent.boardId
  existed : ∀ event ∈ events, ∃ b, e.boards.lookup event.boardId = some b ∧
    b.positions[0]? = some (some event.cycledMember)
  once : (events.map CycleEvent.boardId).Nodup
  cycled : ∀ i b, e.boards.lookup i = some b →
    (i ∈ events.map CycleEvent.boardId ↔ e'.boards.lookup i = none)
  seatedAgain : e.config.reEntryEnabled = true → e'.displacedMembers = e.displacedMembers ∧
    ∀ event ∈ events, event.reEntryBoard ≠ none ∧
      (e'.memberBoards.lookup event.cycledMember).isSome = true
  displaced : e.config.reEntryEnabled = false →
    e'.displacedMembers = e.displacedMembers ++ events.map CycleEvent.cycledMember ∧
      ∀ event ∈ events, event.reEntryBoard = none
  created : ∀ i b, e.boards.lookup i = none → e'.boards.lookup i = some b → b.isFull = false
  settles : e.boards.entries.length ≤ e.config.maxCascadeDepth →
    ∀ i b', e'.boards.lookup i = some b' → b'.isFull = true →
      ∃ b, e.boards.lookup i = some b ∧ b.isFull = true

theorem length_le_boards {l : List Uuid} (hnd : l.Nodup)
    (hl : ∀ i ∈ l, ∃ b, e.boards.lookup i = some b) : l.length ≤ e.boards.entries.length := by
  have hsub : l ⊆ e.boards.keys := fun i hi => by
    obtain ⟨b, hb⟩ := hl i hi
    exact AList.mem_keys.mp (AList.lookup_isSome.mp (by rw [hb]; rfl))
  have hle := (hnd.subperm hsub).length_le
  rwa [AList.keys, keys, length_map] at hle

theorem Cascaded.settled (h : Ready ids e) (hc : Cascaded ids e.config.maxCascadeDepth id e events e') :
    Settled id e events e' := by
  have hkeeps := hc.run.keeps h
  have htotal : e'.totalPositions = e.totalPositions := hkeeps.setup.total
  have hboards : ∀ i ∈ events.map CycleEvent.boardId, ∃ b, e.boards.lookup i = some b := by
    intro i hi
    obtain ⟨event, hevent, rfl⟩ := mem_map.mp hi
    obtain ⟨b, hb, -⟩ := hc.existed event hevent
    exact ⟨b, hb⟩
  have hwaiting := hc.run.waiting
  refine ⟨le_min hc.count ?_, hc.first (Nat.pos_iff_ne_zero.mp e.config.cascades), fun event hevent => ?_,
    hc.once, fun i b => hc.cycled, fun henabled => ?_, fun hdisabled => ?_, fun i b hnone hb => ?_,
    fun hsize i b' hb' hfull => ?_⟩
  · rw [← length_map]
    exact length_le_boards hc.once hboards
  · obtain ⟨b, hb, htop⟩ := hc.existed event hevent
    exact ⟨b, hb, (h.proper hb).top htop⟩
  · rw [if_pos henabled] at hwaiting
    refine ⟨hwaiting.1, fun event hevent => ⟨hwaiting.2 event hevent, ?_⟩⟩
    -- who was on a board when the call began is enrolled, and does not wait
    obtain ⟨b, hb, htop⟩ := hc.existed event hevent
    have hmem := mem_of_getElem? htop
    rcases (hkeeps.enrolled event.cycledMember).mpr (h.enrolled hb hmem) with hin | hwaits
    · exact hin
    · rw [hwaiting.1] at hwaits
      exact absurd hwaits (h.not_waiting hb hmem)
  · rw [if_neg (by rw [hdisabled]; exact Bool.false_ne_true)] at hwaiting
    exact hwaiting
  · exact hkeeps.ready.isFull_eq_false hb (htotal ▸ hc.fresh hnone hb)
  · have hlen := ((hkeeps.ready.proper hb').isFull.mp hfull).trans htotal
    rcases hc.full hb' hlen with ⟨b, hb, hlenb⟩ | hspent
    · exact ⟨b, hb, (h.proper hb).isFull.mpr hlenb⟩
    · -- every turn was spent on a board there was, and this is one more
      exfalso
      obtain ⟨b, hb⟩ : ∃ b, e.boards.lookup i = some b := by
        cases hb : e.boards.lookup i with
        | none =>
          have := hc.fresh hb hb'
          omega
        | some b => exact ⟨b, rfl⟩
      have hnot : i ∉ events.map CycleEvent.boardId := fun hmem => by
        cases ((hc.cycled hb).mp hmem).symm.trans hb'
      have hle := length_le_boards (nodup_cons.mpr ⟨hnot, hc.once⟩) fun j hj => by
        rcases mem_cons.mp hj with rfl | hj
        · exact ⟨b, hb⟩
        · exact hboards j hj
      rw [length_cons, length_map] at hle
      omega

/-- **Cascades are bounded and settle.** In every engine that is reached, a call that cycles a full board
    is a run of turns, and ends as `Settled` says; only an exhausted `seq` counter stops it. -/
theorem cascades_settle (ids : BoardIds) (start : BoardPlanEngine) (hstart : Start ids start)
    (e : BoardPlanEngine) (hr : Reached ids start e) (id : Uuid) (b : Board)
    (hb : e.boards.lookup id = some b) (hfull : b.isFull = true) (timestamp : Int) :
    Call.Does (cycleBoard ids timestamp id) e
      (fun events e' => Cascade ids e events e' ∧ Settled id e events e') Exhausted := by
  have h := hr.ready hstart
  refine does_get ((processCycles_cascades e.config.maxCascadeDepth h hb hfull).imp fun events e' hc => ?_)
  exact ⟨hc.run, hc.settled h⟩

theorem cascades_settle_domino :
    Start countedIds dominoEngine ∧ Reached countedIds dominoEngine dominoEngine ∧
      dominoEngine.boards.lookup (countedIds.draw 0) = some firstDomino ∧ firstDomino.isFull = true ∧
      Call.Does (cycleBoard countedIds 7 (countedIds.draw 0)) dominoEngine
        (fun events e' => Cascade countedIds dominoEngine events e' ∧
          Settled (countedIds.draw 0) dominoEngine events e') Exhausted := by
  have hfull : firstDomino.isFull = true := by decide
  refine ⟨start_dominoEngine, .start, lookup_firstDomino, hfull, ?_⟩
  -- the engine is generalized, for the call is not to be evaluated here
  generalize hdomino : dominoEngine = e
  exact cascades_settle countedIds e (hdomino ▸ start_dominoEngine) e .start (countedIds.draw 0)
    firstDomino (hdomino ▸ lookup_firstDomino) hfull 7

-- the second board is filled by the first one's top, and cycles in turn
example : (match (cycleBoard countedIds 7 (countedIds.draw 0)).run dominoEngine with
    | .ok events _ => events.map fun event => (event.boardId, event.cycledMember)
    | .error _ _ => []) = [(1, 1), (2, 4)] := by decide +kernel

end BoardPlanEngine

end MlmForge.BoardPlan
