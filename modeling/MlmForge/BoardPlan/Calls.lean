/-
  Subject:   What each call on the engine does to its users.

  * **`addMember_does`**, **`removeMember_does`**, **`dissolveBoard_does`**, **`compressInactive_does`** --
    each call keeps the engine ready and changes the users by what it is asked to, or it is refused with
    the engine as it was.
-/
import MlmForge.BoardPlan.Cycles

namespace MlmForge.BoardPlan

open Engine Query Call List AList Maps

namespace BoardPlanEngine

variable {ids : BoardIds} {e e' : BoardPlanEngine} {u v id sponsor : Uuid} {b : Board} {timestamp : Int}

/-- How a call stops: refused with the engine as it was, or out of `seq` values. -/
def Refused (e : BoardPlanEngine) (stop : Stop BoardPlanError) (e' : BoardPlanEngine) : Prop :=
  ((∃ x, stop = .err x) ∧ e' = e) ∨ Exhausted stop e'

theorem Exhausted.refused {stop : Stop BoardPlanError} (h : Exhausted stop e') : Refused e stop e' := .inr h

theorem enrolled_iff_listed : e.Enrolled u ↔ e.listed u = true := by
  rw [Enrolled, listed, Bool.or_eq_true, contains_iff_mem]

theorem does_checked {α β : Type} {check : BoardPlanEngine → Query BoardPlanError α}
    {body : α → Action β} {post : β → BoardPlanEngine → Prop} (hsafe : (check e).Safe)
    (h : ∀ a, check e = .ok a → Call.Does (body a) e post (Refused e)) :
    Call.Does (reads check >>= body) e post (Refused e) :=
  does_reads_bind (fun stop hc => .inl ⟨hsafe stop hc, rfl⟩) h

/-! ## 1. Adding a member -/

theorem checkAddMember_safe : (e.checkAddMember u sponsor).Safe := by
  unfold checkAddMember
  exact (safe_stopIf _).bind fun _ _ => (safe_stopIf _).bind fun _ _ =>
    (safe_stopIf _).bind fun _ _ => safe_stopIf _

theorem checkAddMember_eq_ok : e.checkAddMember u sponsor = .ok () ↔ ¬ e.Enrolled u ∧
    ((e.memberBoards.keys = [] ∧ e.sponsorMap.keys = []) ∨ e.Enrolled sponsor) ∧ e.boards.keys ≠ [] := by
  have hmem : ∀ w, ¬ (e.displacedMembers.contains w = true) ↔ w ∉ e.displacedMembers := fun w => by
    rw [contains_iff_mem]
  simp only [checkAddMember, seq_eq_ok, stopIf_eq_ok, not_enrolled, hmem,
    Option.not_isSome_iff_eq_none, Option.isNone_iff_eq_none]
  have hsponsor : e.Enrolled sponsor ↔
      ¬ (e.memberBoards.lookup sponsor = none ∧ sponsor ∉ e.displacedMembers) := by
    rw [← not_enrolled, not_not]
  rw [hsponsor]
  tauto

theorem exists_board (h : e.boards.keys ≠ []) : ∃ id b, e.boards.lookup id = some b := by
  obtain ⟨id, hid⟩ := exists_mem_of_ne_nil _ h
  exact ⟨id, (mem_keys_iff _).mp hid⟩

/-- One user more. -/
structure Enters (ids : BoardIds) (u : Uuid) (e e' : BoardPlanEngine) : Prop where
  ready : Ready ids e'
  enrolled : ∀ v, e'.Enrolled v ↔ v = u ∨ e.Enrolled v
  next : e.nextBoardSeq ≤ e'.nextBoardSeq

/-- **Once its checks pass, a call to add a member adds them.** -/
theorem addMember_body (h : Ready ids e) (hu : ¬ e.Enrolled u) (hboards : e.boards.keys ≠ []) : Call.Does (do
      modify fun e => { e with sponsorMap := e.sponsorMap.insert u sponsor }
      let drained ← drainFullBoards ids timestamp
      let placed ← placeDisplacedMembers ids timestamp
      let boardId ← reads fun e => e.findPlacementBoard sponsor
      let position ← seatNew u boardId timestamp
      let cycled ← cycleIfFull ids timestamp boardId
      pure (⟨boardId, position, drained ++ placed ++ cycled⟩ : AddMemberResult)) e
      (fun _ e' => Enters ids u e e') Exhausted := by
  refine does_modify ?_
  have h0 : Ready ids { e with sponsorMap := e.sponsorMap.insert u sponsor } :=
    ⟨⟨⟨h.width, h.height, h.total, h.proper, h.seq_inj⟩, h.seated, h.waiting, h.apart⟩, h.unused, h.in_range⟩
  refine (drainFullBoards_does h0).bind fun _ e1 h1 => ?_
  obtain ⟨hk1, ho1⟩ := h1
  refine (placeDisplacedMembers_does hk1.ready (ho1 (exists_board hboards))).bind fun _ e2 h2 => ?_
  obtain ⟨hk2, ho2⟩ := h2
  have hsame : ∀ v, e2.Enrolled v ↔ e.Enrolled v := fun v => (hk2.enrolled v).trans (hk1.enrolled v)
  -- there is an opening, so neither the search nor the seating can fail any more
  obtain ⟨id, hid⟩ := hk2.ready.toShaped.exists_placement ho2 sponsor
  obtain ⟨b, hb, hlt⟩ := hk2.ready.toShaped.placement_opens hid
  have hadm := hk2.ready.seat hb hlt (fun hx => hu ((hsame u).mp hx)) timestamp
  have hopen := (hk2.ready.proper hb).opens hlt
  obtain ⟨b', hb', -⟩ := hadm.room hb
  have hfind : (reads fun e => e.findPlacementBoard sponsor : Action Uuid).run e2 = .ok id e2 := by
    rw [run_reads, hid]
  have hseat : (seatNew u id timestamp).run e2 =
      .ok b.members.length (e2.seat b id u b.members.length timestamp) := by
    simp only [seatNew, run_bind, run_get, hb, hopen, run_modify, run_pure]
  refine does_run_bind hfind (does_run_bind hseat ?_)
  refine (cycleIfFull_seated hadm.ready hb').bind fun _ e3 h3 => ?_
  refine does_pure ⟨h3.1.ready, fun v => ?_, ?_⟩
  · rw [h3.1.enrolled, hadm.enrolled, hsame]
  · exact Nat.le_trans hk1.next (Nat.le_trans hk2.next (hadm.next ▸ h3.1.next))

theorem addMember_passed (h : Ready ids e) (hc : e.checkAddMember u sponsor = .ok ()) :
    Call.Does (addMember ids u sponsor timestamp) e (fun _ e' => Enters ids u e e') Exhausted := by
  obtain ⟨hu, -, hboards⟩ := checkAddMember_eq_ok.mp hc
  have hrun : (reads fun e => e.checkAddMember u sponsor : Action Unit).run e = .ok () e := by
    rw [run_reads, hc]
  exact does_run_bind hrun (addMember_body h hu hboards)

/-- **Adding a member adds exactly that user, or is refused.** -/
theorem addMember_does (h : Ready ids e) (u sponsor : Uuid) (timestamp : Int) :
    Call.Does (addMember ids u sponsor timestamp) e
      (fun _ e' => ¬ e.Enrolled u ∧ Enters ids u e e') (Refused e) := by
  refine does_checked checkAddMember_safe fun _ hc => ?_
  obtain ⟨hu, -, hboards⟩ := checkAddMember_eq_ok.mp hc
  exact (addMember_body h hu hboards).mono (fun _ _ hx => ⟨hu, hx⟩) fun _ _ hx => hx.refused

/-! ## 2. Taking a member out -/

theorem rePlace_packed {n : Nat} : ∀ (rest done : List Uuid), done.length + rest.length ≤ n →
    rePlace done.length rest (packed n done) = packed n (done ++ rest) := by
  intro rest
  induction rest with
  | nil => intro done _; rw [append_nil]; rfl
  | cons u rest ih =>
    intro done hlen
    rw [length_cons] at hlen
    have hnext := ih (done ++ [u]) (by rw [length_append, length_singleton]; omega)
    rw [length_append, length_singleton, append_assoc, singleton_append] at hnext
    rw [rePlace, set_packed (by omega), hnext]

/-- One user fewer. -/
structure Expels (ids : BoardIds) (u : Uuid) (e e' : BoardPlanEngine) : Prop where
  ready : Ready ids e'
  enrolled : ∀ v, e'.Enrolled v ↔ e.Enrolled v ∧ v ≠ u
  next : e.nextBoardSeq ≤ e'.nextBoardSeq

theorem reduceOption_clearedRow (hnd : b.members.Nodup) (hu : u ∈ b.members) :
    (clearedRow b u).reduceOption = b.members.filter (· ≠ u) := by
  obtain ⟨q, hq⟩ := exists_takenBy hu
  rw [clearedRow, hq]
  exact reduceOption_clear (takenBy_eq_some hq) hnd

theorem length_clearedRow : (clearedRow b u).length = b.positions.length := by
  unfold clearedRow
  split
  · exact length_set
  · rfl

/-- The engine once a member has left a board and the others have closed up. -/
def closedUp (e : BoardPlanEngine) (b : Board) (id u : Uuid) (timestamp : Int) : BoardPlanEngine :=
  { e with
    boards := (e.unseat b id u timestamp).boards.insert id
      { b with
        positions := packed e.totalPositions (b.members.filter (· ≠ u))
        lastActivityAt := timestamp }
    memberBoards := (b.members.filter (· ≠ u)).foldl (fun m k => m.insert k id) (e.memberBoards.erase u) }

theorem vacate_seated (h : e.Sound) (hu : e.memberBoards.lookup u = some id)
    (hb : e.boards.lookup id = some b) (timestamp : Int) :
    ∃ moved, (vacate u timestamp).run e = .ok moved (e.closedUp b id u timestamp) := by
  have hp := h.proper hb
  have hrest := reduceOption_clearedRow hp.nodup ((on_of_lookup hb).mp (h.seated.mp hu))
  have hshort : (b.members.filter (· ≠ u)).length ≤ e.totalPositions :=
    Nat.le_trans (length_filter_le _ _) hp.fits
  have hrow : rePlace 0 (b.members.filter (· ≠ u)) ((clearedRow b u).map fun _ => none) =
      packed e.totalPositions (b.members.filter (· ≠ u)) := by
    have hnil : ((clearedRow b u).map fun _ => (none : Option Uuid)) = packed e.totalPositions [] := by
      rw [map_const', length_clearedRow, hp.length]
      rfl
    rw [hnil]
    exact rePlace_packed _ [] (by simpa using hshort)
  have hcompact : ∃ moved, (compactBoard id).run (e.unseat b id u timestamp) =
      .ok moved (e.closedUp b id u timestamp) := by
    have hlook : (e.unseat b id u timestamp).boards.lookup id = some
        { b with positions := clearedRow b u, lastActivityAt := timestamp } := lookup_insert _
    have hmembers : ({ b with positions := clearedRow b u, lastActivityAt := timestamp } : Board).members =
        b.members.filter (· ≠ u) := hrest
    rw [compactBoard]
    simp only [run_bind, run_get, hlook, run_modify, run_pure, hmembers, hrow]
    exact ⟨_, rfl⟩
  obtain ⟨moved, hrun⟩ := hcompact
  refine ⟨moved, ?_⟩
  simp only [vacate, run_bind, run_get, hu, hb, run_modify, hrun]

/-- **A seated member leaves**, and nobody else does. -/
theorem Ready.closedUp (h : Ready ids e) (hu : e.memberBoards.lookup u = some id)
    (hb : e.boards.lookup id = some b) (timestamp : Int) : Expels ids u e (e.closedUp b id u timestamp) := by
  have hmem := (on_of_lookup hb).mp (h.seated.mp hu)
  have hp := h.proper hb
  have hboards : ∀ i, (e.closedUp b id u timestamp).boards.lookup i = if i = id then some { b with
        positions := packed e.totalPositions (b.members.filter (· ≠ u))
        lastActivityAt := timestamp } else e.boards.lookup i := by
    intro i
    refine (Maps.lookup_insert _ _ _ i).trans ?_
    split
    · rfl
    · rename_i hi
      exact lookup_insert_ne hi
  have hin : ∀ v, v ∈ b.members.filter (· ≠ u) ↔ v ∈ b.members ∧ v ≠ u := fun v => by
    rw [mem_filter, decide_eq_true_iff]
  have hlook : ∀ v, (e.closedUp b id u timestamp).memberBoards.lookup v =
      if v ∈ b.members.filter (· ≠ u) then some id
      else if v = u then none else e.memberBoards.lookup v := fun v => by
    rw [← Maps.lookup_erase]
    exact lookup_foldl_insert _ _ _ _
  have hmembers : ({ b with
        positions := packed e.totalPositions (b.members.filter (· ≠ u))
        lastActivityAt := timestamp } : Board).members = b.members.filter (· ≠ u) := reduceOption_packed
  have hproper : Board.Proper e.totalPositions e.nextBoardSeq id { b with
        positions := packed e.totalPositions (b.members.filter (· ≠ u))
        lastActivityAt := timestamp } :=
    ⟨hp.keyed, by rw [hmembers], by rw [hmembers]; exact Nat.le_trans (length_filter_le _ _) hp.fits,
      by rw [hmembers]; exact hp.nodup.filter _, hp.seq_lt⟩
  have hsound : (e.closedUp b id u timestamp).Sound := by
    refine h.toSound.rewrite rfl rfl rfl rfl hb hproper rfl hboards (fun v => ?_)
      (fun v hv => .inl ((hin v).mp (hmembers ▸ hv)).1) h.waiting fun v hv => ?_
    · rw [hlook, hmembers]
      by_cases hv : v ∈ b.members.filter (· ≠ u)
      · rw [if_pos hv, if_pos hv]
      · rw [if_neg hv, if_neg hv]
        by_cases hvu : v = u
        · rw [if_pos hvu, if_pos (hvu ▸ hmem)]
        · rw [if_neg hvu, if_neg fun hx => hv ((hin v).mpr ⟨hx, hvu⟩)]
    · rw [hlook, if_neg fun hx => h.not_waiting hb ((hin v).mp hx).1 hv, h.apart v hv, ite_self]
  refine ⟨⟨hsound, fun hn hlim => ?_, h.in_range⟩, fun v => ?_, Nat.le_refl _⟩
  · rw [hboards, if_neg, h.unused hn hlim]
    intro heq
    have := h.unused hn hlim
    rw [heq, hb] at this
    cases this
  · show ((e.closedUp b id u timestamp).memberBoards.lookup v).isSome = true ∨ v ∈ e.displacedMembers ↔
      e.Enrolled v ∧ v ≠ u
    rw [hlook, Enrolled]
    by_cases hvu : v = u
    · subst hvu
      have hnr : v ∉ b.members.filter (· ≠ v) := fun hx => ((hin v).mp hx).2 rfl
      rw [if_neg hnr, if_pos rfl]
      exact iff_of_false (fun hx => hx.elim (fun hy => by cases hy) (h.not_waiting hb hmem)) fun hx => hx.2 rfl
    · rw [and_iff_left hvu]
      by_cases hv : v ∈ b.members.filter (· ≠ u)
      · rw [if_pos hv, h.lookup_member hb ((hin v).mp hv).1]
      · rw [if_neg hv, if_neg hvu]

theorem vacate_waiting (h : Ready ids e) (hu : e.memberBoards.lookup u = none) (timestamp : Int) :
    ∃ moved e', (vacate u timestamp).run e = .ok moved e' ∧ Expels ids u e e' := by
  refine ⟨[], { e with displacedMembers := e.displacedMembers.filter fun m => m != u }, ?_, ?_⟩
  · simp only [vacate, run_bind, run_get, hu, run_modify, run_pure]
  · refine ⟨⟨⟨⟨h.width, h.height, h.total, h.proper, h.seq_inj⟩, h.seated, h.waiting.filter _,
      fun v hv => h.apart v (mem_filter.mp hv).1⟩, h.unused, h.in_range⟩, fun v => ?_, Nat.le_refl _⟩
    show (e.memberBoards.lookup v).isSome = true ∨ v ∈ e.displacedMembers.filter (fun m => m != u) ↔
      e.Enrolled v ∧ v ≠ u
    rw [mem_filter, bne_iff_ne, Enrolled]
    by_cases hvu : v = u
    · subst hvu
      simp [hu]
    · simp [hvu]

theorem vacate_run (h : Ready ids e) (u : Uuid) (timestamp : Int) :
    ∃ moved e', (vacate u timestamp).run e = .ok moved e' ∧ Expels ids u e e' := by
  cases hu : e.memberBoards.lookup u with
  | none => exact vacate_waiting h hu timestamp
  | some id =>
    obtain ⟨b, hb, -⟩ := h.seated.mp hu
    obtain ⟨moved, hrun⟩ := vacate_seated h.toSound hu hb timestamp
    exact ⟨moved, _, hrun, h.closedUp hu hb timestamp⟩

theorem cycleBoardOf_does (h : Ready ids e) (u : Uuid) : Cycling ids (cycleBoardOf ids timestamp u) e := by
  refine does_get ?_
  split
  · exact ifFull_does cycleBoard_does h _
  · exact does_pure (Keeps.refl h)

theorem Keeps.expels {e'' : BoardPlanEngine} (hk : Keeps ids e e') (hx : Expels ids u e' e'') :
    Expels ids u e e'' :=
  ⟨hx.ready, fun v => by rw [hx.enrolled, hk.enrolled], Nat.le_trans hk.next hx.next⟩

theorem takeMemberOut_does (h : Ready ids e) (u : Uuid) :
    Call.Does (takeMemberOut ids u timestamp) e (fun _ e' => Expels ids u e e') Exhausted := by
  refine (cycleBoardOf_does h u).bind fun _ e1 h1 => ?_
  obtain ⟨moved, e2, hrun, hx⟩ := vacate_run h1.ready u timestamp
  exact does_run_bind hrun (does_pure (h1.expels hx))

/-- **Removing a member removes exactly that user, or is refused.** -/
theorem removeMember_does (h : Ready ids e) (u : Uuid) (timestamp : Int) :
    Call.Does (removeMember ids u timestamp) e (fun _ e' => e.Enrolled u ∧ Expels ids u e e')
      (Refused e) := by
  refine does_checked (safe_stopIf _) fun _ hc => ?_
  have hu : e.Enrolled u := by
    rw [enrolled_iff_listed]
    exact Bool.of_not_eq_false (stopIf_eq_ok.mp hc)
  refine Call.Does.mono (?_ : Call.Does _ e (fun _ e' => Expels ids u e e') Exhausted)
    (fun _ _ hx => ⟨hu, hx⟩) fun _ _ hx => hx.refused
  refine (drainFullBoards_does h).bind fun _ e1 h1 => (takeMemberOut_does h1.1.ready u).bind fun _ e2 h2 => ?_
  exact does_pure (h1.1.expels h2)

/-! ## 3. Dissolving a board -/

theorem checkDissolve_safe : (e.checkDissolve id).Safe := by
  unfold checkDissolve
  split
  · exact safe_err _
  · split
    · exact safe_err _
    · exact safe_ok _

/-- The engine with a board's members on the waiting list. -/
def dissolved (e : BoardPlanEngine) (id : Uuid) (b : Board) : BoardPlanEngine :=
  { e with
    boards := e.boards.erase id
    memberBoards := b.members.foldl (fun m memberId => m.erase memberId) e.memberBoards
    displacedMembers := e.displacedMembers ++ b.members }

theorem Ready.dissolved (h : Ready ids e) (hb : e.boards.lookup id = some b) :
    Ready ids (e.dissolved id b) ∧ ∀ v, (e.dissolved id b).Enrolled v ↔ e.Enrolled v := by
  have hboards : ∀ i, (e.dissolved id b).boards.lookup i = if i = id then none else e.boards.lookup i :=
    Maps.lookup_erase _ _
  have hlook : ∀ v, (e.dissolved id b).memberBoards.lookup v =
      if v ∈ b.members then none else e.memberBoards.lookup v := fun v => lookup_foldl_erase _ _ _
  refine ⟨⟨⟨h.toShaped.change rfl rfl rfl (Nat.le_refl _) fun i c hc => .inl ?_, fun {v i} => ?_, ?_,
    fun v hv => ?_⟩, fun hn hlim => ?_, h.in_range⟩, fun v => ?_⟩
  · rw [hboards] at hc
    split at hc
    · cases hc
    · exact hc
  · unfold On
    rw [hlook, hboards]
    by_cases hv : v ∈ b.members
    · rw [if_pos hv]
      refine iff_of_false (fun hx => by cases hx) fun hx => ?_
      obtain ⟨c, hc, hmem⟩ := hx
      split at hc
      · cases hc
      · rename_i hi
        have hlk := h.seated.mpr ⟨c, hc, hmem⟩
        rw [h.lookup_member hb hv] at hlk
        exact hi (Option.some.inj hlk).symm
    · rw [if_neg hv, h.seated]
      by_cases hi : i = id
      · rw [if_pos hi, hi, on_of_lookup hb]
        refine iff_of_false hv fun hx => ?_
        obtain ⟨c, hc, -⟩ := hx
        cases hc
      · rw [if_neg hi]
        rfl
  · show (e.displacedMembers ++ b.members).Nodup
    rw [nodup_append]
    exact ⟨h.waiting, (h.proper hb).nodup, fun a ha c hc hac => h.not_waiting hb hc (hac ▸ ha)⟩
  · rw [hlook]
    split
    · rfl
    · rename_i hv'
      rcases mem_append.mp hv with hv | hv
      · exact h.apart v hv
      · exact absurd hv hv'
  · rw [hboards]
    split
    · rfl
    · exact h.unused hn hlim
  · show ((e.dissolved id b).memberBoards.lookup v).isSome = true ∨ v ∈ e.displacedMembers ++ b.members ↔
      e.Enrolled v
    rw [hlook, mem_append, Enrolled]
    by_cases hv : v ∈ b.members
    · simp [hv, h.lookup_member hb hv]
    · simp [hv]

/-- **Dissolving a board changes no user's enrolment, or is refused.** -/
theorem dissolveBoard_does (h : Ready ids e) (id : Uuid) (timestamp : Int) :
    Call.Does (dissolveBoard ids id timestamp) e
      (fun _ e' => Ready ids e' ∧ (∀ v, e'.Enrolled v ↔ e.Enrolled v) ∧
        e.nextBoardSeq ≤ e'.nextBoardSeq) (Refused e) := by
  refine does_checked checkDissolve_safe fun b hc => ?_
  have hb : e.boards.lookup id = some b := by
    unfold checkDissolve at hc
    split at hc
    · cases hc
    · split at hc
      · cases hc
      · cases hc
        assumption
  obtain ⟨hready, henr⟩ := h.dissolved hb
  refine does_modify ?_
  refine ((drainFullBoards_does hready).mono (fun _ _ hx => hx) fun _ _ hx => hx.refused).bind
    fun _ e1 h1 => ?_
  exact does_pure ⟨h1.1.ready, fun v => (h1.1.enrolled v).trans (henr v), h1.1.next⟩

/-! ## 4. Compressing inactive members -/

theorem compressEach_does : ∀ (l : List CompressedMember) {e : BoardPlanEngine}, Ready ids e →
    Call.Does (compressEach ids timestamp l) e (fun r e' => Ready ids e' ∧ e.nextBoardSeq ≤ e'.nextBoardSeq ∧
        (∀ v, e'.Enrolled v ↔ e.Enrolled v ∧ v ∉ l.map CompressedMember.userId) ∧
        ∀ v, v ∈ r.1.map CompressedMember.userId ↔
          v ∈ l.map CompressedMember.userId ∧ e.Enrolled v) Exhausted := by
  intro l
  induction l with
  | nil =>
    intro e h
    exact does_pure ⟨h, Nat.le_refl _, fun v => by simp, fun v => by simp⟩
  | cons m rest ih =>
    intro e h
    refine does_get ?_
    by_cases hm : e.listed m.userId = true
    · rw [if_pos hm]
      refine (takeMemberOut_does h m.userId).bind fun r e1 h1 => (ih h1.ready).bind fun r2 e2 h2 => ?_
      obtain ⟨hready, hnext, henr, hrep⟩ := h2
      have hin := enrolled_iff_listed.mpr hm
      refine does_pure ⟨hready, Nat.le_trans h1.next hnext, fun v => ?_, fun v => ?_⟩
      · rw [henr, h1.enrolled, map_cons, mem_cons]
        tauto
      · rw [map_cons, map_cons, mem_cons, mem_cons, hrep, h1.enrolled]
        by_cases hv : v = m.userId
        · subst hv
          simp [hin]
        · simp [hv]
    · rw [if_neg hm]
      have hout : ¬ e.Enrolled m.userId := fun hx => hm (enrolled_iff_listed.mp hx)
      refine (ih h).imp fun r e1 h1 => ?_
      obtain ⟨hready, hnext, henr, hrep⟩ := h1
      refine ⟨hready, hnext, fun v => ?_, fun v => ?_⟩
      · rw [henr, map_cons, mem_cons]
        constructor
        · intro hx
          refine ⟨hx.1, fun hor => hor.elim (fun heq => hout (heq ▸ hx.1)) hx.2⟩
        · exact fun hx => ⟨hx.1, fun hr => hx.2 (.inr hr)⟩
      · rw [hrep, map_cons, mem_cons]
        constructor
        · exact fun hx => ⟨.inr hx.1, hx.2⟩
        · intro hx
          exact ⟨hx.1.resolve_left fun heq => hout (heq ▸ hx.2), hx.2⟩

theorem mem_seatedOf {members : List Uuid} : v ∈ (e.seatedOf members).map CompressedMember.userId ↔
    v ∈ members ∧ (e.memberBoards.lookup v).isSome = true := by
  rw [mem_map]
  constructor
  · intro h
    obtain ⟨m, hm, rfl⟩ := h
    obtain ⟨w, hw, hm⟩ := mem_filterMap.mp hm
    obtain ⟨id, hid, rfl⟩ := Option.map_eq_some_iff.mp hm
    exact ⟨hw, by rw [hid]; rfl⟩
  · intro h
    obtain ⟨hv, hs⟩ := h
    obtain ⟨id, hid⟩ := Option.isSome_iff_exists.mp hs
    exact ⟨⟨v, id⟩, mem_filterMap.mpr ⟨v, hv, by rw [hid]; rfl⟩, rfl⟩

/-- **Compressing takes out those listed users who were seated, and reports them.** It never fails. -/
theorem compressInactive_does (h : Ready ids e) (members : List Uuid) (timestamp : Int) :
    Call.Does (compressInactive ids members timestamp) e
      (fun r e' => Ready ids e' ∧ e.nextBoardSeq ≤ e'.nextBoardSeq ∧
        (∀ v, v ∈ r.compressed.map CompressedMember.userId ↔
          v ∈ members ∧ (e.memberBoards.lookup v).isSome = true) ∧ ∀ v, e'.Enrolled v ↔
          e.Enrolled v ∧ v ∉ r.compressed.map CompressedMember.userId) Exhausted := by
  refine does_get ?_
  refine (drainFullBoards_does h).bind fun _ e1 h1 =>
    (compressEach_does (e.seatedOf members) h1.1.ready).bind fun r e2 h2 => ?_
  obtain ⟨hready, hnext, henr, hrep⟩ := h2
  have hreport : ∀ v, v ∈ r.1.map CompressedMember.userId ↔
      v ∈ members ∧ (e.memberBoards.lookup v).isSome = true := fun v => by
    rw [hrep, mem_seatedOf, h1.1.enrolled]
    exact and_iff_left_of_imp fun hx => .inl hx.2
  refine does_pure ⟨hready, Nat.le_trans h1.1.next hnext, hreport, fun v => ?_⟩
  rw [henr, h1.1.enrolled, hreport, mem_seatedOf]

end BoardPlanEngine

end MlmForge.BoardPlan
