/-
  Subject:   Runs of the board plan engine.

  * **`board_plan_conserves`** -- it restores, everybody has one place, and a call changes the users by
    exactly what it reports;
  * **`board_plan_errors_atomic`** -- a call that is refused changes nothing;
  * **`enrollment_possible_iff`** -- somebody new can be enrolled exactly when there is a board, and a user
    to sponsor them or no history at all.
-/
import MlmForge.Basis.HashOrder
import MlmForge.BoardPlan.Calls

namespace MlmForge.BoardPlan

open Engine Call List Query AList

/-- A call on the engine. -/
inductive BoardPlanCall where
  | addMember (userId sponsorId : Uuid) (timestamp : Int)
  | removeMember (userId : Uuid) (timestamp : Int)
  | dissolveBoard (boardId : Uuid) (timestamp : Int)
  | compressInactive (inactiveMembers : List Uuid) (timestamp : Int)
  deriving DecidableEq, Repr

/-- What a call answers. -/
inductive BoardPlanReply where
  | added (result : AddMemberResult)
  | removed (result : RemoveMemberResult)
  | dissolved (result : DissolutionResult)
  | compressed (result : CompressionResult)
  deriving DecidableEq, Repr

namespace BoardPlanEngine

variable {ids : BoardIds} {e e' start : BoardPlanEngine} {u v : Uuid}

def serve (ids : BoardIds) : BoardPlanCall → Action BoardPlanReply
  | .addMember userId sponsorId timestamp => .added <$> addMember ids userId sponsorId timestamp
  | .removeMember userId timestamp => .removed <$> removeMember ids userId timestamp
  | .dissolveBoard boardId timestamp => .dissolved <$> dissolveBoard ids boardId timestamp
  | .compressInactive members timestamp => .compressed <$> compressInactive ids members timestamp

/-- A new engine, or one that a restore accepts and whose boards have no identifier still to be drawn. -/
def Start (ids : BoardIds) (e : BoardPlanEngine) : Prop :=
  (∃ width height config timestamp, new ids width height config timestamp = .ok e) ∨
    (e.validateRestored = .ok () ∧
      ∀ n, e.nextBoardSeq ≤ n → n < seqLimit → e.boards.lookup (ids.draw n) = none)

/-- The call returned, with a value or an error, and left the engine `e'`. -/
def Returned (result : EStateM.Result (Stop BoardPlanError) BoardPlanEngine BoardPlanReply)
    (e' : BoardPlanEngine) : Prop :=
  (∃ r, result = .ok r e') ∨ ∃ x, result = .error (.err x) e'

/-- The engines that calls which return lead to. -/
inductive Reached (ids : BoardIds) (start : BoardPlanEngine) : BoardPlanEngine → Prop
  | start : Reached ids start start
  | step {e e' : BoardPlanEngine} (hr : Reached ids start e) (c : BoardPlanCall)
      (hret : Returned ((serve ids c).run e) e') : Reached ids start e'

/-! ## 1. Every engine that is reached is ready -/

theorem new_ready {width height : Nat} {config : BoardPlanConfig} {timestamp : Int}
    (h : new ids width height config timestamp = .ok e) : Ready ids e := by
  simp only [new, seq_eq_ok, stopIf_eq_ok, not_not] at h
  obtain ⟨hw, hh, he⟩ := h
  cases he
  have hlook : ∀ {i : Uuid} {b : Board}, (AList.singleton (ids.draw 0)
      (Board.new (ids.draw 0) (BoardPlan.totalPositions width height) timestamp none 0) :
      AList fun _ : Uuid => Board).lookup i = some b → i = ids.draw 0 ∧
        b = Board.new (ids.draw 0) (BoardPlan.totalPositions width height) timestamp none 0 := by
    intro i b hb
    have hmem := mem_lookup_iff.mp hb
    rw [singleton_entries, mem_singleton] at hmem
    cases hmem
    exact ⟨rfl, rfl⟩
  have hempty : (Board.new (ids.draw 0) (BoardPlan.totalPositions width height) timestamp none
      0).members = [] := reduceOption_replicate_none _
  refine ⟨⟨⟨hw, hh, rfl, fun {i b} hb => ?_, fun {i j b c} hb hc _ => ?_⟩, fun {v i} => ?_,
    nodup_nil, fun v hv => absurd hv not_mem_nil⟩, fun {n} hn hlim => ?_, by
      show 1 < seqLimit
      decide⟩
  · obtain ⟨rfl, rfl⟩ := hlook hb
    refine ⟨rfl, ?_, ?_, ?_, Nat.one_pos⟩
    · rw [hempty]
      rfl
    · rw [hempty]
      exact Nat.zero_le _
    · rw [hempty]
      exact nodup_nil
  · rw [(hlook hb).1, (hlook hc).1]
  · refine iff_of_false (fun hx => by cases hx) fun hx => ?_
    obtain ⟨b, hb, hmem⟩ := hx
    obtain ⟨-, rfl⟩ := hlook hb
    rw [hempty] at hmem
    exact not_mem_nil hmem
  · cases hb : (AList.singleton (ids.draw 0)
      (Board.new (ids.draw 0) (BoardPlan.totalPositions width height) timestamp none 0) :
      AList fun _ : Uuid => Board).lookup (ids.draw n) with
    | none => exact hb
    | some b =>
      have hn' : 1 ≤ n := hn
      have hzero := ids.distinct hlim (by decide) (hlook hb).1
      omega

theorem Start.ready (h : Start ids e) : Ready ids e := by
  rcases h with ⟨width, height, config, timestamp, h⟩ | ⟨h, hunused⟩
  · exact new_ready h
  · obtain ⟨hsound, hnext⟩ := validateRestored_iff.mp h
    refine ⟨hsound, fun {n} hn hlim => hunused n hn hlim, ?_⟩
    unfold maxRestoredBoardSeq at hnext
    unfold seqLimit
    omega

/-- How the users change with a call that returned; nothing else ends it but an exhausted counter. -/
def Conserves (e : BoardPlanEngine) :
    BoardPlanCall → EStateM.Result (Stop BoardPlanError) BoardPlanEngine BoardPlanReply → Prop
  | .addMember u _ _, .ok _ e' => ¬ e.Enrolled u ∧ ∀ v, e'.Enrolled v ↔ v = u ∨ e.Enrolled v
  | .removeMember u _, .ok _ e' => e.Enrolled u ∧ ∀ v, e'.Enrolled v ↔ e.Enrolled v ∧ v ≠ u
  | .dissolveBoard _ _, .ok _ e' => ∀ v, e'.Enrolled v ↔ e.Enrolled v
  | .compressInactive members _, .ok reply e' => ∃ result, reply = .compressed result ∧
      (∀ v, v ∈ result.compressed.map CompressedMember.userId ↔
        v ∈ members ∧ (e.memberBoards.lookup v).isSome = true) ∧
      ∀ v, e'.Enrolled v ↔ e.Enrolled v ∧ v ∉ result.compressed.map CompressedMember.userId
  | _, .error stop e' => Refused e stop e'

theorem conserves_error {c : BoardPlanCall} {stop : Stop BoardPlanError} :
    Conserves e c (.error stop e') ↔ Refused e stop e' := by
  cases c <;> exact Iff.rfl

/-- What a call that is served does, from what the call itself does. -/
theorem served {α : Type} {c : BoardPlanCall} {m : Action α} {reply : α → BoardPlanReply}
    {post : α → BoardPlanEngine → Prop} (h : Ready ids e) (hd : Call.Does m e post (Refused e))
    (hpost : ∀ a e', post a e' → Ready ids e' ∧ Conserves e c (.ok (reply a) e')) :
    Conserves e c ((reply <$> m).run e) ∧ ∀ e', Returned ((reply <$> m).run e) e' → Ready ids e' := by
  rw [run_map]
  cases hrun : m.run e with
  | ok a e1 =>
    obtain ⟨hready, hcons⟩ := hpost a e1 (hd.ok hrun)
    refine ⟨hcons, fun e' hret => ?_⟩
    rcases hret with ⟨r, hr⟩ | ⟨x, hr⟩
    · cases hr
      exact hready
    · cases hr
  | error stop e1 =>
    have href := hd.error hrun
    refine ⟨conserves_error.mpr href, fun e' hret => ?_⟩
    rcases hret with ⟨r, hr⟩ | ⟨x, hr⟩
    · cases hr
    · cases hr
      rcases href with ⟨-, rfl⟩ | ⟨hstop, -⟩
      · exact h
      · cases hstop

/-- **What a call does**: the engine stays ready if it returns, and its users change as they should. -/
theorem serve_spec (h : Ready ids e) (c : BoardPlanCall) :
    Conserves e c ((serve ids c).run e) ∧ ∀ e', Returned ((serve ids c).run e) e' → Ready ids e' := by
  cases c with
  | addMember u s ts =>
    exact served h (addMember_does h u s ts) fun _ _ hx => ⟨hx.2.ready, hx.1, hx.2.enrolled⟩
  | removeMember u ts =>
    exact served h (removeMember_does h u ts) fun _ _ hx => ⟨hx.2.ready, hx.1, hx.2.enrolled⟩
  | dissolveBoard id ts =>
    exact served h (dissolveBoard_does h id ts) fun _ _ hx => ⟨hx.1, hx.2.1⟩
  | compressInactive members ts =>
    have hd := (compressInactive_does h members ts).mono (fun _ _ hx => hx) fun _ _ hx =>
      (hx.refused : Refused e _ _)
    exact served h hd fun r _ hx => ⟨hx.1, r, rfl, hx.2.2⟩

/-- **Every engine that is reached is ready.** -/
theorem Reached.ready (hs : Start ids start) (h : Reached ids start e) : Ready ids e := by
  induction h with
  | start => exact hs.ready
  | step hr c hret ih => exact (serve_spec ih c).2 _ hret

/-! ## 2. Conservation -/

/-- A user sits at a position of a board. -/
def SeatedAt (e : BoardPlanEngine) (u : Uuid) (place : Uuid × Nat) : Prop :=
  ∃ b, e.boards.lookup place.1 = some b ∧ b.positions[place.2]? = some (some u)

/-- A user has one seat and does not wait, or has no seat and waits once. -/
def PlacedOnce (e : BoardPlanEngine) (u : Uuid) : Prop :=
  ((∃! place, e.SeatedAt u place) ∧ u ∉ e.displacedMembers) ∨
    ((∀ place, ¬ e.SeatedAt u place) ∧ e.displacedMembers.count u = 1)

theorem SeatedAt.on {place : Uuid × Nat} (h : e.SeatedAt u place) : e.On u place.1 := by
  obtain ⟨b, hb, hu⟩ := h
  exact ⟨b, hb, reduceOption_mem_iff.mpr (mem_of_getElem? hu)⟩

/-- **In a sound engine everybody has one place.** -/
theorem Sound.placedOnce (h : e.Sound) (hu : e.Enrolled u) : e.PlacedOnce u := by
  cases hs : e.memberBoards.lookup u with
  | some id =>
    left
    obtain ⟨b, hb, hmem⟩ := h.seated.mp hs
    obtain ⟨q, hq⟩ := mem_iff_getElem?.mp (reduceOption_mem_iff.mp hmem)
    refine ⟨⟨(id, q), ⟨b, hb, hq⟩, fun place hp => ?_⟩, fun hx => ?_⟩
    · have hid : place.1 = id := Option.some.inj ((h.seated.mpr hp.on).symm.trans hs)
      obtain ⟨c, hc, hcq⟩ := hp
      rw [hid, hb] at hc
      cases hc
      exact Prod.ext hid (place_unique (h.proper hb).nodup hcq hq)
    · rw [h.apart u hx] at hs
      cases hs
  | none =>
    right
    refine ⟨fun place hp => ?_, ?_⟩
    · have hlk := h.seated.mpr hp.on
      rw [hs] at hlk
      cases hlk
    · rcases hu with hu | hu
      · rw [hs] at hu
        cases hu
      · exact count_eq_one_of_mem h.waiting hu

end BoardPlanEngine

open BoardPlanEngine

/-- **The board plan conserves its members.** Every engine that is reached from a new or a restored one
    restores while its counter is in range, gives everybody who is enrolled exactly one place, and changes
    its users with each call by exactly the added user, the removed user, or the users that a compression
    reports, which are the listed ones who were seated; a call that is refused changes nothing. -/
theorem board_plan_conserves (ids : BoardIds) (start : BoardPlanEngine) (hstart : Start ids start)
    (e : BoardPlanEngine) (hreached : Reached ids start e) :
    (e.nextBoardSeq ≤ maxRestoredBoardSeq → e.validateRestored = .ok ()) ∧
    (∀ u, e.Enrolled u → e.PlacedOnce u) ∧ ∀ c, Conserves e c ((serve ids c).run e) := by
  have h := hreached.ready hstart
  exact ⟨fun hnext => validateRestored_iff.mpr ⟨h.toSound, hnext⟩, fun u hu => h.toSound.placedOnce hu,
    fun c => (serve_spec h c).1⟩

/-- Identifiers that count up from one. -/
def countedIds : BoardIds where
  draw n := BitVec.ofNat 128 (n + 1)
  distinct {m n} hm hn h := by
    have hnat := congrArg BitVec.toNat h
    unfold seqLimit at hm hn
    rw [BitVec.toNat_ofNat, BitVec.toNat_ofNat, Nat.mod_eq_of_lt (by omega),
      Nat.mod_eq_of_lt (by omega)] at hnat
    omega

/-- Boards of three positions, without re-entry. -/
def smallConfig : BoardPlanConfig := ⟨false, .bottom, 10, by decide⟩

/-- The engine that starts with them. -/
def smallEngine : BoardPlanEngine where
  width := 2
  height := 1
  totalPositions := 3
  boards := AList.singleton (countedIds.draw 0) (Board.new (countedIds.draw 0) 3 0 none 0)
  memberBoards := ∅
  sponsorMap := ∅
  displacedMembers := []
  nextBoardSeq := 1
  config := smallConfig

theorem start_smallEngine : Start countedIds smallEngine := .inl ⟨2, 1, smallConfig, 0, rfl⟩

/-- The engine that a call leaves. -/
def leftBy (c : BoardPlanCall) (e : BoardPlanEngine) : BoardPlanEngine :=
  Call.after (serve countedIds c) e

/-- The call returned a value. -/
def succeeds (c : BoardPlanCall) (e : BoardPlanEngine) : Bool :=
  match (serve countedIds c).run e with
  | .ok _ _ => true
  | .error _ _ => false

theorem run_of_succeeds {e : BoardPlanEngine} {c : BoardPlanCall} (h : succeeds c e = true) :
    ∃ reply, (serve countedIds c).run e = .ok reply (leftBy c e) := by
  unfold succeeds at h
  unfold leftBy Call.after
  split at h
  · rename_i r e' hrun
    rw [hrun]
    exact ⟨r, rfl⟩
  · cases h

theorem reached_leftBy {start e : BoardPlanEngine} {c : BoardPlanCall}
    (h : Reached countedIds start e) (hc : succeeds c e = true) : Reached countedIds start (leftBy c e) :=
  h.step c (.inl (run_of_succeeds hc))

/-- Three members fill the first board, and the first of them waits. -/
def waitingEngine : BoardPlanEngine :=
  leftBy (.addMember 3 1 2) (leftBy (.addMember 2 1 1) (leftBy (.addMember 1 1 0) smallEngine))

theorem reached_waitingEngine : Reached countedIds smallEngine waitingEngine := by
  have h1 := reached_leftBy (c := .addMember 1 1 0) (.start : Reached countedIds smallEngine _)
    (by decide +kernel)
  have h2 := reached_leftBy (c := .addMember 2 1 1) h1 (by decide +kernel)
  exact reached_leftBy (c := .addMember 3 1 2) h2 (by decide +kernel)

theorem board_plan_conserves_waiting :
    Start countedIds smallEngine ∧ Reached countedIds smallEngine waitingEngine ∧
    waitingEngine.displacedMembers = [1] ∧ waitingEngine.nextBoardSeq ≤ maxRestoredBoardSeq ∧
    (waitingEngine.validateRestored = .ok () ∧ (∀ u, waitingEngine.Enrolled u → waitingEngine.PlacedOnce u) ∧
      ∀ c, Conserves waitingEngine c ((serve countedIds c).run waitingEngine)) := by
  have hseq : waitingEngine.nextBoardSeq ≤ maxRestoredBoardSeq := by decide +kernel
  obtain ⟨hrestores, hplaced, hcalls⟩ := board_plan_conserves countedIds smallEngine start_smallEngine
    waitingEngine reached_waitingEngine
  exact ⟨start_smallEngine, reached_waitingEngine, by decide +kernel, hseq, hrestores hseq, hplaced, hcalls⟩

/-- A compression that lists a user who waits returns a value, and the user stays enrolled. -/
theorem compression_passes_over_waiting :
    Start countedIds smallEngine ∧ Reached countedIds smallEngine waitingEngine ∧ waitingEngine.Enrolled 1 ∧
    ∃ reply e', (serve countedIds (.compressInactive [1] 3)).run waitingEngine = .ok reply e' ∧
      e'.Enrolled 1 := by
  obtain ⟨reply, hrun⟩ := run_of_succeeds (c := .compressInactive [1] 3) (e := waitingEngine)
    (by decide +kernel)
  exact ⟨start_smallEngine, reached_waitingEngine, enrolled_iff_listed.mpr (by decide +kernel), reply, _, hrun,
    enrolled_iff_listed.mpr (by decide +kernel)⟩

/-! ## 3. Errors -/

/-- **An error changes nothing.** In every engine that is reached, a call that returns an error leaves the
    whole engine as it was, and nothing else stops a call but an exhausted counter; after a drain, and
    after those who wait are placed, there is an opening whenever there is a board. -/
theorem board_plan_errors_atomic (ids : BoardIds) (start : BoardPlanEngine) (hstart : Start ids start)
    (e : BoardPlanEngine) (hreached : Reached ids start e) :
    (∀ c x e', (serve ids c).run e = .error (.err x) e' → e' = e) ∧
    (∀ c stop e', (serve ids c).run e = .error stop e' → (∃ x, stop = .err x) ∨ Exhausted stop e') ∧
    ∀ timestamp drained e', (drainFullBoards ids timestamp).run e = .ok drained e' →
      (∃ id b, e.boards.lookup id = some b) → e'.HasOpening ∧
        ∀ placed e'', (placeDisplacedMembers ids timestamp).run e' = .ok placed e'' → e''.HasOpening := by
  have h := hreached.ready hstart
  refine ⟨fun c x e' hrun => ?_, fun c stop e' hrun => ?_, fun ts drained e' hrun hboard => ?_⟩
  · have hc := (serve_spec h c).1
    rw [hrun] at hc
    rcases conserves_error.mp hc with ⟨-, rfl⟩ | ⟨hstop, -⟩
    · rfl
    · cases hstop
  · have hc := (serve_spec h c).1
    rw [hrun] at hc
    exact (conserves_error.mp hc).imp (fun hx => hx.1) fun hx => hx
  · obtain ⟨hk, hopen⟩ := (drainFullBoards_does h).ok hrun
    refine ⟨hopen hboard, fun placed e'' hplace => ?_⟩
    exact ((placeDisplacedMembers_does hk.ready (hopen hboard)).ok hplace).2

def firstDomino : Board :=
  { Board.new (countedIds.draw 0) 3 0 none 0 with positions := [some 1, some 2, some 3] }

/-- The full board, one that the member who cycles out fills, and somebody who waits. -/
def dominoEngine : BoardPlanEngine where
  width := 2
  height := 1
  totalPositions := 3
  boards := (AList.singleton (countedIds.draw 1)
      { Board.new (countedIds.draw 1) 3 1 none 1 with positions := [some 4, some 5, none] }).insert
    (countedIds.draw 0) firstDomino
  memberBoards := Maps.collect [(1, countedIds.draw 0), (2, countedIds.draw 0), (3, countedIds.draw 0),
    (4, countedIds.draw 1), (5, countedIds.draw 1)]
  sponsorMap := ∅
  displacedMembers := [6]
  nextBoardSeq := 2
  config := { smallConfig with reEntryEnabled := true }

theorem start_dominoEngine : Start countedIds dominoEngine := by
  refine .inr ⟨by decide +kernel, fun n hn hlim => ?_⟩
  have hn' : 2 ≤ n := hn
  have hne : ∀ k, k < 2 → countedIds.draw n ≠ countedIds.draw k := fun k hk heq => by
    have := countedIds.distinct hlim (Nat.lt_trans hk (by decide)) heq
    omega
  show ((AList.singleton _ _).insert _ _).lookup (countedIds.draw n) = none
  rw [AList.lookup_insert_ne (hne 0 (by decide))]
  refine (AList.lookup_eq_none).mpr fun hmem => ?_
  rw [AList.mem_keys, AList.keys_singleton, mem_singleton] at hmem
  exact hne 1 (by decide) hmem

theorem lookup_firstDomino : dominoEngine.boards.lookup (countedIds.draw 0) = some firstDomino :=
  AList.lookup_insert _

/-- A refusal, and a drain of the full board after which the one who waits is placed. -/
theorem board_plan_errors_atomic_domino :
    Start countedIds dominoEngine ∧ Reached countedIds dominoEngine dominoEngine ∧
    (serve countedIds (.dissolveBoard 9 0)).run dominoEngine = .error (.err (.boardNotFound 9)) dominoEngine ∧
    ∃ drained e' placed e'', (drainFullBoards countedIds 7).run dominoEngine = .ok drained e' ∧ drained ≠ [] ∧
      (placeDisplacedMembers countedIds 7).run e' = .ok placed e'' ∧ placed ≠ [] ∧
      e'.HasOpening ∧ e''.HasOpening ∧
      (∀ c x e', (serve countedIds c).run dominoEngine = .error (.err x) e' → e' = dominoEngine) ∧
      ∀ c stop e', (serve countedIds c).run dominoEngine = .error stop e' →
        (∃ x, stop = .err x) ∨ Exhausted stop e' := by
  have hruns : (match (drainFullBoards countedIds 7).run dominoEngine with
      | .ok drained e' => !drained.isEmpty && match (placeDisplacedMembers countedIds 7).run e' with
        | .ok placed _ => !placed.isEmpty
        | .error _ _ => false
      | .error _ _ => false) = true := by
    decide +kernel
  have hrefused : (serve countedIds (.dissolveBoard 9 0)).run dominoEngine =
      .error (.err (.boardNotFound 9)) dominoEngine := rfl
  have hboard : ∃ id b, dominoEngine.boards.lookup id = some b := ⟨_, _, lookup_firstDomino⟩
  have hstart := start_dominoEngine
  -- the engine is generalized, for the calls are not to be evaluated here
  generalize dominoEngine = e at *
  obtain ⟨herrors, hstops, hdrains⟩ := board_plan_errors_atomic countedIds e hstart e .start
  cases hd : (drainFullBoards countedIds 7).run e with
  | error stop e' =>
    rw [hd] at hruns
    cases hruns
  | ok drained e' =>
    rw [hd] at hruns
    obtain ⟨hdrained, hplaces⟩ := Bool.and_eq_true_iff.mp hruns
    obtain ⟨hopen, hplacing⟩ := hdrains 7 drained e' hd hboard
    cases hp : (placeDisplacedMembers countedIds 7).run e' with
    | error stop e'' =>
      rw [hp] at hplaces
      cases hplaces
    | ok placed e'' =>
      rw [hp] at hplaces
      refine ⟨hstart, .start, hrefused, drained, e', placed, e'', rfl, ?_, hp, ?_, hopen,
        hplacing placed e'' hp, herrors, hstops⟩
      · rintro rfl
        cases hdrained
      · rintro rfl
        cases hplaces

/-! ## 4. Dead ends -/

namespace BoardPlanEngine

/-- The call was not refused: it returned a value, or no `seq` value was left. -/
def NotRefused {α : Type} (result : EStateM.Result (Stop BoardPlanError) BoardPlanEngine α) : Prop :=
  (∃ r e', result = .ok r e') ∨ ∃ stop e', result = .error stop e' ∧ Exhausted stop e'

/-- **A call to add a member is refused exactly by its checks.** -/
theorem Ready.addMember_iff {ids : BoardIds} {e : BoardPlanEngine} (h : Ready ids e) (u sponsor : Uuid)
    (timestamp : Int) :
    NotRefused ((addMember ids u sponsor timestamp).run e) ↔ e.checkAddMember u sponsor = .ok () := by
  cases hc : e.checkAddMember u sponsor with
  | ok x =>
    refine iff_of_true ?_ rfl
    have hd : Call.Does (addMember ids u sponsor timestamp) e (fun _ e' => Enters ids u e e') Exhausted :=
      addMember_passed h hc
    cases hrun : (addMember ids u sponsor timestamp).run e with
    | ok r e' => exact .inl ⟨r, e', rfl⟩
    | error stop e' => exact .inr ⟨stop, e', rfl, hd.error hrun⟩
  | error stop =>
    refine iff_of_false (fun hx => ?_) fun hx => by cases hx
    have hrun : (addMember ids u sponsor timestamp).run e = .error stop e := by
      rw [addMember, run_bind, run_reads, hc]
    rw [hrun] at hx
    obtain ⟨x, rfl⟩ := checkAddMember_safe stop hc
    rcases hx with ⟨r, e', hr⟩ | ⟨stop, e', hr, hex, -⟩
    · cases hr
    · cases hr
      cases hex

end BoardPlanEngine

/-- **When somebody new can be enrolled.** In every engine that is reached from a new one, for a user who
    is not enrolled there is a sponsor with whom the call to add them is not refused, exactly when the
    engine has a board, and either somebody is enrolled or nobody ever was. -/
theorem enrollment_possible_iff (ids : BoardIds) (width height : Nat) (config : BoardPlanConfig)
    (created : Int) (start : BoardPlanEngine) (hnew : new ids width height config created = .ok start)
    (e : BoardPlanEngine) (hreached : Reached ids start e) (u : Uuid) (hu : ¬ e.Enrolled u)
    (timestamp : Int) : (∃ sponsor, NotRefused ((addMember ids u sponsor timestamp).run e)) ↔
      e.boards.keys ≠ [] ∧ ((∃ v, e.Enrolled v) ∨ (e.memberBoards.keys = [] ∧ e.sponsorMap.keys = [])) := by
  have h := hreached.ready (.inl ⟨width, height, config, created, hnew⟩)
  constructor
  · intro hx
    obtain ⟨sponsor, hx⟩ := hx
    obtain ⟨-, hs, hboards⟩ := checkAddMember_eq_ok.mp ((h.addMember_iff u sponsor timestamp).mp hx)
    exact ⟨hboards, hs.symm.imp (fun hs => ⟨sponsor, hs⟩) fun hs => hs⟩
  · intro hx
    obtain ⟨hboards, hx⟩ := hx
    rcases hx with ⟨v, hv⟩ | hempty
    · exact ⟨v, (h.addMember_iff u v timestamp).mpr (checkAddMember_eq_ok.mpr ⟨hu, .inr hv, hboards⟩)⟩
    · exact ⟨u, (h.addMember_iff u u timestamp).mpr (checkAddMember_eq_ok.mpr ⟨hu, .inl hempty, hboards⟩)⟩

def emptiedEngine : BoardPlanEngine := leftBy (.removeMember 1 1) (leftBy (.addMember 1 1 0) smallEngine)

theorem reached_emptiedEngine : Reached countedIds smallEngine emptiedEngine := by
  have h1 := reached_leftBy (c := .addMember 1 1 0) (.start : Reached countedIds smallEngine _)
    (by decide +kernel)
  exact reached_leftBy (c := .removeMember 1 1) h1 (by decide +kernel)

/-- Nobody gets into the engine whose only member left; where somebody waits, somebody new does. -/
theorem enrollment_possible_iff_emptied :
    new countedIds 2 1 smallConfig 0 = .ok smallEngine ∧
    Reached countedIds smallEngine emptiedEngine ∧ ¬ emptiedEngine.Enrolled 2 ∧
    (¬ ∃ sponsor, NotRefused ((addMember countedIds 2 sponsor 2).run emptiedEngine)) ∧
    Reached countedIds smallEngine waitingEngine ∧ 1 ∈ waitingEngine.displacedMembers ∧
    ¬ waitingEngine.Enrolled 4 ∧
    ∃ sponsor, NotRefused ((addMember countedIds 4 sponsor 3).run waitingEngine) := by
  have hu : ¬ emptiedEngine.Enrolled 2 := mt enrolled_iff_listed.mp (by decide +kernel)
  have hu' : ¬ waitingEngine.Enrolled 4 := mt enrolled_iff_listed.mp (by decide +kernel)
  have hiff := enrollment_possible_iff countedIds 2 1 smallConfig 0 smallEngine rfl emptiedEngine
    reached_emptiedEngine 2 hu 2
  have hiff' := enrollment_possible_iff countedIds 2 1 smallConfig 0 smallEngine rfl waitingEngine
    reached_waitingEngine 4 hu' 3
  refine ⟨rfl, reached_emptiedEngine, hu, fun hx => ?_, reached_waitingEngine, by decide +kernel, hu',
    hiff'.mpr ⟨by decide +kernel, .inl ⟨1, enrolled_iff_listed.mpr (by decide +kernel)⟩⟩⟩
  rcases (hiff.mp hx).2 with ⟨v, hv⟩ | ⟨-, hhistory⟩
  · have hnobody : emptiedEngine.memberBoards.keys = [] ∧ emptiedEngine.displacedMembers = [] := by
      decide +kernel
    rcases hv with hv | hv
    · rw [Maps.lookup_of_keys_nil _ hnobody.1] at hv
      cases hv
    · rw [hnobody.2] at hv
      cases hv
  · revert hhistory
    decide +kernel

def boardlessEngine : BoardPlanEngine := leftBy (.dissolveBoard 1 0) smallEngine

/-- Once its last member was removed, or its last board dissolved, the engine refuses every sponsor. -/
theorem board_plan_dead_ends :
    Reached countedIds smallEngine emptiedEngine ∧ Reached countedIds smallEngine boardlessEngine ∧
    emptiedEngine.listed 2 = false ∧ boardlessEngine.listed 2 = false ∧
    (∀ sponsor, (addMember countedIds 2 sponsor 2).run emptiedEngine =
      .error (.err (.sponsorNotFound sponsor)) emptiedEngine) ∧
    ∀ sponsor, (addMember countedIds 2 sponsor 2).run boardlessEngine =
      .error (.err .noBoardsAvailable) boardlessEngine := by
  have hboardless := reached_leftBy (c := .dissolveBoard 1 0) (.start : Reached countedIds smallEngine _)
    (by decide +kernel)
  have hmembers : emptiedEngine.memberBoards.keys = [] := by decide +kernel
  have hwaiting : emptiedEngine.displacedMembers = [] := by decide +kernel
  have hhistory : emptiedEngine.sponsorMap.keys ≠ [] := by decide +kernel
  have hmembers' : boardlessEngine.memberBoards.keys = [] := by decide +kernel
  have hwaiting' : boardlessEngine.displacedMembers = [] := by decide +kernel
  have hhistory' : boardlessEngine.sponsorMap.keys = [] := by decide +kernel
  have hboards' : boardlessEngine.boards.keys = [] := by decide +kernel
  refine ⟨reached_emptiedEngine, hboardless, by decide +kernel, by decide +kernel, fun sponsor => ?_, fun sponsor => ?_⟩
  · have hc : emptiedEngine.checkAddMember 2 sponsor = .error (.err (.sponsorNotFound sponsor)) := by
      simp [checkAddMember, stopIf, Maps.lookup_of_keys_nil _ hmembers, hwaiting, hhistory, bind, Except.bind]
    rw [addMember, run_bind, run_reads, hc]
  · have hc : boardlessEngine.checkAddMember 2 sponsor = .error (.err .noBoardsAvailable) := by
      simp [checkAddMember, stopIf, Maps.lookup_of_keys_nil _ hmembers', hwaiting', hmembers',
        hhistory', hboards', bind, Except.bind]
    rw [addMember, run_bind, run_reads, hc]

end MlmForge.BoardPlan
