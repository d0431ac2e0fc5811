/-
  Subject:   Runs of the streamline engine.

  * **`streamline_stays_sound`** -- with stream ids and depths left it also restores, and no call panicked;
  * **`streamline_depth_panics`** -- the call that finds 2^32 members on a stream does;
  * **`seat_not_frozen_iff`** -- the one way onto a frozen stream is to be the first member of an engine
    whose stream 1 is frozen;
  * **`placement_complete_iff`** -- a stream that is found takes the recruit exactly when the engine has
    members and the stream is empty or has the sponsor on it, and a depth left.
-/
import MlmForge.Engine.Operations
import MlmForge.Streamline.Exits

namespace MlmForge.Streamline

open Engine Option List Query Call AList

/-- A call on the engine. -/
inductive StreamlineCall where
  | addMember (userId sponsorId : Uuid) (timestamp : Int) (streamIdOverride : Option Nat)
  | removeMember (userId : Uuid) (timestamp : Int)
  | expandStreams (userId : Uuid) (totalAllowed : Nat) (timestamp : Int)
  | updateStreamAllowance (userId : Uuid) (totalAllowed : Nat) (timestamp : Int)
  deriving DecidableEq, Repr

namespace StreamlineEngine

/-- What a call does; its result is not looked at. -/
def serve : StreamlineCall → Call StreamlineError StreamlineEngine Unit
  | .addMember userId sponsorId timestamp choice =>
    (fun _ => ()) <$> addMember userId sponsorId timestamp choice
  | .removeMember userId _ => (fun _ => ()) <$> removeMember userId
  | .expandStreams userId totalAllowed timestamp =>
    (fun _ => ()) <$> expandStreams userId totalAllowed timestamp
  | .updateStreamAllowance userId totalAllowed timestamp =>
    (fun _ => ()) <$> updateStreamAllowance userId totalAllowed timestamp

/-- The engine that a sequence of calls leaves, errors included. -/
def runFrom (config : StreamlineConfig) (timestamp : Int) (calls : List StreamlineCall) :
    StreamlineEngine :=
  afterAll (calls.map serve) (new config timestamp)

/-- How many streams an engine has ever created, the initial one included. -/
def streamsCreated (e : StreamlineEngine) : Nat := e.nextStreamId - 1

variable {e e' : StreamlineEngine} {config : StreamlineConfig} {start : Int}

/-! ## 1. The invariant -/

theorem new_sound (config : StreamlineConfig) (timestamp : Int) : (new config timestamp).Sound := by
  have hlook : ∀ {id s}, (new config timestamp).streams.lookup id = some s →
      id = 1 ∧ s = Stream.empty 1 Uuid.nil timestamp := by
    intro id s hs
    have hmem := mem_lookup_iff.mp hs
    rw [new, singleton_entries, mem_singleton] at hmem
    cases hmem
    exact ⟨rfl, rfl⟩
  refine ⟨⟨fun {id s} hs => ?_, fun {id s} hs => ?_, Nat.lt_succ_self 1, fun {u ids} => ?_⟩,
    ⟨fun {u ids} hu => ?_, fun {u id} hu _ => ?_⟩⟩
  · obtain ⟨rfl, rfl⟩ := hlook hs
    exact ⟨rfl, [], ⟨holds_new, rfl⟩, fun _ => .inl rfl⟩
  · obtain ⟨rfl, -⟩ := hlook hs
    exact Nat.lt_succ_self 1
  · have hnone : (new config timestamp).userStreams.lookup u = none := rfl
    rw [hnone]
    refine ⟨fun hu => (by cases hu), fun hex => ?_⟩
    obtain ⟨id, -, hon⟩ := hex
    obtain ⟨s, hs, hc⟩ := on_eq_true.mp hon
    obtain ⟨-, rfl⟩ := hlook hs
    exact absurd hc Bool.false_ne_true
  · cases hu
  · constructor
    · intro hmem
      exact absurd hmem not_mem_nil
    · intro hat
      obtain ⟨s, hs, ho⟩ := map_eq_some_iff.mp hat
      obtain ⟨-, rfl⟩ := hlook hs
      exact absurd ho.symm hu

theorem serve_fine (h : e.Sound) (c : StreamlineCall) : Fine e ((serve c).run e) := by
  cases c with
  | addMember u s ts choice => exact (addMember_fine h u s ts choice).map _
  | removeMember u ts => exact (removeMember_fine h u).map _
  | expandStreams u n ts => exact (expandStreams_fine h n).map _
  | updateStreamAllowance u n ts => exact (updateStreamAllowance_fine h u n ts).map _

theorem Fine.after {c : Call StreamlineError StreamlineEngine Unit} (h : Fine e (c.run e)) :
    (c.after e).Sound ∧ e.nextStreamId ≤ (c.after e).nextStreamId := by
  unfold Call.after
  cases hr : c.run e with
  | ok x e' =>
    rw [hr] at h
    exact h
  | error stop e' =>
    rw [hr] at h
    exact ⟨h.1, h.2.1⟩

/-- **Every engine that a run reaches is sound**, and its cursor only moves on. -/
theorem sound_of_run (calls : List StreamlineCall) : ∀ {e : StreamlineEngine}, e.Sound →
    (afterAll (calls.map serve) e).Sound ∧ e.nextStreamId ≤ (afterAll (calls.map serve) e).nextStreamId := by
  induction calls with
  | nil => exact fun h => ⟨h, Nat.le_refl _⟩
  | cons c calls ih =>
    intro e h
    obtain ⟨h1, hle⟩ := (serve_fine h c).after
    obtain ⟨h2, hle'⟩ := ih h1
    exact ⟨h2, Nat.le_trans hle hle'⟩

theorem runFrom_append (calls more : List StreamlineCall) : runFrom config start (calls ++ more) =
      afterAll (more.map serve) (runFrom config start calls) := by
  rw [runFrom, runFrom, afterAll, afterAll, afterAll, map_append, foldl_append]

theorem runFrom_sound (calls : List StreamlineCall) : (runFrom config start calls).Sound :=
  (sound_of_run calls (new_sound config start)).1

end StreamlineEngine

open StreamlineEngine

/-- **The streamline engine stays sound.** After any sequence of calls on a new engine that has not used
    up the stream ids, and that no call found with a stream of 2^32 members, every stream is a chain whose
    bottom is its last member and whose sponsors are above their recruits, the two indexes say exactly which
    stream holds and which streams name a user, stream 1 is nobody's or its top member's, and the engine
    restores; and no call on the way panicked. -/
theorem streamline_stays_sound (config : StreamlineConfig) (timestamp : Int) (calls : List StreamlineCall)
    (hids : (runFrom config timestamp calls).streamsCreated < 2 ^ 32 - 2)
    (hroom : Throughout Roomy (calls.map serve) (new config timestamp)) :
    (runFrom config timestamp calls).Sound ∧ (runFrom config timestamp calls).validateRestored = .ok () ∧
    ∀ before c later, calls = before ++ c :: later → ∀ stop e',
      (serve c).run (runFrom config timestamp before) = .error stop e' → ∃ x, stop = .err x := by
  have hcursor : (runFrom config timestamp calls).nextStreamId < maxStreamId := by
    unfold streamsCreated at hids
    unfold maxStreamId
    omega
  have hsound : (runFrom config timestamp calls).Sound := runFrom_sound calls
  refine ⟨hsound, hsound.validateRestored hcursor, fun before c later hsplit stop e' hrun => ?_⟩
  have hb : (runFrom config timestamp before).Sound := runFrom_sound before
  have hfine := serve_fine hb c
  have hafter : (serve c).after (runFrom config timestamp before) = e' := by
    unfold Call.after
    rw [hrun]
  rw [hrun] at hfine
  -- the cursor only moves on, so it was not at its end after this call either
  have hlater : e'.nextStreamId ≤ (runFrom config timestamp calls).nextStreamId := by
    rw [hsplit, runFrom_append, ← hafter]
    exact (sound_of_run later (serve_fine hb c).after.1).2
  rw [hsplit, map_append, map_cons] at hroom
  rcases hfine.2.2 with herr | hspent | hfull
  · exact herr
  · omega
  · exact absurd hroom.before hfull

/-- A run that enrols, expands, freezes and removes. -/
def sampleRun : List StreamlineCall :=
  [.addMember 1 9 0 none, .addMember 2 1 1 none, .addMember 3 2 2 none, .expandStreams 1 2 3,
    .removeMember 2 4, .updateStreamAllowance 1 0 5]

def sampleConfig : StreamlineConfig := ⟨.sponsorStream, true, true⟩

theorem streamline_stays_sound_sample : (runFrom sampleConfig 0 sampleRun).streamsCreated < 2 ^ 32 - 2 ∧
    Throughout Roomy (sampleRun.map serve) (new sampleConfig 0) ∧
    ((runFrom sampleConfig 0 sampleRun).Sound ∧ (runFrom sampleConfig 0 sampleRun).validateRestored = .ok () ∧
      ∀ before c later, sampleRun = before ++ c :: later → ∀ stop e',
        (serve c).run (runFrom sampleConfig 0 before) = .error stop e' → ∃ x, stop = .err x) := by
  have h : (runFrom sampleConfig 0 sampleRun).streamsCreated < 2 ^ 32 - 2 := by decide +kernel
  have hroom : Throughout Roomy (sampleRun.map serve) (new sampleConfig 0) := by decide +kernel
  exact ⟨h, hroom, streamline_stays_sound sampleConfig 0 sampleRun h hroom⟩

/-! ## 2. A stream at its last depth -/

/-- The calls that put user after user onto stream 1. -/
def queueCall (k : Nat) : StreamlineCall := .addMember (lineUser k) (lineUser 0) 0 none

def queueCalls (d : Nat) : List StreamlineCall := (List.range (d + 1)).map queueCall

theorem queueCalls_succ (d : Nat) : runFrom sampleConfig 0 (queueCalls (d + 1)) =
    (serve (queueCall (d + 1))).after (runFrom sampleConfig 0 (queueCalls d)) := by
  rw [queueCalls, range_succ, map_append, runFrom_append]
  rfl

/-- The engine has one stream, with users `0` to `d` on it. -/
structure Queue (d : Nat) (e : StreamlineEngine) : Prop where
  sound : e.Sound
  stream : ∃ s l, e.streams.lookup 1 = some s ∧ s.frozen = false ∧ s.Chained l ∧ l.length = d + 1 ∧
    lineUser 0 ∈ users l
  owner : e.streamOwners.lookup (lineUser 0) = some [1]
  config : e.config = sampleConfig
  cursor : e.nextStreamId = 2
  first : e.userStreams.lookup (lineUser 0) ≠ none
  rest : ∀ k, d < k → k ≤ 2 ^ 32 → e.userStreams.lookup (lineUser k) = none

/-- What the call for the next one does. -/
theorem Queue.call {d : Nat} {e : StreamlineEngine} (h : Queue d e) (hd : d < 2 ^ 32) :
    (addMember (lineUser (d + 1)) (lineUser 0) 0 none).run e =
      (appendTo 1 (lineUser (d + 1)) (lineUser 0) 0).run e := by
  obtain ⟨s, l, hs, hfrozen, -⟩ := h.stream
  have hkeys : e.userStreams.keys ≠ [] := by
    obtain ⟨ids, hids⟩ := ne_none_iff_exists'.mp h.first
    exact ne_nil_of_mem (AList.mem_keys.mp (AList.lookup_isSome.mp (by rw [hids]; rfl)))
  have hcheck : e.checkAddMember (lineUser (d + 1)) (lineUser 0) = .ok false := by
    simp [checkAddMember, stopIf, lineUser_ne_nil hd, h.rest _ (Nat.lt_succ_self d) hd, hkeys, h.owner,
      bind, Except.bind]
  have hfound : e.findPlacementStream (lineUser 0) none = .ok 1 := by
    simp [findPlacementStream, h.owner, h.config, sampleConfig, firstUnfrozen, hs, hfrozen]
  rw [addMember_run hcheck, if_neg Bool.false_ne_true, hfound]

theorem queue_calls (d : Nat) (hd : d < 2 ^ 32) : Queue d (runFrom sampleConfig 0 (queueCalls d)) := by
  induction d with
  | zero =>
    have hsound : (runFrom sampleConfig 0 (queueCalls 0)).Sound := runFrom_sound _
    obtain ⟨s, hs⟩ : ∃ s, (runFrom sampleConfig 0 (queueCalls 0)).streams.lookup 1 = some s := ⟨_, rfl⟩
    have hfacts : s.frozen = false ∧ s.tree.userIds = [lineUser 0] := by
      cases hs
      exact ⟨rfl, rfl⟩
    obtain ⟨l, hl, -⟩ := (hsound.housed.proper hs).chained
    have hperm := hl.holds.userIds_perm
    rw [hfacts.2] at hperm
    have hlen := hperm.length_eq
    rw [users, length_map] at hlen
    refine ⟨hsound, ⟨s, l, hs, hfacts.1, hl, hlen.symm, hperm.mem_iff.mp mem_cons_self⟩, rfl, rfl, rfl,
      by decide, fun k hk hk' => ?_⟩
    have hus : (runFrom sampleConfig 0 (queueCalls 0)).userStreams = StreamLists.push ∅ (lineUser 0) 1 := rfl
    rw [hus, StreamLists.lookup_push, if_neg fun e => Nat.ne_of_gt hk (lineUser_inj hk' (by decide) e)]
    rfl
  | succ d ih =>
    have h := ih (Nat.lt_of_succ_lt hd)
    have hlt : d < 2 ^ 32 := Nat.lt_of_succ_lt hd
    obtain ⟨s, l, hs, hfrozen, hl, hlen, hmem⟩ := h.stream
    obtain ⟨t, hrun, hsound, hc⟩ := appendTo_ok h.sound hs hl (hlen ▸ hd) (lineUser_ne_nil hd.le)
      (h.rest _ (Nat.lt_succ_self d) hd.le) (.inr hmem) 0
    have hafter : runFrom sampleConfig 0 (queueCalls (d + 1)) =
        (runFrom sampleConfig 0 (queueCalls d)).withRecruit 1 s t (lineUser (d + 1)) := by
      rw [queueCalls_succ, queueCall, Call.after, serve, run_map, h.call hlt, hrun]
    have hne : ∀ k, k ≤ 2 ^ 32 → k ≠ d + 1 → lineUser k ≠ lineUser (d + 1) := fun k hk hkd e =>
      hkd (lineUser_inj hk hd.le e)
    rw [hafter]
    refine ⟨hsound, ⟨_, _, lookup_insert _, hfrozen, hc, ?_, mem_cons_of_mem _ hmem⟩, h.owner, h.config,
      h.cursor, ?_, fun k hk hk' => ?_⟩
    · rw [appended, length_cons, hlen]
    · rw [withRecruit, StreamLists.lookup_push, if_neg (hne 0 (Nat.zero_le _) (Nat.succ_ne_zero d).symm)]
      exact h.first
    · rw [withRecruit, StreamLists.lookup_push, if_neg (hne k hk' (Nat.ne_of_gt hk))]
      exact h.rest k (Nat.lt_of_succ_lt hk) hk'

theorem Queue.full {e : StreamlineEngine} (h : Queue (2 ^ 32 - 1) e) : ∃ e',
    (serve (queueCall (2 ^ 32))).run e = .error depthPanic e' ∧ e'.nextStreamId = 2 := by
  obtain ⟨s, l, hs, -, hl, hlen, hmem⟩ := h.stream
  have hfull := appendTo_full h.sound hs hl (by rw [hlen]; decide) (lineUser_ne_nil (le_refl _))
    (h.rest _ (by decide) (le_refl _)) hmem 0
  refine ⟨{ e with streams := e.streams.insert 1 s }, ?_, h.cursor⟩
  rw [queueCall, serve, run_map, show (addMember (lineUser (2 ^ 32)) (lineUser 0) 0 none).run e = _ from
    (h.call (by decide)).trans hfull]

/-- **A stream runs out of depths**: with one stream created, and 2^32 members on it, the next call
    panics. -/
theorem streamline_depth_panics : ∃ calls c e',
    (runFrom sampleConfig 0 (calls ++ [c])).streamsCreated < 2 ^ 32 - 2 ∧
    (serve c).run (runFrom sampleConfig 0 calls) = .error depthPanic e' := by
  obtain ⟨e', hrun, hnext⟩ := (queue_calls (2 ^ 32 - 1) (by decide)).full
  refine ⟨_, _, e', ?_, hrun⟩
  rw [runFrom_append, map_singleton, afterAll, foldl_cons, Call.after, hrun, streamsCreated, foldl_nil, hnext]
  decide

/-! ## 3. Frozen streams -/

namespace StreamlineEngine

/-- Whether a stream is there and frozen. -/
def frozenAt (e : StreamlineEngine) (id : Nat) : Bool := (e.streams.lookup id).any Stream.frozen

/-- What a call answered. -/
def answer {α : Type} : EStateM.Result (Stop StreamlineError) StreamlineEngine α →
    Query StreamlineError α
  | .ok a _ => .ok a
  | .error stop _ => .error stop

variable {e e' : StreamlineEngine} {u sponsor : Uuid} {ts : Int} {choice : Option Nat} {sid : Nat}

theorem check_of_added {r : AddMemberResult} (h : (addMember u sponsor ts choice).run e = .ok r e') :
    ∃ first, e.checkAddMember u sponsor = .ok first := by
  cases hc : e.checkAddMember u sponsor with
  | ok first => exact ⟨first, rfl⟩
  | error stop =>
    simp only [addMember, run_bind, run_reads, hc] at h
    cases h

theorem appendTo_stream (h : e.Sound) (hu : u ≠ Uuid.nil) (hnew : e.userStreams.lookup u = none)
    {s : Stream} (hs : e.streams.lookup sid = some s) {r : AddMemberResult}
    (hrun : (appendTo sid u sponsor ts).run e = .ok r e') : r.streamId = sid := by
  obtain ⟨l, hl, -⟩ := (h.housed.proper hs).chained
  by_cases hon : l = [] ∨ sponsor ∈ users l
  · by_cases hroom : l.length < 2 ^ 32
    · obtain ⟨t, hok, -⟩ := appendTo_ok h hs hl hroom hu hnew hon ts
      rw [hok] at hrun
      cases hrun
      rfl
    · have hsp := hon.resolve_left fun hnil => hroom (by rw [hnil]; decide)
      rw [appendTo_full h hs hl hroom hu hnew hsp ts] at hrun
      cases hrun
  · obtain ⟨hne, hsp⟩ := not_or.mp hon
    rw [appendTo_refused h hs hl hu hnew hne hsp ts] at hrun
    cases hrun

theorem frozenAt_of_lookup {s : Stream} (hs : e.streams.lookup sid = some s) : e.frozenAt sid = s.frozen := by
  rw [frozenAt, hs]
  rfl

theorem frozenAt_of_none (hs : e.streams.lookup sid = none) : e.frozenAt sid = false := by
  rw [frozenAt, hs]
  rfl

end StreamlineEngine

/-- **Who is seated on a frozen stream.** In every engine that a run reaches, a call that adds a member
    seats them on a stream that was not frozen, exactly when the engine had a member or its stream 1 was
    not frozen: the first member is seated on stream 1 as it is. -/
theorem seat_not_frozen_iff (config : StreamlineConfig) (timestamp : Int) (calls : List StreamlineCall)
    (u sponsor : Uuid) (ts : Int) (choice : Option Nat) (r : AddMemberResult) (e' : StreamlineEngine)
    (hrun : (addMember u sponsor ts choice).run (runFrom config timestamp calls) = .ok r e') :
    (runFrom config timestamp calls).frozenAt r.streamId = false ↔
      (runFrom config timestamp calls).userStreams.keys ≠ [] ∨
        (runFrom config timestamp calls).frozenAt 1 = false := by
  have h : (runFrom config timestamp calls).Sound := runFrom_sound calls
  revert hrun h
  generalize runFrom config timestamp calls = e
  intro hrun h
  obtain ⟨first, hc⟩ := check_of_added hrun
  obtain ⟨hu, hnew, hfirst⟩ := checkAddMember_ok hc
  rw [addMember_run hc] at hrun
  cases first with
  | true =>
    have hk := hfirst.mp rfl
    have hid := (bootstrapFirstMember_fine h hu hnew hk ts).2 r e' hrun
    have hnot : ¬ (e.userStreams.keys ≠ []) := fun hne => hne hk
    rw [hid, or_iff_right hnot]
    cases h1 : e.streams.lookup 1 with
    | some s => rfl
    | none =>
      rw [frozenAt_of_none h1]
      exact iff_of_true (frozenAt_of_none h.housed.lookup_next) rfl
  | false =>
    have hk : e.userStreams.keys ≠ [] := fun hk => absurd (hfirst.mpr hk) Bool.false_ne_true
    rw [if_neg Bool.false_ne_true] at hrun
    cases hf : e.findPlacementStream sponsor choice with
    | error stop =>
      rw [hf] at hrun
      cases hrun
    | ok sid =>
      rw [hf] at hrun
      obtain ⟨⟨s, hs, hfrozen⟩, -⟩ := findPlacementStream_ok hf
      rw [appendTo_stream h hu hnew hs hrun, frozenAt_of_lookup hs, hfrozen]
      exact iff_of_true rfl (.inl hk)

/-- An owner of two streams is demoted, and one of them is frozen. -/
def partlyFrozen : StreamlineEngine :=
  runFrom sampleConfig 0 [.addMember 1 9 0 none, .expandStreams 1 2 1, .updateStreamAllowance 1 1 2]

theorem seat_not_frozen_iff_demoted : ∃ r e', (addMember 2 1 3 none).run partlyFrozen = .ok r e' ∧
    partlyFrozen.frozenAt 2 = true ∧ partlyFrozen.frozenAt r.streamId = false ∧
    (partlyFrozen.frozenAt r.streamId = false ↔
      partlyFrozen.userStreams.keys ≠ [] ∨ partlyFrozen.frozenAt 1 = false) :=
  ⟨_, _, rfl, by decide +kernel, by decide +kernel, seat_not_frozen_iff sampleConfig 0
    [.addMember 1 9 0 none, .expandStreams 1 2 1, .updateStreamAllowance 1 1 2] 2 1 3 none _ _ rfl⟩

/-- The only stream is frozen and its only member leaves. -/
def frozenRun : List StreamlineCall :=
  [.addMember 1 9 0 none, .updateStreamAllowance 1 0 1, .removeMember 1 2]

theorem seated_on_frozen :
    answer ((addMember 2 9 3 none).run (runFrom sampleConfig 0 frozenRun)) = .ok ⟨1, 0⟩ ∧
    (runFrom sampleConfig 0 frozenRun).frozenAt 1 = true := by
  decide +kernel

/-! ## 4. Placement -/

namespace StreamlineEngine

variable {e : StreamlineEngine} {u sponsor : Uuid} {ts : Int} {choice : Option Nat} {sid : Nat}

theorem checkAddMember_of_found (hu : u ≠ Uuid.nil) (hnew : e.userStreams.lookup u = none)
    (hf : e.findPlacementStream sponsor choice = .ok sid) :
    e.checkAddMember u sponsor = .ok (decide (e.userStreams.keys = [])) := by
  obtain ⟨-, hmem⟩ := findPlacementStream_ok hf
  have hknown : (e.streamOwners.lookup sponsor).isNone = false := by
    cases ho : e.streamOwners.lookup sponsor with
    | some ids => rfl
    | none =>
      rw [StreamLists.of, ho] at hmem
      exact absurd hmem not_mem_nil
  by_cases hk : e.userStreams.keys = []
  · simp [checkAddMember, stopIf, hu, hnew, hk, bind, Except.bind]
  · simp [checkAddMember, stopIf, hu, hnew, hk, hknown, bind, Except.bind]

/-- The call added the user at the bottom of the stream. -/
def Appended (e : StreamlineEngine) (sid : Nat) (u sponsor : Uuid) (ts : Int)
    (result : EStateM.Result (Stop StreamlineError) StreamlineEngine AddMemberResult) : Prop :=
  ∃ e' s s' l, result = .ok ⟨sid, l.length⟩ e' ∧ e.streams.lookup sid = some s ∧ s.Chained l ∧
    e'.streams.lookup sid = some s' ∧ s'.Chained (appended l u sponsor ts)

/-- The stream is empty, or has the user on it and a depth left. -/
def Open (e : StreamlineEngine) (sid : Nat) (u : Uuid) : Prop :=
  ∃ s, e.streams.lookup sid = some s ∧
    (s.tree.userIds = [] ∨ s.tree.contains u = true ∧ s.tree.userIds.length < 2 ^ 32)

end StreamlineEngine

/-- **When a stream that is found takes the recruit.** In every engine that a run reaches, for a new
    user and a sponsor for whom a stream is found, the call appends the user at the bottom of that
    stream exactly when the engine has a member and the stream is empty or has the sponsor on it, and a
    depth left. -/
theorem placement_complete_iff (config : StreamlineConfig) (timestamp : Int)
    (calls : List StreamlineCall) (u sponsor : Uuid) (ts : Int) (choice : Option Nat) (sid : Nat)
    (hu : u ≠ Uuid.nil) (hnew : (runFrom config timestamp calls).userStreams.lookup u = none)
    (hf : (runFrom config timestamp calls).findPlacementStream sponsor choice = .ok sid) :
    Appended (runFrom config timestamp calls) sid u sponsor ts
        ((addMember u sponsor ts choice).run (runFrom config timestamp calls)) ↔
      (runFrom config timestamp calls).userStreams.keys ≠ [] ∧
        (runFrom config timestamp calls).Open sid sponsor := by
  have h : (runFrom config timestamp calls).Sound := runFrom_sound calls
  revert hnew hf h
  generalize runFrom config timestamp calls = e
  intro hnew hf h
  obtain ⟨⟨s, hs, -⟩, hmem⟩ := findPlacementStream_ok hf
  obtain ⟨l, hl, hown⟩ := (h.housed.proper hs).chained
  have hlen : s.tree.userIds.length = l.length := hl.holds.userIds_perm.length_eq.trans (length_map _)
  have hopen : e.Open sid sponsor ↔ l = [] ∨ sponsor ∈ users l ∧ l.length < 2 ^ 32 := by
    rw [← hl.holds.contains, ← hl.holds.userIds_eq_nil, ← hlen]
    constructor
    · intro ho
      obtain ⟨s', hs', ho⟩ := ho
      cases hs.symm.trans hs'
      exact ho
    · exact fun ho => ⟨s, hs, ho⟩
  rw [addMember_run (checkAddMember_of_found hu hnew hf), hopen, hf]
  by_cases hk : e.userStreams.keys = []
  · -- the first member goes to stream 1 or a new one, and a sponsor owns neither
    rw [if_pos (decide_eq_true hk)]
    refine iff_of_false (fun happ => ?_) fun hx => hx.1 hk
    obtain ⟨e', s1, s', l', hrun, -⟩ := happ
    have hid := (bootstrapFirstMember_fine h hu hnew hk ts).2 _ _ hrun
    simp only at hid
    split at hid
    · have hsponsor : sponsor ≠ Uuid.nil := by
        intro e0
        subst e0
        rw [StreamLists.of] at hmem
        cases ho : e.streamOwners.lookup Uuid.nil with
        | some ids => exact (h.owned.listed ho).1 rfl
        | none =>
          rw [ho] at hmem
          exact not_mem_nil hmem
      have hat := (h.owned.owned hsponsor hsponsor).mp hmem
      rw [ownerAt_of_lookup hs] at hat
      have hnil := h.housed.no_member hk hs hl
      subst hnil
      rcases hown hid with ho | ho
      · exact hsponsor (some.inj hat ▸ ho)
      · exact hsponsor (some.inj hat ▸ ho)
    · rw [hid, h.housed.lookup_next] at hs
      cases hs
  · rw [if_neg (by simpa using hk)]
    by_cases hon : l = [] ∨ sponsor ∈ users l
    · by_cases hroom : l.length < 2 ^ 32
      · obtain ⟨t, hrun, -, hc'⟩ := appendTo_ok h hs hl hroom hu hnew hon ts
        exact iff_of_true ⟨_, s, _, l, hrun, hs, hl, lookup_insert _, hc'⟩ ⟨hk, hon.imp_right (⟨·, hroom⟩)⟩
      · have hne : l ≠ [] := fun hnil => hroom (by rw [hnil]; decide)
        refine iff_of_false (fun happ => ?_) fun hx => hroom (hx.2.resolve_left hne).2
        obtain ⟨e', s1, s', l', hrun, -⟩ := happ
        simp only [appendTo_full h hs hl hroom hu hnew (hon.resolve_left hne) ts] at hrun
        cases hrun
    · obtain ⟨hne, hsp⟩ := not_or.mp hon
      refine iff_of_false (fun happ => ?_) fun hx => hsp (hx.2.resolve_left hne).1
      obtain ⟨e', s1, s', l', hrun, -⟩ := happ
      simp only [appendTo_refused h hs hl hu hnew hne hsp ts] at hrun
      cases hrun

/-- A recruit sits alone on an expanded stream of their sponsor, who is not on it. -/
def expandedRun : List StreamlineCall :=
  [.addMember 1 9 0 none, .expandStreams 1 2 1, .addMember 2 1 2 (some 2)]

theorem placement_complete_iff_second :
    (3 : Uuid) ≠ Uuid.nil ∧ (runFrom sampleConfig 0 expandedRun).userStreams.lookup 3 = none ∧
    (runFrom sampleConfig 0 expandedRun).findPlacementStream 1 (some 2) = .ok 2 ∧
    (Appended (runFrom sampleConfig 0 expandedRun) 2 3 1 4
        ((addMember 3 1 4 (some 2)).run (runFrom sampleConfig 0 expandedRun)) ↔
      (runFrom sampleConfig 0 expandedRun).userStreams.keys ≠ [] ∧
        (runFrom sampleConfig 0 expandedRun).Open 2 1) := by
  have h1 : (3 : Uuid) ≠ Uuid.nil := by decide
  have h2 : (runFrom sampleConfig 0 expandedRun).userStreams.lookup 3 = none := by decide +kernel
  have h3 : (runFrom sampleConfig 0 expandedRun).findPlacementStream 1 (some 2) = .ok 2 := by
    decide +kernel
  exact ⟨h1, h2, h3, placement_complete_iff sampleConfig 0 expandedRun 3 1 4 (some 2) 2 h1 h2 h3⟩

theorem owned_stream_refuses : (runFrom sampleConfig 0 expandedRun).findPlacementStream 1 (some 2) = .ok 2 ∧
    answer ((addMember 3 1 3 (some 2)).run (runFrom sampleConfig 0 expandedRun)) =
      .error (.err (.treeError .add (.sponsorNotFound 1))) := by
  decide +kernel

end MlmForge.Streamline
