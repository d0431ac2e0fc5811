/-
  Subject:   Appends to one event store at the same time.

  `appends` is `append` with its critical section cut into steps: the checks, then one write for each
  event. Reads take the lock too, so what they see is the store between two appends, where nobody is
  inside.

  * **`interleaved_appends_consistent`** -- however the steps of any number of appends are interleaved,
    there is an order of the calls that have answered in which the store holds the batches of those that
    succeeded, one after the other, and nothing else; the store is consistent, no two of them have won
    the same version, and reads page through exactly what is stored.
-/
import MlmForge.Basis.Mutex
import MlmForge.Platform.EventStore

namespace MlmForge.Platform

open MemoryEventStore Call List

/-! ## 1. Appends, step by step -/

/-- The arguments of an append. -/
structure AppendCall where
  stream : Text
  expectedVersion : Int
  events : List NewEvent
  now : Int

abbrev Answer := Except (Stop EventStoreError) Unit

/-- What an append has left to do under the lock. -/
inductive AppendWork where
  | check (c : AppendCall)
  | write (stream : Text) (now : Int) (current : Nat) (rest : List (Text × NewEvent))

/-- `append` in steps. -/
def appends [UuidLib] : Guarded MemoryEventStore AppendCall AppendWork Answer where
  prepare c :=
    match checkArguments c.stream c.events with
    | .ok _ => .inl (.check c)
    | .error e => .inr (.error e)
  step w s :=
    match w with
    | .check c =>
      match s.checkAppend c.stream c.expectedVersion c.events with
      | .ok ids => (s, .inl (.write c.stream c.now (s.eventsOf c.stream).length (ids.zip c.events)))
      | .error e => (s, .inr (.error e))
    | .write _ _ _ [] => (s, .inr (.ok ()))
    | .write stream now current ((id, ne) :: rest) =>
      (s.push stream now (current + 1) id ne, .inl (.write stream now (current + 1) rest))

/-- How a call ends, from its answer and the store it leaves. -/
def ending (r : Answer) (s : MemoryEventStore) : EStateM.Result (Stop EventStoreError) MemoryEventStore Unit :=
  match r with
  | .ok _ => .ok () s
  | .error e => .error e s

section Steps

variable [UuidLib] {c : AppendCall} {s s' : MemoryEventStore} {w : AppendWork} {r : Answer}

/-- Where an append is after some steps: at its checks, or with a part of the batch to write that leads
    to the same store as the whole batch. -/
theorem works_append {w0 : AppendWork} (h : appends.Works w0 s w s') (hw0 : w0 = .check c) :
    (w = .check c ∧ s' = s) ∨
      ∃ ids current rest, s.checkAppend c.stream c.expectedVersion c.events = .ok ids ∧
        w = .write c.stream c.now current rest ∧ s'.pushAll c.stream c.now current rest =
          s.pushAll c.stream c.now (s.eventsOf c.stream).length (ids.zip c.events) := by
  induction h with
  | none => exact .inl ⟨hw0, rfl⟩
  | more _ step ih =>
    rcases ih with ⟨rfl, rfl⟩ | ⟨ids, current, rest, hids, rfl, hwrite⟩
    · simp only [appends] at step
      split at step
      · rename_i ids hids
        cases step
        exact .inr ⟨ids, _, _, hids, rfl, rfl⟩
      · cases step
    · cases rest with
      | nil => cases step
      | cons e rest =>
        cases step
        exact .inr ⟨ids, current + 1, rest, hids, rfl, hwrite⟩

/-- **The steps of an append are the append.** -/
theorem runs_append (h : appends.Runs c s r s') :
    (append c.stream c.expectedVersion c.events c.now).run s = ending r s' := by
  cases h with
  | refused prepare =>
    simp only [appends] at prepare
    split at prepare
    · cases prepare
    · rename_i e hargs
      cases prepare
      simp only [append, run_bind, run_reads, hargs, ending]
  | done prepare works step =>
    simp only [appends] at prepare
    split at prepare
    · rename_i hargs
      cases prepare
      rcases works_append works rfl with ⟨rfl, rfl⟩ | ⟨ids, current, rest, hids, rfl, hwrite⟩
      · simp only [appends] at step
        split at step
        · cases step
        · rename_i e hcheck
          cases step
          simp only [append, run_bind, run_reads, hargs, hcheck, ending]
      · cases rest with
        | cons e rest => cases step
        | nil =>
          cases step
          simp only [append, run_bind, run_reads, run_modify, hargs, hids, ending, ← hwrite, pushAll]
    · cases prepare

theorem runs_cases (h : s.Consistent) (hrun : appends.Runs c s r s') :
    (∃ e, r = .error e ∧ s' = s) ∨ (r = .ok () ∧ Appended c.stream c.expectedVersion c.events s s') := by
  have hdoes := append_does h c.stream c.expectedVersion c.events c.now
  have hends := runs_append hrun
  cases r with
  | error e => exact .inl ⟨e, rfl, hdoes.error hends⟩
  | ok u => exact .inr ⟨rfl, hdoes.ok hends⟩

end Steps

/-! ## 2. One append after the other -/

section Serial

variable {κ : Type} {call : κ → AppendCall} {log : List (κ × Answer)} {s : MemoryEventStore}

/-- **What calls that were made one after the other have stored**: each one that succeeded its whole batch,
    in one piece, and each one that failed nothing. -/
inductive Contents [UuidLib] (call : κ → AppendCall) : List (κ × Answer) → List Event → Prop where
  | none : Contents call [] []
  | failed {log : List (κ × Answer)} {stored : List Event} {k : κ} {e : Stop EventStoreError}
      (before : Contents call log stored) : Contents call (log ++ [(k, .error e)]) stored
  | succeeded {log : List (κ × Answer)} {stored new : List Event} {k : κ}
      (before : Contents call log stored)
      (batch : List.Forall₂ (Stored (call k).stream) (call k).events new) :
      Contents call (log ++ [(k, .ok ())]) (stored ++ new)

/-- What calls made one after the other keep. A version that was won is one the stream is past. -/
structure Accounts [UuidLib] (call : κ → AppendCall) (log : List (κ × Answer)) (s : MemoryEventStore) : Prop where
  consistent : s.Consistent
  contents : Contents call log s.global
  past : ∀ k, (k, .ok ()) ∈ log → (call k).expectedVersion < (s.eventsOf (call k).stream).length
  winner : ∀ k j, k ≠ j → (k, .ok ()) ∈ log → (j, .ok ()) ∈ log → (call k).stream = (call j).stream →
    (call k).expectedVersion = (call j).expectedVersion → (call k).expectedVersion < 0

theorem mem_snoc_error {k j : κ} {e : Stop EventStoreError} (h : (j, .ok ()) ∈ log ++ [(k, .error e)]) :
    (j, .ok ()) ∈ log := by
  rcases mem_append.mp h with h | h
  · exact h
  · cases mem_singleton.mp h

theorem mem_snoc_ok {k j : κ} (h : (j, .ok ()) ∈ log ++ [(k, .ok ())]) : (j, .ok ()) ∈ log ∨ j = k := by
  rcases mem_append.mp h with h | h
  · exact .inl h
  · cases mem_singleton.mp h
    exact .inr rfl

/-- **One more append keeps account.** -/
theorem Accounts.next [UuidLib] {k : κ} {r : Answer} {s' : MemoryEventStore} (h : Accounts call log s)
    (hrun : appends.Runs (call k) s r s') : Accounts call (log ++ [(k, r)]) s' := by
  rcases runs_cases h.consistent hrun with ⟨e, rfl, rfl⟩ | ⟨rfl, happ⟩
  · exact ⟨h.consistent, .failed h.contents, fun j hj => h.past j (mem_snoc_error hj),
      fun i j hij hi hj => h.winner i j hij (mem_snoc_error hi) (mem_snoc_error hj)⟩
  · obtain ⟨new, hglobal, hstored⟩ := happ.written
    obtain ⟨hlonger, hlength⟩ := happ.length_le h.consistent
    -- the stream was exactly as long as this call expected, and past what any earlier winner expected
    have hlast : ∀ j, (j, .ok ()) ∈ log → (call j).stream = (call k).stream →
        (call j).expectedVersion = (call k).expectedVersion → (call j).expectedVersion < 0 := by
      intro j hj hstream hversion
      have hpast := h.past j hj
      have hexpected := happ.expected
      rw [hstream] at hpast
      omega
    refine ⟨happ.consistent, hglobal ▸ .succeeded h.contents hstored, fun j hj => ?_,
      fun i j hij hi hj hstream hversion => ?_⟩
    · rcases mem_snoc_ok hj with hj | rfl
      · exact lt_of_lt_of_le (h.past j hj) (Int.ofNat_le.mpr (hlength _))
      · have hexpected := happ.expected
        omega
    · rcases mem_snoc_ok hi with hi' | rfl
      · rcases mem_snoc_ok hj with hj' | rfl
        · exact h.winner i j hij hi' hj' hstream hversion
        · exact hlast i hi' hstream hversion
      · rcases mem_snoc_ok hj with hj' | rfl
        · exact hversion ▸ hlast j hj' hstream.symm hversion.symm
        · exact absurd rfl hij

theorem accounts_serial [UuidLib] {s0 : MemoryEventStore} (h : appends.Serial call s0 log s) (hs0 : s0 = new) :
    Accounts call log s := by
  induction h with
  | none =>
    subst hs0
    exact ⟨consistent_new, .none, nofun, nofun⟩
  | next _ runs ih => exact ih.next runs

end Serial

/-! ## 3. Any interleaving -/

/-- A page of a stream past a version. -/
def streamPage (s : MemoryEventStore) (stream : Text) (limit cursor : Int) : List Event :=
  match s.readStream stream (cursor + 1) limit with
  | .ok events => events
  | .error _ => []

/-- **What readers see**: a read is a page of what is stored, and pages of any size, read one after the
    other from the start, are all of it. -/
structure Readable (s : MemoryEventStore) : Prop where
  stream : ∀ stream fromVersion limit, validateStreamName stream = .ok () →
    s.readStream stream fromVersion limit =
      .ok (limited limit ((s.eventsOf stream).filter fun e => fromVersion ≤ e.version))
  category : ∀ category afterPosition limit, s.readCategory category afterPosition limit =
    limited limit ((s.global.filter fun e => categoryOf e.stream = category).filter fun e =>
      afterPosition < e.globalPosition)
  streamPages : ∀ stream limit n, validateStreamName stream = .ok () → 0 < limit →
    (s.eventsOf stream).length < n →
    readPages versionOf (streamPage s stream limit) n 0 = s.eventsOf stream
  categoryPages : ∀ category limit n, 0 < limit →
    (s.global.filter fun e => categoryOf e.stream = category).length < n →
    readPages positionOf (s.readCategory category · limit) n 0 =
      s.global.filter fun e => categoryOf e.stream = category

theorem Consistent.readable [UuidLib] {s : MemoryEventStore} (h : s.Consistent) : Readable s where
  stream stream fromVersion limit hname := by
    rw [readStream_eq h hname, pageAfter]
    refine congrArg (fun l => Except.ok (limited limit l)) (filter_congr fun e _ => ?_)
    exact decide_eq_decide.mpr Int.sub_one_lt_iff
  category category afterPosition limit := readCategory_eq category afterPosition
  streamPages stream limit n hname hlimit hn := by
    have hpage : streamPage s stream limit = pageAfter versionOf (s.eventsOf stream) limit := by
      funext cursor
      rw [streamPage, readStream_eq h hname, Int.add_sub_cancel]
    rw [hpage]
    exact readPages_all (pairwise_numbered (h.versions stream)) hlimit
      (fun e he => numbered_pos (h.versions stream) he) hn
  categoryPages category limit n hlimit hn := by
    have hpage : (s.readCategory category · limit) =
        pageAfter positionOf (s.global.filter fun e => categoryOf e.stream = category) limit := by
      funext cursor
      exact readCategory_eq category cursor
    rw [hpage]
    exact readPages_all ((pairwise_numbered h.positions).filter _) hlimit
      (fun e he => numbered_pos h.positions (mem_of_mem_filter he)) hn

/-- **Appends at the same time leave a consistent store.** -/
theorem interleaved_appends_consistent [UuidLib] {κ : Type} [DecidableEq κ] (call : κ → AppendCall)
    {sys : System MemoryEventStore κ AppendWork Answer} (h : appends.Reaches call (System.start new) sys) :
    ∃ log : List (κ × Answer),
      (log.map Prod.fst).Nodup ∧ (∀ k r, sys.progress k = .answered r ↔ (k, r) ∈ log) ∧
      (∀ k j, k ≠ j → sys.progress k = .answered (.ok ()) → sys.progress j = .answered (.ok ()) →
        (call k).stream = (call j).stream → (call k).expectedVersion = (call j).expectedVersion →
        (call k).expectedVersion < 0) ∧
      (sys.Free → Contents call log sys.state.global ∧ sys.state.Consistent ∧ Readable sys.state) := by
  obtain ⟨log, last, hexp⟩ := Guarded.serializes h
  have hacc := accounts_serial hexp.serial rfl
  refine ⟨log, hexp.once, hexp.answers, fun k j hne hk hj => ?_, fun hfree => ?_⟩
  · exact hacc.winner k j hne ((hexp.answers k _).mp hk) ((hexp.answers j _).mp hj)
  · rw [hexp.free hfree]
    exact ⟨hacc.contents, hacc.consistent, Consistent.readable hacc.consistent⟩

/-- Two appends to one empty stream. -/
def rivals (k : Bool) : AppendCall :=
  ⟨[97, 45, 49], 0, [⟨replicate 32 (if k then 48 else 49), [116], some [], none⟩], 0⟩

theorem interleaved_appends_consistent_rivals :
    ∃ sys, appends.Reaches rivals (System.start new) sys ∧ sys.Free ∧ sys.progress true = .answered (.ok ()) ∧
      sys.progress false = .answered (.error (.err (.concurrency [97, 45, 49] 0 1))) ∧
      ∃ log, Contents rivals log sys.state.global := by
  have hfirst : appends.Reaches rivals (System.start new) _ :=
    ((((Relation.ReflTransGen.refl.tail (.enter (k := true) rfl rfl nofun)).tail
      (.work (k := true) rfl rfl)).tail (.work (k := true) rfl rfl)).tail (.leave (k := true) rfl rfl))
  have hrun := (hfirst.tail
    (.enter (k := false) rfl rfl (fun (k : Bool) w => by cases k <;> exact nofun))).tail
    (.leave (k := false) rfl rfl)
  obtain ⟨log, -, -, -, hstore⟩ := interleaved_appends_consistent rivals hrun
  refine ⟨_, hrun, ?free, rfl, rfl, log, (hstore ?free).1⟩
  intro k w
  cases k <;> exact nofun

end MlmForge.Platform
