/-
  Subject:   The in-memory event store: appending batches to streams, and reading them back.

  A batch is checked as a whole before anything is written, its arguments even before the lock is taken.
  What `time.Now()` returns is given to a call. A payload is nil or its bytes. The store's set of ids is
  a list.

  * **`append_does`** -- a batch is appended whole to a consistent store, or nothing happens;
  * **`readStream_eq`**, **`readCategory_eq`** -- a read is a page of what is stored, past its cursor.
-/
import MlmForge.Basis.Maps
import MlmForge.Basis.Paging
import MlmForge.Basis.Triple
import MlmForge.Platform.CanonicalUuid

namespace MlmForge.Platform

open List Query Call

/-! ## 1. Data -/

/-- An event as it is handed in. -/
structure NewEvent where
  id : Text
  type : Text
  payload : Option Text
  metadata : Option Text
  deriving DecidableEq

/-- An event as it is stored. -/
structure Event where
  id : Text
  stream : Text
  type : Text
  version : Nat
  globalPosition : Nat
  payload : Option Text
  metadata : Option Text
  timestamp : Int
  deriving DecidableEq

structure MemoryEventStore where
  streams : AList fun _ : Text => List Event
  global : List Event
  ids : List Text

inductive EventStoreError where
  | streamEmpty
  | streamMissingSeparator (stream : Text)
  | streamEmptyCategory (stream : Text)
  | streamEmptyId (stream : Text)
  | emptyAppend
  | emptyId (index : Nat)
  | emptyType (index : Nat)
  | nilPayload (index : Nat)
  | concurrency (stream : Text) (expectedVersion : Int) (actualVersion : Nat)
  | notUuid (index : Nat) (id : Text)
  | alreadyHeld (index : Nat) (id canonical : Text)
  | repeated (index : Nat) (id canonical : Text) (first : Nat)
  deriving DecidableEq, Repr

/-! ## 2. Validation -/

/-- `strings.Cut` at the first hyphen. -/
def cutHyphen (t : Text) : Text × Text × Bool :=
  (t.takeWhile (· ≠ hyphen), (t.dropWhile (· ≠ hyphen)).tail, hyphen ∈ t)

/-- The part of a stream's name before its first hyphen. -/
def categoryOf (stream : Text) : Text := (cutHyphen stream).1

def validateStreamName (stream : Text) : Query EventStoreError Unit := do
  stopIf (stream = []) (.err .streamEmpty)
  let (cat, id, ok) := cutHyphen stream
  stopIf (ok = false) (.err (.streamMissingSeparator stream))
  stopIf (cat = []) (.err (.streamEmptyCategory stream))
  stopIf (id = []) (.err (.streamEmptyId stream))

def validateNewEvent (e : NewEvent) (index : Nat) : Query EventStoreError Unit := do
  stopIf (e.id = []) (.err (.emptyId index))
  stopIf (e.type = []) (.err (.emptyType index))
  stopIf (e.payload = none) (.err (.nilPayload index))

/-- What is checked before the lock is taken. -/
def checkArguments (stream : Text) (events : List NewEvent) : Query EventStoreError Unit := do
  validateStreamName stream
  stopIf (events = []) (.err .emptyAppend)
  forM events.zipIdx fun e => validateNewEvent e.1 e.2

namespace MemoryEventStore

/-! ## 3. Methods -/

def new : MemoryEventStore := ⟨∅, [], []⟩

/-- The events of a stream; none for one that is not there. -/
def eventsOf (s : MemoryEventStore) (stream : Text) : List Event := (s.streams.lookup stream).getD []

/-- The canonical ids of a batch. Those of its events already read are in `batch`, in their order, so that
    the place of an id there is the index of the event it belongs to. -/
def checkIds [UuidLib] (held : List Text) : List Text → List NewEvent → Query EventStoreError (List Text)
  | _, [] => .ok []
  | batch, ne :: rest =>
    match canonicalUUID ne.id with
    | none => .error (.err (.notUuid batch.length ne.id))
    | some id =>
      if id ∈ held then .error (.err (.alreadyHeld batch.length ne.id id))
      else
        match batch.idxOf? id with
        | some first => .error (.err (.repeated batch.length ne.id id first))
        | none => do
            let ids ← checkIds held (batch ++ [id]) rest
            .ok (id :: ids)

/-- What is checked under the lock: the version, then the ids. -/
def checkAppend [UuidLib] (stream : Text) (expectedVersion : Int) (events : List NewEvent)
    (s : MemoryEventStore) : Query EventStoreError (List Text) := do
  let current := (s.eventsOf stream).length
  stopIf (0 ≤ expectedVersion ∧ expectedVersion ≠ current)
    (.err (.concurrency stream expectedVersion current))
  checkIds s.ids [] events

/-- Writes one event. -/
def push (stream : Text) (now : Int) (version : Nat) (id : Text) (ne : NewEvent) (s : MemoryEventStore) :
    MemoryEventStore :=
  let evt : Event :=
    ⟨id, stream, ne.type, version, s.global.length + 1, ne.payload, ne.metadata, now⟩
  { streams := s.streams.insert stream (s.eventsOf stream ++ [evt])
    global := s.global ++ [evt]
    ids := s.ids ++ [id] }

/-- Writes a batch after the version `current`. -/
def pushAll (stream : Text) (now : Int) : Nat → List (Text × NewEvent) → MemoryEventStore → MemoryEventStore
  | _, [], s => s
  | current, (id, ne) :: rest, s =>
    pushAll stream now (current + 1) rest (s.push stream now (current + 1) id ne)

def append [UuidLib] (stream : Text) (expectedVersion : Int) (events : List NewEvent) (now : Int) :
    Call EventStoreError MemoryEventStore Unit := do
  reads fun _ => checkArguments stream events
  let ids ← reads (checkAppend stream expectedVersion events)
  modify fun s => s.pushAll stream now (s.eventsOf stream).length (ids.zip events)

def readStream (s : MemoryEventStore) (stream : Text) (fromVersion limit : Int) :
    Query EventStoreError (List Event) := do
  validateStreamName stream
  let events := s.eventsOf stream
  let fromVersion := if fromVersion < 1 then 1 else fromVersion
  let startIdx := (fromVersion - 1).toNat
  if events.length ≤ startIdx then .ok []
  else .ok (limited limit (events.drop startIdx))

def readCategory (s : MemoryEventStore) (category : Text) (afterPosition limit : Int) : List Event :=
  limited limit (s.global.filter fun e => afterPosition < e.globalPosition ∧ categoryOf e.stream = category)

/-! ## 4. Consistent stores -/

/-- **A consistent store.** -/
structure Consistent [UuidLib] (s : MemoryEventStore) : Prop where
  positions : s.global.map Event.globalPosition = range' 1 s.global.length
  inStream : ∀ stream, s.eventsOf stream = s.global.filter fun e => e.stream = stream
  versions : ∀ stream, (s.eventsOf stream).map Event.version = range' 1 (s.eventsOf stream).length
  distinct : s.global.Pairwise fun a b => parseUUID a.id ≠ parseUUID b.id
  canonical : ∀ e ∈ s.global, ∃ spelling, canonicalUUID spelling = some e.id
  held : ∀ id, id ∈ s.ids ↔ ∃ e ∈ s.global, e.id = id

theorem consistent_new [UuidLib] : new.Consistent where
  positions := rfl
  inStream _ := rfl
  versions _ := rfl
  distinct := List.Pairwise.nil
  canonical _ h := absurd h not_mem_nil
  held id := by simp [new]

section Push

variable {s : MemoryEventStore} {stream id : Text} {now : Int} {version : Nat} {ne : NewEvent}

theorem eventsOf_push (other : Text) : (s.push stream now version id ne).eventsOf other =
    if other = stream then
      s.eventsOf stream ++ [⟨id, stream, ne.type, version, s.global.length + 1, ne.payload, ne.metadata, now⟩]
    else s.eventsOf other := by
  unfold eventsOf push
  rw [Maps.lookup_insert]
  split <;> rfl

variable [UuidLib] {spelling : Text}

theorem Consistent.denotes_other (h : s.Consistent) (hnew : id ∉ s.ids)
    (hid : canonicalUUID spelling = some id) {e : Event} (he : e ∈ s.global) :
    parseUUID e.id ≠ parseUUID id := by
  intro heq
  obtain ⟨other, hother⟩ := h.canonical e he
  rw [parseUUID_canonicalUUID hother, parseUUID_canonicalUUID hid] at heq
  have hsame := (canonicalUUID_eq_iff hid).mpr heq
  rw [hother] at hsame
  exact hnew ((h.held id).mpr ⟨e, he, Option.some.inj hsame⟩)

/-- **Writing one event keeps a store consistent**, if its id is new and its version is the next. -/
theorem Consistent.push (h : s.Consistent) (hnew : id ∉ s.ids)
    (hid : canonicalUUID spelling = some id) (hversion : version = (s.eventsOf stream).length + 1) :
    (s.push stream now version id ne).Consistent where
  positions := by
    simp [MemoryEventStore.push, h.positions, range'_concat, Nat.add_comm]
  inStream other := by
    rw [eventsOf_push, MemoryEventStore.push, filter_append]
    split
    · rename_i heq
      subst heq
      rw [h.inStream other]
      simp
    · rename_i hne
      rw [h.inStream other]
      simp [Ne.symm hne]
  versions other := by
    rw [eventsOf_push]
    split
    · rw [map_append, h.versions stream, length_append, length_singleton, range'_concat, hversion]
      simp [Nat.add_comm]
    · exact h.versions other
  distinct := by
    refine pairwise_append.mpr ⟨h.distinct, pairwise_singleton _ _, fun e he e' he' => ?_⟩
    rw [mem_singleton.mp he']
    exact h.denotes_other hnew hid he
  canonical e he := by
    rcases mem_append.mp he with he | he
    · exact h.canonical e he
    · rw [mem_singleton.mp he]
      exact ⟨spelling, hid⟩
  held other := by
    simp only [MemoryEventStore.push, mem_append, mem_singleton, h.held, or_and_right, exists_or,
      exists_eq_left, eq_comm]

end Push

/-! ## 5. Appending -/

section Appending

variable [UuidLib]

/-- An event stored for one that was handed in. -/
structure Stored (stream : Text) (ne : NewEvent) (e : Event) : Prop where
  id : canonicalUUID ne.id = some e.id
  stream : e.stream = stream
  type : e.type = ne.type
  payload : e.payload = ne.payload
  metadata : e.metadata = ne.metadata

/-- Ids that were read for a batch: canonical, without repetition, and new. -/
structure Fresh (held batch : List Text) (events : List NewEvent) (ids : List Text) : Prop where
  canonical : List.Forall₂ (fun ne id => canonicalUUID ne.id = some id) events ids
  nodup : ids.Nodup
  apart : ∀ id ∈ ids, id ∉ held ∧ id ∉ batch

theorem checkIds_ok {held : List Text} : ∀ {events : List NewEvent} {batch ids : List Text},
    checkIds held batch events = .ok ids → Fresh held batch events ids := by
  intro events
  induction events with
  | nil =>
    intro batch ids h
    cases h
    exact ⟨.nil, nodup_nil, nofun⟩
  | cons ne rest ih =>
    intro batch ids h
    rw [checkIds] at h
    split at h
    · cases h
    · rename_i id hid
      split at h
      · cases h
      · rename_i hheld
        split at h
        · cases h
        · rename_i hbatch
          obtain ⟨later, hlater, h⟩ := bind_eq_ok.mp h
          cases h
          have hfresh := ih hlater
          have hid' : id ∉ batch := by simpa using hbatch
          refine ⟨.cons hid hfresh.canonical, nodup_cons.mpr ⟨fun hmem => ?_, hfresh.nodup⟩,
            fun other hother => ?_⟩
          · exact (hfresh.apart id hmem).2 (mem_append_right _ (mem_singleton.mpr rfl))
          · rcases mem_cons.mp hother with rfl | hother
            · exact ⟨hheld, hid'⟩
            · obtain ⟨h1, h2⟩ := hfresh.apart other hother
              exact ⟨h1, fun hmem => h2 (mem_append_left _ hmem)⟩

variable {stream : Text} {events : List NewEvent}

/-- **Writing a batch keeps a store consistent** and adds its events, in their order. -/
theorem Consistent.pushAll {now : Int} {ids : List Text}
    (hcanonical : List.Forall₂ (fun ne id => canonicalUUID ne.id = some id) events ids) :
    ∀ {s : MemoryEventStore} {current : Nat}, s.Consistent → ids.Nodup → (∀ id ∈ ids, id ∉ s.ids) →
      current = (s.eventsOf stream).length → (s.pushAll stream now current (ids.zip events)).Consistent ∧
        ∃ new, (s.pushAll stream now current (ids.zip events)).global = s.global ++ new ∧
          List.Forall₂ (Stored stream) events new := by
  induction hcanonical with
  | nil =>
    intro s current h _ _ _
    exact ⟨h, [], (append_nil _).symm, .nil⟩
  | @cons ne id events ids hid _ ih =>
    intro s current h hnodup hnew hcurrent
    obtain ⟨hnot, hnodup⟩ := nodup_cons.mp hnodup
    have hfirst : (s.push stream now (current + 1) id ne).Consistent :=
      h.push (hnew id mem_cons_self) hid (congrArg (· + 1) hcurrent)
    have hrest : ∀ other ∈ ids, other ∉ (s.push stream now (current + 1) id ne).ids := by
      intro other hother hmem
      rcases mem_append.mp hmem with hmem | hmem
      · exact hnew other (mem_cons_of_mem _ hother) hmem
      · exact hnot (mem_singleton.mp hmem ▸ hother)
    have hnext : current + 1 = ((s.push stream now (current + 1) id ne).eventsOf stream).length := by
      rw [eventsOf_push, if_pos rfl, length_append, hcurrent]
      rfl
    obtain ⟨hdone, new, hglobal, hstored⟩ := ih hfirst hnodup hrest hnext
    let evt : Event := ⟨id, stream, ne.type, current + 1, s.global.length + 1, ne.payload, ne.metadata, now⟩
    have hevt : Stored stream ne evt := ⟨hid, rfl, rfl, rfl, rfl⟩
    exact ⟨hdone, evt :: new, hglobal.trans (append_assoc _ _ _), .cons hevt hstored⟩

/-- What a batch that was appended has done to a store: it was expected there, and its events stand at the
    end of the log. -/
structure Appended (stream : Text) (expectedVersion : Int) (events : List NewEvent)
    (s s' : MemoryEventStore) : Prop where
  consistent : s'.Consistent
  expected : 0 ≤ expectedVersion → expectedVersion = (s.eventsOf stream).length
  nonempty : events ≠ []
  written : ∃ new, s'.global = s.global ++ new ∧ List.Forall₂ (Stored stream) events new

/-- **A batch is appended whole, or nothing happens.** -/
theorem append_does {s : MemoryEventStore} (h : s.Consistent) (stream : Text) (expectedVersion : Int)
    (events : List NewEvent) (now : Int) : (append stream expectedVersion events now).Does s
      (fun _ s' => Appended stream expectedVersion events s s') (fun _ s' => s' = s) := by
  unfold append
  refine does_reads_bind (fun _ _ => rfl) fun _ hargs => ?_
  refine does_reads_bind (fun _ _ => rfl) fun ids hids => does_modify_last ?_
  obtain ⟨-, hargs⟩ := seq_eq_ok.mp hargs
  obtain ⟨hexpected, hids⟩ := seq_eq_ok.mp hids
  have hfresh := checkIds_ok hids
  obtain ⟨hdone, hwritten⟩ := Consistent.pushAll hfresh.canonical h hfresh.nodup
    (fun id hid => (hfresh.apart id hid).1) rfl
  refine ⟨hdone, fun hv => ?_, stopIf_eq_ok.mp (seq_eq_ok.mp hargs).1, hwritten⟩
  by_contra hne
  exact stopIf_eq_ok.mp hexpected ⟨hv, hne⟩

theorem Appended.length_le {expectedVersion : Int}
    {s s' : MemoryEventStore} (h : s.Consistent) (happ : Appended stream expectedVersion events s s') :
    (s.eventsOf stream).length < (s'.eventsOf stream).length ∧
      ∀ other, (s.eventsOf other).length ≤ (s'.eventsOf other).length := by
  obtain ⟨new, hglobal, hstored⟩ := happ.written
  have hgrown : ∀ other, s'.eventsOf other = s.eventsOf other ++ new.filter fun e => e.stream = other := by
    intro other
    rw [happ.consistent.inStream, h.inStream, hglobal, filter_append]
  refine ⟨?_, fun other => by rw [hgrown, length_append]; exact Nat.le_add_right _ _⟩
  cases hstored with
  | nil => exact absurd rfl happ.nonempty
  | cons hfirst _ =>
    rw [hgrown, length_append, filter_cons_of_pos (by simpa using hfirst.stream), length_cons]
    omega

end Appending

/-! ## 6. Reading -/

section Reading

variable {s : MemoryEventStore} {limit : Int} {f : Event → Nat}

/-- Elements that are numbered in their order, from `k + 1`: those with a larger number than `c` are what
    is left after the first `c - k`. -/
theorem filter_numbered (c : Int) : ∀ {l : List Event} {k : Nat},
    l.map f = range' (k + 1) l.length → (l.filter fun e => c < f e) = l.drop (c - k).toNat := by
  intro l
  induction l with
  | nil => exact fun _ => drop_nil.symm
  | cons e l ih =>
    intro k h
    rw [map_cons, length_cons, range'_succ, List.cons.injEq] at h
    obtain ⟨hfirst, hrest⟩ := h
    have ih := ih hrest
    by_cases hc : c < f e
    · have hzero : (c - k).toNat = 0 := by omega
      have hzero' : (c - ((k + 1 : Nat) : Int)).toNat = 0 := by omega
      rw [filter_cons_of_pos (by simpa using hc), ih, hzero, hzero']
      rfl
    · have hsucc : (c - k).toNat = (c - ((k + 1 : Nat) : Int)).toNat + 1 := by omega
      rw [filter_cons_of_neg (by simpa using hc), ih, hsucc]
      rfl

variable {l : List Event} {n : Nat}

theorem pairwise_numbered {k : Nat} (h : l.map f = range' k n) : l.Pairwise fun a b => (f a : Int) < f b := by
  have hsorted : (l.map f).Pairwise (· < ·) := h ▸ pairwise_lt_range'
  exact (pairwise_map.mp hsorted).imp fun hlt => Int.ofNat_lt.mpr hlt

theorem numbered_pos (h : l.map f = range' 1 n) {e : Event} (he : e ∈ l) : (0 : Int) < f e := by
  have hmem : f e ∈ range' 1 n := h ▸ mem_map_of_mem he
  have hpos := (mem_range'_1.mp hmem).1
  omega

/-- The place of an event in its stream, as a cursor. -/
def versionOf (e : Event) : Int := e.version

/-- The place of an event in the log, as a cursor. -/
def positionOf (e : Event) : Int := e.globalPosition

/-- **Reading a stream**: the events from a version on, which is past the one before it. -/
theorem readStream_eq [UuidLib] (h : s.Consistent) {stream : Text} (hname : validateStreamName stream = .ok ())
    (fromVersion : Int) : s.readStream stream fromVersion limit =
      .ok (pageAfter versionOf (s.eventsOf stream) limit (fromVersion - 1)) := by
  have hpast : ((s.eventsOf stream).filter fun e => fromVersion - 1 < versionOf e) =
      (s.eventsOf stream).drop (fromVersion - 1 - (0 : Nat)).toNat :=
    filter_numbered (fromVersion - 1) (h.versions stream)
  have hstart : ((if fromVersion < 1 then 1 else fromVersion) - 1).toNat =
      (fromVersion - 1 - (0 : Nat)).toNat := by
    split <;> omega
  rw [readStream, bind_ok hname, pageAfter]
  simp only [hstart, hpast]
  split
  · rename_i hend
    rw [drop_eq_nil_of_le hend]
    simp [limited]
  · rfl

/-- **Reading a category**: the events of its streams past a position. -/
theorem readCategory_eq (category : Text) (afterPosition : Int) :
    s.readCategory category afterPosition limit =
      pageAfter positionOf (s.global.filter fun e => categoryOf e.stream = category) limit afterPosition := by
  rw [readCategory, pageAfter, filter_filter]
  refine congrArg (limited limit) (filter_congr fun e _ => ?_)
  rw [Bool.decide_and]
  rfl

end Reading

end MemoryEventStore

end MlmForge.Platform
