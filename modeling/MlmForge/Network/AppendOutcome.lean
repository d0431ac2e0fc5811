/-
  Subject:   What the tree writer reports of an append, when the store's answer may be wrong or lost.

  The writer is a program that asks the store and goes on with the answer; `expected` is the version of the
  stream's last event, or 0. An append is in flight from the request on. It may be committed at any time, answered
  or not, and events of other writers arrive at any time too.

  * **`append_outcome_honest`** -- what the writer reports is so.
-/
import MlmForge.Platform.EventStore

namespace MlmForge.Network

open Platform List Function

/-! ## 1. The writer -/

section Writer

variable [UuidLib]

def sameUUID (a b : Text) : Bool :=
  match UuidLib.parse a, UuidLib.parse b with
  | some ua, some ub => ua = ub
  | _, _ => false

/-- What `errors.As` and `errors.Is` tell the writer of a failed append. -/
inductive FailureKind where
  | concurrency
  | invalidStreamName
  | emptyAppend
  | other
  deriving DecidableEq

inductive AppendError (ε : Type) where
  | conflict (stream : Text) (expected : Nat) (err : ε)
  | refused (eventId stream : Text) (err : ε)
  | outcomeUnknown (stream : Text) (version : Nat) (eventId : Text) (appendErr readErr : ε)
  | notAppended (eventId stream : Text) (version : Nat) (appendErr : ε) (found : Text)
  | foundNone (eventId stream : Text) (version : Nat) (appendErr : ε)

/-- A program that asks the event store. -/
inductive Asks (ε α : Type) where
  | done (a : α)
  | append (stream : Text) (expected : Nat) (event : NewEvent) (next : Except ε Unit → Asks ε α)
  | readStream (stream : Text) (version limit : Nat) (next : Except ε (List Event) → Asks ε α)

variable {ε : Type} (kind : ε → FailureKind)

/-- What the writer makes of the confirming read. -/
def confirm (stream : Text) (version : Nat) (event : NewEvent) (appendErr : ε) :
    Except ε (List Event) → Except (AppendError ε) Nat
  | .error readErr => .error (.outcomeUnknown stream version event.id appendErr readErr)
  | .ok [e] =>
    if e.version = version then
      if sameUUID e.id event.id then .ok version
      else .error (.notAppended event.id stream version appendErr e.id)
    else .error (.foundNone event.id stream version appendErr)
  | .ok _ => .error (.foundNone event.id stream version appendErr)

/-- `TreeWriter.append` -/
def append (stream : Text) (expected : Nat) (event : NewEvent) : Asks ε (Except (AppendError ε) Nat) :=
  .append stream expected event fun
    | .ok () => .done (.ok (expected + 1))
    | .error appendErr =>
      match kind appendErr with
      | .concurrency => .done (.error (.conflict stream expected appendErr))
      | .invalidStreamName | .emptyAppend => .done (.error (.refused event.id stream appendErr))
      | .other =>
        -- the commit may have landed and its reply been lost
        .readStream stream (expected + 1) 1 fun reply =>
          .done (confirm stream (expected + 1) event appendErr reply)

end Writer

/-! ## 2. The store -/

structure AppendRequest where
  stream : Text
  expected : Nat
  event : NewEvent
  deriving DecidableEq

/-- A stored event, and whether it was stored for the writer's request. -/
structure Entry where
  event : Event
  own : Bool

/-- The events of each stream in the order of their versions, and the writer's appends that may still be committed. -/
structure Store where
  log : Text → List Entry
  ordered : ∀ stream, (log stream).Pairwise fun a b => a.event.version < b.event.version
  inFlight : List AppendRequest

/-- What is stored for the writer. -/
def Store.copies (s : Store) (stream : Text) : List Entry := (s.log stream).filter Entry.own

def Store.Holds (s : Store) (stream : Text) (version : Nat) : Prop :=
  ∃ x ∈ s.copies stream, x.event.version = version

theorem copies_of_log {s s' : Store} (h : s'.log = s.log) : s'.copies = s.copies := by
  funext x
  rw [Store.copies, h, Store.copies]

theorem read_of_mem {l : List Entry} (hl : l.Pairwise fun a b => a.event.version < b.event.version) {x : Entry}
    (hx : x ∈ l) : ((l.map Entry.event).filter (x.event.version ≤ ·.version)).take 1 = [x.event] := by
  obtain ⟨l1, l2, rfl⟩ := append_of_mem hx
  have hbefore : (l1.map Entry.event).filter (x.event.version ≤ ·.version) = [] := by
    refine filter_eq_nil_iff.mpr fun e he => ?_
    obtain ⟨y, hy, rfl⟩ := mem_map.mp he
    simpa using (pairwise_append.mp hl).2.2 y hy x mem_cons_self
  simp [hbefore]

section Library

variable [UuidLib]

/-- An event as `newTreeEvent` makes it, with a UUID of its own. -/
structure OwnEvent extends NewEvent where
  uuid : List UInt8
  uuid_length : uuid.length = 16
  id_eq : id = UuidLib.string uuid

/-- The text of another UUID than the event's. -/
def OwnEvent.Foreign (own : OwnEvent) (id : Text) : Prop :=
  ∃ u : List UInt8, u.length = 16 ∧ u ≠ own.uuid ∧ id = UuidLib.string u

/-- What happens in the store beside its answers. Others' events have ids of their own. -/
inductive Step (own : OwnEvent) (s s' : Store) : Prop where
  | other (stream : Text) (e : Event) (foreign : own.Foreign e.id)
      (log : s'.log = update s.log stream (s.log stream ++ [⟨e, false⟩])) (inFlight : s'.inFlight = s.inFlight)
  | lands (r : AppendRequest) (e : Event) (sent : r ∈ s.inFlight) (version : e.version = r.expected + 1)
      (id : canonicalUUID r.event.id = some e.id)
      (log : s'.log = update s.log r.stream (s.log r.stream ++ [⟨e, true⟩]))
      (inFlight : s'.inFlight = s.inFlight.erase r)

abbrev Meanwhile (own : OwnEvent) : Store → Store → Prop := Relation.ReflTransGen (Step own)

/-- An append is confirmed only when it is committed. It conflicts or is refused for its arguments only when it is
    not and will not be. Any other failure says nothing. -/
inductive AnswersAppend {ε : Type} (kind : ε → FailureKind) (r : AppendRequest) (s : Store) :
    Except ε Unit → Store → Prop where
  | committed (landed : r ∉ s.inFlight) : AnswersAppend kind r s (.ok ()) s
  | declined {err : ε} {s' : Store} (isDeclined : kind err ≠ .other) (waiting : r ∈ s.inFlight)
      (log : s'.log = s.log) (inFlight : s'.inFlight = s.inFlight.erase r) : AnswersAppend kind r s (.error err) s'
  | failed {err : ε} (isOther : kind err = .other) : AnswersAppend kind r s (.error err) s

/-- A read fails, or it returns what is stored and nothing is committed after it. -/
inductive AnswersRead {ε : Type} (stream : Text) (version limit : Nat) (s : Store) :
    Except ε (List Event) → Store → Prop where
  | failed (err : ε) : AnswersRead stream version limit s (.error err) s
  | stored {events : List Event} {s' : Store}
      (events_eq : events = (((s.log stream).map Entry.event).filter (version ≤ ·.version)).take limit)
      (log : s'.log = s.log) (inFlight : s'.inFlight = []) : AnswersRead stream version limit s (.ok events) s'

/-- A request as it was answered. -/
inductive Exchange (ε : Type) where
  | append (reply : Except ε Unit)
  | readStream (reply : Except ε (List Event))

/-- The runs of a program on a store, with the requests it made. -/
inductive Runs {ε : Type} (kind : ε → FailureKind) (own : OwnEvent) {α : Type} :
    Asks ε α → Store → List (Exchange ε) → α → Store → Prop where
  | done {a : α} {s s' : Store} (after : Meanwhile own s s') : Runs kind own (.done a) s [] a s'
  | append {stream : Text} {expected : Nat} {event : NewEvent} {next : Except ε Unit → Asks ε α} {a : α}
      {reply : Except ε Unit} {trace : List (Exchange ε)} {s s1 s2 s3 s4 s' : Store}
      (before : Meanwhile own s s1) (log : s2.log = s1.log)
      (inFlight : s2.inFlight = ⟨stream, expected, event⟩ :: s1.inFlight) (sent : Meanwhile own s2 s3)
      (answer : AnswersAppend kind ⟨stream, expected, event⟩ s3 reply s4)
      (rest : Runs kind own (next reply) s4 trace a s') :
      Runs kind own (.append stream expected event next) s (.append reply :: trace) a s'
  | readStream {stream : Text} {version limit : Nat} {next : Except ε (List Event) → Asks ε α} {a : α}
      {reply : Except ε (List Event)} {trace : List (Exchange ε)} {s s1 s2 s' : Store}
      (before : Meanwhile own s s1) (answer : AnswersRead stream version limit s1 reply s2)
      (rest : Runs kind own (next reply) s2 trace a s') :
      Runs kind own (.readStream stream version limit next) s (.readStream reply :: trace) a s'

/-! ## 3. An event on its way -/

variable {own : OwnEvent} {s s' : Store} {r : AppendRequest}

theorem sameUUID_string {u v : List UInt8} (hu : u.length = 16) (hv : v.length = 16) :
    sameUUID (UuidLib.string u) (UuidLib.string v) = decide (u = v) := by
  rw [sameUUID, UuidLib.parse_string u hu, UuidLib.parse_string v hv]

/-- The writer tells its own event from any other. -/
def Store.Told (own : OwnEvent) (s : Store) : Prop :=
  ∀ stream, ∀ x ∈ s.log stream, sameUUID x.event.id own.id = x.own

theorem told_of_log (h : s.Told own) (hlog : s'.log = s.log) : s'.Told own := by
  intro stream x hx
  exact h stream x (hlog ▸ hx)

theorem told_foreign {id : Text} (h : own.Foreign id) : sameUUID id own.id = false := by
  obtain ⟨u, hu, hne, rfl⟩ := h
  rw [own.id_eq, sameUUID_string hu own.uuid_length]
  exact decide_eq_false hne

theorem told_own {id : Text} (h : canonicalUUID own.id = some id) : sameUUID id own.id = true := by
  have hread : parseUUID own.id = some own.uuid := by rw [own.id_eq, parseUUID_string own.uuid_length]
  rw [canonicalUUID, hread] at h
  cases h
  rw [own.id_eq, sameUUID_string own.uuid_length own.uuid_length]
  exact decide_eq_true rfl

/-- What a step does to what is stored for the writer, who keeps telling it from the rest. -/
theorem Step.copies (h : Step own s s') (hown : ∀ r ∈ s.inFlight, r.event = own.toNewEvent) :
    (s.Told own → s'.Told own) ∧ ((s'.inFlight = s.inFlight ∧ s'.copies = s.copies) ∨
      ∃ r ∈ s.inFlight, s'.inFlight = s.inFlight.erase r ∧ ∃ x : Entry, x.event.version = r.expected + 1 ∧
        s'.copies = update s.copies r.stream (s.copies r.stream ++ [x])) := by
  have htold : ∀ (stream : Text) (x : Entry), s'.log = update s.log stream (s.log stream ++ [x]) →
      sameUUID x.event.id own.id = x.own → s.Told own → s'.Told own := by
    intro stream x hlog hx hs y z hz
    rw [hlog, update_apply] at hz
    split at hz
    · rcases mem_append.mp hz with hz | hz
      · exact hs stream z hz
      · rw [mem_singleton.mp hz, hx]
    · exact hs y z hz
  cases h with
  | other stream e foreign log inFlight =>
    refine ⟨htold stream _ log (told_foreign foreign), .inl ⟨inFlight, funext fun x => ?_⟩⟩
    rw [Store.copies, log, update_apply]
    split
    · rename_i hx
      simp [hx, Store.copies]
    · rfl
  | lands r e sent version id log inFlight =>
    rw [hown r sent] at id
    refine ⟨htold r.stream _ log (told_own id), .inr ⟨r, sent, inFlight, ⟨e, true⟩, version, funext fun x => ?_⟩⟩
    rw [Store.copies, log, update_apply, update_apply]
    split
    · simp [Store.copies]
    · rfl

theorem settled_meanwhile (h : Meanwhile own s s') (hs : s.inFlight = []) :
    s'.inFlight = [] ∧ s'.copies = s.copies ∧ (s.Told own → s'.Told own) := by
  induction h with
  | refl => exact ⟨hs, rfl, fun h => h⟩
  | tail _ hstep ih =>
    obtain ⟨hf0, hc0, ht0⟩ := ih
    obtain ⟨ht, ⟨hf, hc⟩ | ⟨r, hr, -⟩⟩ := hstep.copies (by simp [hf0])
    · exact ⟨hf.trans hf0, hc.trans hc0, ht ∘ ht0⟩
    · rw [hf0] at hr
      cases hr

/-- The event has been stored once, where it was to go. -/
def Landed (r : AppendRequest) (s : Store) : Prop :=
  s.inFlight = [] ∧ ∃ x : Entry, x.event.version = r.expected + 1 ∧ s.copies = update (fun _ => []) r.stream [x]

/-- The event is in flight, and not stored. -/
def Pending (r : AppendRequest) (s : Store) : Prop := s.inFlight = [r] ∧ s.copies = fun _ => []

/-- The event is stored at most once, and not while it is in flight. The writer can tell. -/
def OnItsWay (own : OwnEvent) (r : AppendRequest) (s : Store) : Prop :=
  s.Told own ∧ (Pending r s ∨ Landed r s)

theorem OnItsWay.meanwhile (hs : OnItsWay own r s) (hown : r.event = own.toNewEvent) (h : Meanwhile own s s') :
    OnItsWay own r s' := by
  induction h with
  | refl => exact hs
  | tail _ hstep ih =>
    obtain ⟨htold, ⟨hf, hc⟩ | ⟨hf, x, hv, hc⟩⟩ := ih
    · obtain ⟨ht, ⟨hf', hc'⟩ | ⟨r', hr, hf', x, hv, hc'⟩⟩ := hstep.copies (by simpa [hf] using hown)
      · exact ⟨ht htold, .inl ⟨hf'.trans hf, hc'.trans hc⟩⟩
      · rw [hf, mem_singleton] at hr
        subst hr
        rw [hf, erase_cons_head] at hf'
        rw [hc] at hc'
        exact ⟨ht htold, .inr ⟨hf', x, hv, hc'⟩⟩
    · obtain ⟨hf', hc', ht⟩ := settled_meanwhile (.single hstep) hf
      exact ⟨ht htold, .inr ⟨hf', x, hv, hc'.trans hc⟩⟩

/-! ## 4. What is reported -/

variable {ε : Type} {kind : ε → FailureKind} {stream : Text} {expected : Nat} {trace : List (Exchange ε)}

/-- What a report says of the store, and of the requests that were made. -/
def Honest (trace : List (Exchange ε)) (stream : Text) (s : Store) : Except (AppendError ε) Nat → Prop
  | .ok v => s.Holds stream v
  | .error (.outcomeUnknown _ _ _ _ readErr) => .readStream (.error readErr) ∈ trace
  | .error (.conflict _ _ _) | .error (.refused _ _ _) | .error (.notAppended _ _ _ _ _)
  | .error (.foundNone _ _ _ _) => ∀ x, s.copies x = []

theorem Landed.holds (h : Landed ⟨stream, expected, own.toNewEvent⟩ s) : s.Holds stream (expected + 1) := by
  obtain ⟨-, x, hv, hc⟩ := h
  exact ⟨x, by simp [hc], hv⟩

theorem OnItsWay.length_copies_le (h : OnItsWay own ⟨stream, expected, own.toNewEvent⟩ s) (x : Text) :
    (s.copies x).length ≤ if x = stream then 1 else 0 := by
  rcases h.2 with ⟨-, hc⟩ | ⟨-, e, -, hc⟩
  · simp [hc]
  · rw [hc, update_apply]
    split <;> simp

theorem confirm_honest (appendErr : ε) {reply : Except ε (List Event)}
    (hon : OnItsWay own ⟨stream, expected, own.toNewEvent⟩ s)
    (h : AnswersRead stream (expected + 1) 1 s reply s') :
    Honest [.readStream reply] stream s (confirm stream (expected + 1) own.toNewEvent appendErr reply) := by
  cases h with
  | failed err => exact mem_singleton_self _
  | @stored events _ events_eq =>
    -- had the event landed, the read would have returned it
    have hmissing : (∀ e, events = [e] → e.version = expected + 1 → sameUUID e.id own.id = false) →
        ∀ x, s.copies x = [] := by
      intro hnot
      rcases hon.2 with ⟨-, hc⟩ | hl
      · exact congrFun hc
      · obtain ⟨x, hx, hv⟩ := hl.holds
        obtain ⟨hmem, hown⟩ := mem_filter.mp hx
        have hread := read_of_mem (s.ordered stream) hmem
        rw [hv, ← events_eq] at hread
        have hother := hnot _ hread hv
        rw [hon.1 stream x hmem, hown] at hother
        cases hother
    unfold confirm
    split
    · rename_i hreply
      cases hreply
    · rename_i e hreply
      cases hreply
      split
      · rename_i hv
        split
        · rename_i hsame
          have hmem := (mem_filter.mp (mem_of_mem_take (events_eq ▸ mem_singleton_self e))).1
          obtain ⟨x, hx, rfl⟩ := mem_map.mp hmem
          exact ⟨x, mem_filter.mpr ⟨hx, (hon.1 stream x hx).symm.trans hsame⟩, hv⟩
        · rename_i hsame
          refine hmissing fun e' heq _ => ?_
          cases heq
          exact Bool.eq_false_of_not_eq_true hsame
      · rename_i hv
        refine hmissing fun e' heq hv' => ?_
        cases heq
        exact absurd hv' hv
    · rename_i hnot hreply
      cases hreply
      exact hmissing fun e heq _ => absurd heq (hnot e)

variable {result : Except (AppendError ε) Nat}

omit [UuidLib] in
theorem Honest.mono {trace' : List (Exchange ε)} (h : Honest trace stream s result) (hc : s'.copies = s.copies)
    (ht : trace ⊆ trace') : Honest trace' stream s' result := by
  rcases result with (_ | _ | _ | _ | _) | v
  case error.outcomeUnknown => exact ht h
  case ok =>
    obtain ⟨x, hx, hv⟩ := h
    exact ⟨x, hc ▸ hx, hv⟩
  all_goals exact fun x => hc ▸ h x

/-- **An append is reported honestly**: the event is stored where success says, and nowhere when a conflict, a refusal
    or the confirming read denies it. Its outcome is unknown only if that read failed. The append is sent once, and the
    event is stored at most once. -/
theorem append_outcome_honest (hnew : ∀ x, ∀ entry ∈ s.log x, entry.own = false ∧ own.Foreign entry.event.id)
    (hidle : s.inFlight = [])
    (hrun : Runs kind own (append kind stream expected own.toNewEvent) s trace result s') :
    Honest trace stream s' result ∧
      (∃ reply reads, trace = .append reply :: reads ∧ ∀ x ∈ reads, ∃ stored, x = .readStream stored) ∧
      ∀ x, (s'.copies x).length ≤ if x = stream then 1 else 0 := by
  have htold : s.Told own := fun x entry hmem => by
    obtain ⟨hown, hforeign⟩ := hnew x entry hmem
    rw [told_foreign hforeign, hown]
  have hnone : s.copies = fun _ => [] := funext fun x =>
    filter_eq_nil_iff.mpr fun entry hmem => by simp [(hnew x entry hmem).1]
  cases hrun with
  | append before log inFlight sent answer rest =>
    obtain ⟨hf1, hc1, ht1⟩ := settled_meanwhile before hidle
    have hsent : OnItsWay own ⟨stream, expected, own.toNewEvent⟩ _ :=
      ⟨told_of_log (ht1 htold) log, .inl ⟨by rw [inFlight, hf1], (copies_of_log log).trans (hc1.trans hnone)⟩⟩
    have hon := hsent.meanwhile rfl sent
    cases answer with
    | committed landed =>
      cases rest with
      | done after =>
        have hl := hon.2.resolve_left fun hp => landed (hp.1 ▸ mem_singleton_self _)
        have hon' := hon.meanwhile rfl after
        have hc := (settled_meanwhile after hl.1).2.1
        obtain ⟨x, hx, hv⟩ := hl.holds
        exact ⟨⟨x, hc ▸ hx, hv⟩, ⟨_, [], rfl, nofun⟩, hon'.length_copies_le⟩
    | @declined err _ isDeclined waiting log inFlight =>
      have hp := hon.2.resolve_right fun hl => by
        rw [hl.1] at waiting
        cases waiting
      have hdone : ∀ {s'' : Store}, Meanwhile own _ s'' → ∀ x, s''.copies x = [] := fun after => by
        have hc := (settled_meanwhile after (by rw [inFlight, hp.1, erase_cons_head])).2.1
        exact congrFun (hc.trans ((copies_of_log log).trans hp.2))
      cases hk : kind err with
      | other => exact absurd hk isDeclined
      | concurrency | invalidStreamName | emptyAppend =>
        simp only [hk] at rest
        cases rest with
        | done after => exact ⟨hdone after, ⟨_, [], rfl, nofun⟩, by simp [hdone after]⟩
    | @failed err isOther =>
      simp only [isOther] at rest
      cases rest with
      | readStream before answer rest =>
        have hon' := hon.meanwhile rfl before
        have hconfirm := confirm_honest err hon' answer
        cases rest with
        | done after =>
          rw [← and_assoc, and_right_comm]
          refine ⟨?_, _, [_], rfl, fun x hx => ⟨_, mem_singleton.mp hx⟩⟩
          cases answer with
          | failed => exact ⟨mem_cons_of_mem _ hconfirm, (hon'.meanwhile rfl after).length_copies_le⟩
          | stored _ log inFlight =>
            have hc := (settled_meanwhile after inFlight).2.1.trans (copies_of_log log)
            exact ⟨hconfirm.mono hc (subset_cons_self _ _), hc ▸ hon'.length_copies_le⟩

end Library

def lostEvent : OwnEvent :=
  ⟨⟨hyphenated (replicate 16 170), [1], some [], none⟩, replicate 16 170, rfl, rfl⟩

/-- The event as the store keeps it, after one of another writer. -/
def lostCopy : Event := ⟨hyphenated (replicate 16 170), [1], [1], 2, 2, some [], none, 0⟩

def earlier : Entry := ⟨⟨hyphenated (replicate 16 1), [1], [1], 1, 1, some [], none, 0⟩, false⟩

def storeOf (entries : List Entry) (h : entries.Pairwise fun a b => a.event.version < b.event.version)
    (inFlight : List AppendRequest) : Store where
  log := update (fun _ => []) [1] entries
  ordered x := by
    rw [update_apply]
    split
    · exact h
    · exact .nil
  inFlight := inFlight

def idleStore : Store := storeOf [earlier] (by decide) []

def sentStore : Store := storeOf [earlier] (by decide) [⟨[1], 1, lostEvent.toNewEvent⟩]

def landedStore : Store := storeOf [earlier, ⟨lostCopy, true⟩] (by decide) []

theorem append_outcome_honest_lost_reply :
    Runs (fun _ : Unit => .other) lostEvent (append (fun _ => .other) [1] 1 lostEvent.toNewEvent) idleStore
        [.append (.error ()), .readStream (.ok [lostCopy])] (.ok 2) landedStore ∧
      landedStore.Holds [1] 2 ∧ (landedStore.copies [1]).length ≤ 1 := by
  have hid : canonicalUUID lostEvent.id = some lostCopy.id := by decide +kernel
  have hconfirm : confirm [1] 2 lostEvent.toNewEvent () (.ok [lostCopy]) = .ok 2 := by
    rw [confirm, if_pos (by rfl), if_pos (told_own hid)]
  have hlands : Meanwhile lostEvent sentStore landedStore :=
    .single (.lands _ lostCopy (mem_singleton_self _) rfl hid (by simp [sentStore, landedStore, storeOf]) rfl)
  have hread : AnswersRead [1] 2 1 landedStore (.ok [lostCopy] : Except Unit _) landedStore :=
    .stored (by simp [landedStore, storeOf, lostCopy, earlier]) rfl rfl
  have hrun : Runs (fun _ : Unit => .other) lostEvent (append (fun _ => .other) [1] 1 lostEvent.toNewEvent) idleStore
      [.append (.error ()), .readStream (.ok [lostCopy])] (.ok 2) landedStore :=
    .append .refl (by rfl) (by rfl) hlands (.failed rfl) (.readStream .refl hread (hconfirm ▸ .done .refl))
  have hnew : ∀ x, ∀ entry ∈ idleStore.log x, entry.own = false ∧ lostEvent.Foreign entry.event.id := by
    intro x entry hmem
    simp only [idleStore, storeOf, update_apply] at hmem
    split at hmem
    · rw [mem_singleton.mp hmem]
      exact ⟨rfl, replicate 16 1, rfl, by decide, rfl⟩
    · cases hmem
  obtain ⟨hholds, -, hlen⟩ := append_outcome_honest hnew rfl hrun
  exact ⟨hrun, hholds, hlen [1]⟩

end MlmForge.Network
