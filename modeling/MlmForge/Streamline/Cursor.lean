/-
  Subject:   The stream ids of an engine that a restore accepts.

  A restore accepts engines that no run from `new` reaches: a tree need not be a chain, and a list may
  name a stream twice. What it proves of the ids is kept by every call all the same.

  * **`ids_suffice_iff`** -- in every engine that a run from an accepted one reaches, a call does not
    panic on the counter exactly when the ids left suffice for what it creates.
-/
import MlmForge.Streamline.Frames
import MlmForge.Streamline.Runs

namespace MlmForge.Streamline

open Engine Call List Option Query Arena AList StreamLists

/-! ## 1. What a call does to the streams -/

namespace StreamlineEngine

variable {e e1 e2 : StreamlineEngine} {sid id : Nat} {s s' : Stream} {u sponsor : Uuid} {ts : Int}
  {lost : List Nat} {α β : Type}

/-- Whether a stream is there. -/
def live (e : StreamlineEngine) (id : Nat) : Bool := (e.streams.lookup id).isSome

/-- **Streams are numbered below the cursor**, each under its own id and with a valid tree. -/
structure Numbered (e : StreamlineEngine) : Prop where
  keyed : ∀ {id s}, e.streams.lookup id = some s → s.id = id
  past : ∀ {id s}, e.streams.lookup id = some s → id < e.nextStreamId
  valid : ∀ {id s}, e.streams.lookup id = some s → s.tree.arena.Valid
  cursor : e.nextStreamId ≤ maxStreamId

/-- What a call does to the ids: streams that were not there are at or past the cursor, and only those
    of `lost` are gone. -/
structure Carries (lost : List Nat) (e e' : StreamlineEngine) : Prop where
  numbered : e'.Numbered
  cursor : e.nextStreamId ≤ e'.nextStreamId
  fresh : ∀ id, e'.live id = true → e.live id = true ∨ e.nextStreamId ≤ id
  kept : ∀ id, e.live id = true → id ∉ lost → e'.live id = true

/-- What a call does to the members: on the streams other than those of `lost`, all are still there. -/
def Seats (lost : List Nat) (e e' : StreamlineEngine) : Prop :=
  ∀ id v, e.on id v = true → id ∉ lost → e'.on id v = true

/-- A call that adds, and takes away no stream but those of `lost`. -/
def Adds (lost : List Nat) (e e' : StreamlineEngine) : Prop := Carries lost e e' ∧ Seats lost e e'

theorem Carries.refl (h : e.Numbered) : Carries lost e e :=
  ⟨h, Nat.le_refl _, fun _ hid => .inl hid, fun _ hid _ => hid⟩

theorem Carries.trans (h : Carries lost e e1) (h' : Carries lost e1 e2) : Carries lost e e2 where
  numbered := h'.numbered
  cursor := Nat.le_trans h.cursor h'.cursor
  fresh id hid := by
    rcases h'.fresh id hid with h1 | h1
    · exact h.fresh id h1
    · exact .inr (Nat.le_trans h.cursor h1)
  kept id hid hne := h'.kept id (h.kept id hid hne) hne

theorem Adds.refl (h : e.Numbered) : Adds lost e e := ⟨.refl h, fun _ _ hv _ => hv⟩

theorem Adds.trans (h : Adds lost e e1) (h' : Adds lost e1 e2) : Adds lost e e2 :=
  ⟨h.1.trans h'.1, fun id v hv hne => h'.2 id v (h.2 id v hv hne) hne⟩

theorem Adds.mono (h : Adds [] e e1) : Adds lost e e1 :=
  ⟨⟨h.1.numbered, h.1.cursor, h.1.fresh, fun id hid _ => h.1.kept id hid not_mem_nil⟩,
    fun id v hv _ => h.2 id v hv not_mem_nil⟩

theorem live_of_lookup (hs : e.streams.lookup id = some s) : e.live id = true := by
  rw [live, hs]
  rfl

/-- Only the indexes have changed. -/
theorem Numbered.same (h : e.Numbered) (hstreams : e1.streams = e.streams)
    (hnext : e1.nextStreamId = e.nextStreamId) : Adds lost e e1 := by
  have hlive : ∀ id, e1.live id = e.live id := fun id => by rw [live, live, hstreams]
  refine ⟨⟨⟨fun hs => ?_, fun hs => ?_, fun hs => ?_, hnext ▸ h.cursor⟩, Nat.le_of_eq hnext.symm,
    fun id hid => .inl (hlive id ▸ hid), fun id hid _ => (hlive id).symm ▸ hid⟩, fun id v hv _ => ?_⟩
  · exact h.keyed (hstreams ▸ hs)
  · exact hnext ▸ h.past (hstreams ▸ hs)
  · exact h.valid (hstreams ▸ hs)
  · rw [on, hstreams]
    exact hv

section Write

variable {now : Option Stream}
  (hlook : ∀ i, e1.streams.lookup i = if i = sid then now else e.streams.lookup i)
include hlook

/-- What is to be shown of a stream that is written, and of one that is taken away. -/
theorem Numbered.write (h : e.Numbered)
    (hnow : ∀ x, now = some x → x.id = sid ∧ sid < e1.nextStreamId ∧ x.tree.arena.Valid ∧
      (e.live sid = true ∨ e.nextStreamId ≤ sid))
    (hlost : now = none → sid ∈ lost) (hnext : e.nextStreamId ≤ e1.nextStreamId)
    (hcursor : e1.nextStreamId ≤ maxStreamId) : Carries lost e e1 := by
  have hof : ∀ {id x}, e1.streams.lookup id = some x →
      (id = sid ∧ now = some x) ∨ e.streams.lookup id = some x := fun {id x} hx => by
    rw [hlook] at hx
    split at hx
    · rename_i hid
      exact .inl ⟨hid, hx⟩
    · exact .inr hx
  refine ⟨⟨fun {id x} hx => ?_, fun {id x} hx => ?_, fun {id x} hx => ?_, hcursor⟩, hnext, fun id hid => ?_,
    fun id hid hne => ?_⟩
  · rcases hof hx with ⟨rfl, hx⟩ | hx
    · exact (hnow x hx).1
    · exact h.keyed hx
  · rcases hof hx with ⟨rfl, hx⟩ | hx
    · exact (hnow x hx).2.1
    · exact Nat.lt_of_lt_of_le (h.past hx) hnext
  · rcases hof hx with ⟨rfl, hx⟩ | hx
    · exact (hnow x hx).2.2.1
    · exact h.valid hx
  · obtain ⟨x, hx⟩ := isSome_iff_exists.mp hid
    rcases hof hx with ⟨rfl, hx⟩ | hx
    · exact (hnow x hx).2.2.2
    · exact .inl (live_of_lookup hx)
  · rw [live, hlook]
    split
    · rename_i heq
      exact isSome_iff_ne_none.mpr fun hnone => hne (heq ▸ hlost hnone)
    · exact hid

theorem seats_of_write (hon : ∀ v, e.on sid v = true → sid ∉ lost →
    now.any (fun x => x.tree.contains v) = true) : Seats lost e e1 := by
  intro id v hv hne
  rw [on, hlook]
  split
  · rename_i hid
    subst hid
    exact hon v hv hne
  · exact hv

end Write

/-- A stream has been replaced by one with its id. -/
theorem Numbered.put (h : e.Numbered) (hs : e.streams.lookup sid = some s) (hk : Stream.Kept s s')
    (hstreams : e1.streams = e.streams.insert sid s') (hnext : e1.nextStreamId = e.nextStreamId) :
    Carries lost e e1 := by
  have hlook := Maps.lookup_insert e.streams sid s'
  rw [← hstreams] at hlook
  refine h.write hlook (fun x hx => ?_) (fun hx => by cases hx) (Nat.le_of_eq hnext.symm) (hnext ▸ h.cursor)
  cases hx
  exact ⟨hk.id.trans (h.keyed hs), hnext ▸ h.past hs, hk.valid, .inl (live_of_lookup hs)⟩

theorem Numbered.add (h : e.Numbered) (hs : e.streams.lookup sid = some s) (hg : Stream.Grew s s')
    (hstreams : e1.streams = e.streams.insert sid s') (hnext : e1.nextStreamId = e.nextStreamId) :
    Adds lost e e1 := by
  have hlook := Maps.lookup_insert e.streams sid s'
  rw [← hstreams] at hlook
  refine ⟨h.put hs hg.toKept hstreams hnext, seats_of_write hlook fun v hv _ => ?_⟩
  rw [on_of_lookup hs] at hv
  exact hg.holds v hv

/-- **A new stream takes an id that no stream has.** -/
theorem Numbered.withNewStream (h : e.Numbered) (hlt : e.nextStreamId < maxStreamId) :
    Adds lost e (e.withNewStream u ts) := by
  refine ⟨h.write (fun i => Maps.lookup_insert _ _ _ i) (fun x hx => ?_) (fun hx => by cases hx)
    (Nat.le_succ _) hlt, seats_of_write (fun i => Maps.lookup_insert _ _ _ i) fun v hv _ => ?_⟩
  · cases hx
    exact ⟨rfl, Nat.lt_succ_self _, new_valid, .inr (Nat.le_refl _)⟩
  · obtain ⟨x, hx, -⟩ := on_eq_true.mp hv
    exact absurd (h.past hx) (Nat.lt_irrefl _)

/-- **What a restore proves of the ids.** -/
theorem numbered_of_validateRestored (h32 : e.nextStreamId ≤ maxStreamId)
    (h : e.validateRestored = .ok ()) : e.Numbered ∧ e.nextStreamId < maxStreamId := by
  unfold validateRestored at h
  obtain ⟨h1, h⟩ := seq_eq_ok.mp h
  obtain ⟨h2, h⟩ := seq_eq_ok.mp h
  obtain ⟨h3, -⟩ := seq_eq_ok.mp h
  have hfault : ∀ {id s}, e.streams.lookup id = some s → s.fault id = .ok none := by
    intro id s hs
    exact (lowestFault_eq_ok.mp h1).2 ⟨id, s⟩ (mem_lookup_iff.mp hs)
  refine ⟨⟨fun {id s} hs => ?_, fun {id s} hs => ?_, fun {id s} hs => ?_, h32⟩, ?_⟩
  · have hf := hfault hs
    unfold Stream.fault at hf
    split at hf
    · cases hf
    · rename_i hid
      exact (not_not.mp hid).symm
  · have hkey : id ∈ e.streams.keys := (Maps.mem_keys_iff _).mpr ⟨s, hs⟩
    unfold checkCursor at h2
    cases hm : e.streams.keys.max? with
    | none =>
      rw [max?_eq_none_iff] at hm
      rw [hm] at hkey
      exact absurd hkey not_mem_nil
    | some highest =>
      rw [hm] at h2
      have hle : id ≤ highest := (max?_eq_some_iff.mp hm).2 id hkey
      exact Nat.lt_of_le_of_lt hle (Nat.not_le.mp (stopIf_eq_ok.mp h2))
  · have hf := hfault hs
    unfold Stream.fault at hf
    split at hf
    · cases hf
    · cases hv : s.tree.validateRestored with
      | ok _ => exact validateRestored_iff.mp hv
      | error stop =>
        rw [hv] at hf
        cases stop <;> cases hf
  · exact Nat.lt_of_le_of_ne h32 (stopIf_eq_ok.mp h3)

/-! ## 2. The calls -/

/-- A call that takes no stream away and does not panic on the counter. -/
def Steady (m : Call StreamlineError StreamlineEngine α) : Prop :=
  ∀ e : StreamlineEngine, e.Numbered →
    Call.Does m e (fun _ e' => Carries [] e e') fun stop e' => Carries [] e e' ∧ Other stop

variable {m : Call StreamlineError StreamlineEngine α} {f : α → Call StreamlineError StreamlineEngine β}

theorem Steady.andThen (hf : ∀ a, Steady (f a))
    (hm : Leaves m e (Carries [] e)) : Leaves (m >>= f) e (Carries [] e) := by
  refine Call.Does.bind hm fun a e1 h1 => ?_
  exact (hf a e1 h1.numbered).mono (fun _ e2 h2 => h1.trans h2) fun stop e2 h2 => ⟨h1.trans h2.1, h2.2⟩

theorem Steady.bind (hm : Steady m) (hf : ∀ a, Steady (f a)) : Steady (m >>= f) :=
  fun e h => Steady.andThen hf (hm e h)

theorem steady_pure (a : α) : Steady (pure a) := fun _ h => does_pure (.refl h)

theorem steady_get {f : StreamlineEngine → Call StreamlineError StreamlineEngine β}
    (hf : ∀ e : StreamlineEngine, e.Numbered → Leaves (f e) e (Carries [] e)) : Steady (get >>= f) :=
  fun e h => does_get (hf e h)

theorem borrow_carries (h : e.Numbered) (hs : e.streams.lookup sid = some s)
    {m : Call StreamlineError Borrowed α} (hm : Borrowed.Keeps m) : Leaves (borrow sid s m) e (Carries [] e) := by
  refine Call.Does.zoom ((hm ⟨s, e.userStreams, e.streamOwners⟩ (h.valid hs)).mono
    (fun _ b hb => h.put hs hb rfl rfl) fun stop b hb => ⟨h.put hs hb.1 rfl rfl, hb.2⟩)

theorem steady_leaveStreams (u : Uuid) (ids : List Nat) : Steady (leaveStreams u ids) := by
  induction ids with
  | nil => exact steady_pure _
  | cons sid rest ih =>
    refine steady_get fun e h => ?_
    cases hs : e.streams.lookup sid with
    | none => exact ih e h
    | some s =>
      simp only
      split
      · exact Steady.andThen (fun _ => ih.bind fun _ => steady_pure _)
          (borrow_carries h hs (Borrowed.keeps_leave u sid))
      · exact ih e h

theorem steady_giveAway (u : Uuid) (ids : List Nat) : Steady (giveAway u ids) := by
  induction ids with
  | nil => exact steady_pure _
  | cons sid rest ih =>
    refine steady_get fun e h => ?_
    cases hs : e.streams.lookup sid with
    | none => exact ih e h
    | some s =>
      simp only
      split
      · exact Steady.andThen (fun _ => ih) (borrow_carries h hs (Borrowed.keeps_transferOwner sid))
      · exact ih e h

theorem steady_modify {change : StreamlineEngine → StreamlineEngine}
    (hstreams : ∀ e, (change e).streams = e.streams) (hnext : ∀ e, (change e).nextStreamId = e.nextStreamId) :
    Steady (modify change : Call StreamlineError StreamlineEngine PUnit) := fun e h =>
  does_modify_last (h.same (hstreams e) (hnext e)).1

theorem steady_removeMember (u : Uuid) : Steady (removeMember u) := by
  refine steady_get fun e h => ?_
  cases e.userStreams.lookup u with
  | none => exact does_throw ⟨.refl h, .err _⟩
  | some ids =>
    refine Steady.bind ?_ (fun _ => (steady_leaveStreams u ids).bind fun removedFrom => ?_) e h
    · exact steady_modify (fun _ => rfl) fun _ => rfl
    · refine steady_get fun e1 h1 => ?_
      cases e1.streamOwners.lookup u with
      | none => exact does_pure (.refl h1)
      | some owned =>
        refine Steady.bind ?_ (fun _ => (steady_giveAway u owned).bind fun _ => steady_pure _) e1 h1
        exact steady_modify (fun _ => rfl) fun _ => rfl

/-- **Creating streams** succeeds exactly when the ids left suffice. -/
theorem createStreams_does : ∀ (n : Nat) {e : StreamlineEngine}, e.Numbered →
    Call.Does (createStreams u ts n) e (fun _ e' => Adds [] e e' ∧ e.nextStreamId + n ≤ maxStreamId)
      fun stop e' => Adds [] e e' ∧ stop = counterPanic ∧ maxStreamId < e.nextStreamId + n := by
  intro n
  induction n with
  | zero => exact fun h => does_pure ⟨.refl h, h.cursor⟩
  | succ n ih =>
    intro e h
    by_cases hlt : e.nextStreamId < maxStreamId
    · have hnew : Adds [] e (e.withNewStream u ts) := h.withNewStream hlt
      have hcount : (e.withNewStream u ts).nextStreamId = e.nextStreamId + 1 := rfl
      refine does_run_bind (createStream_ok hlt) ?_
      refine Call.Does.bind ((ih hnew.1.numbered).mono (fun _ e1 h1 => h1) fun stop e1 h1 => ?_)
        fun ids e1 h1 => does_pure ⟨hnew.trans h1.1, by omega⟩
      exact ⟨hnew.trans h1.1, h1.2.1, by omega⟩
    · unfold Call.Does
      rw [createStreams, run_bind, createStream_exhausted (Nat.not_lt.mp hlt)]
      exact ⟨.refl h, rfl, by omega⟩

theorem expectStream_run (hs : e.streams.lookup sid = some s) (msg : String) :
    (reads fun e => e.expectStream sid msg : Call StreamlineError StreamlineEngine Stream).run e =
      .ok s e := by
  rw [run_reads, expectStream, hs]

theorem onStream_adds {m : Call StreamlineError Stream α} (h : Adds lost e e1)
    (hs : e1.streams.lookup sid = some s) (hm : Leaves m s (Stream.Grew s)) :
    Leaves (onStream sid s m) e1 (Adds lost e) := by
  have hn := h.1.numbered
  exact Call.Does.zoom (hm.mono (fun _ s1 hg => h.trans (hn.add hs hg rfl rfl))
    fun stop s1 hg => ⟨h.trans (hn.add hs hg.1 rfl rfl), hg.2⟩)

theorem appendTo_adds (h : e.Numbered) (hs : e.streams.lookup sid = some s) :
    Leaves (appendTo sid u sponsor ts) e (Adds lost e) := by
  refine does_run_bind (expectStream_run hs _)
    ((onStream_adds (.refl h) hs (Stream.append_grew (h.valid hs))).bind fun _ e1 h1 => ?_)
  exact h1.trans (h1.1.numbered.same rfl rfl)

theorem bootstrapFirstMember_adds (h : e.Numbered) (hids : e.live 1 = true ∨ e.nextStreamId < maxStreamId) :
    Leaves (bootstrapFirstMember u ts) e (Adds [] e) := by
  -- from the engine that has the stream on, both ways are the same
  have hseat : ∀ {e1 : StreamlineEngine} {sid : Nat} {s : Stream}, Adds [] e e1 →
      e1.streams.lookup sid = some s → Leaves (do
        let stream ← reads fun e => e.expectStream sid "stream_id was just found or created"
        onStream sid stream (Stream.seatFirst u ts)
        modify fun e => { e with userStreams := push e.userStreams u sid }
        pure (⟨sid, 0⟩ : AddMemberResult)) e1 (Adds [] e) := by
    intro e1 sid s h1 hs
    refine does_run_bind (expectStream_run hs _)
      ((onStream_adds h1 hs (Stream.seatFirst_grew (h1.1.numbered.valid hs))).bind fun _ e2 h2 => ?_)
    exact h2.trans (h2.1.numbered.same rfl rfl)
  refine does_get ?_
  cases hs : e.streams.lookup 1 with
  | some s =>
    have howner : Adds [] e { e with streamOwners := push e.streamOwners u 1 } := h.same rfl rfl
    exact hseat howner hs
  | none =>
    have hlt : e.nextStreamId < maxStreamId := hids.resolve_left (by simp [live, hs])
    exact does_run_bind (createStream_ok hlt) (hseat (h.withNewStream hlt) (lookup_insert _))

/-- A stream gets a flag. -/
theorem Adds.reflag {flag : Bool} (h : Adds [] e e1) (hs : e1.streams.lookup sid = some s) :
    Adds [] e (e1.reflagged sid s flag) := by
  have hn := h.1.numbered
  have hvalid := hn.valid hs
  have hg : Stream.Grew s { s with frozen := flag } := ⟨⟨rfl, hvalid⟩, fun _ hv => hv⟩
  exact h.trans (hn.add hs hg rfl rfl)

/-- A stream that is taken away on purpose. -/
theorem Numbered.drop (h : e.Numbered) (hid : id ∈ lost) (hstreams : e1.streams = e.streams.erase id)
    (hnext : e1.nextStreamId = e.nextStreamId) : Adds lost e e1 := by
  have hlook : ∀ i, e1.streams.lookup i = if i = id then none else e.streams.lookup i :=
    fun i => by rw [hstreams, Maps.lookup_erase]
  exact ⟨h.write hlook (fun x hx => by cases hx) (fun _ => hid) (Nat.le_of_eq hnext.symm) (hnext ▸ h.cursor),
    seats_of_write hlook fun v _ hne => absurd hid hne⟩

theorem destroyStreams_adds : ∀ {ids : List Nat} {e : StreamlineEngine}, e.Numbered →
    (∀ id ∈ ids, id ∈ lost) →
    Call.Does (destroyStreams u ids) e (fun _ e' => Adds lost e e') fun _ _ => False := by
  intro ids
  induction ids with
  | nil => exact fun h _ => does_pure (.refl h)
  | cons id rest ih =>
    intro e h hlost
    -- what is left to do once the stream is off the map
    have hrest : ∀ {e1 : StreamlineEngine} {gone : List Nat}, Adds lost e e1 → Call.Does (do
        modify fun e => { e with streamOwners := retain e.streamOwners u id }
        let more ← destroyStreams u rest
        pure (gone ++ more)) e1 (fun _ e' => Adds lost e e') fun _ _ => False := by
      intro e1 gone h1
      have h2 : Adds lost e1 { e1 with streamOwners := retain e1.streamOwners u id } :=
        h1.1.numbered.same rfl rfl
      refine does_modify ((ih h2.1.numbered fun i hi =>
        hlost i (mem_cons_of_mem _ hi)).bind fun more e3 h3 => ?_)
      exact does_pure (h1.trans (h2.trans h3))
    refine does_get ?_
    cases hs : e.streams.lookup id with
    | none => exact hrest (.refl h)
    | some s =>
      refine does_modify ?_
      exact hrest (h.drop (hlost id mem_cons_self) rfl rfl)

/-! ## 3. How many ids a call takes -/

/-- The streams that a change of allowance takes away. -/
def destroys (e : StreamlineEngine) : StreamlineCall → List Nat
  | .updateStreamAllowance userId totalAllowed _ =>
    match e.streamOwners.lookup userId with
    | none => []
    | some owned =>
      if e.config.freezeOnDemotion then []
      else (e.idsByFlag owned false).reverse.take
        (asU32 (e.idsByFlag owned false).length - totalAllowed)
  | _ => []

/-- How many streams a call is going to create. -/
def demand (e : StreamlineEngine) : StreamlineCall → Nat
  | .addMember userId sponsorId _ _ =>
    if e.checkAddMember userId sponsorId = .ok true ∧ e.live 1 = false then 1 else 0
  | .removeMember _ _ => 0
  | .expandStreams userId totalAllowed _ =>
    if (e.userStreams.lookup userId).isNone ∧ (e.streamOwners.lookup userId).isNone then 0
    else totalAllowed - ((e.streamOwners.lookup userId).map fun ids => asU32 ids.length).getD 0
  | .updateStreamAllowance userId totalAllowed _ =>
    match e.streamOwners.lookup userId with
    | none => 0
    | some owned =>
      totalAllowed - asU32 (e.idsByFlag owned false).length - (e.idsByFlag owned true).length

/-- **What a call leaves alone**: a stream that was not there has an id that no stream had, no stream is
    gone but those that a demotion destroys, and unless somebody is removed all members are where they
    were. -/
structure Undisturbed (c : StreamlineCall) (e e' : StreamlineEngine) : Prop where
  carries : Carries (e.destroys c) e e'
  seats : (∀ u ts, c ≠ .removeMember u ts) → Seats (e.destroys c) e e'

variable {c : StreamlineCall}

theorem Adds.undisturbed (h : Adds (e.destroys c) e e1) : Undisturbed c e e1 :=
  ⟨h.1, fun _ => h.2⟩

/-- How a call ends: undisturbed, and with the panic of the counter exactly when there are not enough
    ids for it. -/
def CallEnds (c : StreamlineCall) (e : StreamlineEngine) : Prop :=
  Call.Does (serve c) e (fun _ e' => Undisturbed c e e' ∧ e.nextStreamId + e.demand c ≤ maxStreamId)
    fun stop e' => Undisturbed c e e' ∧
      (stop = counterPanic ↔ maxStreamId < e.nextStreamId + e.demand c)

section Numbering

variable (h : e.Numbered)
include h

theorem ends_of_no_demand (hd : e.demand c = 0)
    (hdoes : Leaves (serve c) e (Undisturbed c e)) : CallEnds c e := by
  have hle : e.nextStreamId + e.demand c ≤ maxStreamId := by
    rw [hd]
    exact h.cursor
  exact hdoes.mono (fun _ _ h1 => ⟨h1, hle⟩) fun stop _ h1 => ⟨h1.1, iff_of_false h1.2 (Nat.not_lt.mpr hle)⟩

theorem Numbered.addMember_ends (u sponsor : Uuid) (ts : Int) (choice : Option Nat) :
    CallEnds (.addMember u sponsor ts choice) e := by
  have hgone : e.destroys (.addMember u sponsor ts choice) = [] := rfl
  cases hc : e.checkAddMember u sponsor with
  | error stop =>
    refine ends_of_no_demand h (by simp [demand, hc]) (Call.Does.map ?_)
    unfold Call.Does
    rw [addMember, run_bind, run_reads, hc]
    exact ⟨(Adds.refl h).undisturbed, other_of_safe (checkAddMember_safe u sponsor) hc⟩
  | ok first =>
    cases first with
    | false =>
      refine ends_of_no_demand h (by simp [demand, hc]) (Call.Does.map ?_)
      unfold Call.Does
      rw [addMember_run hc, if_neg Bool.false_ne_true]
      cases hf : e.findPlacementStream sponsor choice with
      | error stop =>
        exact ⟨(Adds.refl h).undisturbed, other_of_safe (findPlacementStream_safe sponsor choice) hf⟩
      | ok sid =>
        obtain ⟨⟨s, hs, -⟩, -⟩ := findPlacementStream_ok hf
        exact (appendTo_adds h hs).mono (fun _ _ h1 => h1.undisturbed) fun _ _ h1 => ⟨h1.1.undisturbed, h1.2⟩
    | true =>
      have hrun : (addMember u sponsor ts choice).run e = (bootstrapFirstMember u ts).run e := by
        rw [addMember_run hc, if_pos rfl]
      by_cases hids : e.live 1 = true ∨ e.nextStreamId < maxStreamId
      · have hle : e.nextStreamId + e.demand (.addMember u sponsor ts choice) ≤ maxStreamId := by
          have hcursor := h.cursor
          rw [demand]
          rcases hids with hl | hl
          · rw [if_neg (by simp [hl])]
            exact hcursor
          · split
            · exact hl
            · exact hcursor
        refine Call.Does.map ?_
        unfold Call.Does
        rw [hrun]
        exact (bootstrapFirstMember_adds h hids).mono
          (fun _ _ h1 => ⟨(hgone ▸ h1 : Adds (e.destroys _) e _).undisturbed, hle⟩) fun stop _ h1 =>
            ⟨(hgone ▸ h1.1 : Adds (e.destroys _) e _).undisturbed, iff_of_false h1.2 (Nat.not_lt.mpr hle)⟩
      · obtain ⟨hl, hge⟩ := not_or.mp hids
        have hl : e.live 1 = false := Bool.eq_false_iff.mpr hl
        have hnone : e.streams.lookup 1 = none := by simpa [live] using hl
        have hd : e.demand (.addMember u sponsor ts choice) = 1 := if_pos ⟨hc, hl⟩
        refine Call.Does.map ?_
        unfold Call.Does
        rw [hrun, bootstrapFirstMember, run_bind, run_get]
        simp only [hnone, isSome_none, Bool.false_eq_true, if_false, run_bind,
          createStream_exhausted (Nat.not_lt.mp hge)]
        refine ⟨(Adds.refl h).undisturbed, iff_of_true rfl ?_⟩
        rw [hd]
        omega

theorem Numbered.expandStreams_ends (u : Uuid) (n : Nat) (ts : Int) : CallEnds (.expandStreams u n ts) e := by
  refine Call.Does.map (does_get ?_)
  have hcursor := h.cursor
  by_cases hk : (e.userStreams.lookup u).isNone ∧ (e.streamOwners.lookup u).isNone
  · have hd : e.demand (.expandStreams u n ts) = 0 := if_pos hk
    rw [if_pos hk, hd]
    exact does_throw ⟨(Adds.refl h).undisturbed, iff_of_false (Other.err _) (by omega)⟩
  · have hd : e.demand (.expandStreams u n ts) =
      n - ((e.streamOwners.lookup u).map fun ids => asU32 ids.length).getD 0 := if_neg hk
    rw [if_neg hk, hd]
    generalize ((e.streamOwners.lookup u).map fun ids => asU32 ids.length).getD 0 = owned
    simp only
    split
    · exact does_pure ⟨(Adds.refl h).undisturbed, by omega⟩
    · refine Call.Does.bind ((createStreams_does _ h).mono (fun _ _ h1 => h1) fun stop e1 h1 => ?_)
        fun ids e1 h1 => does_pure ⟨h1.1.mono.undisturbed, h1.2⟩
      exact ⟨h1.1.mono.undisturbed, iff_of_true h1.2.1 h1.2.2⟩

theorem Numbered.exists_of_idsByFlag {owned : List Nat} {flag : Bool}
    (hid : id ∈ e.idsByFlag owned flag) : ∃ s, e.streams.lookup id = some s := by
  obtain ⟨x, hx, rfl⟩ := mem_map.mp hid
  obtain ⟨i, -, hix⟩ := mem_filterMap.mp ((mem_insertionSort _).mp (mem_filter.mp hx).1)
  exact ⟨x, (h.keyed hix).symm ▸ hix⟩

theorem Numbered.updateStreamAllowance_ends (u : Uuid) (n : Nat) (ts : Int) :
    CallEnds (.updateStreamAllowance u n ts) e := by
  have hcursor := h.cursor
  refine Call.Does.map (does_get ?_)
  cases ho : e.streamOwners.lookup u with
  | none =>
    have hd : e.demand (.updateStreamAllowance u n ts) = 0 := by simp [demand, ho]
    rw [hd]
    exact does_throw ⟨(Adds.refl h).undisturbed, iff_of_false (Other.err _) (by omega)⟩
  | some owned =>
    have hd : e.demand (.updateStreamAllowance u n ts) =
        n - asU32 (e.idsByFlag owned false).length - (e.idsByFlag owned true).length := by
      simp [demand, ho]
    have hgone : e.destroys (.updateStreamAllowance u n ts) = if e.config.freezeOnDemotion then []
        else (e.idsByFlag owned false).reverse.take (asU32 (e.idsByFlag owned false).length - n) := by
      simp [destroys, ho]
    rw [hd]
    simp only
    split
    · -- a demotion creates no stream
      split
      · obtain ⟨e1, hrun, h1, -⟩ := freezeStreams_ok Adds.reflag _ (.refl h) fun id hid =>
          h.exists_of_idsByFlag (mem_reverse.mp (mem_of_mem_take hid))
        exact does_run_bind hrun (does_pure ⟨h1.mono.undisturbed, by omega⟩)
      · rename_i hfreeze
        rw [if_neg hfreeze] at hgone
        refine (destroyStreams_adds h fun id hid => hgone ▸ hid).andThen fun _ e1 h1 => ?_
        refine does_modify (does_pure ⟨Adds.undisturbed (h1.trans ?_), by omega⟩)
        split
        · exact h1.1.numbered.same rfl rfl
        · exact .refl h1.1.numbered
    · split
      · obtain ⟨e1, hrun, h1, hflag⟩ := unfreezeStreams_ok Adds.reflag (e.idsByFlag owned true)
          (n - asU32 (e.idsByFlag owned false).length) (.refl h) fun id hid => h.exists_of_idsByFlag hid
        have hnext : e1.nextStreamId = e.nextStreamId := by rw [hflag.rest]
        refine does_run_bind hrun (Call.Does.bind ((createStreams_does _ h1.1.numbered).mono (fun _ _ h2 => h2)
          fun stop e2 h2 => ?_) fun _ e2 h2 => does_pure ⟨?_, by omega⟩)
        · exact ⟨(h1.trans h2.1).mono.undisturbed, iff_of_true h2.2.1 (by omega)⟩
        · exact (h1.trans h2.1).mono.undisturbed
      · exact does_pure ⟨(Adds.refl h).undisturbed, by omega⟩

/-- **How a call ends** on streams that are numbered. -/
theorem Numbered.ends (c : StreamlineCall) : CallEnds c e := by
  cases c with
  | addMember u sponsor ts choice => exact h.addMember_ends u sponsor ts choice
  | expandStreams u n ts => exact h.expandStreams_ends u n ts
  | updateStreamAllowance u n ts => exact h.updateStreamAllowance_ends u n ts
  | removeMember u ts =>
    have hund : ∀ {e'}, Carries [] e e' → Undisturbed (.removeMember u ts) e e' := fun hc =>
      ⟨hc, fun hne => absurd rfl (hne u ts)⟩
    exact ends_of_no_demand h rfl (Call.Does.map ((steady_removeMember u e h).mono
      (fun _ _ h1 => hund h1) fun _ _ h1 => ⟨hund h1.1, h1.2⟩))

theorem Numbered.after (c : StreamlineCall) : Undisturbed c e ((serve c).after e) := by
  have hends := h.ends c
  unfold CallEnds Call.Does at hends
  unfold Call.after
  cases hrun : (serve c).run e with
  | ok x e' =>
    rw [hrun] at hends
    exact hends.1
  | error stop e' =>
    rw [hrun] at hends
    exact hends.1

end Numbering

/-- **The streams stay numbered**, in every engine that a run reaches. -/
theorem numbered_of_run (calls : List StreamlineCall) (h : e.Numbered) :
    (afterAll (calls.map serve) e).Numbered := by
  induction calls generalizing e with
  | nil => exact h
  | cons c calls ih => exact ih (h.after c).carries.numbered

/-- `create_stream` in a build without overflow checks. -/
def withWrappedStream (e : StreamlineEngine) (ownerId : Uuid) (timestamp : Int) : StreamlineEngine :=
  { e.withNewStream ownerId timestamp with nextStreamId := asU32 (e.nextStreamId + 1) }

end StreamlineEngine

open StreamlineEngine

/-- **How long the ids last.** In every engine that a run from an accepted one reaches, the cursor is a
    `u32` and a call leaves streams and members alone, new streams having ids of their own; and the call
    does not panic on the counter exactly when the ids left suffice for the streams it creates. -/
theorem ids_suffice_iff (e : StreamlineEngine) (h32 : e.nextStreamId ≤ maxStreamId)
    (hv : e.validateRestored = .ok ()) (calls : List StreamlineCall) (c : StreamlineCall) :
    (afterAll (calls.map serve) e).nextStreamId ≤ maxStreamId ∧
    Undisturbed c (afterAll (calls.map serve) e) ((serve c).after (afterAll (calls.map serve) e)) ∧
    ((∀ e', (serve c).run (afterAll (calls.map serve) e) ≠ .error counterPanic e') ↔
      (afterAll (calls.map serve) e).nextStreamId +
        (afterAll (calls.map serve) e).demand c ≤ maxStreamId) := by
  have h := numbered_of_run calls (numbered_of_validateRestored h32 hv).1
  generalize afterAll (calls.map serve) e = now at h ⊢
  refine ⟨h.cursor, h.after c, ?_⟩
  have hends := h.ends c
  unfold CallEnds Call.Does at hends
  cases hrun : (serve c).run now with
  | ok x e' =>
    rw [hrun] at hends
    exact iff_of_true (fun _ hne => by cases hne) hends.2
  | error stop e' =>
    rw [hrun] at hends
    rw [← Nat.not_lt, ← hends.2]
    constructor
    · intro hne hstop
      exact hne e' (by rw [hstop])
    · intro hstop e'' heq
      cases heq
      exact hstop rfl

/-- An engine with one member, and two ids left. -/
def nearlySpent : StreamlineEngine :=
  { runFrom sampleConfig 0 [.addMember 1 9 0 none] with nextStreamId := maxStreamId - 1 }

theorem nearlySpent_accepted : nearlySpent.validateRestored = .ok () := by decide +kernel

theorem ids_suffice_iff_spent :
    nearlySpent.nextStreamId ≤ maxStreamId ∧ nearlySpent.validateRestored = .ok () ∧
    (afterAll ([.expandStreams 1 2 1].map serve) nearlySpent).nextStreamId ≤ maxStreamId ∧
    Undisturbed (.removeMember 1 2) (afterAll ([.expandStreams 1 2 1].map serve) nearlySpent)
      ((serve (.removeMember 1 2)).after
        (afterAll ([.expandStreams 1 2 1].map serve) nearlySpent)) ∧ ((∀ e', (serve (.removeMember 1 2)).run
        (afterAll ([.expandStreams 1 2 1].map serve) nearlySpent) ≠ .error counterPanic e') ↔
      (afterAll ([.expandStreams 1 2 1].map serve) nearlySpent).nextStreamId +
        (afterAll ([.expandStreams 1 2 1].map serve) nearlySpent).demand (.removeMember 1 2) ≤
          maxStreamId) := by
  have h32 : nearlySpent.nextStreamId ≤ maxStreamId := by decide +kernel
  exact ⟨h32, nearlySpent_accepted, ids_suffice_iff nearlySpent h32 nearlySpent_accepted
    [.expandStreams 1 2 1] (.removeMember 1 2)⟩

/-- **One call runs out of ids**: the engine is accepted, and an expansion to three streams panics on the
    counter. Without overflow checks the expansion to five streams comes round to stream 1, which is
    replaced, and its member is no longer on it. -/
theorem cursor_runs_out : nearlySpent.nextStreamId ≤ maxStreamId ∧ nearlySpent.validateRestored = .ok () ∧
    answer ((expandStreams 1 3 1).run nearlySpent) = .error counterPanic ∧ nearlySpent.on 1 1 = true ∧
    ((fun e => e.withWrappedStream 1 1)^[4] nearlySpent).on 1 1 = false := by
  decide +kernel

end MlmForge.Streamline
