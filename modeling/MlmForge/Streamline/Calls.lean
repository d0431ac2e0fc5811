/-
  Subject:   The operations of the streamline engine keep it sound.

  * `addMember_fine`, `removeMember_fine`, `expandStreams_fine`, `updateStreamAllowance_fine`.
-/
import MlmForge.Streamline.Invariant

namespace MlmForge.Streamline

open Engine Query Call List Option AList StreamLists

namespace StreamlineEngine

variable {e e' : StreamlineEngine} {sid id : Nat} {s : Stream} {u v sponsor : Uuid} {ts : Int}
  {l : List Member}

/-- No stream has as many members as there are depths. -/
def Roomy (e : StreamlineEngine) : Prop := ∀ x ∈ e.streams.entries, x.2.tree.userIds.length < 2 ^ 32

instance : DecidablePred Roomy := fun e =>
  inferInstanceAs (Decidable (∀ x ∈ e.streams.entries, x.2.tree.userIds.length < 2 ^ 32))

theorem Roomy.chain (h : e.Roomy) (hs : e.streams.lookup sid = some s) (hc : s.Chained l) :
    l.length < 2 ^ 32 := by
  have hlen := hc.holds.userIds_perm.length_eq
  rw [users, length_map] at hlen
  exact hlen ▸ h ⟨sid, s⟩ (mem_lookup_iff.mp hs)

/-- **How a call may end**: the engine is sound and its cursor has not moved back, and only a cursor at
    its end or a stream at its last depth makes a call panic. -/
def Fine {α : Type} (e : StreamlineEngine) :
    EStateM.Result (Stop StreamlineError) StreamlineEngine α → Prop
  | .ok _ e' => e'.Sound ∧ e.nextStreamId ≤ e'.nextStreamId
  | .error stop e' => e'.Sound ∧ e.nextStreamId ≤ e'.nextStreamId ∧
      ((∃ x, stop = .err x) ∨ maxStreamId ≤ e'.nextStreamId ∨ ¬ e.Roomy)

/-- A call that ends like another one, whatever it makes of the result. -/
theorem Fine.bind {α β : Type} {m : Call StreamlineError StreamlineEngine α}
    {k : α → Call StreamlineError StreamlineEngine β} (h : Fine e' (m.run e'))
    (hle : e.nextStreamId ≤ e'.nextStreamId) (hroom : e.Roomy → e'.Roomy) (hk : ∀ a x, ∃ b, (k a).run x = .ok b x) :
    Fine e ((m >>= k).run e') := by
  rw [run_bind]
  cases hr : m.run e' with
  | ok a x =>
    rw [hr] at h
    obtain ⟨b, hb⟩ := hk a x
    simp only [hb]
    exact ⟨h.1, Nat.le_trans hle h.2⟩
  | error stop x =>
    rw [hr] at h
    exact ⟨h.1, Nat.le_trans hle h.2.1, h.2.2.imp_right (.imp_right (mt hroom))⟩

theorem Fine.map {α β : Type} {m : Call StreamlineError StreamlineEngine α} (h : Fine e (m.run e))
    (f : α → β) : Fine e ((f <$> m).run e) := by
  rw [map_eq_pure_bind]
  exact h.bind (Nat.le_refl _) id fun a x => ⟨_, rfl⟩

/-! ## 1. New streams -/

theorem Sound.withNewStream (h : e.Sound) (hu : u ≠ Uuid.nil) (ts : Int) : (e.withNewStream u ts).Sound := by
  have hnone := h.housed.lookup_next
  have hempty : ∀ v, UnilevelTree.new.contains v = false := fun v => rfl
  have hon : ∀ v, (e.withNewStream u ts).on e.nextStreamId v = false := fun v => by
    rw [on, StreamlineEngine.withNewStream, lookup_insert]
    exact hempty v
  refine ⟨h.housed.change (fun i => Maps.lookup_insert _ _ _ i) (fun x hx => ?_) (Nat.le_succ _)
    (fun v hv => ?_) (fun v => ?_), ?_⟩
  · cases hx
    refine ⟨⟨rfl, [], ⟨holds_new, rfl⟩, fun h1 => ?_⟩, Nat.lt_succ_self _⟩
    exact absurd h1 (Nat.ne_of_gt h.housed.past_first)
  · rw [hon] at hv
    cases hv
  · have hold : e.on e.nextStreamId v = false := by
      rw [on, hnone]
      rfl
    rw [hon, hold]
    rfl
  · rw [ownerAt_insert (e := e) rfl]
    refine h.owned.give (fun v hv => ?_) hu hu
    rw [ownerAt, hnone] at hv
    cases hv

theorem Roomy.insert (h : e.Roomy) (hstreams : e'.streams = e.streams.insert id s)
    (hlen : s.tree.userIds.length < 2 ^ 32) : e'.Roomy := by
  rintro ⟨i, x⟩ hx
  have hx := mem_lookup_iff.mpr hx
  rw [hstreams, Maps.lookup_insert] at hx
  split at hx
  · cases hx
    exact hlen
  · exact h ⟨i, x⟩ (mem_lookup_iff.mp hx)

theorem createStream_ok (hlt : e.nextStreamId < maxStreamId) :
    (createStream u ts).run e = .ok e.nextStreamId (e.withNewStream u ts) := by
  have hguard : stopIf (maxStreamId ≤ e.nextStreamId)
      (.panic "attempt to add with overflow" : Stop StreamlineError) = .ok () :=
    stopIf_eq_ok.mpr (Nat.not_le.mpr hlt)
  simp only [createStream, run_bind, run_get, run_reads, hguard, run_modify, run_pure]

theorem createStream_exhausted (hle : maxStreamId ≤ e.nextStreamId) :
    (createStream u ts).run e = .error (.panic "attempt to add with overflow") e := by
  have hguard : stopIf (maxStreamId ≤ e.nextStreamId)
      (.panic "attempt to add with overflow" : Stop StreamlineError) = .error _ :=
    stopIf_eq_error.mpr ⟨hle, rfl⟩
  simp only [createStream, run_bind, run_get, run_reads, hguard]

theorem createStreams_fine (hu : u ≠ Uuid.nil) : ∀ (n : Nat) {e : StreamlineEngine}, e.Sound →
    Fine e ((createStreams u ts n).run e) := by
  intro n
  induction n with
  | zero => exact fun h => ⟨h, Nat.le_refl _⟩
  | succ n ih =>
    intro e h
    by_cases hlt : e.nextStreamId < maxStreamId
    · rw [createStreams, run_bind, createStream_ok hlt]
      exact (ih (h.withNewStream hu ts)).bind (Nat.le_succ _) (fun hr => hr.insert rfl (Nat.two_pow_pos 32)) fun ids x => ⟨_, rfl⟩
    · have hle := Nat.not_lt.mp hlt
      simp only [createStreams, run_bind, createStream_exhausted hle]
      exact ⟨h, Nat.le_refl _, .inr (.inl hle)⟩



theorem expandStreams_fine (h : e.Sound) (n : Nat) : Fine e ((expandStreams u n ts).run e) := by
  simp only [expandStreams, run_bind, run_get]
  split
  · exact ⟨h, Nat.le_refl _, .inl ⟨_, rfl⟩⟩
  · rename_i hmem
    have hu : u ≠ Uuid.nil := by
      rcases not_and_or.mp hmem with hm | hm
      · obtain ⟨ids, hids⟩ := ne_none_iff_exists'.mp (by simpa using hm)
        exact h.housed.ne_nil hids
      · obtain ⟨ids, hids⟩ := ne_none_iff_exists'.mp (by simpa using hm)
        exact (h.owned.listed hids).1
    split
    · exact ⟨h, Nat.le_refl _⟩
    · exact (createStreams_fine hu _ h).map ExpansionResult.mk

/-! ## 2. Finding a stream -/

variable {owned : List Nat}

theorem fewestMembers_mem : ∀ {best : Option (Nat × Nat)} {n : Nat},
    e.fewestMembers best owned = some (sid, n) → best = some (sid, n) ∨
      (sid ∈ owned ∧ ∃ s, e.streams.lookup sid = some s ∧ s.frozen = false) := by
  induction owned with
  | nil => exact fun h => .inl h
  | cons x owned ih =>
    intro best n h
    have hrest : ∀ {held : Option (Nat × Nat)}, e.fewestMembers held owned = some (sid, n) →
        held = some (sid, n) ∨
          (sid ∈ x :: owned ∧ ∃ s, e.streams.lookup sid = some s ∧ s.frozen = false) := by
      intro held hh
      rcases ih hh with hh | ⟨hmem, hs⟩
      · exact .inl hh
      · exact .inr ⟨mem_cons_of_mem _ hmem, hs⟩
    unfold fewestMembers at h
    cases hx : e.streams.lookup x with
    | none =>
      rw [hx] at h
      exact hrest h
    | some s =>
      simp only [hx] at h
      split at h
      · exact hrest h
      · rename_i hf
        have hthis : ∀ {c : Nat}, (some (x, c) : Option (Nat × Nat)) = some (sid, n) →
            sid ∈ x :: owned ∧ ∃ s, e.streams.lookup sid = some s ∧ s.frozen = false := by
          intro c hc
          cases hc
          exact ⟨mem_cons_self, s, hx, by simpa using hf⟩
        split at h
        · exact .inr ((hrest h).elim hthis fun hh => hh)
        · split at h
          · exact .inr ((hrest h).elim hthis fun hh => hh)
          · exact hrest h

theorem firstUnfrozen_mem (h : e.firstUnfrozen owned = some sid) :
    sid ∈ owned ∧ ∃ s, e.streams.lookup sid = some s ∧ s.frozen = false := by
  refine ⟨mem_of_find?_eq_some h, ?_⟩
  have hp := find?_some h
  cases hl : e.streams.lookup sid with
  | none => simp [hl] at hp
  | some s => exact ⟨s, rfl, by simpa [hl] using hp⟩

/-- **A stream that is found** is there, is not frozen, and is listed as the sponsor's. -/
theorem findPlacementStream_ok {choice : Option Nat} (h : e.findPlacementStream sponsor choice = .ok sid) :
    (∃ s, e.streams.lookup sid = some s ∧ s.frozen = false) ∧ sid ∈ e.streamOwners.of sponsor := by
  unfold findPlacementStream at h
  cases choice with
  | some chosen =>
    simp only at h
    split at h
    · cases h
    · split at h
      · cases h
      · rename_i s hs
        split at h
        · cases h
        · rename_i hf
          split at h
          · cases h
          · rename_i owned ho
            split at h
            · rename_i hmem
              cases h
              refine ⟨⟨s, hs, by simpa using hf⟩, ?_⟩
              rw [StreamLists.of, ho]
              exact hmem
            · cases h
  | none =>
    simp only at h
    split at h
    · cases h
    · rename_i owned ho
      have hof : e.streamOwners.of sponsor = owned := by
        rw [StreamLists.of, ho]
        rfl
      rw [hof]
      split at h
      · rename_i found hfound
        cases h
        split at hfound
        · exact (firstUnfrozen_mem hfound).symm
        · obtain ⟨⟨x, n⟩, hx, rfl⟩ := map_eq_some_iff.mp hfound
          rcases fewestMembers_mem hx with hno | hyes
          · cases hno
          · exact hyes.symm
      · cases h

theorem findPlacementStream_safe (sponsor : Uuid) (choice : Option Nat) :
    Query.Safe (e.findPlacementStream sponsor choice) := by
  unfold findPlacementStream
  split
  · repeat' split
    all_goals first | exact safe_err _ | exact safe_ok _
  · split
    · exact safe_err _
    · dsimp only
      split
      · exact safe_ok _
      · exact safe_err _

theorem checkAddMember_ok {first : Bool} (h : e.checkAddMember u sponsor = .ok first) :
    u ≠ Uuid.nil ∧ e.userStreams.lookup u = none ∧ (first = true ↔ e.userStreams.keys = []) := by
  simp only [checkAddMember, bind_eq_ok, stopIf_eq_ok] at h
  obtain ⟨_, hu, _, hnew, h⟩ := h
  refine ⟨hu, by simpa using hnew, ?_⟩
  split at h
  · rename_i hk
    cases h
    exact ⟨fun _ => hk, fun _ => rfl⟩
  · rename_i hk
    obtain ⟨_, -, h⟩ := bind_eq_ok.mp h
    cases h
    exact ⟨fun e => (by cases e), fun e => absurd e hk⟩

theorem checkAddMember_safe (u sponsor : Uuid) : Query.Safe (e.checkAddMember u sponsor) := by
  refine (safe_stopIf _).bind fun _ _ => (safe_stopIf _).bind fun _ _ => ?_
  split
  · exact safe_ok _
  · exact (safe_stopIf _).bind fun _ _ => safe_ok _

end StreamlineEngine

/-! ## 3. Appending -/

section Append

variable {s : Stream} {l : List Member} {u sponsor : Uuid}

/-- The chain with one more member at the bottom. -/
def appended (l : List Member) (u sponsor : Uuid) (ts : Int) : List Member :=
  ⟨u, if l = [] then none else some sponsor, ts⟩ :: l

theorem Stream.append_ok (hc : s.Chained l) (hroom : l.length < 2 ^ 32) (hu : u ≠ Uuid.nil) (hnew : u ∉ users l)
    (hs : l = [] ∨ sponsor ∈ users l) (ts : Int) : ∃ t,
    (Stream.append u sponsor ts).run s = .ok l.length { s with tree := t, bottom := some u } ∧
      Holds t (appended l u sponsor ts) := by
  cases l with
  | nil =>
    obtain ⟨k, t, hrun, ht⟩ := hc.holds.addRoot hu ts
    refine ⟨t, ?_, ht⟩
    have hb : s.bottom = none := hc.bottom
    simp only [Stream.append, run_bind, run_get, hb, Stream.onTree, run_zoom,
      run_expect, hrun, run_pure, run_modify, length_nil]
  | cons p above =>
    have hs : sponsor ∈ users (p :: above) := hs.resolve_left (cons_ne_nil p above)
    obtain ⟨k, t, hrun, ht⟩ := hc.holds.addNode hroom hu hnew hs ts
    refine ⟨t, ?_, ht⟩
    have hb : s.bottom = some p.user := hc.bottom
    have ht0 : Holds t ([] ++ ⟨u, some sponsor, ts⟩ :: p :: above) := ht
    obtain ⟨found, hfound, huser, hdepth⟩ := ht0.getParent
    obtain ⟨n, rfl, -⟩ := map_eq_some_iff.mp huser
    have hparent : ∀ b, Stream.parentJustAdded { s with tree := t, bottom := b } u = .ok n := by
      intro b
      simp only at hfound
      rw [Stream.parentJustAdded, hfound]
    have hpos : n.depth + 1 = (p :: above).length := hdepth n rfl
    simp only [Stream.append, run_bind, run_get, hb, Stream.onTree, run_zoom,
      run_relay, hrun, run_reads, hparent, run_pure, run_modify, hpos]

theorem Stream.append_full (hc : s.Chained l) (hfull : ¬ l.length < 2 ^ 32) (hu : u ≠ Uuid.nil)
    (hnew : u ∉ users l) (hs : sponsor ∈ users l) (ts : Int) :
    (Stream.append u sponsor ts).run s = .error depthPanic s := by
  cases l with
  | nil => cases hs
  | cons p above =>
    have hb : s.bottom = some p.user := hc.bottom
    simp only [Stream.append, run_bind, run_get, hb, Stream.onTree, run_zoom,
      run_relay, hc.holds.addNode_full hfull hu hnew hs ts]
    rw [← hb]
    rfl

theorem Stream.append_refused (hc : s.Chained l) (hu : u ≠ Uuid.nil) (hnew : u ∉ users l)
    (hne : l ≠ []) (hs : sponsor ∉ users l) (ts : Int) : (Stream.append u sponsor ts).run s =
      .error (.err (.treeError .add (.sponsorNotFound sponsor))) s := by
  cases l with
  | nil => exact absurd rfl hne
  | cons p above =>
    have hb : s.bottom = some p.user := hc.bottom
    simp only [Stream.append, run_bind, run_get, hb, Stream.onTree, run_zoom,
      run_relay, hc.holds.addNode_refused hu hnew hs ts]
    rw [← hb]
    rfl

theorem topUser_cons {m : Member} (hne : l ≠ []) : topUser (m :: l) = topUser l := by
  obtain ⟨p, l, rfl⟩ := exists_cons_of_ne_nil hne
  rw [topUser, getLast?_cons_cons, topUser]

end Append

namespace StreamlineEngine

variable {e e' : StreamlineEngine} {sid id : Nat} {s : Stream} {u v sponsor : Uuid} {l : List Member}

theorem Housed.not_mem (h : e.Housed) (hu : e.userStreams.lookup u = none)
    (hs : e.streams.lookup sid = some s) (hc : s.Chained l) : u ∉ users l := by
  intro hmem
  have hoff := h.off hu sid
  rw [(on_iff_mem hs hc).mpr hmem] at hoff
  cases hoff

/-- The engine with a recruit at the bottom of a stream. -/
def withRecruit (e : StreamlineEngine) (sid : Nat) (s : Stream) (t : UnilevelTree) (u : Uuid) :
    StreamlineEngine :=
  { e with
    streams := e.streams.insert sid { s with tree := t, bottom := some u }
    userStreams := push e.userStreams u sid }

section Append

variable (h : e.Sound) (hs : e.streams.lookup sid = some s)
include h hs

/-- **A recruit gets onto a stream** that is empty or has their sponsor on it. -/
theorem appendTo_ok (hc : s.Chained l) (hroom : l.length < 2 ^ 32)
    (hu : u ≠ Uuid.nil) (hnew : e.userStreams.lookup u = none) (hl : l = [] ∨ sponsor ∈ users l)
    (ts : Int) : ∃ t, (appendTo sid u sponsor ts).run e = .ok ⟨sid, l.length⟩ (e.withRecruit sid s t u) ∧
      (e.withRecruit sid s t u).Sound ∧
      Stream.Chained { s with tree := t, bottom := some u } (appended l u sponsor ts) := by
  obtain ⟨t, hrun, ht⟩ := Stream.append_ok hc hroom hu (h.housed.not_mem hnew hs hc) hl ts
  let s' : Stream := { s with tree := t, bottom := some u }
  have hc' : s'.Chained (appended l u sponsor ts) := ⟨ht, rfl⟩
  have hp := h.housed.proper hs
  have hfirst : sid = 1 → s'.ownerId = Uuid.nil ∨ s'.ownerId = topUser (appended l u sponsor ts) := by
    intro h1
    obtain ⟨l', hl', hown⟩ := hp.chained
    rcases hown h1 with ho | ho
    · exact .inl ho
    · rw [Borrowed.topUser_unique hl'.holds hc.holds] at ho
      by_cases hnil : l = []
      · subst hnil
        exact .inl ho
      · exact .inr (ho.trans (topUser_cons hnil).symm)
  have hp' : Proper sid s' := ⟨hp.keyed, _, hc', hfirst⟩
  refine ⟨t, ?_, ⟨?_, ?_⟩, hc'⟩
  · simp only [appendTo, run_bind, run_reads, expectStream, hs, onStream, run_zoom,
      hrun, run_modify, run_pure]
    rfl
  · refine h.housed.enter hs hp' rfl rfl hnew (fun v => ?_) rfl
    rw [hc'.holds.contains, hc.holds.contains, appended, users_cons, mem_cons]
  · rw [ownerAt_insert_same (e := e) (x := s') rfl hs rfl]
    exact h.owned

theorem Sound.rewrite {s' : Stream}
    (hp : Proper sid s') (htree : s'.tree = s.tree) (ho : s'.ownerId = s.ownerId) :
    Sound { e with streams := e.streams.insert sid s' } := by
  refine ⟨h.housed.stay hs hp rfl rfl htree rfl, ?_⟩
  rw [ownerAt_insert_same (e := e) rfl hs ho]
  exact h.owned

theorem appendTo_full (hc : s.Chained l) (hfull : ¬ l.length < 2 ^ 32)
    (hu : u ≠ Uuid.nil) (hnew : e.userStreams.lookup u = none) (hsp : sponsor ∈ users l) (ts : Int) :
    (appendTo sid u sponsor ts).run e = .error depthPanic { e with streams := e.streams.insert sid s } := by
  have hrun := Stream.append_full hc hfull hu (h.housed.not_mem hnew hs hc) hsp ts
  simp only [appendTo, run_bind, run_reads, expectStream, hs, onStream, run_zoom, hrun]

theorem appendTo_refused (hc : s.Chained l)
    (hu : u ≠ Uuid.nil) (hnew : e.userStreams.lookup u = none) (hne : l ≠ [])
    (hsp : sponsor ∉ users l) (ts : Int) : (appendTo sid u sponsor ts).run e =
      .error (.err (.treeError .add (.sponsorNotFound sponsor)))
        { e with streams := e.streams.insert sid s } := by
  have hrun := Stream.append_refused hc hu (h.housed.not_mem hnew hs hc) hne hsp ts
  simp only [appendTo, run_bind, run_reads, expectStream, hs, onStream, run_zoom, hrun]

end Append

/-- **The first member** of an engine sits on stream 1, or on a new stream when that one is gone. -/
theorem bootstrapFirstMember_fine (h : e.Sound) (hu : u ≠ Uuid.nil)
    (hnew : e.userStreams.lookup u = none) (hk : e.userStreams.keys = []) (ts : Int) :
    Fine e ((bootstrapFirstMember u ts).run e) ∧ ∀ r e', (bootstrapFirstMember u ts).run e = .ok r e' →
      r.streamId = if (e.streams.lookup 1).isSome then 1 else e.nextStreamId := by
  have hseat : ∀ {s : Stream}, s.Chained [] → ∃ t, (Stream.seatFirst u ts).run s =
      .ok () { s with tree := t, ownerId := u, bottom := some u } ∧ Holds t [⟨u, none, ts⟩] := by
    intro s hc
    obtain ⟨k, t, hrun, ht⟩ := hc.holds.addRoot hu ts
    refine ⟨t, ?_, ht⟩
    simp only [Stream.seatFirst, run_bind, Stream.onTree, run_zoom, run_expect, hrun, run_modify]
  have hproper : ∀ {id : Nat} {s : Stream} {t : UnilevelTree}, s.id = id → Holds t [⟨u, none, ts⟩] →
      Proper id { s with tree := t, ownerId := u, bottom := some u } := fun hid ht =>
    ⟨hid, _, ⟨ht, rfl⟩, fun _ => .inr rfl⟩
  have hmem : ∀ {s : Stream} {t : UnilevelTree}, s.Chained [] → Holds t [⟨u, none, ts⟩] →
      ∀ v, t.contains v = true ↔ v = u ∨ s.tree.contains v = true := fun hc ht v => by
    rw [ht.contains, hc.holds.contains]
    simp
  cases h1 : e.streams.lookup 1 with
  | some s =>
    obtain ⟨l, hc, hown⟩ := (h.housed.proper h1).chained
    have hnil := h.housed.no_member hk h1 hc
    subst hnil
    have howner : s.ownerId = Uuid.nil := (hown rfl).elim id id
    obtain ⟨t, hrun, ht⟩ := hseat hc
    let s' : Stream := { s with tree := t, ownerId := u, bottom := some u }
    let e' : StreamlineEngine := { e with
      streams := e.streams.insert 1 s'
      streamOwners := push e.streamOwners u 1
      userStreams := push e.userStreams u 1 }
    have hfull : (bootstrapFirstMember u ts).run e = .ok ⟨1, 0⟩ e' := by
      simp only [bootstrapFirstMember, run_bind, run_get, h1, isSome_some, if_true,
        run_modify, run_pure, run_reads, expectStream, onStream, run_zoom, hrun]
      rfl
    have hsound : e'.Sound := by
      refine ⟨h.housed.enter h1 (hproper (h.housed.proper h1).keyed ht) rfl rfl hnew (hmem hc ht) rfl, ?_⟩
      rw [ownerAt_insert (e := e) (x := s') rfl]
      refine h.owned.give (fun v hv => ?_) hu hu
      rw [ownerAt_of_lookup h1, howner] at hv
      exact .inl (some.inj hv).symm
    rw [hfull]
    refine ⟨⟨hsound, Nat.le_refl _⟩, fun r x hr => ?_⟩
    cases hr
    rfl
  | none =>
    by_cases hlt : e.nextStreamId < maxStreamId
    · have hs1 := h.withNewStream hu ts
      let fresh := Stream.empty e.nextStreamId u ts
      have hfresh : (e.withNewStream u ts).streams.lookup e.nextStreamId = some fresh := lookup_insert _
      have hc : fresh.Chained [] := ⟨holds_new, rfl⟩
      obtain ⟨t, hrun, ht⟩ := hseat hc
      let s' : Stream := { fresh with tree := t, ownerId := u, bottom := some u }
      let e' : StreamlineEngine := { e.withNewStream u ts with
        streams := (e.withNewStream u ts).streams.insert e.nextStreamId s'
        userStreams := push e.userStreams u e.nextStreamId }
      have hfull : (bootstrapFirstMember u ts).run e = .ok ⟨e.nextStreamId, 0⟩ e' := by
        simp only [bootstrapFirstMember, run_bind, run_get, h1, isSome_none,
          Bool.false_eq_true, if_false, createStream_ok hlt, run_reads, expectStream, hfresh,
          onStream, run_zoom, hrun, run_modify, run_pure]
        rfl
      have hsound : e'.Sound := by
        refine ⟨hs1.housed.enter hfresh (hproper rfl ht) rfl rfl hnew (hmem hc ht) rfl, ?_⟩
        rw [ownerAt_insert_same (e := e.withNewStream u ts) (x := s') rfl hfresh rfl]
        exact hs1.owned
      rw [hfull]
      refine ⟨⟨hsound, Nat.le_succ _⟩, fun r x hr => ?_⟩
      cases hr
      rfl
    · have hle := Nat.not_lt.mp hlt
      have hfull : (bootstrapFirstMember u ts).run e = .error (.panic "attempt to add with overflow") e := by
        simp only [bootstrapFirstMember, run_bind, run_get, h1, isSome_none,
          Bool.false_eq_true, if_false, createStream_exhausted hle]
      rw [hfull]
      exact ⟨⟨h, Nat.le_refl _, .inr (.inl hle)⟩, fun r x hr => by cases hr⟩

theorem addMember_run {choice : Option Nat} {ts : Int} {first : Bool}
    (hc : e.checkAddMember u sponsor = .ok first) : (addMember u sponsor ts choice).run e =
      if first then (bootstrapFirstMember u ts).run e
      else match e.findPlacementStream sponsor choice with
        | .ok sid => (appendTo sid u sponsor ts).run e
        | .error stop => .error stop e := by
  simp only [addMember, run_bind, run_reads, hc]
  cases first with
  | true => rfl
  | false =>
    simp only [Bool.false_eq_true, if_false, run_bind, run_reads]
    cases e.findPlacementStream sponsor choice <;> rfl

theorem addMember_fine (h : e.Sound) (u sponsor : Uuid) (ts : Int) (choice : Option Nat) :
    Fine e ((addMember u sponsor ts choice).run e) := by
  cases hc : e.checkAddMember u sponsor with
  | error stop =>
    have hrun : (addMember u sponsor ts choice).run e = .error stop e := by
      simp only [addMember, run_bind, run_reads, hc]
    rw [hrun]
    exact ⟨h, Nat.le_refl _, .inl (checkAddMember_safe u sponsor stop hc)⟩
  | ok first =>
    obtain ⟨hu, hnew, hfirst⟩ := checkAddMember_ok hc
    rw [addMember_run hc]
    cases first with
    | true => exact (bootstrapFirstMember_fine h hu hnew (hfirst.mp rfl) ts).1
    | false =>
      rw [if_neg (by simp)]
      cases hf : e.findPlacementStream sponsor choice with
      | error stop =>
        exact ⟨h, Nat.le_refl _, .inl (findPlacementStream_safe sponsor choice stop hf)⟩
      | ok sid =>
        obtain ⟨⟨s, hs, -⟩, -⟩ := findPlacementStream_ok hf
        obtain ⟨l, hl, -⟩ := (h.housed.proper hs).chained
        have hsame := h.rewrite hs (h.housed.proper hs) rfl rfl
        by_cases hon : l = [] ∨ sponsor ∈ users l
        · by_cases hroom : l.length < 2 ^ 32
          · obtain ⟨t, hrun, hsound, -⟩ := appendTo_ok h hs hl hroom hu hnew hon ts
            simp only [hrun]
            exact ⟨hsound, Nat.le_refl _⟩
          · have hsp := hon.resolve_left fun hnil => hroom (by rw [hnil]; decide)
            simp only [appendTo_full h hs hl hroom hu hnew hsp ts]
            exact ⟨hsame, Nat.le_refl _, .inr (.inr fun hr => hroom (hr.chain hs hl))⟩
        · obtain ⟨hne, hsp⟩ := not_or.mp hon
          simp only [appendTo_refused h hs hl hu hnew hne hsp ts]
          exact ⟨hsame, Nat.le_refl _, .inl ⟨_, rfl⟩⟩

end StreamlineEngine

end MlmForge.Streamline
