/-
  Subject:   Members who leave the streamline engine, and streams that do.

  * **`removeMember_ok`** -- the chain of a member who is removed closes up.
-/
import MlmForge.Streamline.Calls

namespace MlmForge.Streamline

open Engine Call List AList StreamLists Option StreamlineEngine

/-! ## 1. The top of a chain -/

section Top

variable {l above low : List Member} {u : Uuid}

theorem topUser_mem (hne : l ≠ []) : topUser l ∈ users l := by
  obtain ⟨m, hm⟩ := ne_none_iff_exists'.mp (mt getLast?_eq_none_iff.mp hne)
  rw [topUser, hm]
  exact mem_users (mem_of_getLast? hm)

theorem topUser_ne (hu : u ≠ Uuid.nil) (hnew : u ∉ users l) : topUser l ≠ u := by
  by_cases hnil : l = []
  · subst hnil
    exact hu.symm
  · exact fun e => hnew (e ▸ topUser_mem hnil)

theorem topUser_append (hne : above ≠ []) : topUser (low ++ above) = topUser above := by
  induction low with
  | nil => rfl
  | cons m low ih =>
    rw [cons_append, topUser_cons (append_ne_nil_of_right_ne_nil low hne), ih]

end Top

variable {owners : StreamLists} {ownerAt : Nat → Option Uuid} {u : Uuid} {sid : Nat} {l : List Member}

/-- **A stream of a user who leaves goes to its top.** -/
theorem Owns.transfer (h : Owns owners ownerAt u) (hold : ownerAt sid = some u) (hst : Stacked l)
    (hu : u ≠ Uuid.nil) (hnew : u ∉ users l) : Owns (Borrowed.ownersAfter owners sid l)
      (Function.update ownerAt sid (some (topUser l))) u := by
  have hskip : ∀ v, ownerAt sid = some v → v = Uuid.nil ∨ v = u := fun v hv => by
    rw [hold] at hv
    exact .inr (some.inj hv).symm
  unfold Borrowed.ownersAfter
  split
  · rename_i hnil
    subst hnil
    exact h.release hskip fun v hv => .inl (some.inj hv).symm
  · rename_i hne
    exact h.give hskip (hst.ne_nil (topUser_mem hne)) (topUser_ne hu hnew)

theorem Owns.settle_none
    (h : Owns owners ownerAt u) (hnone : owners.lookup u = none) (hnobody : ∀ id, ownerAt id ≠ some u) :
    Owns owners ownerAt Uuid.nil := by
  refine h.settle (fun ids hids => ?_) fun id => ?_
  · rw [hnone] at hids
    cases hids
  · rw [StreamLists.of, hnone]
    exact ⟨fun hmem => absurd hmem not_mem_nil, fun hid => absurd hid (hnobody id)⟩

theorem lookup_ownersAfter (hu : u ≠ Uuid.nil) (hnew : u ∉ users l) :
    (Borrowed.ownersAfter owners sid l).lookup u = owners.lookup u := by
  unfold Borrowed.ownersAfter
  split
  · rfl
  · rw [lookup_push, if_neg (topUser_ne hu hnew).symm]

namespace StreamlineEngine

variable {e e' : StreamlineEngine} {sid id : Nat} {s : Stream} {u v : Uuid} {ts : Int}
  {l above below : List Member} {m : Member}

/-! ## 2. Removing a member -/

/-- **The streams of `u` are their tops' now**, or nobody's, and nothing else has changed. -/
structure Handed (u : Uuid) (e e' : StreamlineEngine) : Prop where
  streams : ∀ {i s l}, e.streams.lookup i = some s → Holds s.tree l →
    e'.streams.lookup i = some (if s.ownerId = u then { s with ownerId := topUser l } else s)
  none_new : ∀ {i}, e.streams.lookup i = none → e'.streams.lookup i = none
  userStreams : e'.userStreams = e.userStreams
  next : e'.nextStreamId = e.nextStreamId

theorem handed_of_none (h : ∀ id, e.ownerAt id ≠ some u) (hstreams : e'.streams = e.streams)
    (husers : e'.userStreams = e.userStreams) (hnext : e'.nextStreamId = e.nextStreamId) :
    Handed u e e' where
  streams {i s l} hs _ := by
    rw [hstreams, hs, if_neg fun ho => h i (by rw [ownerAt_of_lookup hs, ho])]
  none_new hs := hstreams ▸ hs
  userStreams := husers
  next := hnext

/-- One stream handed over, and then the others. -/
theorem Handed.cons {e1 : StreamlineEngine} (h : Handed u e1 e') (hs : e.streams.lookup sid = some s)
    (hl : Holds s.tree l) (howner : s.ownerId = u) (hne : topUser l ≠ u)
    (hstreams : e1.streams = e.streams.insert sid { s with ownerId := topUser l })
    (husers : e1.userStreams = e.userStreams) (hnext : e1.nextStreamId = e.nextStreamId) :
    Handed u e e' where
  streams {i s' l'} hs' hl' := by
    by_cases hi : i = sid
    · subst hi
      cases hs.symm.trans hs'
      have hlook : e1.streams.lookup i = some { s with ownerId := topUser l } := by
        rw [hstreams]
        exact lookup_insert _
      have hthen := h.streams (l := l) hlook hl
      rw [if_neg hne] at hthen
      rw [hthen, if_pos howner, Borrowed.topUser_unique hl hl']
    · refine h.streams ?_ hl'
      rw [hstreams]
      exact (lookup_insert_ne hi).trans hs'
  none_new {i} hi := by
    refine h.none_new ?_
    rw [hstreams]
    refine (lookup_insert_ne fun heq => ?_).trans hi
    rw [heq, hs] at hi
    cases hi
  userStreams := h.userStreams.trans husers
  next := h.next.trans hnext

/-- **The streams of a user who left are given away**: once all that name them are through, the engine
    is sound. -/
theorem giveAway_ok (hu : u ≠ Uuid.nil) : ∀ (todo : List Nat) {e : StreamlineEngine}, e.Housed →
    e.userStreams.lookup u = none → Owns e.streamOwners e.ownerAt u →
    e.streamOwners.lookup u = none → (∀ id, e.ownerAt id = some u → id ∈ todo) →
    ∃ e', (giveAway u todo).run e = .ok () e' ∧ e'.Sound ∧ Handed u e e' := by
  intro todo
  induction todo with
  | nil =>
    intro e h _ ho hnone hpending
    have hnobody : ∀ id, e.ownerAt id ≠ some u := fun id hid => absurd (hpending id hid) not_mem_nil
    exact ⟨e, rfl, ⟨h, ho.settle_none hnone hnobody⟩, handed_of_none hnobody rfl rfl rfl⟩
  | cons oid rest ih =>
    intro e h hgone ho hnone hpending
    have hskip : e.ownerAt oid ≠ some u → ∀ id, e.ownerAt id = some u → id ∈ rest := by
      intro hne id hid
      rcases mem_cons.mp (hpending id hid) with rfl | hmem
      · exact absurd hid hne
      · exact hmem
    cases hs : e.streams.lookup oid with
    | none =>
      have hne : e.ownerAt oid ≠ some u := by
        rw [ownerAt, hs]
        exact some_ne_none u |>.symm
      obtain ⟨e', hrun, hres⟩ := ih h hgone ho hnone (hskip hne)
      exact ⟨e', by simp only [giveAway, run_bind, run_get, hs, hrun], hres⟩
    | some stream =>
      by_cases howner : stream.ownerId = u
      · obtain ⟨l, hc, -⟩ := (h.proper hs).chained
        have hnew := h.not_mem hgone hs hc
        let s' : Stream := { stream with ownerId := topUser l }
        let e1 : StreamlineEngine := { e with
          streams := e.streams.insert oid s'
          streamOwners := Borrowed.ownersAfter e.streamOwners oid l }
        have hp : Proper oid s' := ⟨(h.proper hs).keyed, l, ⟨hc.holds, hc.bottom⟩, fun _ => .inr rfl⟩
        have h1 : e1.Housed := h.stay hs hp rfl rfl rfl rfl
        have hat : e1.ownerAt = Function.update e.ownerAt oid (some (topUser l)) :=
          ownerAt_insert (e := e) (x := s') rfl
        have ho1 : Owns e1.streamOwners e1.ownerAt u := by
          rw [hat]
          exact ho.transfer (by rw [ownerAt_of_lookup hs, howner]) hc.holds.stacked hu hnew
        obtain ⟨e', hrun, hsound, hhanded⟩ := ih (e := e1) h1 hgone ho1
          ((lookup_ownersAfter hu hnew).trans hnone) (fun id hid => by
            rw [hat, Function.update_apply] at hid
            split at hid
            · exact absurd (some.inj hid) (topUser_ne hu hnew)
            · rename_i hne
              exact (mem_cons.mp (hpending id hid)).resolve_left hne)
        refine ⟨e', ?_, hsound, hhanded.cons hs hc.holds howner (topUser_ne hu hnew) rfl rfl rfl⟩
        have htransfer := @Borrowed.transferOwner_ok ⟨stream, e.userStreams, e.streamOwners⟩ oid l hc.holds
        simp only [giveAway, run_bind, run_get, hs, howner, if_true, borrow, run_zoom, htransfer]
        exact hrun
      · have hne : e.ownerAt oid ≠ some u := by
          rw [ownerAt_of_lookup hs]
          exact fun hx => howner (some.inj hx)
        obtain ⟨e', hrun, hres⟩ := ih h hgone ho hnone (hskip hne)
        exact ⟨e', by simp only [giveAway, run_bind, run_get, hs, howner, if_false, hrun], hres⟩

/-- The engine once a member has left their stream. -/
def without (e : StreamlineEngine) (sid : Nat) (b : Borrowed) : StreamlineEngine :=
  { e with
    streams := e.streams.insert sid b.stream
    userStreams := b.userStreams
    streamOwners := b.streamOwners }

theorem not_mem_rest (hc : s.Chained (below ++ m :: above)) : m.user ∉ users below ++ users above := by
  have hnd := hc.holds.stacked.nodup
  rw [users_append, users_cons, nodup_middle, nodup_cons] at hnd
  exact hnd.1

theorem on_split (hs : e.streams.lookup sid = some s) (hc : s.Chained (below ++ m :: above)) :
    e.on sid v = true ↔ v = m.user ∨ v ∈ users below ++ users above := by
  rw [on_iff_mem hs hc, users_append, users_cons, mem_append, mem_cons, mem_append]
  tauto

variable {b : Borrowed}

theorem Housed.without (h : e.Housed) (hs : e.streams.lookup sid = some s)
    (hc : s.Chained (below ++ m :: above))
    (hleft : Borrowed.Left sid m.user ⟨s, e.userStreams.erase m.user, e.streamOwners⟩ b
      (closeUp m.user above below)) : (e.without sid b).Housed := by
  have hchain := hleft.chained
  have hon : ∀ v, b.stream.tree.contains v = true ↔ v ∈ users below ++ users above := fun v => by
    rw [hchain.holds.contains, users_closeUp]
  have hp : Proper sid b.stream := by
    refine ⟨hleft.id.trans (h.proper hs).keyed, _, hchain, fun h1 => ?_⟩
    rw [hleft.ownerId]
    split
    · exact .inr rfl
    · rename_i hne
      obtain ⟨l', hc', hown⟩ := (h.proper hs).chained
      rcases hown h1 with ho | ho
      · exact .inl ho
      · -- the owner is at the top and stays, so there is somebody above the one who leaves
        refine .inr ?_
        rw [Borrowed.topUser_unique hc'.holds hc.holds] at ho
        have habove : above ≠ [] := by
          rintro rfl
          refine hne (ho.trans ?_)
          rw [topUser_append (cons_ne_nil m [])]
          rfl
        obtain ⟨low, hlow⟩ := exists_closeUp m.user above below
        rw [hlow, topUser_append habove]
        exact ho.trans ((topUser_append (cons_ne_nil m above)).trans (topUser_cons habove))
  refine h.restream hs hp rfl rfl (fun v hv => .inl ((on_split hs hc).mpr (.inr ((hon v).mp hv)))) fun v => ?_
  have hlook : (e.without sid b).userStreams.lookup v = if v = m.user then none else e.userStreams.lookup v :=
    (hleft.userStreams v).trans (Maps.lookup_erase _ _ _)
  rw [hlook]
  by_cases hvm : v = m.user
  · have hout := mt (hon v).mp (hvm ▸ not_mem_rest hc)
    rw [if_pos hvm, if_neg hout, if_pos ((on_split hs hc).mpr (.inl hvm))]
  · rw [if_neg hvm]
    by_cases hmem : v ∈ users below ++ users above
    · rw [if_pos ((hon v).mpr hmem), h.seated.mpr ⟨sid, rfl, (on_split hs hc).mpr (.inr hmem)⟩]
    · have hoff : ¬ e.on sid v = true := fun hx => ((on_split hs hc).mp hx).elim hvm hmem
      rw [if_neg (mt (hon v).mp hmem), if_neg hoff]

/-- The engine between a member's leaving their stream and their streams' going to others. -/
structure Departed (e : StreamlineEngine) (u : Uuid) (e2 : StreamlineEngine) : Prop where
  housed : e2.Housed
  gone : e2.userStreams.lookup u = none
  owned : Owns e2.streamOwners e2.ownerAt u
  listed : e2.streamOwners.lookup u = e.streamOwners.lookup u
  pending : ∀ id, e2.ownerAt id = some u → id ∈ e.streamOwners.of u
  next : e2.nextStreamId = e.nextStreamId

section Departure

variable (h : e.Sound) (hs : e.streams.lookup sid = some s) (hc : s.Chained (below ++ m :: above))
include h hs hc

theorem Sound.departed (hne : m.user ≠ Uuid.nil)
    (hleft : Borrowed.Left sid m.user ⟨s, e.userStreams.erase m.user, e.streamOwners⟩ b
      (closeUp m.user above below)) : Departed e m.user (e.without sid b) := by
  have h2 : (e.without sid b).Housed := h.housed.without hs hc hleft
  have hgone : (e.without sid b).userStreams.lookup m.user = none :=
    (hleft.userStreams m.user).trans (lookup_erase _ _)
  have hnew : m.user ∉ users (closeUp m.user above below) := h2.not_mem hgone (lookup_insert _) hleft.chained
  have hat : (e.without sid b).ownerAt = Function.update e.ownerAt sid (some b.stream.ownerId) :=
    ownerAt_insert (e := e) rfl
  by_cases hx : s.ownerId = m.user
  · have howners : (e.without sid b).streamOwners =
        Borrowed.ownersAfter e.streamOwners sid (closeUp m.user above below) :=
      hleft.streamOwners.trans (if_pos hx)
    rw [hleft.ownerId, if_pos hx] at hat
    refine ⟨h2, hgone, ?_, ?_, fun id hid => (h.owned.owned hne hne).mpr ?_, rfl⟩
    · rw [howners, hat]
      exact (h.owned.but m.user).transfer (by rw [ownerAt_of_lookup hs, hx])
        hleft.chained.holds.stacked hne hnew
    · rw [howners, lookup_ownersAfter hne hnew]
    · rw [hat, Function.update_apply] at hid
      split at hid
      · exact absurd (some.inj hid) (topUser_ne hne hnew)
      · exact hid
  · have howners : (e.without sid b).streamOwners = e.streamOwners := hleft.streamOwners.trans (if_neg hx)
    rw [hleft.ownerId, if_neg hx, ← ownerAt_of_lookup hs, Function.update_eq_self] at hat
    refine ⟨h2, hgone, ?_, by rw [howners], fun id hid => (h.owned.owned hne hne).mpr (hat ▸ hid), rfl⟩
    rw [howners, hat]
    exact h.owned.but m.user

theorem leaveStreams_ok :
    ∃ b, (leaveStreams m.user [sid]).run { e with userStreams := e.userStreams.erase m.user } =
        .ok [sid] (e.without sid b) ∧
      Borrowed.Left sid m.user ⟨s, e.userStreams.erase m.user, e.streamOwners⟩ b
        (closeUp m.user above below) := by
  have hcontains : s.tree.contains m.user = true :=
    (on_of_lookup hs).symm.trans ((on_split hs hc).mpr (.inl rfl))
  -- everybody below is on this stream and no other
  have hbelow : ∀ d ∈ below, (e.userStreams.erase m.user).lookup d.user = some [sid] := by
    intro d hd
    have hmem : d.user ∈ users below ++ users above := mem_append_left _ (mem_users hd)
    have hdm : d.user ≠ m.user := fun heq => not_mem_rest hc (heq ▸ hmem)
    rw [lookup_erase_ne hdm]
    exact h.housed.seated.mpr ⟨sid, rfl, (on_split hs hc).mpr (.inr hmem)⟩
  obtain ⟨b, hrun, hleft⟩ := @Borrowed.leave_ok ⟨s, e.userStreams.erase m.user, e.streamOwners⟩ sid
    above below m hc hbelow
  refine ⟨b, ?_, hleft⟩
  simp only [leaveStreams, run_bind, run_get, hs, hcontains, if_true, borrow, run_zoom, hrun, run_pure]
  rfl

/-- **Removing a member of a chain**: the chain closes up, and what the member owned is handed over. -/
theorem removeMember_ok : ∃ b e', (removeMember m.user).run e = .ok ⟨[sid]⟩ e' ∧ e'.Sound ∧
      Borrowed.Left sid m.user ⟨s, e.userStreams.erase m.user, e.streamOwners⟩ b
        (closeUp m.user above below) ∧ Handed m.user (e.without sid b) e' := by
  have hu : e.userStreams.lookup m.user = some [sid] :=
    h.housed.seated.mpr ⟨sid, rfl, (on_split hs hc).mpr (.inl rfl)⟩
  have hne := h.housed.ne_nil hu
  obtain ⟨b, hleave, hleft⟩ := leaveStreams_ok h hs hc
  have hd := h.departed hs hc hne hleft
  cases hown : e.streamOwners.lookup m.user with
  | none =>
    have hnobody : ∀ id, (e.without sid b).ownerAt id ≠ some m.user := fun id hid => by
      have hmem := hd.pending id hid
      rw [StreamLists.of, hown] at hmem
      exact not_mem_nil hmem
    refine ⟨b, e.without sid b, ?_, ⟨hd.housed, hd.owned.settle_none (hd.listed.trans hown) hnobody⟩,
      hleft, handed_of_none hnobody rfl rfl rfl⟩
    simp only [removeMember, run_bind, run_get, hu, run_modify, hleave, hd.listed.trans hown, run_pure]
  | some owned =>
    let e3 : StreamlineEngine :=
      { e.without sid b with streamOwners := (e.without sid b).streamOwners.erase m.user }
    have h3 : e3.Housed := ⟨hd.housed.proper, hd.housed.below_cursor, hd.housed.past_first, hd.housed.seated⟩
    obtain ⟨e', hgive, hsound, hhanded⟩ := giveAway_ok hne owned (e := e3) h3 hd.gone
      hd.owned.erase (lookup_erase _ _) fun id hid => by
        have hmem := hd.pending id hid
        rw [StreamLists.of, hown] at hmem
        exact hmem
    refine ⟨b, e', ?_, hsound, hleft, ⟨hhanded.streams, hhanded.none_new, hhanded.userStreams, hhanded.next⟩⟩
    simp only [removeMember, run_bind, run_get, hu, run_modify, hleave, hd.listed.trans hown, run_pure]
    rw [show (giveAway m.user owned).run _ = _ from hgive]

end Departure

theorem removeMember_refused (hu : e.userStreams.lookup u = none) :
    (removeMember u).run e = .error (.err (.memberNotFound u)) e := by
  simp only [removeMember, run_bind, run_get, hu, run_throw]

/-- **Removing a member keeps the engine sound**, and whoever the index has is removed. -/
theorem removeMember_fine (h : e.Sound) (u : Uuid) : Fine e ((removeMember u).run e) := by
  cases hu : e.userStreams.lookup u with
  | none =>
    rw [removeMember_refused hu]
    exact ⟨h, Nat.le_refl _, .inl ⟨_, rfl⟩⟩
  | some ids =>
    obtain ⟨sid, rfl, hon⟩ := h.housed.seated.mp hu
    obtain ⟨s, hs, hcontains⟩ := on_eq_true.mp hon
    obtain ⟨l, hc, -⟩ := (h.housed.proper hs).chained
    obtain ⟨below, m, above, rfl, rfl⟩ := exists_split (hc.holds.contains.mp hcontains)
    obtain ⟨b, e', hrun, hsound, -, hhanded⟩ := removeMember_ok h hs hc
    rw [hrun]
    exact ⟨hsound, Nat.le_of_eq hhanded.next.symm⟩

/-! ## 3. Freezing and unfreezing -/

/-- The engine with a flag of a stream changed. -/
def reflagged (e : StreamlineEngine) (id : Nat) (s : Stream) (flag : Bool) : StreamlineEngine :=
  { e with streams := e.streams.insert id { s with frozen := flag } }

theorem Sound.reflag {flag : Bool} (h : e.Sound) (hs : e.streams.lookup sid = some s) :
    (e.reflagged sid s flag).Sound := by
  obtain ⟨l, hc, hown⟩ := (h.housed.proper hs).chained
  have hp : Proper sid { s with frozen := flag } :=
    ⟨(h.housed.proper hs).keyed, l, ⟨hc.holds, hc.bottom⟩, hown⟩
  exact h.rewrite hs hp rfl rfl

theorem exists_insert {x : Stream} {i : Nat} (h : ∃ s, e.streams.lookup i = some s) :
    ∃ s, (e.streams.insert id x).lookup i = some s := by
  rw [Maps.lookup_insert]
  split
  · exact ⟨x, rfl⟩
  · exact h

/-- **Some streams got a flag**, and nothing else has changed. -/
structure Flagged (flag : Bool) (ids : List Nat) (e e' : StreamlineEngine) : Prop where
  streams : ∀ i, e'.streams.lookup i =
    (e.streams.lookup i).map fun s => if i ∈ ids then { s with frozen := flag } else s
  rest : e' = { e with streams := e'.streams }

theorem Flagged.refl (flag : Bool) (e : StreamlineEngine) : Flagged flag [] e e where
  streams i := by
    cases e.streams.lookup i <;> rfl
  rest := rfl

theorem Flagged.roomy {flag : Bool} {ids : List Nat} (h : Flagged flag ids e e') (hr : e.Roomy) : e'.Roomy := by
  rintro ⟨i, s'⟩ hx
  have hs' := mem_lookup_iff.mpr hx
  rw [h.streams] at hs'
  obtain ⟨s, hs, rfl⟩ := map_eq_some_iff.mp hs'
  have hlen := hr ⟨i, s⟩ (mem_lookup_iff.mp hs)
  dsimp only
  split <;> exact hlen

/-- One stream gets the flag, and then the others. -/
theorem Flagged.cons {flag : Bool} {ids : List Nat} (hs : e.streams.lookup id = some s)
    (h : Flagged flag ids (e.reflagged id s flag) e') :
    Flagged flag (id :: ids) e e' where
  streams i := by
    rw [h.streams, reflagged, Maps.lookup_insert]
    by_cases hi : i = id
    · subst hi
      rw [if_pos rfl, hs]
      simp
    · rw [if_neg hi]
      simp [hi]
  rest := h.rest

section Flags

-- what every change of a flag keeps
variable {P : StreamlineEngine → Prop}

theorem freezeStreams_ok
    (hP : ∀ {e : StreamlineEngine} {id s}, P e → e.streams.lookup id = some s → P (e.reflagged id s true)) :
    ∀ (ids : List Nat) {e : StreamlineEngine}, P e → (∀ id ∈ ids, ∃ s, e.streams.lookup id = some s) →
    ∃ e', (freezeStreams ids).run e = .ok ids e' ∧ P e' ∧ Flagged true ids e e' := by
  intro ids
  induction ids with
  | nil => exact fun {e} h _ => ⟨e, rfl, h, .refl true e⟩
  | cons id rest ih =>
    intro e h hthere
    obtain ⟨s, hs⟩ := hthere id mem_cons_self
    obtain ⟨e', hrun, hkept, hflag⟩ := ih (hP h hs) fun i hi =>
      exists_insert (hthere i (mem_cons_of_mem _ hi))
    rw [reflagged] at hrun
    refine ⟨e', ?_, hkept, .cons hs hflag⟩
    simp only [freezeStreams, run_bind, run_get, hs, run_modify, hrun, run_pure]

theorem unfreezeStreams_ok
    (hP : ∀ {e : StreamlineEngine} {id s}, P e → e.streams.lookup id = some s → P (e.reflagged id s false)) :
    ∀ (ids : List Nat) (n : Nat) {e : StreamlineEngine}, P e →
    (∀ id ∈ ids, ∃ s, e.streams.lookup id = some s) →
    ∃ e', (unfreezeStreams ids n).run e = .ok (ids.take n, n - ids.length) e' ∧ P e' ∧
      Flagged false (ids.take n) e e' := by
  intro ids
  induction ids with
  | nil => exact fun n {e} h _ => ⟨e, by simp [unfreezeStreams], h, by
      rw [take_nil]
      exact .refl false e⟩
  | cons id rest ih =>
    intro n e h hthere
    cases n with
    | zero => exact ⟨e, by simp [unfreezeStreams], h, .refl false e⟩
    | succ n =>
      obtain ⟨s, hs⟩ := hthere id mem_cons_self
      obtain ⟨e', hrun, hkept, hflag⟩ := ih n (hP h hs) fun i hi =>
        exists_insert (hthere i (mem_cons_of_mem _ hi))
      rw [reflagged] at hrun
      refine ⟨e', ?_, hkept, .cons hs hflag⟩
      simp only [unfreezeStreams, run_bind, run_get, hs, run_modify, hrun,
        run_pure, take_succ_cons, length_cons, Nat.add_sub_add_right]

end Flags

/-! ## 4. Destroying -/

theorem lookup_dropAll {us : List Uuid} : ∀ {m : StreamLists},
    (∀ u ∈ us, m.lookup u = some [id] ∨ m.lookup u = none) →
    (us.foldl (fun m u => StreamLists.drop m u id) m).lookup v = if v ∈ us then none else m.lookup v := by
  induction us with
  | nil => exact fun _ => rfl
  | cons u us ih =>
    intro m hm
    have hdrop : ∀ w, (StreamLists.drop m u id).lookup w = if w = u then none else m.lookup w := by
      intro w
      rcases hm u mem_cons_self with hu | hu
      · exact lookup_drop hu
      · have hsame : StreamLists.drop m u id = m := by
          unfold StreamLists.drop
          rw [hu]
        rw [hsame]
        by_cases hw : w = u
        · rw [if_pos hw, hw, hu]
        · rw [if_neg hw]
    rw [foldl_cons, ih fun w hw => ?_, hdrop]
    · by_cases h1 : v = u <;> by_cases h2 : v ∈ us <;> simp [h1, h2]
    · rw [hdrop]
      split
      · exact .inr rfl
      · exact hm w (mem_cons_of_mem _ hw)

theorem lookup_retain {m : StreamLists} : (StreamLists.retain m u id).lookup v =
    if v = u then (m.lookup u).map fun ids => ids.filter (· ≠ id) else m.lookup v := by
  cases hu : m.lookup u with
  | none =>
    have hsame : StreamLists.retain m u id = m := by
      unfold StreamLists.retain
      rw [hu]
    rw [hsame]
    by_cases hv : v = u
    · rw [if_pos hv, hv, hu]
      rfl
    · rw [if_neg hv]
  | some ids =>
    have hput : StreamLists.retain m u id = m.insert u (ids.filter (· ≠ id)) := by
      unfold StreamLists.retain
      rw [hu]
    rw [hput]
    exact Maps.lookup_insert _ _ _ _

/-- What a user owns while streams of theirs are destroyed: their list may run empty. -/
structure Shrinking (u : Uuid) (e : StreamlineEngine) : Prop where
  housed : e.Housed
  owned : Owns e.streamOwners e.ownerAt u
  nodup : ∀ ids, e.streamOwners.lookup u = some ids → ids.Nodup
  mem : ∀ id, id ∈ e.streamOwners.of u ↔ e.ownerAt id = some u

variable {owners : StreamLists}

/-- Taking a stream off its owner's list keeps what is known of the lists. -/
theorem Owns.retain {ownerAt : Nat → Option Uuid} (h : Owns owners ownerAt u) :
    Owns (StreamLists.retain owners u id) ownerAt u where
  listed {w ids} hw := by
    rw [lookup_retain] at hw
    split at hw
    · rename_i e
      obtain ⟨ids', hids', -⟩ := map_eq_some_iff.mp hw
      exact ⟨e ▸ (h.listed hids').1, fun hne => absurd e hne⟩
    · exact h.listed hw
  owned {w i} hw hwu := by
    rw [← h.owned hw hwu, StreamLists.of, lookup_retain, if_neg hwu]
    rfl

theorem of_retain {i : Nat} : i ∈ (StreamLists.retain owners u id).of u ↔ i ∈ owners.of u ∧ i ≠ id := by
  rw [StreamLists.of, lookup_retain, if_pos rfl, StreamLists.of]
  cases owners.lookup u <;> simp

def destroyed (e : StreamlineEngine) (u : Uuid) (id : Nat) (s : Stream) : StreamlineEngine :=
  { e with
    streams := e.streams.erase id
    userStreams := s.tree.userIds.foldl (fun m v => StreamLists.drop m v id) e.userStreams
    streamOwners := StreamLists.retain e.streamOwners u id }

theorem lookup_destroyed (i : Nat) : (e.destroyed u id s).streams.lookup i =
    if i = id then none else e.streams.lookup i := Maps.lookup_erase _ _ _

theorem Housed.destroyed_seats (h : e.Housed) (hs : e.streams.lookup id = some s) (v : Uuid) :
    (e.destroyed u id s).userStreams.lookup v = if e.on id v then none else e.userStreams.lookup v := by
  obtain ⟨l, hc, -⟩ := (h.proper hs).chained
  have hon : ∀ v, e.on id v = true ↔ v ∈ s.tree.userIds := fun v => by
    rw [on_iff_mem hs hc, hc.holds.mem_userIds]
  simp only [hon]
  exact lookup_dropAll fun w hw => .inl (h.seated.mpr ⟨id, rfl, (hon w).mpr hw⟩)

theorem Shrinking.destroyed (h : Shrinking u e) (hs : e.streams.lookup id = some s)
    (ho : s.ownerId = u) : Shrinking u (e.destroyed u id s) := by
  have hoff : ∀ v, (e.destroyed u id s).on id v = false := fun v => by
    rw [on, lookup_destroyed, if_pos rfl]
    rfl
  have hat : (e.destroyed u id s).ownerAt = Function.update e.ownerAt id none := by
    funext i
    rw [ownerAt, lookup_destroyed, Function.update_apply]
    split <;> rfl
  refine ⟨h.housed.change lookup_destroyed (fun x hx => by cases hx) (Nat.le_refl _) (fun v hv => ?_)
    fun v => ?_, ?_, fun ids hids => ?_, fun i => ?_⟩
  · rw [hoff] at hv
    cases hv
  · rw [h.housed.destroyed_seats hs, hoff, if_neg Bool.false_ne_true]
  · rw [hat]
    refine Owns.retain (h.owned.release (fun v hv => ?_) fun v hv => by cases hv)
    rw [ownerAt_of_lookup hs, ho] at hv
    exact .inr (some.inj hv).symm
  · rw [StreamlineEngine.destroyed, lookup_retain, if_pos rfl] at hids
    obtain ⟨ids', hids', rfl⟩ := map_eq_some_iff.mp hids
    exact (h.nodup ids' hids').filter _
  · rw [hat, Function.update_apply, show (e.destroyed u id s).streamOwners =
      StreamLists.retain e.streamOwners u id from rfl, of_retain, h.mem]
    by_cases hi : i = id
    · simp [hi]
    · simp [hi]

/-- **Streams of `u` are gone, and with them their members' positions**; nothing else has changed. -/
structure Dropped (u : Uuid) (gone : List Nat) (e e' : StreamlineEngine) : Prop where
  streams : ∀ i, e'.streams.lookup i = if i ∈ gone then none else e.streams.lookup i
  userStreams : ∀ v, e'.userStreams.lookup v =
    if gone.any (fun id => e.on id v) then none else e.userStreams.lookup v
  owned : e'.streamOwners.of u = (e.streamOwners.of u).filter (· ∉ gone)
  owners : ∀ v, v ≠ u → e'.streamOwners.lookup v = e.streamOwners.lookup v
  next : e'.nextStreamId = e.nextStreamId
  config : e'.config = e.config

theorem Dropped.refl (u : Uuid) (e : StreamlineEngine) : Dropped u [] e e where
  streams i := by rw [if_neg not_mem_nil]
  userStreams v := rfl
  owned := by simp
  owners v _ := rfl
  next := rfl
  config := rfl

/-- One stream is destroyed, and then the others. -/
theorem Dropped.cons {gone : List Nat} (h : Housed e) (hs : e.streams.lookup id = some s)
    (hd : Dropped u gone (e.destroyed u id s) e') : Dropped u (id :: gone) e e' := by
  refine ⟨fun i => ?_, fun v => ?_, ?_, fun v hv => ?_, hd.next, hd.config⟩
  · rw [hd.streams, lookup_destroyed]
    by_cases hi : i = id <;> by_cases hg : i ∈ gone <;> simp [hi, hg]
  · rw [hd.userStreams, h.destroyed_seats hs, any_cons]
    cases hv : e.on id v with
    | true => simp
    | false =>
      have hsame : ∀ i, (e.destroyed u id s).on i v = e.on i v := fun i => by
        by_cases hi : i = id
        · rw [hi, hv, on, lookup_destroyed, if_pos rfl]
          rfl
        · rw [on, lookup_destroyed, if_neg hi, on]
      simp only [hsame, Bool.false_or, Bool.false_eq_true, if_false]
  · rw [hd.owned, show (e.destroyed u id s).streamOwners = StreamLists.retain e.streamOwners u id from rfl,
      StreamLists.of, lookup_retain, if_pos rfl, StreamLists.of]
    cases e.streamOwners.lookup u with
    | none => rfl
    | some ids =>
      rw [map_some, getD_some, getD_some, List.filter_filter]
      refine filter_congr fun i _ => ?_
      simp [mem_cons, Bool.and_comm]
  · rw [hd.owners v hv]
    exact lookup_retain.trans (if_neg hv)

theorem destroyStreams_ok : ∀ {ids : List Nat} {e : StreamlineEngine}, Shrinking u e → ids.Nodup →
    (∀ id ∈ ids, ∃ s, e.streams.lookup id = some s ∧ s.ownerId = u) →
    ∃ e', (destroyStreams u ids).run e = .ok ids e' ∧ Shrinking u e' ∧ Dropped u ids e e' := by
  intro ids
  induction ids with
  | nil => exact fun {e} h _ _ => ⟨e, rfl, h, .refl u e⟩
  | cons id rest ih =>
    intro e h hnd hown
    obtain ⟨hid, hnd'⟩ := nodup_cons.mp hnd
    obtain ⟨s, hs, ho⟩ := hown id mem_cons_self
    have hkeep : ∀ i ∈ rest, ∃ x, (e.destroyed u id s).streams.lookup i = some x ∧ x.ownerId = u := by
      intro i hi
      have hne : i ≠ id := fun heq => hid (heq ▸ hi)
      obtain ⟨x, hx, hxo⟩ := hown i (mem_cons_of_mem _ hi)
      exact ⟨x, (lookup_erase_ne hne).trans hx, hxo⟩
    obtain ⟨e', hrun, hshrink, hdrop⟩ := ih (h.destroyed hs ho) hnd' hkeep
    refine ⟨e', ?_, hshrink, hdrop.cons h.housed hs⟩
    rw [destroyed] at hrun
    simp only [destroyStreams, run_bind, run_get, hs, run_pure, run_modify, hrun]
    rfl

/-- Once the list is off the map with its last stream, the engine is sound again. -/
theorem Shrinking.sound (h : Shrinking u e) : Sound
    (if e.streamOwners.lookup u = some [] then { e with streamOwners := e.streamOwners.erase u } else e) := by
  split
  · rename_i hempty
    refine ⟨⟨h.housed.proper, h.housed.below_cursor, h.housed.past_first, h.housed.seated⟩,
      h.owned.erase.settle (fun ids hids => ?_) fun id => ?_⟩
    · rw [lookup_erase] at hids
      cases hids
    · have hmem := h.mem id
      rw [StreamLists.of, hempty] at hmem
      rw [StreamLists.of, lookup_erase]
      exact hmem
  · rename_i hne
    refine ⟨h.housed, h.owned.settle (fun ids hids => ⟨h.nodup ids hids, ?_⟩) h.mem⟩
    rintro rfl
    exact hne hids

/-! ## 5. Allowances -/

/-- **The streams of a list that have a flag** are those of the list that have it, each as often. -/
theorem Housed.idsByFlag_perm (h : e.Housed) {owned : List Nat} (flag : Bool)
    (hthere : ∀ id ∈ owned, ∃ s, e.streams.lookup id = some s) : (e.idsByFlag owned flag).Perm
      (owned.filter fun id => (e.streams.lookup id).any fun s => s.frozen = flag) := by
  have hsame : ((owned.filterMap e.streams.lookup).filter fun s => s.frozen = flag).map Stream.id =
      owned.filter fun id => (e.streams.lookup id).any fun s => s.frozen = flag := by
    induction owned with
    | nil => rfl
    | cons id rest ih =>
      obtain ⟨s, hs⟩ := hthere id mem_cons_self
      have hrest := ih fun i hi => hthere i (mem_cons_of_mem _ hi)
      have hcons : (id :: rest).filterMap (fun a => e.streams.lookup a) =
          s :: rest.filterMap fun a => e.streams.lookup a := by rw [filterMap_cons, hs]
      rw [hcons, filter_cons, filter_cons, hs, any_some]
      split
      · rw [map_cons, hrest, (h.proper hs).keyed]
      · exact hrest
  rw [← hsame]
  exact (((perm_insertionSort _ _).filter _).map _)

section Owned

variable {owned : List Nat} (h : e.Sound) (ho : e.streamOwners.lookup u = some owned)
include h ho

theorem mem_idsByFlag {flag : Bool} (hid : id ∈ e.idsByFlag owned flag) :
    ∃ s, e.streams.lookup id = some s ∧ s.ownerId = u := by
  have hmem := (h.housed.idsByFlag_perm flag fun i hi => (owner_of_listed h ho hi).imp fun _ hs =>
    hs.1).mem_iff.mp hid
  exact owner_of_listed h ho (mem_filter.mp hmem).1

theorem nodup_idsByFlag (flag : Bool) : (e.idsByFlag owned flag).Nodup := by
  refine (h.housed.idsByFlag_perm flag fun i hi => (owner_of_listed h ho hi).imp fun _ hs =>
    hs.1).nodup_iff.mpr (List.Nodup.filter _ ?_)
  exact ((h.owned.listed ho).2 (h.owned.listed ho).1).1

end Owned

theorem Sound.shrinking (h : e.Sound) (hu : u ≠ Uuid.nil) : Shrinking u e :=
  ⟨h.housed, h.owned.but u, fun _ hids => ((h.owned.listed hids).2 hu).1, fun _ => h.owned.owned hu hu⟩

/-- **A change of allowance keeps the engine sound.** -/
theorem updateStreamAllowance_fine (h : e.Sound) (u : Uuid) (n : Nat) (ts : Int) :
    Fine e ((updateStreamAllowance u n ts).run e) := by
  cases ho : e.streamOwners.lookup u with
  | none =>
    have hrun : (updateStreamAllowance u n ts).run e = .error (.err (.noOwnedStreams u)) e := by
      simp only [updateStreamAllowance, run_bind, run_get, ho, run_throw]
    rw [hrun]
    exact ⟨h, Nat.le_refl _, .inl ⟨_, rfl⟩⟩
  | some owned =>
    have hu := (h.owned.listed ho).1
    have hexcess : ∀ id ∈ (e.idsByFlag owned false).reverse.take
        (asU32 (e.idsByFlag owned false).length - n), id ∈ e.idsByFlag owned false :=
      fun id hid => mem_reverse.mp (mem_of_mem_take hid)
    simp only [updateStreamAllowance, run_bind, run_get, ho]
    split
    · split
      · obtain ⟨e', hrun, hsound, hflag⟩ := freezeStreams_ok Sound.reflag _ h fun id hid =>
          (mem_idsByFlag h ho (hexcess id hid)).imp fun _ hs => hs.1
        simp only [run_bind, hrun, run_pure]
        exact ⟨hsound, Nat.le_of_eq (by rw [hflag.rest])⟩
      · obtain ⟨e', hrun, hshrink, hdrop⟩ := destroyStreams_ok (h.shrinking hu)
          (nodup_reverse.mpr (nodup_idsByFlag h ho false)).take
          fun id hid => mem_idsByFlag h ho (hexcess id hid)
        simp only [run_bind, hrun, run_modify, run_pure]
        refine ⟨hshrink.sound, Nat.le_of_eq ?_⟩
        rw [← hdrop.next]
        split <;> rfl
    · split
      · obtain ⟨e', hrun, hsound, hflag⟩ := unfreezeStreams_ok Sound.reflag (e.idsByFlag owned true)
          (n - asU32 (e.idsByFlag owned false).length) h fun id hid =>
            (mem_idsByFlag h ho hid).imp fun _ hs => hs.1
        rw [run_bind, hrun]
        exact (createStreams_fine hu _ hsound).bind (Nat.le_of_eq (by rw [hflag.rest]))
          hflag.roomy fun ids x => ⟨_, rfl⟩
      · exact ⟨h, Nat.le_refl _⟩

end StreamlineEngine

end MlmForge.Streamline
