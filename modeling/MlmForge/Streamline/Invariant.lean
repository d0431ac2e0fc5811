/-
  Subject:   What every operation of the streamline engine keeps.

  * **`Sound`** -- both, with nobody skipped.
-/
import MlmForge.Streamline.Leave

namespace MlmForge.Streamline

open Engine StreamLists Maps List Option Query AList

namespace StreamlineEngine

/-- Whether a stream holds a user. -/
def on (e : StreamlineEngine) (id : Nat) (u : Uuid) : Bool :=
  (e.streams.lookup id).any fun s => s.tree.contains u

/-- The owner that a stream names. -/
def ownerAt (e : StreamlineEngine) (id : Nat) : Option Uuid := (e.streams.lookup id).map Stream.ownerId

/-- A stream under an id is a chain, and the first stream is nobody's or its top member's. -/
structure Proper (id : Nat) (s : Stream) : Prop where
  keyed : s.id = id
  chained : ∃ l, s.Chained l ∧ (id = 1 → s.ownerId = Uuid.nil ∨ s.ownerId = topUser l)

/-- **Where the members are**: every stream is a chain below the cursor, and the index lists for each
    user exactly the one stream that holds them. -/
structure Housed (e : StreamlineEngine) : Prop where
  proper : ∀ {id s}, e.streams.lookup id = some s → Proper id s
  below_cursor : ∀ {id s}, e.streams.lookup id = some s → id < e.nextStreamId
  past_first : 1 < e.nextStreamId
  seated : ∀ {u ids}, e.userStreams.lookup u = some ids ↔ ∃ id, ids = [id] ∧ e.on id u = true

end StreamlineEngine

/-- The streams listed for a user. -/
def StreamLists.of (m : StreamLists) (u : Uuid) : List Nat := (m.lookup u).getD []

/-- **Who owns what**: everybody but `skip` is listed with exactly the streams that name them, each
    once, and nobody with none. -/
structure Owns (owners : StreamLists) (ownerAt : Nat → Option Uuid) (skip : Uuid) : Prop where
  listed : ∀ {u ids}, owners.lookup u = some ids → u ≠ Uuid.nil ∧ (u ≠ skip → ids.Nodup ∧ ids ≠ [])
  owned : ∀ {u id}, u ≠ Uuid.nil → u ≠ skip → (id ∈ owners.of u ↔ ownerAt id = some u)

/-- **What the operations keep of an engine.** -/
structure StreamlineEngine.Sound (e : StreamlineEngine) : Prop where
  housed : e.Housed
  owned : Owns e.streamOwners e.ownerAt Uuid.nil

/-! ## 1. Owners -/

section Owns

variable {owners : StreamLists} {ownerAt : Nat → Option Uuid} {skip u v : Uuid} {sid id : Nat}

theorem StreamLists.of_push : (push owners u sid).of v =
    if v = u then owners.of u ++ [sid] else owners.of v := by
  unfold of
  rw [lookup_push]
  split <;> rfl

theorem ne_of_foreign {o : Option Uuid} (ho : ∀ w, o = some w → w = Uuid.nil ∨ w = skip)
    (hv : v ≠ Uuid.nil) (hs : v ≠ skip) : o ≠ some v := by
  intro e
  rcases ho v e with e' | e'
  · exact hv e'
  · exact hs e'

theorem Owns.nodup_of (h : Owns owners ownerAt skip) (hs : u ≠ skip) : (owners.of u).Nodup := by
  unfold of
  cases hl : owners.lookup u with
  | none => exact nodup_nil
  | some ids => exact ((h.listed hl).2 hs).1

/-- A stream that was nobody's, or a skipped user's, goes to a user. -/
theorem Owns.give (h : Owns owners ownerAt skip)
    (hold : ∀ v, ownerAt sid = some v → v = Uuid.nil ∨ v = skip) (hu : u ≠ Uuid.nil) (hs : u ≠ skip) :
    Owns (push owners u sid) (Function.update ownerAt sid (some u)) skip where
  listed {v ids} hv := by
    rw [lookup_push] at hv
    split at hv
    · rename_i e
      subst e
      cases hv
      refine ⟨hu, fun _ => ⟨?_, by simp⟩⟩
      -- the stream was not among the user's: it named somebody else
      have hnot : sid ∉ owners.of v := mt (h.owned hu hs).mp (ne_of_foreign hold hu hs)
      exact nodup_append.mpr ⟨h.nodup_of hs, nodup_singleton sid, fun x hx y hy e =>
        hnot (mem_singleton.mp hy ▸ e ▸ hx)⟩
    · exact h.listed hv
  owned {v id} hv hvs := by
    rw [of_push]
    by_cases hid : id = sid
    · subst hid
      rw [Function.update_self]
      by_cases e : v = u
      · simp [e]
      · rw [if_neg e, h.owned hv hvs]
        constructor
        · intro hat
          exact absurd hat (ne_of_foreign hold hv hvs)
        · intro hat
          exact absurd (some.inj hat).symm e
    · rw [Function.update_of_ne hid, ← h.owned hv hvs]
      split
      · rename_i e
        subst e
        simp [hid]
      · rfl

theorem Owns.release (h : Owns owners ownerAt skip)
    (hold : ∀ v, ownerAt sid = some v → v = Uuid.nil ∨ v = skip) {now : Option Uuid}
    (hnow : ∀ v, now = some v → v = Uuid.nil ∨ v = skip) :
    Owns owners (Function.update ownerAt sid now) skip where
  listed := h.listed
  owned {v id} hv hvs := by
    rw [h.owned hv hvs]
    by_cases hid : id = sid
    · subst hid
      rw [Function.update_self]
      exact ⟨fun e => absurd e (ne_of_foreign hold hv hvs), fun e => absurd e (ne_of_foreign hnow hv hvs)⟩
    · rw [Function.update_of_ne hid]

/-- Nobody else is listed with a stream that names a user. -/
theorem Owns.but (h : Owns owners ownerAt Uuid.nil) (u : Uuid) : Owns owners ownerAt u where
  listed hv := ⟨(h.listed hv).1, fun _ => (h.listed hv).2 (h.listed hv).1⟩
  owned hv _ := h.owned hv hv

theorem Owns.erase (h : Owns owners ownerAt skip) : Owns (owners.erase skip) ownerAt skip where
  listed {v ids} hv := by
    by_cases e : v = skip
    · rw [e, AList.lookup_erase] at hv
      cases hv
    · rw [lookup_erase_ne e] at hv
      exact h.listed hv
  owned {v id} hv hvs := by
    rw [← h.owned hv hvs, of, lookup_erase_ne hvs]
    rfl

/-- Once a skipped user is listed with what names them, nobody needs to be skipped. -/
theorem Owns.settle (h : Owns owners ownerAt skip) (hs : ∀ ids, owners.lookup skip = some ids →
      ids.Nodup ∧ ids ≠ [])
    (hmem : ∀ id, id ∈ owners.of skip ↔ ownerAt id = some skip) : Owns owners ownerAt Uuid.nil where
  listed {v ids} hv := by
    refine ⟨(h.listed hv).1, fun _ => ?_⟩
    by_cases e : v = skip
    · exact hs ids (e ▸ hv)
    · exact (h.listed hv).2 e
  owned {v id} hv _ := by
    by_cases e : v = skip
    · rw [e]
      exact hmem id
    · exact h.owned hv e

end Owns

namespace StreamlineEngine

variable {e e' : StreamlineEngine} {sid id : Nat} {s : Stream} {u v : Uuid}

/-! ## 2. Members -/

theorem on_of_lookup (h : e.streams.lookup id = some s) : e.on id u = s.tree.contains u := by
  rw [on, h]
  rfl

theorem on_eq_true : e.on id u = true ↔ ∃ s, e.streams.lookup id = some s ∧ s.tree.contains u = true := by
  unfold on
  cases e.streams.lookup id <;> simp

theorem on_iff_mem {l : List Member} (hs : e.streams.lookup id = some s) (hc : s.Chained l) :
    e.on id u = true ↔ u ∈ users l := by
  rw [on_of_lookup hs, hc.holds.contains]

theorem Housed.lookup_next (h : e.Housed) : e.streams.lookup e.nextStreamId = none := by
  cases hl : e.streams.lookup e.nextStreamId with
  | none => rfl
  | some s => exact absurd (h.below_cursor hl) (Nat.lt_irrefl _)

theorem Housed.on_unique (h : e.Housed) {id' : Nat} (h1 : e.on id u = true) (h2 : e.on id' u = true) :
    id = id' := by
  have e1 := h.seated.mpr ⟨id, rfl, h1⟩
  rw [h.seated.mpr ⟨id', rfl, h2⟩] at e1
  exact (singleton_inj.mp (some.inj e1)).symm

theorem Housed.off (h : e.Housed) (hu : e.userStreams.lookup u = none) (id : Nat) : e.on id u = false := by
  cases ho : e.on id u with
  | false => rfl
  | true =>
    rw [h.seated.mpr ⟨id, rfl, ho⟩] at hu
    cases hu

theorem Housed.ne_nil (h : e.Housed) {ids : List Nat} (hu : e.userStreams.lookup u = some ids) :
    u ≠ Uuid.nil := by
  obtain ⟨id, -, hon⟩ := h.seated.mp hu
  obtain ⟨s, hs, hc⟩ := on_eq_true.mp hon
  obtain ⟨l, hl, -⟩ := (h.proper hs).chained
  exact hl.holds.stacked.ne_nil (hl.holds.contains.mp hc)

/-- **What a change of one stream keeps**: the stream under `sid` becomes `now`, and the index follows
    it. -/
theorem Housed.change (h : e.Housed) {now : Option Stream}
    (hstreams : ∀ i, e'.streams.lookup i = if i = sid then now else e.streams.lookup i)
    (hproper : ∀ s, now = some s → Proper sid s ∧ sid < e'.nextStreamId)
    (hnext : e.nextStreamId ≤ e'.nextStreamId)
    (hnew : ∀ v, e'.on sid v = true → ∀ id, id ≠ sid → e.on id v = false)
    (hus : ∀ v, e'.userStreams.lookup v =
      if e'.on sid v then some [sid] else if e.on sid v then none else e.userStreams.lookup v) :
    e'.Housed := by
  have hother : ∀ {i}, i ≠ sid → e'.streams.lookup i = e.streams.lookup i := fun hi => by
    rw [hstreams, if_neg hi]
  have hon : ∀ {i v}, i ≠ sid → e'.on i v = e.on i v := fun {i v} hi => by
    rw [on, hother hi, on]
  refine ⟨fun {i s} hs => ?_, fun {i s} hs => ?_, Nat.lt_of_lt_of_le h.past_first hnext, fun {v ids} => ?_⟩
  · by_cases hi : i = sid
    · subst hi
      rw [hstreams, if_pos rfl] at hs
      exact (hproper s hs).1
    · exact h.proper ((hother hi).symm.trans hs)
  · by_cases hi : i = sid
    · subst hi
      rw [hstreams, if_pos rfl] at hs
      exact (hproper s hs).2
    · exact Nat.lt_of_lt_of_le (h.below_cursor ((hother hi).symm.trans hs)) hnext
  · rw [hus]
    cases h1 : e'.on sid v with
    | true =>
      rw [if_pos rfl, Option.some.injEq]
      constructor
      · intro hids
        exact ⟨sid, hids.symm, h1⟩
      · intro hex
        obtain ⟨i, rfl, hi⟩ := hex
        by_cases hne : i = sid
        · rw [hne]
        · rw [hon hne, hnew v h1 i hne] at hi
          cases hi
    | false =>
      rw [if_neg (by simp)]
      cases h2 : e.on sid v with
      | true =>
        rw [if_pos rfl]
        constructor
        · intro hids
          cases hids
        · intro hex
          obtain ⟨i, -, hi⟩ := hex
          by_cases hne : i = sid
          · rw [hne, h1] at hi
            cases hi
          · rw [hon hne] at hi
            exact absurd (h.on_unique hi h2) hne
      | false =>
        rw [if_neg (by simp), h.seated]
        refine exists_congr fun i => and_congr_right fun _ => ?_
        by_cases hne : i = sid
        · rw [hne, h1, h2]
        · rw [hon hne]

theorem Housed.no_member (h : e.Housed) (hk : e.userStreams.keys = [])
    (hs : e.streams.lookup id = some s) {l : List Member} (hc : s.Chained l) : l = [] := by
  cases l with
  | nil => rfl
  | cons m l =>
    have hseat := h.seated.mpr ⟨id, rfl, (on_iff_mem hs hc).mpr mem_cons_self⟩
    rw [lookup_of_keys_nil _ hk] at hseat
    cases hseat

section Rewritten

variable {s' : Stream} (h : e.Housed) (hs : e.streams.lookup sid = some s) (hp : Proper sid s')
  (hstreams : e'.streams = e.streams.insert sid s') (hnext : e'.nextStreamId = e.nextStreamId)
include h hs hp hstreams hnext

theorem Housed.restream
    (hfrom : ∀ v, s'.tree.contains v = true → e.on sid v = true ∨ e.userStreams.lookup v = none)
    (hus : ∀ v, e'.userStreams.lookup v = if s'.tree.contains v then some [sid] else
      if e.on sid v then none else e.userStreams.lookup v) : e'.Housed := by
  have hlook : ∀ i, e'.streams.lookup i = if i = sid then some s' else e.streams.lookup i := fun i => by
    rw [hstreams]
    exact lookup_insert e.streams sid s' i
  have hon : ∀ v, e'.on sid v = s'.tree.contains v := fun v => on_of_lookup (by rw [hlook, if_pos rfl])
  refine h.change hlook (fun x hx => ?_) (Nat.le_of_eq hnext.symm) (fun v hv id hid => ?_) fun v => ?_
  · cases hx
    exact ⟨hp, hnext ▸ h.below_cursor hs⟩
  · rcases hfrom v (hon v ▸ hv) with hv | hv
    · exact Bool.eq_false_iff.mpr fun ho => hid (h.on_unique ho hv)
    · exact h.off hv id
  · rw [hon, hus]

/-- One user more on a stream. -/
theorem Housed.enter (hu : e.userStreams.lookup u = none)
    (hmem : ∀ v, s'.tree.contains v = true ↔ v = u ∨ s.tree.contains v = true)
    (hus : e'.userStreams = push e.userStreams u sid) : e'.Housed := by
  refine h.restream hs hp hstreams hnext (fun v hv => ?_) fun v => ?_
  · rw [on_of_lookup hs]
    rcases (hmem v).mp hv with rfl | hv
    · exact .inr hu
    · exact .inl hv
  · rw [hus, lookup_push, on_of_lookup hs]
    by_cases e1 : v = u
    · subst e1
      rw [if_pos rfl, if_pos ((hmem v).mpr (.inl rfl)), hu]
      rfl
    · rw [if_neg e1]
      by_cases hv : s.tree.contains v = true
      · rw [if_pos ((hmem v).mpr (.inr hv)), h.seated.mpr ⟨sid, rfl, (on_of_lookup hs).trans hv⟩]
      · rw [if_neg fun hx => ((hmem v).mp hx).elim e1 hv, if_neg hv]

/-- A stream whose members stay. -/
theorem Housed.stay (htree : s'.tree = s.tree) (hus : e'.userStreams = e.userStreams) : e'.Housed := by
  have hon : ∀ v, e.on sid v = s'.tree.contains v := fun v => by rw [on_of_lookup hs, htree]
  refine h.restream hs hp hstreams hnext (fun v hv => .inl ((hon v).trans hv)) fun v => ?_
  rw [hus, hon]
  cases hv : s'.tree.contains v with
  | true => rw [if_pos rfl, h.seated.mpr ⟨sid, rfl, (hon v).trans hv⟩]
  | false => rfl

end Rewritten

theorem ownerAt_insert {x : Stream} (hstreams : e'.streams = e.streams.insert sid x) :
    e'.ownerAt = Function.update e.ownerAt sid (some x.ownerId) := by
  funext i
  rw [ownerAt, hstreams, Function.update_apply]
  by_cases hi : i = sid
  · rw [if_pos hi, hi, AList.lookup_insert]
    rfl
  · rw [if_neg hi, lookup_insert_ne hi]
    rfl

theorem ownerAt_of_lookup (h : e.streams.lookup id = some s) : e.ownerAt id = some s.ownerId := by
  rw [ownerAt, h]
  rfl

theorem ownerAt_insert_same {x : Stream} (hstreams : e'.streams = e.streams.insert sid x)
    (hs : e.streams.lookup sid = some s) (ho : x.ownerId = s.ownerId) : e'.ownerAt = e.ownerAt := by
  rw [ownerAt_insert hstreams, ho, ← ownerAt_of_lookup hs, Function.update_eq_self]

theorem owner_of_listed {owned : List Nat} (h : e.Sound) (ho : e.streamOwners.lookup u = some owned)
    (hid : id ∈ owned) : ∃ s, e.streams.lookup id = some s ∧ s.ownerId = u := by
  have hu := (h.owned.listed ho).1
  have hat := (h.owned.owned hu hu).mp (show id ∈ e.streamOwners.of u by
    rw [of, ho]
    exact hid)
  exact map_eq_some_iff.mp hat

/-! ## 3. Restoring -/

/-- **A sound engine restores.** -/
theorem Sound.validateRestored (h : e.Sound) (hcursor : e.nextStreamId < maxStreamId) :
    e.validateRestored = .ok () := by
  have h1 : lowestFault (fun key stream => Stream.fault key stream) none e.streams.entries = .ok () := by
    refine lowestFault_eq_ok.mpr ⟨rfl, fun x hx => ?_⟩
    have hp := h.housed.proper (lookup_of_mem _ hx)
    obtain ⟨l, hc, -⟩ := hp.chained
    have hvalid : x.2.tree.validateRestored = .ok () := Arena.validateRestored_iff.mpr hc.holds.valid
    rw [Stream.fault, if_neg (by rw [hp.keyed]; simp), hvalid]
    cases l with
    | nil => simp [hc.bottom, hc.holds.userIds_eq_nil.mpr]
    | cons m l =>
      have hmem : x.2.tree.contains m.user = true := hc.holds.contains.mpr mem_cons_self
      simp [hc.bottom, hmem]
  have h2 : e.checkCursor = .ok () := by
    unfold checkCursor
    cases hm : e.streams.keys.max? with
    | none => rfl
    | some highest =>
      have hkey : highest ∈ e.streams.keys := (max?_eq_some_iff.mp hm).1
      obtain ⟨s, hs⟩ := (mem_keys_iff _).mp hkey
      exact stopIf_eq_ok.mpr (Nat.not_le.mpr (h.housed.below_cursor hs))
  have h3 : lowestFault (fun spot _ => .ok (e.indexFault spot)) none e.treeUsers = .ok () := by
    refine lowestFault_eq_ok.mpr ⟨rfl, fun x hx => ?_⟩
    obtain ⟨entry, hentry, hx⟩ := mem_flatMap.mp hx
    obtain ⟨u, hu, rfl⟩ := mem_map.mp hx
    have hs := lookup_of_mem _ hentry
    obtain ⟨l, hc, -⟩ := (h.housed.proper hs).chained
    have hon : e.on entry.1 u = true := (on_iff_mem hs hc).mpr (hc.holds.mem_userIds.mp hu)
    simp [indexFault, h.housed.seated.mpr ⟨entry.1, rfl, hon⟩, (h.housed.proper hs).keyed]
  have h4 : lowestFault (fun userId ids => .ok (e.userFault userId ids)) none e.userStreams.entries =
      .ok () := by
    refine lowestFault_eq_ok.mpr ⟨rfl, fun x hx => ?_⟩
    obtain ⟨id, hid, hon⟩ := h.housed.seated.mp (lookup_of_mem _ hx)
    obtain ⟨s, hs, hc⟩ := on_eq_true.mp hon
    simp [userFault, hid, hs, hc]
  have h5 : lowestFault (fun userId ids => .ok (e.ownerFault userId ids)) none
      e.streamOwners.entries = .ok () := by
    refine lowestFault_eq_ok.mpr ⟨rfl, fun x hx => ?_⟩
    have hnone : e.ownerFault x.1 x.2 = none := by
      refine findSome?_eq_none_iff.mpr fun id hid => ?_
      obtain ⟨s, hs, ho⟩ := owner_of_listed h (lookup_of_mem _ hx) hid
      simp [hs, ho]
    rw [hnone]
  simp only [StreamlineEngine.validateRestored, h1, h2, h3, h4, h5,
    bind_ok (a := ()) (stopIf_eq_ok.mpr (Nat.ne_of_lt hcursor))]
  rfl

end StreamlineEngine

end MlmForge.Streamline
