/-
  Subject:   A change of allowance leaves an owner with as many unfrozen streams as they are allowed.

  * **`allowance_met`** -- so in every engine that is reached.
-/
import MlmForge.Streamline.Cursor

namespace MlmForge.Streamline

open Engine Call List AList StreamLists StreamlineEngine

namespace StreamlineEngine

variable {e e' : StreamlineEngine} {u : Uuid} {n : Nat} {ts : Int} {owned : List Nat}

/-! ## 1. Streams by creation time -/

/-- The streams of an owner that are frozen, or those that are not. -/
def streamsOf (e : StreamlineEngine) (u : Uuid) (frozen : Bool) : List Nat :=
  (e.streamOwners.of u).filter fun id => e.frozenAt id = frozen

/-- The creation times of two streams are in a relation. -/
def Timed (e : StreamlineEngine) (r : Int → Int → Prop) (id other : Nat) : Prop :=
  ∀ s s', e.streams.lookup id = some s → e.streams.lookup other = some s' → r s.createdAt s'.createdAt

/-- **Some streams of a list, foremost by creation time**: each once and in order, and no stream of the
    list that is left out is before one of them. -/
structure Picks (e : StreamlineEngine) (r : Int → Int → Prop) (all chosen : List Nat) : Prop where
  nodup : chosen.Nodup
  subset : ∀ id ∈ chosen, id ∈ all
  ordered : chosen.Pairwise (e.Timed r)
  foremost : ∀ id ∈ chosen, ∀ other ∈ all, other ∉ chosen → e.Timed r id other

theorem picks_take {r : Int → Int → Prop} {l all : List Nat} (hperm : l.Perm all) (hnd : l.Nodup)
    (hord : l.Pairwise (e.Timed r)) (k : Nat) : Picks e r all (l.take k) where
  nodup := hnd.take
  subset id hid := hperm.mem_iff.mp (mem_of_mem_take hid)
  ordered := hord.take
  foremost id hid other hother hout := by
    have hmem := hperm.mem_iff.mpr hother
    rw [← take_append_drop k l] at hmem hord
    have hrest := (mem_append.mp hmem).resolve_left hout
    exact (pairwise_append.mp hord).2.2 id hid other hrest

theorem of_eq_listed (ho : e.streamOwners.lookup u = some owned) : e.streamOwners.of u = owned := by
  rw [StreamLists.of, ho]
  rfl

theorem created_in_order (h : e.Housed) (owned : List Nat) (flag : Bool) :
    (e.idsByFlag owned flag).Pairwise (e.Timed (· ≤ ·)) := by
  have htotal : Std.Total fun s s' : Stream => s.createdAt ≤ s'.createdAt :=
    ⟨fun s s' => Int.le_total s.createdAt s'.createdAt⟩
  have htrans : IsTrans Stream fun s s' => s.createdAt ≤ s'.createdAt := ⟨fun _ _ _ => Int.le_trans⟩
  have hlook : ∀ s ∈ (e.sorted owned).filter (fun s => s.frozen = flag), e.streams.lookup s.id = some s := by
    intro s hs
    obtain ⟨i, -, hi⟩ := mem_filterMap.mp ((mem_insertionSort _).mp (mem_filter.mp hs).1)
    rw [(h.proper hi).keyed]
    exact hi
  rw [idsByFlag, pairwise_map]
  refine List.Pairwise.imp_of_mem (fun {a b} ha hb hab s s' hs hs' => ?_)
    ((pairwise_insertionSort _ _).filter _)
  cases hs.symm.trans (hlook a ha)
  cases hs'.symm.trans (hlook b hb)
  exact hab

section Listed

variable (h : e.Sound) (ho : e.streamOwners.lookup u = some owned)
include h ho

theorem nodup_listed : owned.Nodup := ((h.owned.listed ho).2 (h.owned.listed ho).1).1

theorem idsByFlag_perm_streamsOf (flag : Bool) : (e.idsByFlag owned flag).Perm (e.streamsOf u flag) := by
  have hperm := h.housed.idsByFlag_perm flag fun i hi => (owner_of_listed h ho hi).imp fun _ hs => hs.1
  rw [streamsOf, of_eq_listed ho]
  refine hperm.trans (List.Perm.of_eq (filter_congr fun id hid => ?_))
  obtain ⟨s, hs, -⟩ := owner_of_listed h ho hid
  rw [frozenAt_of_lookup hs, hs, Option.any_some]

/-- An owner has fewer streams than there are ids, so that counting them in a `u32` loses nothing. -/
theorem asU32_idsByFlag (hn : e.Numbered) (flag : Bool) :
    asU32 (e.idsByFlag owned flag).length = (e.streamsOf u flag).length := by
  have hsub : e.idsByFlag owned flag ⊆ range e.nextStreamId := fun id hid => by
    obtain ⟨s, hs, -⟩ := mem_idsByFlag h ho hid
    exact mem_range.mpr (h.housed.below_cursor hs)
  have hle := ((nodup_idsByFlag h ho flag).subperm hsub).length_le
  have hcursor := hn.cursor
  rw [length_range] at hle
  rw [asU32, Nat.mod_eq_of_lt (by unfold maxStreamId at hcursor; omega),
    (idsByFlag_perm_streamsOf h ho flag).length_eq]

end Listed

/-! ## 2. New streams -/

/-- **New streams of `u`**, empty and not frozen; nothing else has changed. -/
structure Created (u : Uuid) (ts : Int) (created : List Nat) (e e' : StreamlineEngine) : Prop where
  streams : ∀ i, e'.streams.lookup i =
    if i ∈ created then some (Stream.empty i u ts) else e.streams.lookup i
  fresh : ∀ i ∈ created, e.streams.lookup i = none
  nodup : created.Nodup
  userStreams : e'.userStreams = e.userStreams
  owned : e'.streamOwners.of u = e.streamOwners.of u ++ created
  owners : ∀ v, v ≠ u → e'.streamOwners.lookup v = e.streamOwners.lookup v
  config : e'.config = e.config

/-- **Streams are created, when the counter has room for them.** -/
theorem createStreams_ok (ts : Int) (hu : u ≠ Uuid.nil) : ∀ (k : Nat) {e : StreamlineEngine}, e.Sound →
    e.nextStreamId + k ≤ maxStreamId → ∃ e', (createStreams u ts k).run e = .ok (range' e.nextStreamId k) e' ∧
      Created u ts (range' e.nextStreamId k) e e' := by
  intro k
  induction k with
  | zero =>
    intro e _ _
    exact ⟨e, rfl, fun i => by rw [range'_zero, if_neg not_mem_nil], fun i hi => absurd hi not_mem_nil,
      nodup_nil, rfl, (append_nil _).symm, fun _ _ => rfl, rfl⟩
  | succ k ih =>
    intro e h hroom
    obtain ⟨e', hrun, hc⟩ := ih (h.withNewStream hu ts) (by
      show e.nextStreamId + 1 + k ≤ maxStreamId
      omega)
    have hnext : (e.withNewStream u ts).nextStreamId = e.nextStreamId + 1 := rfl
    have hlook : ∀ i, (e.withNewStream u ts).streams.lookup i =
        if i = e.nextStreamId then some (Stream.empty i u ts) else e.streams.lookup i := fun i => by
      rw [withNewStream, Maps.lookup_insert]
      split
      · rename_i hi
        rw [hi]
      · rfl
    rw [hnext] at hrun hc
    refine ⟨e', ?_, fun i => ?_, fun i hi => ?_, nodup_range', hc.userStreams, ?_, fun v hv => ?_, hc.config⟩
    · simp only [createStreams, run_bind, createStream_ok (show e.nextStreamId < maxStreamId by omega),
        hrun, run_pure, range'_succ]
    · rw [hc.streams, hlook, range'_succ]
      by_cases hi : i = e.nextStreamId
      · simp [hi]
      · simp [hi]
    · rw [range'_succ] at hi
      rcases mem_cons.mp hi with rfl | hi
      · exact h.housed.lookup_next
      · have hnone := hc.fresh i hi
        have hlt := (mem_range'_1.mp hi).1
        rw [hlook, if_neg (by omega)] at hnone
        exact hnone
    · rw [hc.owned, range'_succ, withNewStream, of_push, if_pos rfl,
        append_assoc, singleton_append]
    · rw [hc.owners v hv, withNewStream, lookup_push, if_neg hv]

/-! ## 3. Counting -/

theorem length_without {l gone : List Nat} (hl : l.Nodup) (hg : gone.Nodup) (hsub : ∀ id ∈ gone, id ∈ l) :
    (l.filter (· ∉ gone)).length = l.length - gone.length := by
  have hperm : (gone ++ l.filter (· ∉ gone)).Perm l := by
    refine (perm_ext_iff_of_nodup ?_ hl).mpr fun id => ?_
    · refine nodup_append'.mpr ⟨hg, hl.filter _, fun id hid hrest => ?_⟩
      exact of_decide_eq_true (mem_filter.mp hrest).2 hid
    · rw [mem_append, mem_filter, decide_eq_true_eq]
      have := hsub id
      tauto
  have hlen := hperm.length_eq
  rw [length_append] at hlen
  omega

theorem length_with {l more : List Nat} {p : Nat → Bool} (hl : l.Nodup) (hm : more.Nodup)
    (hsub : ∀ id ∈ more, id ∈ l ∧ p id = false) :
    (l.filter fun id => p id || decide (id ∈ more)).length = (l.filter p).length + more.length := by
  rw [← length_append]
  refine List.Perm.length_eq ((perm_ext_iff_of_nodup (hl.filter _) ?_).mpr fun id => ?_)
  · refine nodup_append'.mpr ⟨hl.filter _, hm, fun id hid hmore => ?_⟩
    have hp := (mem_filter.mp hid).2
    rw [(hsub id hmore).2] at hp
    cases hp
  · rw [mem_append, mem_filter, mem_filter, Bool.or_eq_true, decide_eq_true_eq]
    have hid := hsub id
    tauto

section Counts

variable {gone thawed created : List Nat}

theorem Flagged.frozenAt {flag : Bool} {ids : List Nat} (hf : Flagged flag ids e e') {id : Nat} {s : Stream}
    (hs : e.streams.lookup id = some s) :
    e'.frozenAt id = if id ∈ ids then flag else e.frozenAt id := by
  have hlook := hf.streams id
  rw [hs, Option.map_some] at hlook
  rw [frozenAt_of_lookup hlook, frozenAt_of_lookup hs]
  split <;> rfl

variable (h : e.Sound) (ho : e.streamOwners.lookup u = some owned)
include h ho

theorem streamsOf_frozen (hf : Flagged true gone e e') :
    e'.streamsOf u false = (e.streamsOf u false).filter (· ∉ gone) := by
  have hsame : e'.streamOwners.of u = owned := by
    rw [hf.rest]
    exact of_eq_listed ho
  rw [streamsOf, streamsOf, hsame, of_eq_listed ho, filter_filter]
  refine filter_congr fun id hid => ?_
  obtain ⟨s, hs, -⟩ := owner_of_listed h ho hid
  rw [hf.frozenAt hs]
  by_cases hg : id ∈ gone <;> simp [hg]

omit h ho in
theorem streamsOf_dropped (hd : Dropped u gone e e') :
    e'.streamsOf u false = (e.streamsOf u false).filter (· ∉ gone) := by
  rw [streamsOf, streamsOf, hd.owned, filter_filter, filter_filter]
  refine filter_congr fun id _ => ?_
  by_cases hg : id ∈ gone
  · simp [hg]
  · have hsame : e'.frozenAt id = e.frozenAt id := by
      rw [frozenAt, hd.streams, if_neg hg, frozenAt]
    simp [hg, hsame]

theorem streamsOf_raised {e1 : StreamlineEngine} (hf : Flagged false thawed e e1)
    (hc : Created u ts created e1 e') (hnd : thawed.Nodup) (hsub : ∀ id ∈ thawed, id ∈ e.streamsOf u true) :
    (e'.streamsOf u false).length = (e.streamsOf u false).length + thawed.length + created.length := by
  have hsame : e1.streamOwners.of u = owned := by
    rw [hf.rest]
    exact of_eq_listed ho
  have hold : owned.filter (fun id => e'.frozenAt id = false) =
      owned.filter fun id => decide (e.frozenAt id = false) || decide (id ∈ thawed) := by
    refine filter_congr fun id hid => ?_
    obtain ⟨s, hs, -⟩ := owner_of_listed h ho hid
    have hnot : id ∉ created := fun hcr => by
      have hnone := hc.fresh id hcr
      rw [hf.streams, hs] at hnone
      cases hnone
    have hlook : e'.frozenAt id = e1.frozenAt id := by
      rw [frozenAt, hc.streams, if_neg hnot, frozenAt]
    rw [hlook, hf.frozenAt hs]
    by_cases hg : id ∈ thawed <;> simp [hg]
  have hnew : created.filter (fun id => e'.frozenAt id = false) = created := by
    refine filter_eq_self.mpr fun id hid => decide_eq_true ?_
    rw [frozenAt, hc.streams, if_pos hid]
    rfl
  have hcount := length_with (p := fun id => decide (e.frozenAt id = false)) (nodup_listed h ho) hnd
    fun id hid => by
      obtain ⟨hmem, hfrozen⟩ := mem_filter.mp (hsub id hid)
      rw [of_eq_listed ho] at hmem
      rw [of_decide_eq_true hfrozen]
      exact ⟨hmem, rfl⟩
  rw [streamsOf, hc.owned, hsame, filter_append, length_append, hnew, hold, hcount, streamsOf,
    of_eq_listed ho]

end Counts

/-! ## 4. The call -/

/-- **What a call that sets the allowance of `u` to `n` has done.** -/
structure Adjusted (u : Uuid) (n : Nat) (ts : Int) (e : StreamlineEngine) (result : FreezeResult)
    (e' : StreamlineEngine) : Prop where
  count : (e'.streamsOf u false).length = n
  lowered : n < (e.streamsOf u false).length → ∃ gone, Picks e (· ≥ ·) (e.streamsOf u false) gone ∧
    gone.length = (e.streamsOf u false).length - n ∧
    if e.config.freezeOnDemotion then result = ⟨gone, [], [], []⟩ ∧ Flagged true gone e e'
    else result = ⟨[], [], [], gone⟩ ∧ Dropped u gone e e'
  raised : (e.streamsOf u false).length < n → ∃ thawed created e1,
    result = ⟨[], thawed, created, []⟩ ∧ Picks e (· ≤ ·) (e.streamsOf u true) thawed ∧
    thawed.length = min (n - (e.streamsOf u false).length) (e.streamsOf u true).length ∧
    created.length = n - (e.streamsOf u false).length - (e.streamsOf u true).length ∧
    Flagged false thawed e e1 ∧ Created u ts created e1 e'
  kept : n = (e.streamsOf u false).length → result = ⟨[], [], [], []⟩ ∧ e' = e
  others : ∀ {i s}, e.streams.lookup i = some s → s.ownerId ≠ u → e'.streams.lookup i = some s

section Call

variable (h : e.Sound) (ho : e.streamOwners.lookup u = some owned)
include h ho

theorem exists_excess (n : Nat) : ∃ gone,
    (e.idsByFlag owned false).reverse.take ((e.streamsOf u false).length - n) = gone ∧
      Picks e (· ≥ ·) (e.streamsOf u false) gone ∧ gone.length = (e.streamsOf u false).length - n := by
  refine ⟨_, rfl, picks_take ((reverse_perm _).trans (idsByFlag_perm_streamsOf h ho false))
    (nodup_reverse.mpr (nodup_idsByFlag h ho false)) (pairwise_reverse.mpr ?_) _, ?_⟩
  · exact (created_in_order h.housed owned false).imp fun hab s s' hs hs' => hab s' s hs' hs
  · rw [length_take, length_reverse, (idsByFlag_perm_streamsOf h ho false).length_eq]
    omega

variable {flag : Bool}

theorem mem_streamsOf {id : Nat} (hid : id ∈ e.streamsOf u flag) :
    ∃ s, e.streams.lookup id = some s ∧ s.ownerId = u := by
  have hmem := (mem_filter.mp hid).1
  rw [of_eq_listed ho] at hmem
  exact owner_of_listed h ho hmem

theorem nodup_streamsOf (flag : Bool) : (e.streamsOf u flag).Nodup := by
  rw [streamsOf, of_eq_listed ho]
  exact (nodup_listed h ho).filter _

omit h in
theorem owned_length : owned.length = (e.streamsOf u false).length + (e.streamsOf u true).length := by
  have hsplit := length_eq_length_filter_add (l := owned) fun id => decide (e.frozenAt id = false)
  have hnot : (owned.filter fun id => !decide (e.frozenAt id = false)) =
      owned.filter fun id => decide (e.frozenAt id = true) := by
    refine filter_congr fun id _ => ?_
    cases e.frozenAt id <;> rfl
  rw [streamsOf, streamsOf, of_eq_listed ho, ← hnot]
  exact hsplit

variable {ids : List Nat} {i : Nat} {s : Stream}

theorem not_mem_of_owner (hsub : ∀ id ∈ ids, id ∈ e.streamsOf u flag)
    (hs : e.streams.lookup i = some s) (hne : s.ownerId ≠ u) : i ∉ ids := by
  intro hi
  obtain ⟨s', hs', howner⟩ := mem_streamsOf h ho (hsub i hi)
  cases hs.symm.trans hs'
  exact hne howner

omit h ho in
theorem Flagged.other (hf : Flagged flag ids e e')
    (hs : e.streams.lookup i = some s) (hi : i ∉ ids) : e'.streams.lookup i = some s := by
  rw [hf.streams, hs, Option.map_some, if_neg hi]

variable (hn : e.Numbered) (hroom : e.nextStreamId + (n - owned.length) ≤ maxStreamId)
include hn

/-- **A demotion that freezes.** -/
theorem lowered_freeze (hlt : n < (e.streamsOf u false).length) (hfreeze : e.config.freezeOnDemotion = true) :
    ∃ result e', (updateStreamAllowance u n ts).run e = .ok result e' ∧ Adjusted u n ts e result e' := by
  have hactive := asU32_idsByFlag h ho hn false
  obtain ⟨gone, hgone, hpicks, hlen⟩ := exists_excess h ho n
  obtain ⟨e', hrun, -, hflag⟩ := freezeStreams_ok Sound.reflag gone h fun id hid =>
    (mem_streamsOf h ho (hpicks.subset id hid)).imp fun _ hs => hs.1
  refine ⟨⟨gone, [], [], []⟩, e', ?_, ?_, fun _ => ⟨gone, hpicks, hlen, ?_⟩, fun hx => absurd hx (by omega),
    fun hx => absurd hx (by omega), fun hs hne => ?_⟩
  · simp only [updateStreamAllowance, run_bind, run_get, ho, hactive, if_pos hlt, hfreeze, if_true,
      hgone, hrun, run_pure]
  · rw [streamsOf_frozen h ho hflag, length_without (nodup_streamsOf h ho false) hpicks.nodup hpicks.subset,
      hlen]
    omega
  · rw [if_pos hfreeze]
    exact ⟨rfl, hflag⟩
  · exact hflag.other hs (not_mem_of_owner h ho hpicks.subset hs hne)

/-- **A demotion that destroys.** -/
theorem lowered_destroy (hlt : n < (e.streamsOf u false).length)
    (hfreeze : e.config.freezeOnDemotion = false) :
    ∃ result e', (updateStreamAllowance u n ts).run e = .ok result e' ∧ Adjusted u n ts e result e' := by
  have hu := (h.owned.listed ho).1
  have hactive := asU32_idsByFlag h ho hn false
  obtain ⟨gone, hgone, hpicks, hlen⟩ := exists_excess h ho n
  obtain ⟨e1, hrun, -, hdrop⟩ := destroyStreams_ok (h.shrinking hu) hpicks.nodup fun id hid =>
    mem_streamsOf h ho (hpicks.subset id hid)
  -- an empty list is off the map at the end, which no reading of the lists shows
  let e' : StreamlineEngine := if e1.streamOwners.lookup u = some [] then
    { e1 with streamOwners := e1.streamOwners.erase u } else e1
  have hdrop' : Dropped u gone e e' := by
    show Dropped u gone e (if e1.streamOwners.lookup u = some [] then _ else e1)
    split
    · rename_i hempty
      refine ⟨hdrop.streams, hdrop.userStreams, ?_, fun v hv => ?_, hdrop.next, hdrop.config⟩
      · rw [← hdrop.owned, StreamLists.of, lookup_erase, StreamLists.of, hempty]
        rfl
      · exact (lookup_erase_ne hv).trans (hdrop.owners v hv)
    · exact hdrop
  refine ⟨⟨[], [], [], gone⟩, e', ?_, ?_, fun _ => ⟨gone, hpicks, hlen, ?_⟩, fun hx => absurd hx (by omega),
    fun hx => absurd hx (by omega), fun {i s} hs hne => ?_⟩
  · simp only [updateStreamAllowance, run_bind, run_get, ho, hactive, if_pos hlt, hfreeze,
      Bool.false_eq_true, if_false, hgone, hrun, run_modify, run_pure]
    rfl
  · rw [streamsOf_dropped hdrop', length_without (nodup_streamsOf h ho false) hpicks.nodup hpicks.subset,
      hlen]
    omega
  · rw [if_neg (by rw [hfreeze]; exact Bool.false_ne_true)]
    exact ⟨rfl, hdrop'⟩
  · rw [hdrop'.streams, if_neg (not_mem_of_owner h ho hpicks.subset hs hne)]
    exact hs

include hroom in
/-- **A promotion**: frozen streams are thawed, the oldest first, and what is missing then is created. -/
theorem raised_by (hlt : (e.streamsOf u false).length < n) :
    ∃ result e', (updateStreamAllowance u n ts).run e = .ok result e' ∧ Adjusted u n ts e result e' := by
  have hu := (h.owned.listed ho).1
  have hactive := asU32_idsByFlag h ho hn false
  have hfrozen := (idsByFlag_perm_streamsOf h ho true).length_eq
  have hsplit := owned_length ho
  have hpicks : Picks e (· ≤ ·) (e.streamsOf u true)
      ((e.idsByFlag owned true).take (n - (e.streamsOf u false).length)) :=
    picks_take (idsByFlag_perm_streamsOf h ho true) (nodup_idsByFlag h ho true)
      (created_in_order h.housed owned true) _
  obtain ⟨e1, hrun1, hsound1, hflag⟩ := unfreezeStreams_ok Sound.reflag (e.idsByFlag owned true)
    (n - (e.streamsOf u false).length) h fun id hid => (mem_idsByFlag h ho hid).imp fun _ hs => hs.1
  have hnext : e1.nextStreamId = e.nextStreamId := by rw [hflag.rest]
  obtain ⟨e', hrun2, hcreated⟩ := createStreams_ok ts hu
    (n - (e.streamsOf u false).length - (e.idsByFlag owned true).length) hsound1 (by omega)
  refine ⟨⟨[], (e.idsByFlag owned true).take (n - (e.streamsOf u false).length),
    range' e1.nextStreamId (n - (e.streamsOf u false).length - (e.idsByFlag owned true).length), []⟩,
    e', ?_, ?_, fun hx => absurd hx (by omega), fun _ => ⟨_, _, e1, rfl, hpicks, ?_, ?_, hflag,
    hcreated⟩, fun hx => absurd hx (by omega), fun {i s} hs hne => ?_⟩
  · simp only [updateStreamAllowance, run_bind, run_get, ho, hactive,
      if_neg (show ¬ n < (e.streamsOf u false).length by omega), if_pos hlt, hrun1, hrun2, run_pure]
  · rw [streamsOf_raised h ho hflag hcreated hpicks.nodup hpicks.subset, length_take, hfrozen, length_range']
    omega
  · rw [length_take, hfrozen]
  · rw [length_range', hfrozen]
  · have hthere := hflag.other hs (not_mem_of_owner h ho hpicks.subset hs hne)
    rw [hcreated.streams, if_neg fun hi => ?_]
    · exact hthere
    · rw [hcreated.fresh i hi] at hthere
      cases hthere

theorem unchanged (heq : (e.streamsOf u false).length = n) :
    (updateStreamAllowance u n ts).run e = .ok ⟨[], [], [], []⟩ e := by
  have hactive := asU32_idsByFlag h ho hn false
  simp only [updateStreamAllowance, run_bind, run_get, ho, hactive, heq, Nat.lt_irrefl, if_false, run_pure]

end Call

/-- **The allowance is met**: the call has done its part, the owner's list is exact, and repeating the
    call changes nothing. -/
structure Met (u : Uuid) (n : Nat) (ts : Int) (e : StreamlineEngine) (result : FreezeResult)
    (e' : StreamlineEngine) : Prop extends Adjusted u n ts e result e' where
  exact : (e'.streamOwners.of u).Nodup ∧ ∀ id, id ∈ e'.streamOwners.of u ↔ e'.ownerAt id = some u
  again : ∀ later, (updateStreamAllowance u n later).run e' =
    if e'.streamOwners.of u = [] then .error (.err (.noOwnedStreams u)) e' else .ok ⟨[], [], [], []⟩ e'

theorem lookup_of (hne : e.streamOwners.of u ≠ []) :
    e.streamOwners.lookup u = some (e.streamOwners.of u) := by
  cases ho : e.streamOwners.lookup u with
  | none => exact absurd (by rw [StreamLists.of, ho]; rfl) hne
  | some owned => rw [of_eq_listed ho]

/-- **A call on an engine whose counter has room meets the allowance.** -/
theorem Sound.adjusted (h : e.Sound) (hn : e.Numbered) (hne : e.streamOwners.of u ≠ [])
    (hroom : e.nextStreamId + (n - (e.streamOwners.of u).length) ≤ maxStreamId) (ts : Int) :
    ∃ result e', (updateStreamAllowance u n ts).run e = .ok result e' ∧ Adjusted u n ts e result e' := by
  have ho := lookup_of hne
  rcases Nat.lt_trichotomy n (e.streamsOf u false).length with hlt | heq | hlt
  · cases hfreeze : e.config.freezeOnDemotion with
    | true => exact lowered_freeze h ho hn hlt hfreeze
    | false => exact lowered_destroy h ho hn hlt hfreeze
  · refine ⟨_, e, unchanged h ho hn heq.symm, heq.symm, fun hx => absurd hx (by omega),
      fun hx => absurd hx (by omega), fun _ => ⟨rfl, rfl⟩, fun hs _ => hs⟩
  · exact raised_by h ho hn hroom hlt

theorem Adjusted.met {result : FreezeResult} (ha : Adjusted u n ts e result e') (hu : u ≠ Uuid.nil)
    (h' : e'.Sound) (hn' : e'.Numbered) : Met u n ts e result e' where
  toAdjusted := ha
  exact := ⟨h'.owned.nodup_of hu, fun id => h'.owned.owned hu hu⟩
  again later := by
    split
    · rename_i hnil
      have hnone : e'.streamOwners.lookup u = none := by
        cases ho : e'.streamOwners.lookup u with
        | none => rfl
        | some owned =>
          rw [of_eq_listed ho] at hnil
          exact absurd hnil ((h'.owned.listed ho).2 hu).2
      simp only [updateStreamAllowance, run_bind, run_get, hnone, run_throw]
    · rename_i hne
      exact unchanged h' (lookup_of hne) hn' ha.count

theorem new_numbered (config : StreamlineConfig) (timestamp : Int) : (new config timestamp).Numbered := by
  have h := new_sound config timestamp
  refine ⟨fun hs => (h.housed.proper hs).keyed, fun hs => h.housed.below_cursor hs, fun hs => ?_, by
    show 2 ≤ maxStreamId
    decide⟩
  obtain ⟨l, hc, -⟩ := (h.housed.proper hs).chained
  exact hc.holds.valid

/-- **The allowance is met exactly**, in every engine that calls lead to and for every owner with a stream,
    as long as the counter has room for the streams that are missing. -/
theorem allowance_met (config : StreamlineConfig) (timestamp : Int) (calls : List StreamlineCall)
    (u : Uuid) (n : Nat) (ts : Int) (hown : (runFrom config timestamp calls).streamOwners.of u ≠ [])
    (hroom : (runFrom config timestamp calls).nextStreamId +
      (n - ((runFrom config timestamp calls).streamOwners.of u).length) ≤ maxStreamId) :
    ∃ result e', (updateStreamAllowance u n ts).run (runFrom config timestamp calls) = .ok result e' ∧
      Met u n ts (runFrom config timestamp calls) result e' := by
  have h : (runFrom config timestamp calls).Sound := runFrom_sound calls
  have hn : (runFrom config timestamp calls).Numbered := numbered_of_run calls (new_numbered config timestamp)
  obtain ⟨result, e', hrun, ha⟩ := h.adjusted hn hown hroom ts
  refine ⟨result, e', hrun, ha.met (h.owned.listed (lookup_of hown)).1 ?_ ?_⟩
  · have hfine := updateStreamAllowance_fine h u n ts
    rw [hrun] at hfine
    exact hfine.1
  · have hafter := (hn.after (.updateStreamAllowance u n ts)).carries.numbered
    rw [Call.after, serve, run_map, hrun] at hafter
    exact hafter

def threeStreams : List StreamlineCall := [.addMember 1 9 0 none, .expandStreams 1 3 1]

theorem allowance_met_three : (runFrom sampleConfig 0 threeStreams).streamOwners.of 1 ≠ [] ∧
      ∃ result e', (updateStreamAllowance 1 1 2).run (runFrom sampleConfig 0 threeStreams) = .ok result e' ∧
        Met 1 1 2 (runFrom sampleConfig 0 threeStreams) result e' := by
  have hown : (runFrom sampleConfig 0 threeStreams).streamOwners.of 1 ≠ [] := by decide +kernel
  have hroom : (runFrom sampleConfig 0 threeStreams).nextStreamId +
      (1 - ((runFrom sampleConfig 0 threeStreams).streamOwners.of 1).length) ≤ maxStreamId := by
    decide +kernel
  exact ⟨hown, allowance_met sampleConfig 0 threeStreams 1 1 2 hown hroom⟩

end StreamlineEngine

end MlmForge.Streamline
