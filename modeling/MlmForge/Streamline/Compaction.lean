/-
  Subject:   What a removal leaves of the streams.

  A removal takes everybody below the member off the tree, from the leaf up, and adds them again under the
  member's parent.

  * **`compacted_closeUp`** -- closing up is that;
  * **`removal_compacts`** -- in every engine that is reached, whoever is on a stream is removed so, and
    nobody else is.
-/
import MlmForge.Streamline.Runs

namespace MlmForge.Streamline

open Engine List AList

/-! ## 1. The chain -/

/-- **A chain without `u`**: everybody else in the same order with the same time of enrollment; a recruit
    of `u` is recruited by the member directly before them, or by nobody if that makes them the top, and
    all others by whom they were. -/
structure Compacted (u : Uuid) (l l' : List Member) : Prop where
  order : l'.map (fun m => (m.user, m.enrolledAt)) =
    (l.filter fun m => m.user ≠ u).map fun m => (m.user, m.enrolledAt)
  sponsor : ∀ {low m' high}, l' = low ++ m' :: high → ∀ m ∈ l, m.user = m'.user →
    m'.sponsor = if m.sponsor = some u then high.head?.map Member.user else m.sponsor

section Chain

variable {l above below : List Member} {m x : Member} {u : Uuid}

theorem Stacked.member_unique (h : Stacked l) {m' : Member} (hm : m ∈ l) (hm' : m' ∈ l)
    (hu : m.user = m'.user) : m = m' :=
  inj_on_of_nodup_map h.nodup hm hm' hu

theorem Stacked.sponsor_above (h : Stacked (x :: above)) (hm : m ∈ above) : m.sponsor ≠ some x.user := by
  intro hs
  obtain ⟨low, high, rfl⟩ := append_of_mem hm
  have hmem := (h.tail.drop).sponsor_mem hs
  refine h.new ?_
  rw [users_append, users_cons]
  exact mem_append_right _ (mem_cons_of_mem _ hmem)

theorem filter_users (hu : u ∉ users l) : l.filter (fun m => m.user ≠ u) = l := by
  rw [filter_eq_self]
  intro m hm
  exact decide_eq_true fun heq => hu (heq ▸ mem_users hm)

theorem order_closeUp (gone : Uuid) (above below : List Member) :
    (closeUp gone above below).map (fun m => (m.user, m.enrolledAt)) =
      (below ++ above).map fun m => (m.user, m.enrolledAt) := by
  induction below with
  | nil => rfl
  | cons d below ih => rw [closeUp, moveUp, map_cons, ih, cons_append, map_cons]

theorem sponsor_closeUp : ∀ {below : List Member}, Stacked (below ++ x :: above) →
    ∀ {low m' high}, closeUp x.user above below = low ++ m' :: high →
    ∀ m ∈ below ++ x :: above, m.user = m'.user →
      m'.sponsor = if m.sponsor = some x.user then high.head?.map Member.user else m.sponsor := by
  intro below
  induction below with
  | nil =>
    intro h low m' high hl m hm hu
    -- above the one who leaves nobody moves
    rw [closeUp] at hl
    have hm' : m' ∈ above := hl ▸ mem_append_right _ mem_cons_self
    have heq := h.member_unique hm (mem_cons_of_mem _ hm') hu
    subst heq
    rw [if_neg (Stacked.sponsor_above h hm')]
  | cons d below ih =>
    intro h low m' high hl m hm hu
    rw [closeUp, moveUp] at hl
    cases low with
    | nil =>
      obtain ⟨hd, hhigh⟩ := List.cons.inj hl
      have hdm : m = d := h.member_unique hm mem_cons_self (hu.trans (hd ▸ rfl))
      subst hdm
      rw [← hd, ← hhigh]
      cases hrest : closeUp x.user above below with
      | cons p rest => split <;> rfl
      | nil =>
        -- the member becomes the top, so the one who left was alone above
        have husers := users_closeUp x.user above below
        rw [hrest, users_nil, eq_comm, append_eq_nil_iff] at husers
        have hbelow : below = [] := map_eq_nil_iff.mp husers.1
        have habove : above = [] := map_eq_nil_iff.mp husers.2
        subst hbelow
        subst habove
        obtain ⟨s, hs, hmem⟩ := Stacked.recruited h (cons_ne_nil x [])
        rw [mem_singleton.mp hmem] at hs
        rw [if_pos hs]
        rfl
    | cons c low =>
      obtain ⟨-, hrest⟩ := List.cons.inj hl
      refine ih h.tail hrest m ((mem_cons.mp hm).resolve_left fun hmd => ?_) hu
      have hin : m'.user ∈ users (closeUp x.user above below) := by
        rw [hrest, append_eq, users_append, users_cons]
        exact mem_append_right _ mem_cons_self
      rw [users_closeUp] at hin
      refine Stacked.new h ?_
      rw [← hmd, hu, append_eq, users_append, users_cons]
      exact (mem_append.mp hin).elim (mem_append_left _) fun hx => mem_append_right _ (mem_cons_of_mem _ hx)

/-- **Closing up compacts a chain.** -/
theorem compacted_closeUp (h : Stacked (below ++ x :: above)) :
    Compacted x.user (below ++ x :: above) (closeUp x.user above below) where
  order := by
    have hnd := h.nodup
    rw [users_append, users_cons, nodup_middle, nodup_cons, mem_append, not_or] at hnd
    rw [order_closeUp, filter_append, filter_users hnd.1.1, filter_cons_of_neg (by simp),
      filter_users hnd.1.2]
  sponsor := sponsor_closeUp h

end Chain

/-! ## 2. The engine -/

namespace StreamlineEngine

variable {e e' : StreamlineEngine} {sid : Nat} {u : Uuid}

/-- **What a removal of `u` from the stream `sid` leaves.** -/
structure Removed (e : StreamlineEngine) (u : Uuid) (sid : Nat) (e' : StreamlineEngine) : Prop where
  chain : ∀ {s l}, e.streams.lookup sid = some s → s.Chained l →
    ∃ s' l', e'.streams.lookup sid = some s' ∧ s'.Chained l' ∧ Compacted u l l'
  others : ∀ {i s}, i ≠ sid → e.streams.lookup i = some s →
    ∃ s', e'.streams.lookup i = some s' ∧ s'.tree = s.tree ∧ s'.bottom = s.bottom
  owners : ∀ {i s}, e.streams.lookup i = some s →
    ∃ s' l', e'.streams.lookup i = some s' ∧ s'.Chained l' ∧ s'.frozen = s.frozen ∧
      s'.ownerId = if s.ownerId = u then topUser l' else s.ownerId
  none_new : ∀ {i}, e.streams.lookup i = none → e'.streams.lookup i = none
  index : ∀ v, e'.userStreams.lookup v = if v = u then none else e.userStreams.lookup v
  listed : ∀ {v id}, v ≠ Uuid.nil → (id ∈ e'.streamOwners.of v ↔ e'.ownerAt id = some v)

/-- The stream that a member left does not name them, and is not handed on. -/
theorem Borrowed.Left.kept {below above : List Member} {m : Member} {s : Stream} {b : Borrowed}
    (hc : s.Chained (below ++ m :: above)) {us os : StreamLists}
    (hleft : Borrowed.Left sid m.user ⟨s, us, os⟩ b (closeUp m.user above below))
    (hhanded : Handed m.user (e.without sid b) e') : e'.streams.lookup sid = some b.stream := by
  have hst := hc.holds.stacked
  have hne : m.user ≠ Uuid.nil := hst.ne_nil (by
    rw [users_append, users_cons]
    exact mem_append_right _ mem_cons_self)
  have hnew : m.user ∉ users (closeUp m.user above below) := by
    have hnd := hst.nodup
    rw [users_append, users_cons, nodup_middle, nodup_cons] at hnd
    rw [users_closeUp]
    exact hnd.1
  have howner : b.stream.ownerId ≠ m.user := by
    rw [hleft.ownerId]
    split
    · exact topUser_ne hne hnew
    · assumption
  rw [hhanded.streams (lookup_insert _) hleft.chained.holds, if_neg howner]

/-- **A member of a chain is removed from it.** -/
theorem Sound.removed (h : e.Sound) (hon : e.on sid u = true) :
    ∃ e', (removeMember u).run e = .ok ⟨[sid]⟩ e' ∧ Removed e u sid e' := by
  obtain ⟨s, hs, hcontains⟩ := on_eq_true.mp hon
  obtain ⟨l, hc, -⟩ := (h.housed.proper hs).chained
  obtain ⟨below, m, above, rfl, rfl⟩ := exists_split (hc.holds.contains.mp hcontains)
  obtain ⟨b, e', hrun, hsound, hleft, hhanded⟩ := removeMember_ok h hs hc
  have hkept := hleft.kept hc hhanded
  have hother : ∀ {i s}, i ≠ sid → e.streams.lookup i = some s →
      (e.without sid b).streams.lookup i = some s := fun hi hs' => (lookup_insert_ne hi).trans hs'
  refine ⟨e', hrun, fun {s' l'} hs' hc' => ?_, fun {i s'} hi hs' => ?_, fun {i s'} hs' => ?_,
    fun {i} hi => hhanded.none_new ?_, fun v => ?_, fun {v id} hv => hsound.owned.owned hv hv⟩
  · -- whatever list the chain is read as, it is that list that closes up
    cases hs.symm.trans hs'
    obtain ⟨below', m', above', rfl, huser⟩ := exists_split (hc'.holds.contains.mp hcontains)
    obtain ⟨b2, e2, hrun2, -, hleft2, hhanded2⟩ := removeMember_ok h hs hc'
    rw [huser] at hrun2
    cases hrun.symm.trans hrun2
    exact ⟨_, _, hleft2.kept hc' hhanded2, hleft2.chained, huser ▸ compacted_closeUp hc'.holds.stacked⟩
  · obtain ⟨l', hc', -⟩ := (h.housed.proper hs').chained
    refine ⟨_, hhanded.streams (hother hi hs') hc'.holds, ?_⟩
    split <;> exact ⟨rfl, rfl⟩
  · by_cases hi : i = sid
    · subst hi
      cases hs.symm.trans hs'
      exact ⟨b.stream, _, hkept, hleft.chained, hleft.frozen, hleft.ownerId⟩
    · obtain ⟨l', hc', -⟩ := (h.housed.proper hs').chained
      refine ⟨_, l', hhanded.streams (hother hi hs') hc'.holds, ?_⟩
      split
      · exact ⟨⟨hc'.holds, hc'.bottom⟩, rfl, rfl⟩
      · exact ⟨hc', rfl, rfl⟩
  · refine (lookup_insert_ne fun heq => ?_).trans hi
    rw [heq, hs] at hi
    cases hi
  · rw [hhanded.userStreams]
    exact (hleft.userStreams v).trans (Maps.lookup_erase _ _ _)

/-- **Removal compacts exactly.** In every engine that calls lead to, whoever holds a position is removed:
    the call returns, their chain is compacted, no other chain changes, and what they owned goes to the
    tops of the chains. Whoever holds none is refused, and nothing changes. -/
theorem removal_compacts (config : StreamlineConfig) (timestamp : Int) (calls : List StreamlineCall)
    (u : Uuid) : (∃ sid e', (runFrom config timestamp calls).on sid u = true ∧
        (removeMember u).run (runFrom config timestamp calls) = .ok ⟨[sid]⟩ e' ∧
        Removed (runFrom config timestamp calls) u sid e') ∨
      (∀ sid, (runFrom config timestamp calls).on sid u = false) ∧
        (removeMember u).run (runFrom config timestamp calls) =
          .error (.err (.memberNotFound u)) (runFrom config timestamp calls) := by
  have h : (runFrom config timestamp calls).Sound := runFrom_sound calls
  cases hu : (runFrom config timestamp calls).userStreams.lookup u with
  | none => exact .inr ⟨h.housed.off hu, removeMember_refused hu⟩
  | some ids =>
    obtain ⟨sid, -, hon⟩ := h.housed.seated.mp hu
    obtain ⟨e', hrun, hremoved⟩ := h.removed hon
    exact .inl ⟨sid, e', hon, hrun, hremoved⟩

end StreamlineEngine

end MlmForge.Streamline
