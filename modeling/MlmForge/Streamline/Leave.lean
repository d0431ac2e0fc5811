/-
  Subject:   What happens to one stream when a member leaves it or its owner goes.

  * **`leave_ok`** -- the chain closes up, and the index of the others is what it was.
-/
import MlmForge.Streamline.Engine

namespace MlmForge.Streamline

open Engine StreamlineEngine Call List StreamLists Option Query Member

/-- **A stream is a chain**: its tree holds the list, and its bottom is the last member down. -/
structure Stream.Chained (s : Stream) (l : List Member) : Prop where
  holds : Holds s.tree l
  bottom : s.bottom = l.head?.map Member.user

/-! ## 1. Lists of streams by user -/

section Lists

variable {m : StreamLists} {u v : Uuid} {id : Nat}

theorem StreamLists.lookup_push : (push m u id).lookup v =
    if v = u then some ((m.lookup u).getD [] ++ [id]) else m.lookup v := by
  exact Maps.lookup_insert m u _ v

theorem StreamLists.lookup_drop (h : m.lookup u = some [id]) :
    (StreamLists.drop m u id).lookup v = if v = u then none else m.lookup v := by
  have hdrop : StreamLists.drop m u id = m.erase u := by
    unfold StreamLists.drop
    simp [h]
  rw [hdrop]
  exact Maps.lookup_erase m u v

end Lists

namespace StreamlineEngine.Borrowed

variable {b : Borrowed} {sid : Nat} {above below : List Member} {m : Member} {gone : Uuid}

/-! ## 2. The members below -/

/-- What it takes to add a member again. -/
def asDescendant (m : Member) : Descendant := ⟨m.user, m.sponsor.getD m.user, m.enrolledAt⟩

variable {t : UnilevelTree}

theorem descendantsOf_ok (h : Holds t (below ++ m :: above)) :
    descendantsOf t m.user = .ok (below.reverse.map asDescendant) := by
  obtain ⟨ns, hns, hreads⟩ := h.getDownline
  rw [descendantsOf, hns, okOr_ok]
  refine mapM_of_forall₂ hreads fun n c hc hn => ?_
  obtain ⟨low, high, rfl⟩ := append_of_mem (mem_reverse.mp hc)
  rw [append_assoc, cons_append] at h
  obtain ⟨found, hfound, hsponsor⟩ := h.getSponsor
  rw [hn.1, hfound, okOr_ok]
  show Except.ok _ = _
  rw [hsponsor, hn.2]
  rfl

/-- **The members below are taken out from the bottom.** -/
theorem removeDescendants_ok : ∀ {low : List Member} {b : Borrowed} {rest : List Member},
    Holds b.stream.tree (low ++ rest) → (∀ d ∈ low, b.userStreams.lookup d.user = some [sid]) →
    ∃ t us, (removeDescendants sid (low.map asDescendant)).run b =
        .ok () ⟨{ b.stream with tree := t }, us, b.streamOwners⟩ ∧ Holds t rest ∧
      ∀ v, us.lookup v = if v ∈ users low then none else b.userStreams.lookup v := by
  intro low
  induction low with
  | nil =>
    intro b rest h _
    exact ⟨b.stream.tree, b.userStreams, rfl, h, fun v => rfl⟩
  | cons d low ih =>
    intro b rest h hs
    have h0 : Holds b.stream.tree (d :: (low ++ rest)) := h
    obtain ⟨moved, t, hrun, ht⟩ := h0.removeNode
    have hd := hs d mem_cons_self
    have hnew : ∀ x ∈ low, x.user ≠ d.user := fun x hx e =>
      h.stacked.new (e ▸ mem_map_of_mem (mem_append_left _ hx))
    obtain ⟨t', us, hrest, ht', hus⟩ := @ih
      ⟨{ b.stream with tree := t }, StreamLists.drop b.userStreams d.user sid, b.streamOwners⟩ rest
      ht fun x hx => by
        rw [lookup_drop hd, if_neg (hnew x hx)]
        exact hs x (mem_cons_of_mem _ hx)
    refine ⟨t', us, ?_, ht', fun v => ?_⟩
    · have hd' : (asDescendant d).userId = d.user := rfl
      simp only [map_cons, removeDescendants, run_bind, onTree, run_zoom, run_relay, hd', hrun, run_modify]
      exact hrest
    · rw [hus, lookup_drop hd, users_cons]
      by_cases e : v = d.user <;> by_cases e' : v ∈ users low <;> simp [e, e']

theorem reAdd_ok {up : List Member} {d : Member} (h : Holds b.stream.tree up)
    (hst : Stacked (moveUp gone up d)) (hfit : (moveUp gone up d).length ≤ 2 ^ 32) : ∃ k t,
    (reAdd gone (up.head?.map user) (asDescendant d)).run b =
      .ok k { b with stream := { b.stream with tree := t } } ∧ Holds t (moveUp gone up d) := by
  cases up with
  | nil =>
    obtain ⟨k, t, hrun, ht⟩ := h.addRoot hst.user d.enrolledAt
    refine ⟨k, t, ?_, ht⟩
    simp only [reAdd, asDescendant, head?_nil, map_none, onTree, run_zoom, run_relay]
    rw [hrun]
  | cons p up =>
    obtain ⟨s, hs, hmem⟩ := hst.recruited (cons_ne_nil p up)
    obtain ⟨k, t, hrun, ht⟩ := h.addNode hfit hst.user hst.new hmem d.enrolledAt
    have hs' : (if d.sponsor = some gone then some p.user else d.sponsor) = some s := hs
    have hsame : (if (asDescendant d).sponsorId = gone then p.user else (asDescendant d).sponsorId) = s := by
      cases hd : d.sponsor with
      | none => simp [hd] at hs'
      | some x =>
        by_cases e : x = gone <;> simpa [asDescendant, hd, e] using hs'
    refine ⟨k, t, ?_, ?_⟩
    · simp only [reAdd, head?_cons, map_some, getD_some, hsame, onTree, run_zoom, run_relay]
      rw [show (asDescendant d).userId = d.user from rfl,
        show (asDescendant d).enrolledAt = d.enrolledAt from rfl, hrun]
    · rw [moveUp, head?_cons, bind_some, hs']
      exact ht

/-- **They are added again from the top**, and the chain has closed up. -/
theorem reAddDescendants_ok : ∀ {todo : List Member} {b : Borrowed} {up : List Member},
    Holds b.stream.tree up → Stacked (closeUp gone up todo.reverse) →
    (closeUp gone up todo.reverse).length ≤ 2 ^ 32 → (∀ d ∈ todo, b.userStreams.lookup d.user = none) →
    ∃ t us, (reAddDescendants gone sid (up.head?.map user) (todo.map asDescendant)).run b =
        .ok () ⟨{ b.stream with
          tree := t
          bottom := if todo = [] then b.stream.bottom
            else (closeUp gone up todo.reverse).head?.map user }, us, b.streamOwners⟩ ∧
      Holds t (closeUp gone up todo.reverse) ∧
      ∀ v, us.lookup v = if v ∈ users todo then some [sid] else b.userStreams.lookup v := by
  intro todo
  induction todo with
  | nil =>
    intro b up h _ _ _
    exact ⟨b.stream.tree, b.userStreams, rfl, h, fun v => rfl⟩
  | cons d todo ih =>
    intro b up h hst hfit hfree
    have hsplit : closeUp gone up (d :: todo).reverse = closeUp gone (moveUp gone up d) todo.reverse := by
      rw [reverse_cons, closeUp_append]
      rfl
    rw [hsplit] at hst hfit ⊢
    -- the chain grows by one: its new part is stacked, and fits, because the whole does
    obtain ⟨l, hl⟩ := exists_closeUp gone (moveUp gone up d) todo.reverse
    have hmoved : Stacked (moveUp gone up d) := (hl ▸ hst).drop
    have hmovedFit : (moveUp gone up d).length ≤ 2 ^ 32 := by
      rw [hl, length_append] at hfit
      exact Nat.le_trans (Nat.le_add_left _ _) hfit
    have hnew : ∀ x ∈ todo, x.user ≠ d.user := by
      have hnd := hst.nodup
      rw [users_closeUp, moveUp, users_cons] at hnd
      intro x hx e
      refine (nodup_append.mp hnd).2.2 x.user ?_ d.user mem_cons_self e
      exact mem_map_of_mem (mem_reverse.mpr hx)
    obtain ⟨k, t, hrun, ht⟩ := reAdd_ok h hmoved hmovedFit
    have hlast : todo = [] → closeUp gone (moveUp gone up d) todo.reverse = moveUp gone up d := by
      rintro rfl
      rfl
    obtain ⟨t', us, hrest, ht', hus⟩ := @ih
      ⟨{ b.stream with tree := t, bottom := if todo = [] then some d.user else b.stream.bottom },
        push b.userStreams d.user sid, b.streamOwners⟩ (moveUp gone up d) ht hst hfit
      fun x hx => by
        rw [lookup_push, if_neg (hnew x hx)]
        exact hfree x (mem_cons_of_mem _ hx)
    refine ⟨t', us, ?_, ht', fun v => ?_⟩
    · have hhead : (moveUp gone up d).head?.map user = some d.user := rfl
      have hd' : (asDescendant d).userId = d.user := rfl
      simp only [map_cons, reAddDescendants, run_bind, hrun, run_modify, hd']
      rw [hhead] at hrest
      by_cases he : todo = []
      · subst he
        exact hrest
      · simp only [map_eq_nil_iff, he, if_false] at hrest ⊢
        simpa using hrest
    · rw [hus, lookup_push, users_cons, hfree d mem_cons_self]
      by_cases e : v = d.user <;> by_cases e' : v ∈ users todo <;> simp [e, e']

/-! ## 3. The owner -/

/-- Whether a user is the top of a chain. -/
def isTop (l : List Member) (u : Uuid) : Bool := l.getLast?.map Member.user = some u

variable {l : List Member}

theorem firstUnparented_ok (h : Holds t l) :
    ∀ {us : List Uuid}, (∀ u ∈ us, u ∈ users l) → firstUnparented t us = .ok (us.find? (isTop l)) := by
  intro us
  induction us with
  | nil => exact fun _ => rfl
  | cons u us ih =>
    intro hus
    obtain ⟨low, c, high, rfl, rfl⟩ := exists_split (hus u mem_cons_self)
    obtain ⟨found, hrun, hfound, -⟩ := h.getParent
    have htop : isTop (low ++ c :: high) c.user = found.isNone := by
      cases high with
      | nil =>
        rw [map_eq_none_iff.mp hfound]
        simp [isTop]
      | cons p high =>
        obtain ⟨q, rfl, -⟩ := map_eq_some_iff.mp hfound
        have hne : ((p :: high).getLast?.map user) ≠ some c.user := by
          intro e
          obtain ⟨x, hx, hxu⟩ := map_eq_some_iff.mp e
          exact h.stacked.drop.new (hxu ▸ mem_map_of_mem (mem_of_getLast? hx))
        simp only [isTop, getLast?_append, getLast?_cons_cons, isNone_some, decide_eq_false_iff_not]
        cases hl : (p :: high).getLast? with
        | none => simp at hl
        | some x => simpa [hl] using hne
    rw [firstUnparented, hrun, okOr_ok]
    show (if found.isNone = true then _ else _) = _
    rw [find?_cons, htop, ih fun x hx => hus x (mem_cons_of_mem _ hx)]
    cases found.isNone <;> rfl

theorem find_top (h : Holds t l) : t.userIds.find? (isTop l) = l.getLast?.map user := by
  cases hl : l.getLast?.map user with
  | none =>
    refine find?_eq_none.mpr fun u _ => ?_
    simp [isTop, hl]
  | some u =>
    have hmem : u ∈ t.userIds := by
      obtain ⟨x, hx, rfl⟩ := map_eq_some_iff.mp hl
      exact h.mem_userIds.mpr (mem_map_of_mem (mem_of_getLast? hx))
    have htop : ∀ v, isTop l v = true ↔ u = v := fun v => by simp [isTop, hl]
    have hsome : (t.userIds.find? (isTop l)).isSome := by
      rw [find?_isSome]
      exact ⟨u, hmem, (htop u).mpr rfl⟩
    obtain ⟨v, hv⟩ := isSome_iff_exists.mp hsome
    rw [hv, (htop v).mp (find?_some hv)]

theorem topUser_unique {l' : List Member} (h : Holds t l) (h' : Holds t l') : topUser l = topUser l' := by
  have hfirst : ∀ {l : List Member}, Holds t l →
      firstUnparented t t.userIds = .ok (l.getLast?.map user) := fun h => by
    rw [firstUnparented_ok h fun u hu => h.mem_userIds.mp hu, find_top h]
  have hsame := (hfirst h).symm.trans (hfirst h')
  rw [topUser, Except.ok.inj hsame, topUser]

/-- The lists of owners once a stream has gone to the top of its chain. -/
def ownersAfter (owners : StreamLists) (sid : Nat) (l : List Member) : StreamLists :=
  if l = [] then owners else push owners (topUser l) sid

/-- **A stream goes to the member at its top**, or to nobody. -/
theorem transferOwner_ok (h : Holds b.stream.tree l) :
    (transferOwner sid).run b = .ok () ⟨{ b.stream with ownerId := topUser l }, b.userStreams,
      ownersAfter b.streamOwners sid l⟩ := by
  have hfirst : firstUnparented b.stream.tree b.stream.tree.userIds = .ok (l.getLast?.map user) := by
    rw [firstUnparented_ok h fun u hu => h.mem_userIds.mp hu, find_top h]
  simp only [transferOwner, run_bind, run_reads, hfirst]
  cases l with
  | nil => rfl
  | cons m l =>
    rw [ownersAfter, if_neg (cons_ne_nil m l)]
    obtain ⟨x, hx⟩ := ne_none_iff_exists'.mp (mt getLast?_eq_none_iff.mp (cons_ne_nil m l))
    simp [topUser, hx]

/-! ## 4. Leaving -/

/-- **What leaving does to a stream**: its chain closes up, it changes hands when its owner left, and
    for everybody else the index is what it was. -/
structure Left (sid : Nat) (u : Uuid) (b b' : Borrowed) (l : List Member) : Prop where
  chained : b'.stream.Chained l
  id : b'.stream.id = b.stream.id
  frozen : b'.stream.frozen = b.stream.frozen
  ownerId : b'.stream.ownerId = if b.stream.ownerId = u then topUser l else b.stream.ownerId
  userStreams : ∀ v, b'.userStreams.lookup v = b.userStreams.lookup v
  streamOwners : b'.streamOwners =
    if b.stream.ownerId = u then ownersAfter b.streamOwners sid l else b.streamOwners

theorem leave_ok (hc : b.stream.Chained (below ++ m :: above))
    (hs : ∀ d ∈ below, b.userStreams.lookup d.user = some [sid]) :
    ∃ b', (leave m.user sid).run b = .ok () b' ∧ Left sid m.user b b' (closeUp m.user above below) := by
  have h := hc.holds
  have hclose := h.stacked.closeUp
  have hfit : (closeUp m.user above below).length ≤ 2 ^ 32 := by
    have hlen := congrArg length (users_closeUp m.user above below)
    have hfits := h.fits
    simp only [users, length_map, length_append, length_cons] at hlen hfits
    omega
  obtain ⟨found, hfound, hparent, -⟩ := h.getParent
  obtain ⟨t1, us1, hrun1, ht1, hus1⟩ := removeDescendants_ok h hs
  obtain ⟨moved, t2, hrun2, ht2⟩ := ht1.removeNode
  have hfree : ∀ d ∈ below.reverse, us1.lookup d.user = none := by
    intro d hd
    rw [hus1, if_pos (mem_users (mem_reverse.mp hd))]
  obtain ⟨t3, us3, hrun3, ht3, hus3⟩ := @reAddDescendants_ok sid m.user below.reverse
    ⟨{ b.stream with tree := t2 }, us1, b.streamOwners⟩ above ht2
    (by rw [reverse_reverse]; exact hclose) (by rw [reverse_reverse]; exact hfit) hfree
  rw [reverse_reverse] at ht3 hrun3
  -- the stream before its owner is looked at
  let b3 : Borrowed := ⟨{ b.stream with
    tree := t3
    bottom := (closeUp m.user above below).head?.map user }, us3, b.streamOwners⟩
  have hrun : (leave m.user sid).run b =
      (if b.stream.ownerId = m.user then transferOwner sid else pure ()).run b3 := by
    have hrev : (below.reverse.map asDescendant).reverse = below.map asDescendant := by
      rw [map_reverse, reverse_reverse]
    simp only [leave, run_bind, run_reads, descendantsOf_ok h, hfound, okOr_ok, hrev,
      hrun1, onTree, run_zoom, run_relay, hrun2, hparent, hrun3, run_modify, run_get]
    -- where the bottom is: nobody below, nobody left at all, or the last one added again
    have hbottom : (if below.reverse.map asDescendant = [] then
        (⟨{ b.stream with tree := t3, bottom := above.head?.map user }, us3,
          b.streamOwners⟩ : Borrowed)
        else ⟨{ b.stream with
          tree := t3
          bottom := if below.reverse = [] then b.stream.bottom
            else (closeUp m.user above below).head?.map user }, us3, b.streamOwners⟩) = b3 := by
      by_cases he : below = []
      · subst he
        rfl
      · simp [he, b3]
    have hempty : (if b3.stream.tree.userIds = [] then
        { b3 with stream := { b3.stream with bottom := none } } else b3) = b3 := by
      split
      · rename_i he
        have hnil : closeUp m.user above below = [] := ht3.userIds_eq_nil.mp he
        simp [b3, hnil]
      · rfl
    simp only [hbottom, hempty]
    rfl
  have hchain : b3.stream.Chained (closeUp m.user above below) := ⟨ht3, rfl⟩
  have husers : ∀ v, us3.lookup v = b.userStreams.lookup v := by
    intro v
    rw [hus3]
    by_cases hv : v ∈ users below
    · obtain ⟨d, hd, rfl⟩ := mem_map.mp hv
      rw [if_pos (mem_users (mem_reverse.mpr hd)), hs d hd]
    · have hv' : v ∉ users below.reverse := by
        rw [users, map_reverse, mem_reverse]
        exact hv
      rw [if_neg hv', hus1, if_neg hv]
  by_cases ho : b.stream.ownerId = m.user
  · rw [if_pos ho, transferOwner_ok ht3] at hrun
    exact ⟨_, hrun, ⟨ht3, rfl⟩, rfl, rfl, (if_pos ho).symm, husers, (if_pos ho).symm⟩
  · rw [if_neg ho] at hrun
    exact ⟨b3, hrun, hchain, rfl, rfl, (if_neg ho).symm, husers, (if_neg ho).symm⟩

end StreamlineEngine.Borrowed

end MlmForge.Streamline
