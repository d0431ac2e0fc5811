/-
  Subject:   A new leaf in the arena: what every placement does to it, and that a valid arena stays
             valid.

  `Leaf a leaf` collects what the placement checks have established; `Grown a a' k leaf kids` says
  what the writes did: the leaf in the fresh slot `k`, its parent's children now `kids`, and `k`
  appended to its sponsor's recruits.

  * **`Grown.valid`** -- and the arena is still valid.
-/
import MlmForge.Engine.Valid

namespace MlmForge.Engine

open Query Option List Function

namespace Arena

/-- A node that a placement may add. -/
structure Leaf (a : Arena) (leaf : Node) : Prop where
  user : leaf.userId ≠ Uuid.nil
  new : a.index.lookup leaf.userId = none
  children : leaf.children = []
  sponsored : leaf.sponsored = []
  parent : ∀ {p}, leaf.parent = some p → a.Live p ∧ leaf.depth = (a.nodeAt p).depth + 1
  sponsor : ∀ {s}, leaf.sponsor = some s → a.Live s
  top : leaf.parent = none → a.root = none ∧ leaf.sponsor = none ∧ leaf.depth = 0

/-- `a'` is `a` with `leaf` in the fresh slot `k`, and `kids` the children of its parent. -/
structure Grown (a a' : Arena) (k : NodeIndex) (leaf : Node) (kids : List NodeIndex) : Prop where
  fresh : ¬ a.Live k
  nodeAt : ∀ j, a'.nodeAt j = if j = k then leaf else
    { a.nodeAt j with
      children := if leaf.parent = some j then kids else a.childrenOf j
      sponsored := if leaf.sponsor = some j then a.sponsoredOf j ++ [k] else a.sponsoredOf j }
  index : a'.index = a.index.insert leaf.userId k
  root : a'.root = if leaf.parent = none then some k else a.root
  length : a.nodes.length ≤ a'.nodes.length ∧ a'.nodes.length ≤ a.nodes.length + 1
  free_sub : ∀ i ∈ a'.freeList, i ∈ a.freeList ∧ i ≠ k
  free_nodup : a'.freeList.Nodup

/-! ## 1. The fields of a grown arena -/

section Fields

variable {a a' : Arena} {k : NodeIndex} {leaf : Node} {kids : List NodeIndex}
  (g : Grown a a' k leaf kids)
include g

theorem Grown.userId (j : NodeIndex) :
    (a'.nodeAt j).userId = if j = k then leaf.userId else (a.nodeAt j).userId := by
  rw [g.nodeAt]
  split <;> rfl

theorem Grown.parentOf (j : NodeIndex) : a'.parentOf j = if j = k then leaf.parent else a.parentOf j := by
  simp only [Arena.parentOf, g.nodeAt]
  split <;> rfl

theorem Grown.sponsorOf (j : NodeIndex) : a'.sponsorOf j = if j = k then leaf.sponsor else a.sponsorOf j := by
  simp only [Arena.sponsorOf, g.nodeAt]
  split <;> rfl

theorem Grown.depth (j : NodeIndex) :
    (a'.nodeAt j).depth = if j = k then leaf.depth else (a.nodeAt j).depth := by
  rw [g.nodeAt]
  split <;> rfl

theorem Grown.enrolledAt (j : NodeIndex) :
    (a'.nodeAt j).enrolledAt = if j = k then leaf.enrolledAt else (a.nodeAt j).enrolledAt := by
  rw [g.nodeAt]
  split <;> rfl

theorem Grown.live_iff (hu : leaf.userId ≠ Uuid.nil) {j : NodeIndex} : a'.Live j ↔ j = k ∨ a.Live j := by
  unfold Live
  rw [g.userId]
  split
  · rename_i h
    simp [h, hu]
  · rename_i h
    simp [h]

theorem Grown.ne {j : NodeIndex} (hj : a.Live j) : j ≠ k :=
  fun e => g.fresh (e ▸ hj)

theorem Grown.childrenOf (hl : Leaf a leaf) (j : NodeIndex) :
    a'.childrenOf j = if leaf.parent = some j then kids else
      if j = k then [] else a.childrenOf j := by
  simp only [Arena.childrenOf, g.nodeAt]
  by_cases hj : j = k
  · subst hj
    have hp : leaf.parent ≠ some j := fun hp => g.fresh (hl.parent hp).1
    simp [hl.children, hp]
  · simp [hj]

theorem Grown.sponsoredOf (hl : Leaf a leaf) (j : NodeIndex) :
    a'.sponsoredOf j = if leaf.sponsor = some j then a.sponsoredOf j ++ [k] else
      if j = k then [] else a.sponsoredOf j := by
  simp only [Arena.sponsoredOf, g.nodeAt]
  by_cases hj : j = k
  · subst hj
    have hs : leaf.sponsor ≠ some j := fun hs => g.fresh (hl.sponsor hs)
    simp [hl.sponsored, hs]
  · simp [hj]

end Fields

/-! ## 2. Validity -/

section Valid

variable {a a' : Arena} {k : NodeIndex} {leaf : Node} {kids : List NodeIndex}

theorem Grown.linked {down down' : NodeIndex → List NodeIndex}
    {up up' : NodeIndex → Option NodeIndex} (h : Linked down up) (hk : down k = [] ∧ up k = none)
    {target : Option NodeIndex} (list : List NodeIndex)
    (hup : ∀ j, up' j = if j = k then target else up j)
    (hdown : ∀ j, down' j = if target = some j then list else if j = k then [] else down j)
    (hmem : ∀ t, target = some t → ∀ y, y ∈ list ↔ y = k ∨ y ∈ down t)
    (hnd : target ≠ none → list.Nodup) : Linked down' up' := by
  have hdown0 : ∀ j, (if j = k then [] else down j) = down j := by
    intro j
    split
    · rename_i e
      rw [e, hk.1]
    · rfl
  simp only [hdown0] at hdown
  cases target with
  | none =>
    have e1 : down' = down := funext fun j => by simpa using hdown j
    have e2 : up' = up := funext fun j => by
      rw [hup]
      split
      · rename_i e
        rw [e, hk.2]
      · rfl
    rw [e1, e2]
    exact h
  | some t =>
    have ht : down' t = list := by rw [hdown, if_pos rfl]
    refine h.attach hk.2 hup (fun y => ?_) ?_ fun x hx => ?_
    · rw [ht]
      exact hmem t rfl y
    · rw [ht]
      exact hnd nofun
    · rw [hdown, if_neg fun e => hx (some.inj e).symm]

/-- **A valid arena stays valid when a leaf is hung up.** -/
theorem Grown.valid (g : Grown a a' k leaf kids) (h : a.Valid) (hl : Leaf a leaf)
    (hmem : ∀ p, leaf.parent = some p → ∀ y, y ∈ kids ↔ y = k ∨ y ∈ a.childrenOf p)
    (hnd : leaf.parent ≠ none → kids.Nodup) : a'.Valid := by
  obtain ⟨hk1, hk2, hk3, hk4⟩ := h.cleared g.fresh
  have hlive := @Grown.live_iff _ _ _ _ _ g hl.user
  refine
    { index_iff := fun {u i} => ?_
      cleared := fun {i} hi => ?_
      placed := Grown.linked h.placed ⟨hk3, hk1⟩ kids g.parentOf (g.childrenOf hl) hmem hnd
      recruited := Grown.linked h.recruited ⟨hk4, hk2⟩ (leaf.sponsor.elim [] fun s => a.sponsoredOf s ++ [k])
        g.sponsorOf (fun j => ?_) (fun s hs y => ?_) (fun hs => ?_)
      depth_top := fun {i} hi hp => ?_
      depth_below := fun {i p} hp => ?_
      free_freed := fun i hi => ?_
      free_nodup := g.free_nodup
      root_live := fun {r} hr => ?_
      top_root := fun {i} hi hp => ?_
      chains := ?_ }
  · rw [g.index, g.userId]
    by_cases hu : u = leaf.userId
    · subst hu
      rw [AList.lookup_insert]
      simp only [ne_eq, hl.user, not_false_eq_true, true_and, Option.some.injEq]
      by_cases hi : i = k
      · simp [hi]
      · simp [hi, Ne.symm hi, h.userId_ne hl.new hl.user i]
    · rw [AList.lookup_insert_ne hu, h.index_iff]
      by_cases hi : i = k
      · subst hi
        have hdead : (a.nodeAt i).userId = Uuid.nil := Classical.not_not.mp g.fresh
        simp only [hdead, if_true]
        constructor
        · rintro ⟨hne, e⟩
          exact absurd e.symm hne
        · rintro ⟨_, e⟩
          exact absurd e.symm hu
      · simp [hi]
  · rw [hlive, not_or] at hi
    obtain ⟨h1, h2, h3, h4⟩ := h.cleared hi.2
    have hnp : leaf.parent ≠ some i := fun hp => hi.2 (hl.parent hp).1
    have hns : leaf.sponsor ≠ some i := fun hs => hi.2 (hl.sponsor hs)
    rw [g.parentOf, g.sponsorOf, g.childrenOf hl, g.sponsoredOf hl]
    simp only [hi.1, if_false, hnp, hns]
    exact ⟨h1, h2, h3, h4⟩
  · rw [g.sponsoredOf hl]
    split
    · rename_i hs
      simp [hs]
    · rfl
  · simp only [hs, elim_some, mem_append, mem_singleton]
    exact or_comm
  · cases hs' : leaf.sponsor with
    | none => exact absurd hs' hs
    | some s =>
      refine nodup_append.mpr ⟨h.recruited.nodup s, nodup_singleton k, ?_⟩
      rintro x hx _ hk rfl
      rw [mem_singleton.mp hk] at hx
      rw [h.recruited.mem_iff.mp hx] at hk2
      cases hk2
  · rw [g.depth]
    rw [g.parentOf] at hp
    by_cases hik : i = k
    · rw [if_pos hik] at hp ⊢
      exact (hl.top hp).2.2
    · rw [if_neg hik] at hp ⊢
      exact h.depth_top ((hlive.mp hi).resolve_left hik) hp
  · rw [g.parentOf] at hp
    rw [g.depth, g.depth]
    by_cases hik : i = k
    · rw [if_pos hik] at hp ⊢
      obtain ⟨hpl, hd⟩ := hl.parent hp
      rw [if_neg (g.ne hpl), hd]
    · rw [if_neg hik] at hp ⊢
      rw [if_neg (g.ne (h.live_parent hp))]
      exact h.depth_below hp
  · obtain ⟨hi', hne⟩ := g.free_sub i hi
    obtain ⟨hlt, hdead⟩ := h.free_freed i hi'
    exact ⟨Nat.lt_of_lt_of_le hlt g.length.1, fun hl' => (hlive.mp hl').elim hne hdead⟩
  · rw [g.root] at hr
    rw [g.sponsorOf]
    by_cases hp : leaf.parent = none
    · rw [if_pos hp] at hr
      cases hr
      exact ⟨hlive.mpr (.inl rfl), by rw [if_pos rfl]; exact (hl.top hp).2.1⟩
    · rw [if_neg hp] at hr
      obtain ⟨hlr, hsr⟩ := h.root_live hr
      exact ⟨hlive.mpr (.inr hlr), by rw [if_neg (g.ne hlr)]; exact hsr⟩
  · rw [g.parentOf] at hp
    rw [g.root]
    by_cases hik : i = k
    · rw [if_pos hik] at hp
      rw [if_pos hp, hik]
    · rw [if_neg hik] at hp
      have hroot := h.top_root ((hlive.mp hi).resolve_left hik) hp
      rw [if_neg fun hnone => by rw [(hl.top hnone).1] at hroot; cases hroot]
      exact hroot
  · have e : a'.sponsorOf = update a.sponsorOf k leaf.sponsor := by
      funext j
      rw [g.sponsorOf]
      by_cases hj : j = k
      · subst hj
        simp
      · simp [hj]
    rw [e]
    cases hs : leaf.sponsor with
    | none =>
      refine h.chains.mono fun i s his => ?_
      by_cases hi : i = k
      · subst hi
        rw [update_self] at his
        cases his
      · rwa [update_of_ne hi] at his
    | some s => exact h.chains.attach (g.ne (hl.sponsor hs)) fun i => (h.no_link g.fresh i).2

end Valid

/-! ## 3. Checks and writes of a placement -/

/-- What every tree refuses of a root. -/
def checkAddRoot (a : Arena) (userId : Uuid) : Query TreeError Unit := do
  checkUserId userId
  stopIf a.root.isSome (.err .rootAlreadyExists)
  stopIf (a.index.lookup userId).isSome (.err (.userAlreadyExists userId))

variable {a : Arena} {u : Uuid}

theorem checkAddRoot_eq_ok :
    a.checkAddRoot u = .ok () ↔ u ≠ Uuid.nil ∧ a.root = none ∧ a.index.lookup u = none := by
  simp [checkAddRoot, checkUserId, seq_eq_ok]

theorem checkAddRoot_safe (a : Arena) (u : Uuid) : Query.Safe (a.checkAddRoot u) :=
  (safe_stopIf _).bind fun _ _ => (safe_stopIf _).bind fun _ _ => safe_stopIf _

theorem leaf_root {e : Int} (hc : a.checkAddRoot u = .ok ()) : Leaf a (Node.leaf u none none 0 e) := by
  obtain ⟨hu, hr, hn⟩ := checkAddRoot_eq_ok.mp hc
  exact ⟨hu, hn, rfl, rfl, nofun, nofun, fun _ => ⟨hr, rfl, rfl⟩⟩

theorem leaf_node {e : Int} {p : NodeIndex} {sponsor : Option NodeIndex}
    (hu : u ≠ Uuid.nil) (hn : a.index.lookup u = none) (hp : a.Live p)
    (hs : ∀ s, sponsor = some s → a.Live s) :
    Leaf a (Node.leaf u (some p) sponsor ((a.nodeAt p).depth + 1) e) :=
  ⟨hu, hn, rfl, rfl, fun e => (by cases e; exact ⟨hp, rfl⟩), fun e => hs _ e, nofun⟩

section Writes

variable {a a' : Arena} {k : NodeIndex} {leaf : Node}

/-- `self.arena.index.insert(user_id, idx)` -/
def indexInsert (a : Arena) (u : Uuid) (k : NodeIndex) : Arena :=
  { a with index := a.index.insert u k }

theorem Grown.not_valid {kids : List NodeIndex} {p : NodeIndex} (g : Grown a a' k leaf kids)
    (hp : leaf.parent = some p) (hpl : a.Live p) (hd : leaf.depth ≠ (a.nodeAt p).depth + 1) : ¬ a'.Valid := by
  intro hv
  have := hv.depth_below (i := k) (p := p) (by rw [g.parentOf, if_pos rfl, hp])
  rw [g.depth, g.depth, if_pos rfl, if_neg (g.ne hpl)] at this
  exact hd this

theorem grown_root (al : Allocated a a' k leaf) (hp : leaf.parent = none) (hs : leaf.sponsor = none) :
    Grown a { a'.indexInsert leaf.userId k with root := some k } k leaf [] where
  fresh := al.fresh
  nodeAt j := by
    show a'.nodeAt j = _
    rw [al.nodeAt]
    simp [hp, hs]
  index := by
    show a'.index.insert _ _ = _
    rw [al.index]
  root := by rw [if_pos hp]
  length := al.length
  free_sub := al.free_sub
  free_nodup := al.free_nodup

/-- **A root added to an arena.** -/
theorem Valid.addRoot (h : a.Valid) (hc : a.checkAddRoot u = .ok ()) (e : Int) :
    ∃ a' k, (allocSlot (Node.leaf u none none 0 e) : Call TreeError Arena NodeIndex).run a = .ok k a' ∧
      Grown a { a'.indexInsert u k with root := some k } k (Node.leaf u none none 0 e) [] ∧
      Valid { a'.indexInsert u k with root := some k } := by
  obtain ⟨a', k, hrun, al⟩ := allocSlot_ok h.free_freed h.free_nodup (Node.leaf u none none 0 e)
  have g := grown_root al rfl rfl
  exact ⟨a', k, hrun, g, g.valid h (leaf_root hc) nofun nofun⟩

/-- What the other placements leave behind: the parent's children, then the sponsor's recruits. -/
theorem grown_node (al : Allocated a a' k leaf) {p : NodeIndex} (hp : leaf.parent = some p) (hpl : a.Live p)
    (hsl : ∀ {s}, leaf.sponsor = some s → a.Live s) (kids : List NodeIndex → List NodeIndex) :
    let placed := (a'.indexInsert leaf.userId k).upd p fun n => { n with children := kids n.children }
    Grown a (leaf.sponsor.elim placed fun s =>
      placed.upd s fun n => { n with sponsored := n.sponsored ++ [k] }) k leaf
      (kids (a.childrenOf p)) := by
  intro placed
  have hpk : p ≠ k := fun e => al.fresh (e ▸ hpl)
  have hplt : p < (a'.indexInsert leaf.userId k).nodes.length := Nat.lt_of_lt_of_le hpl.lt al.length.1
  have hnode : ∀ j, placed.nodeAt j = if j = k then leaf else { a.nodeAt j with
      children := if leaf.parent = some j then kids (a.childrenOf p) else a.childrenOf j } := by
    intro j
    rw [nodeAt_upd hplt]
    show (if j = p then { a'.nodeAt j with children := kids (a'.nodeAt j).children } else
      a'.nodeAt j) = _
    rw [al.nodeAt, hp]
    by_cases hjk : j = k
    · subst hjk
      simp [Ne.symm hpk]
    · by_cases hjp : j = p
      · subst hjp
        simp [hjk]
      · simp [hjk, hjp, Ne.symm hjp]
  cases hs : leaf.sponsor with
  | none =>
    rw [elim_none]
    refine ⟨al.fresh, fun j => ?_, ?_, ?_, ?_, al.free_sub, al.free_nodup⟩
    · simp only [hnode, hs, reduceCtorEq, if_false]
    · show a'.index.insert _ _ = _
      rw [al.index]
    · rw [hp]
      exact al.root
    · rw [length_upd]
      exact al.length
  | some s =>
    rw [elim_some]
    have hsl := hsl hs
    have hsk : s ≠ k := fun e => al.fresh (e ▸ hsl)
    have hslt : s < placed.nodes.length := by
      rw [length_upd]
      exact Nat.lt_of_lt_of_le hsl.lt al.length.1
    refine ⟨al.fresh, fun j => ?_, ?_, ?_, ?_, al.free_sub, al.free_nodup⟩
    · simp only [nodeAt_upd hslt, hnode, hs, Option.some.injEq]
      by_cases hjk : j = k
      · subst hjk
        simp [Ne.symm hsk]
      · by_cases hjs : j = s
        · subst hjs
          simp [hjk]
        · simp [hjk, hjs, Ne.symm hjs]
    · show a'.index.insert _ _ = _
      rw [al.index]
    · rw [hp]
      exact al.root
    · rw [length_upd, length_upd]
      exact al.length

theorem Allocated.live (al : Allocated a a' k leaf) {j : NodeIndex} (hj : a.Live j) : a'.Live j := by
  have hne : j ≠ k := fun e => al.fresh (e ▸ hj)
  show (a'.nodeAt j).userId ≠ _
  rw [al.nodeAt, if_neg hne]
  exact hj

end Writes

end Arena

end MlmForge.Engine
