/-
  Subject:   `remove_node` with `PruningMode::HoldingTank`: a node and its whole subtree leave the
             tree, and their users wait in the holding tank.

  * `removeToHoldingTank_ok` -- the whole removal.
-/
import MlmForge.Engine.MatrixRemove

namespace MlmForge.Engine

open Call List Arena Query

namespace MatrixTree

/-! ## 1. Clearing the removed nodes -/

/-- `s` is `b` with the nodes of `unlinked` off their sponsors' lists and those of `done` cleared. -/
structure Clearing (b s : MatrixTree) (unlinked done : List NodeIndex) : Prop where
  node : ∀ x, s.arena.nodeAt x = if x ∈ done then Node.freed else
    { b.arena.nodeAt x with sponsored := (b.arena.sponsoredOf x).filter (· ∉ unlinked) }
  lookup : ∀ x, s.slots.lookup x = if x ∈ done then none else b.slots.lookup x
  index : ∀ u, s.arena.index.lookup u = (b.arena.index.lookup u).filter (· ∉ done)
  free : s.arena.freeList = b.arena.freeList ++ done
  root : s.arena.root = b.arena.root
  length : s.arena.nodes.length = b.arena.nodes.length
  width : s.width = b.width
  spillover : s.spillover = b.spillover
  tank : s.holdingTank = b.holdingTank

theorem Clearing.start (b : MatrixTree) : Clearing b b [] [] where
  node x := by simp [sponsoredOf]
  lookup x := by simp
  index u := by cases b.arena.index.lookup u <;> simp [Option.filter]
  free := by simp
  root := rfl
  length := rfl
  width := rfl
  spillover := rfl
  tank := rfl

section Steps

variable {b s : MatrixTree} {unlinked done gone : List NodeIndex} {x : NodeIndex}

theorem Clearing.live (h : Clearing b s unlinked done) (hx : b.arena.Live x) (hd : x ∉ done) :
    s.arena.Live x := by
  unfold Arena.Live
  rw [h.node, if_neg hd]
  exact hx

/-- **A removed node is taken off the list of its sponsor, when that one stays.** -/
theorem Clearing.unlink (h : Clearing b s unlinked done) (hdone : ∀ y ∈ done, y ∈ gone)
    (hsp : ∀ q, b.arena.sponsorOf x = some q → b.arena.Live q)
    (hlisted : ∀ q, x ∈ b.arena.sponsoredOf q → b.arena.sponsorOf x = some q ∧ q ∉ gone) :
    ∃ s', (unlinkSurvivingSponsor gone (b.arena.sponsorOf x) x).run s = .ok () s' ∧
      Clearing b s' (unlinked ++ [x]) done := by
  have hfilter : ∀ l : List NodeIndex, l.filter (· ∉ unlinked ++ [x]) =
      (l.filter (· ∉ unlinked)).filter (· ≠ x) := by
    intro l
    rw [filter_filter]
    refine filter_congr fun y _ => ?_
    simp [and_comm]
  have hkeep : ∀ q, x ∉ b.arena.sponsoredOf q → (b.arena.sponsoredOf q).filter (· ∉ unlinked ++ [x]) =
        (b.arena.sponsoredOf q).filter (· ∉ unlinked) := by
    intro q hq
    rw [hfilter]
    refine filter_eq_self.mpr fun y hy => decide_eq_true ?_
    rintro rfl
    exact hq (mem_of_mem_filter hy)
  -- a node whose sponsor goes too, or that has none, is on no list
  have hnoop : (∀ q, b.arena.sponsorOf x = some q → q ∈ gone) → Clearing b s (unlinked ++ [x]) done :=
    fun hno => { h with
      node := fun y => by
        rw [h.node, hkeep y fun hm => ?_]
        exact (hlisted y hm).2 (hno y (hlisted y hm).1) }
  cases hs : b.arena.sponsorOf x with
  | none => exact ⟨s, rfl, hnoop (by simp [hs])⟩
  | some q =>
    by_cases hq : q ∈ gone
    · refine ⟨s, by simp [unlinkSurvivingSponsor, hq], hnoop fun q' hq' => ?_⟩
      rw [hs] at hq'
      cases hq'
      exact hq
    · have hql := h.live (hsp q hs) fun hd => hq (hdone q hd)
      let f : Node → Node := fun n => { n with sponsored := n.sponsored.filter (· ≠ x) }
      let s' : MatrixTree := { s with arena := s.arena.upd q f }
      refine ⟨s', ?_, { h with node := fun y => ?_, length := ?_ }⟩
      · simp only [unlinkSurvivingSponsor, hq, not_false_eq_true, if_true, onArena, run_zoom, nodeMut_ok hql]
        rfl
      · show (s.arena.upd q f).nodeAt y = _
        rw [nodeAt_upd hql.lt, h.node]
        by_cases hy : y = q
        · subst hy
          have hd : y ∉ done := fun hd => hq (hdone y hd)
          simp only [if_true, if_neg hd, f, hfilter]
        · rw [if_neg hy, hkeep y fun hm => ?_]
          have := (hlisted y hm).1
          rw [hs] at this
          exact hy (Option.some.inj this).symm
      · exact (length_upd _).trans h.length

/-- **A removed node is cleared.** -/
theorem Clearing.clear (h : Clearing b s unlinked done) (hindex : ∀ {u i}, b.arena.index.lookup u = some i ↔
      u ≠ Uuid.nil ∧ (b.arena.nodeAt i).userId = u)
    (hx : b.arena.Live x) (hd : x ∉ done) (hfree : x ∉ b.arena.freeList) :
    ∃ s', (clearNode x (b.arena.nodeAt x).userId).run s = .ok () s' ∧
      Clearing b s' unlinked (done ++ [x]) := by
  have hlt : x < s.arena.nodes.length := h.length ▸ hx.lt
  let a := s.arena.indexRemove (b.arena.nodeAt x).userId
  have hnf : x ∉ a.freeList := by
    show x ∉ s.arena.freeList
    rw [h.free, mem_append, not_or]
    exact ⟨hfree, hd⟩
  have hx' : b.arena.index.lookup (b.arena.nodeAt x).userId = some x := hindex.mpr ⟨hx, rfl⟩
  let s' : MatrixTree := { s with slots := s.slots.erase x, arena := a.buried x }
  refine ⟨s', ?_, { h with node := fun y => ?_, lookup := fun y => ?_, index := fun u => ?_,
                           free := ?_, length := ?_ }⟩
  · have hb : (tombstone x : Call TreeError Arena Unit).run
        (s.arena.indexRemove (b.arena.nodeAt x).userId) = .ok () (a.buried x) :=
      tombstone_ok (a := a) hlt hnf
    simp only [clearNode, run_bind, run_modify, onArena, run_zoom, hb]
    rfl
  · show (a.buried x).nodeAt y = _
    rw [nodeAt_buried (a := a) hlt]
    show (if y = x then Node.freed else s.arena.nodeAt y) = _
    rw [h.node]
    by_cases hy : y = x <;> simp [hy]
  · show (s.slots.erase x).lookup y = _
    rw [Maps.lookup_erase, h.lookup]
    by_cases hy : y = x <;> simp [hy]
  · show (s.arena.index.erase _).lookup u = _
    by_cases hu : u = (b.arena.nodeAt x).userId
    · rw [hu, AList.lookup_erase, hx']
      simp [Option.filter]
    · rw [AList.lookup_erase_ne hu, h.index]
      cases hi : b.arena.index.lookup u with
      | none => rfl
      | some i =>
        have hix : i ≠ x := by
          rintro rfl
          exact hu (hindex.mp hi).2.symm
        simp [Option.filter, hix]
  · show s.arena.freeList ++ [x] = _
    rw [h.free, append_assoc]
  · exact (length_upd _).trans h.length

/-- The tree with another row at a node, and the node's children rebuilt from it. -/
def reslot (s : MatrixTree) (i : NodeIndex) (row : MatrixSlots) : MatrixTree :=
  { s.insertSlots i row with
    arena := s.arena.upd i fun n => { n with children := row.reduceOption } }

variable {i : NodeIndex}

theorem nodeAt_reslot (hi : i < s.arena.nodes.length) (row : MatrixSlots)
    (j : NodeIndex) : (s.reslot i row).arena.nodeAt j = { s.arena.nodeAt j with
      children := if j = i then row.reduceOption else s.arena.childrenOf j } := by
  show (s.arena.upd i _).nodeAt j = _
  rw [nodeAt_upd hi]
  split_ifs <;> rfl

theorem sponsoredOf_reslot (hi : i < s.arena.nodes.length) (row : MatrixSlots)
    (j : NodeIndex) : (s.reslot i row).arena.sponsoredOf j = s.arena.sponsoredOf j := by
  rw [sponsoredOf, nodeAt_reslot hi, sponsoredOf]

/-- Another row at a node that stays does not interfere. -/
theorem Clearing.reslot (h : Clearing b s unlinked done) (hi : b.arena.Live i)
    (hd : i ∉ done) (row : MatrixSlots) :
    Clearing (b.reslot i row) (s.reslot i row) unlinked done where
  node j := by
    rw [nodeAt_reslot (h.live hi hd).lt, childrenOf, h.node, sponsoredOf_reslot hi.lt, nodeAt_reslot hi.lt]
    by_cases hj : j ∈ done
    · have hji : j ≠ i := fun e => hd (e ▸ hj)
      simp only [if_pos hj, if_neg hji]
    · simp only [if_neg hj]
  lookup j := by
    show (s.slots.insert i row).lookup j = if j ∈ done then none else
      (b.slots.insert i row).lookup j
    rw [Maps.lookup_insert, Maps.lookup_insert, h.lookup]
    by_cases hj : j = i
    · simp [hj, hd]
    · simp [hj]
  index := h.index
  free := h.free
  root := h.root
  length := (length_upd _).trans (h.length.trans (length_upd _).symm)
  width := h.width
  spillover := h.spillover
  tank := h.tank

end Steps

/-- What the passes rely on in the state they start from: the removed nodes are live, a removed node
    is on the list of its own sponsor at most, and only when that one stays. -/
structure Clearable (b : MatrixTree) (gone : List NodeIndex) : Prop where
  index : ∀ {u i}, b.arena.index.lookup u = some i ↔
    u ≠ Uuid.nil ∧ (b.arena.nodeAt i).userId = u
  live : ∀ x ∈ gone, b.arena.Live x
  sponsor : ∀ x ∈ gone, ∀ q, b.arena.sponsorOf x = some q → b.arena.Live q
  listed : ∀ x ∈ gone, ∀ q, x ∈ b.arena.sponsoredOf q → b.arena.sponsorOf x = some q ∧ q ∉ gone
  free : ∀ x ∈ gone, x ∉ b.arena.freeList

section Pass

variable {b : MatrixTree} {gone : List NodeIndex} (hb : Clearable b gone)
include hb

/-- **The pass over the descendants clears them all.** -/
theorem clearDescendants_ok : ∀ {rest done : List NodeIndex} {s : MatrixTree},
    Clearing b s done done → (∀ x ∈ done ++ rest, x ∈ gone) → (done ++ rest).Nodup →
    ∃ s', (clearDescendants gone rest).run s = .ok () s' ∧ Clearing b s' (done ++ rest) (done ++ rest) := by
  intro rest
  induction rest with
  | nil =>
    intro done s h _ _
    exact ⟨s, rfl, by simpa using h⟩
  | cons x rest ih =>
    intro done s h hsub hnd
    have hx : x ∈ gone := hsub x (by simp)
    have hxd : x ∉ done := fun hd => (nodup_append.mp hnd).2.2 x hd x mem_cons_self rfl
    have hlive := h.live (hb.live x hx) hxd
    have hsp : (s.arena.nodeAt x).sponsor = b.arena.sponsorOf x := by
      rw [h.node, if_neg hxd]
    have huser : (s.arena.nodeAt x).userId = (b.arena.nodeAt x).userId := by
      rw [h.node, if_neg hxd]
    obtain ⟨s1, h1, c1⟩ := h.unlink (fun y hy => hsub y (by simp [hy])) (hb.sponsor x hx) (hb.listed x hx)
    obtain ⟨s2, h2, c2⟩ := c1.clear hb.index (hb.live x hx) hxd (hb.free x hx)
    have happ : done ++ x :: rest = (done ++ [x]) ++ rest := by simp
    rw [happ] at hsub hnd ⊢
    obtain ⟨s', h3, c3⟩ := ih c2 hsub hnd
    refine ⟨s', ?_, c3⟩
    simp only [clearDescendants, forM_cons, run_bind, run_reads, node_ok hlive, hsp, huser, h1, h2]
    exact h3

end Pass

/-! ## 2. The tank -/

/-- The entry of a node: its user, its sponsor's user, and when it was enrolled. -/
def entryOf (t : MatrixTree) (x : NodeIndex) : HoldingTankEntry :=
  ⟨(t.arena.nodeAt x).userId, (t.arena.sponsorOf x).map fun s => (t.arena.nodeAt s).userId,
    (t.arena.nodeAt x).enrolledAt⟩

variable {t : MatrixTree}

theorem tankEntry_ok {x : NodeIndex} (hx : t.arena.Live x)
    (hs : ∀ s, t.arena.sponsorOf x = some s → t.arena.Live s) : t.tankEntry x = .ok (t.entryOf x) := by
  unfold tankEntry entryOf
  rw [bind_ok (node_ok hx)]
  cases h : t.arena.sponsorOf x with
  | none =>
    rw [show (t.arena.nodeAt x).sponsor = none from h]
    rfl
  | some s =>
    rw [show (t.arena.nodeAt x).sponsor = some s from h]
    exact bind_ok (node_ok (hs s h)) _

/-- **The tank is in order with the removed users in it.** Their sponsors were in the tree, so no
    chain leads from them back to those who waited before. -/
theorem TankOk.append {a' : Arena} (hv : t.Valid) {gone : List NodeIndex}
    (hp : Arena.Pruned t.arena a' gone) {users : List NodeIndex} (hsub : ∀ x ∈ users, x ∈ gone)
    (hnd : users.Nodup) : TankOk a' (t.holdingTank ++ users.map t.entryOf) := by
  have hlive : ∀ x ∈ users, t.arena.Live x := fun x hx => hp.live x (hsub x hx)
  have hnew : ∀ {e}, e ∈ users.map t.entryOf → ∃ x ∈ users, e = t.entryOf x ∧
      t.arena.index.lookup e.userId = some x := by
    intro e he
    obtain ⟨x, hx, rfl⟩ := mem_map.mp he
    exact ⟨x, hx, rfl, hv.arena.index_iff.mpr ⟨hlive x hx, rfl⟩⟩
  have hold := hv.tank.pruned hp
  have hnodup : ((t.holdingTank ++ users.map t.entryOf).map HoldingTankEntry.userId).Nodup := by
    rw [map_append, nodup_append]
    refine ⟨hv.tank.nodup, ?_, fun u hu w hw e => ?_⟩
    · rw [map_map]
      refine hnd.map_on fun x hx y hy e => ?_
      exact hv.arena.userId_inj (hlive x hx) e
    · obtain ⟨e1, he1, rfl⟩ := mem_map.mp hu
      obtain ⟨e2, he2, rfl⟩ := mem_map.mp hw
      obtain ⟨x, -, -, hx⟩ := hnew he2
      rw [← e, hv.tank.absent e1 he1] at hx
      cases hx
  refine { user := fun e he => ?_, sponsor := fun e he => ?_, absent := fun e he => ?_,
           nodup := hnodup, chains := ?_ }
  · rcases mem_append.mp he with he | he
    · exact hold.user e he
    · obtain ⟨x, hx, rfl, -⟩ := hnew he
      exact hlive x hx
  · rcases mem_append.mp he with he | he
    · exact hold.sponsor e he
    · obtain ⟨x, hx, rfl, -⟩ := hnew he
      intro hs
      obtain ⟨s, hs, hnil⟩ := Option.map_eq_some_iff.mp hs
      exact hv.arena.live_sponsor hs hnil
  · rcases mem_append.mp he with he | he
    · exact hold.absent e he
    · obtain ⟨x, hx, -, hl⟩ := hnew he
      rw [hp.index, hl]
      simp [Option.filter, hsub x hx]
  · obtain ⟨rank, hr⟩ := hv.arena.chains
    refine ranked_of_part (fun u => rank ((t.arena.index.lookup u).getD 0))
      (p := fun u => (t.arena.index.lookup u).isSome) (fun u w hu huw => ?_)
      hv.tank.chains (fun u w hu huw => ?_)
    · obtain ⟨e, he, rfl, hs⟩ := tankLink_eq_some huw
      rcases mem_append.mp he with he | he
      · rw [hv.tank.absent e he] at hu
        cases hu
      · obtain ⟨x, hx, rfl, hl⟩ := hnew he
        obtain ⟨s, hsx, rfl⟩ := Option.map_eq_some_iff.mp hs
        have hsl := hv.arena.index_iff.mpr ⟨hv.arena.live_sponsor hsx, rfl⟩
        rw [hl, hsl]
        exact ⟨rfl, hr x s hsx⟩
    · obtain ⟨e, he, rfl, hs⟩ := tankLink_eq_some huw
      rcases mem_append.mp he with he | he
      · rw [tankLink_of_mem hv.tank.nodup he, hs]
      · obtain ⟨x, hx, -, hl⟩ := hnew he
        rw [hl] at hu
        exact absurd rfl hu

/-! ## 3. The whole removal -/

theorem subtree_of_descendants {idx : NodeIndex} {below : List NodeIndex}
    (hmem : ∀ x, x ∈ below ↔ StrictlyAbove t.arena.parentOf x idx) :
    Subtree t idx (idx :: below) where
  mem := mem_cons_self
  down {j q} hq hqg := by
    refine mem_cons_of_mem _ ((hmem j).mpr ?_)
    rcases mem_cons.mp hqg with rfl | hqb
    · exact .single hq
    · exact .head hq ((hmem q).mp hqb)
  up {j} hj := by
    rcases mem_cons.mp hj with rfl | hjb
    · exact .inl rfl
    · obtain ⟨q, hq, hqi⟩ := Relation.TransGen.head'_iff.mp ((hmem j).mp hjb)
      refine .inr ⟨q, ?_, hq⟩
      rcases Relation.ReflTransGen.cases_tail hqi with rfl | ⟨c, hqc, hc⟩
      · exact mem_cons_self
      · exact mem_cons_of_mem _ ((hmem q).mpr (.tail' hqc hc))

/-- The tree after the recruits of `gone` have been handed over. -/
structure HandedOver (t b : MatrixTree) (gone : List NodeIndex) : Prop where
  arena : Arena.Responsor t.arena b.arena
    (fun j => if j ∈ gone then t.arena.sponsorOf j else t.arena.survivor gone j)
    (fun j => if j ∈ gone then [] else
      t.arena.sponsoredOf j ++ movedTo t.arena.sponsoredOf (t.arena.survivor gone) gone j)
  slots : b.slots = t.slots
  width : b.width = t.width
  spillover : b.spillover = t.spillover

section Removal

variable {t b : MatrixTree} {gone : List NodeIndex} (hb : HandedOver t b gone)
include hb

variable {x : NodeIndex}

theorem HandedOver.live_iff : b.arena.Live x ↔ t.arena.Live x := by
  unfold Arena.Live
  rw [hb.arena.userId]

theorem HandedOver.sponsorOf_gone (hx : x ∈ gone) : b.arena.sponsorOf x = t.arena.sponsorOf x := by
  rw [sponsorOf, hb.arena.nodeAt]
  exact if_pos hx

theorem HandedOver.entryOf (hx : x ∈ gone) : b.entryOf x = t.entryOf x := by
  unfold MatrixTree.entryOf
  rw [hb.sponsorOf_gone hx, hb.arena.nodeAt]
  simp only [hb.arena.userId]

variable (hv : t.Valid)
include hv

theorem HandedOver.clearable (hlive : ∀ x ∈ gone, t.arena.Live x) : Clearable b gone where
  index {u i} := by
    rw [hb.arena.index, hb.arena.userId]
    exact hv.arena.index_iff
  live x hx := hb.live_iff.mpr (hlive x hx)
  sponsor x hx q hq := by
    rw [hb.sponsorOf_gone hx] at hq
    exact hb.live_iff.mpr (hv.arena.live_sponsor hq)
  listed x hx q hq := by
    rw [sponsoredOf, hb.arena.nodeAt] at hq
    by_cases hqg : q ∈ gone
    · simp [hqg] at hq
    · simp only [if_neg hqg, mem_append] at hq
      rcases hq with hq | hq
      · rw [hb.sponsorOf_gone hx]
        exact ⟨hv.arena.recruited.mem_iff.mp hq, hqg⟩
      · obtain ⟨-, -, -, -, hxg⟩ := mem_movedTo.mp hq
        exact absurd hx hxg
  free x hx hf := by
    rw [hb.arena.free] at hf
    exact (hv.arena.free_freed x hf).2 (hlive x hx)

variable {parent : NodeIndex} {t' : MatrixTree} {order : List NodeIndex} {row : MatrixSlots}

/-- Users and sponsors when all removed nodes are cleared. -/
theorem HandedOver.pruned (hpar : t.arena.Live parent) (hlive : ∀ x ∈ gone, t.arena.Live x) (hnd : gone.Nodup)
    (hperm : order.Perm gone) (h : Clearing (b.reslot parent row) t' order order) :
    Arena.Pruned t.arena t'.arena gone := by
  have hmem : ∀ {x}, x ∈ order ↔ x ∈ gone := hperm.mem_iff
  have hlt : parent < b.arena.nodes.length := hb.arena.length ▸ hpar.lt
  have hnode : ∀ x, x ∉ gone → t'.arena.nodeAt x = { t.arena.nodeAt x with
      children := if x = parent then row.reduceOption else b.arena.childrenOf x
      sponsor := t.arena.survivor gone x
      sponsored := (t.arena.sponsoredOf x).filter (· ∉ gone) ++
        movedTo t.arena.sponsoredOf (t.arena.survivor gone) gone x } := by
    intro x hx
    have hmoved : ∀ y ∈ movedTo t.arena.sponsoredOf (t.arena.survivor gone) gone x, y ∉ gone := fun y hy => by
        obtain ⟨-, -, -, -, hyg⟩ := mem_movedTo.mp hy
        exact hyg
    rw [h.node, if_neg (mt hmem.mp hx), sponsoredOf_reslot hlt, nodeAt_reslot hlt,
      sponsoredOf, hb.arena.nodeAt]
    simp only [if_neg hx, filter_append, hmem]
    congr 2
    exact filter_eq_self.mpr fun y hy => decide_eq_true (hmoved y hy)
  have hfreed : ∀ x, x ∈ gone → t'.arena.nodeAt x = Node.freed := fun x hx => by
    rw [h.node, if_pos (hmem.mpr hx)]
  refine { live := hlive, nodup := hnd, userId := fun x => ?_, enrolledAt := fun x hx => ?_,
           sponsorOf := fun x => ?_, sponsoredOf := fun x => ?_, index := fun u => ?_,
           free_sub := fun x hx => ?_, free_nodup := ?_, length := ?_ }
  · by_cases hx : x ∈ gone
    · rw [hfreed x hx, if_pos hx]
      rfl
    · rw [hnode x hx, if_neg hx]
  · rw [hnode x hx]
  · by_cases hx : x ∈ gone
    · rw [sponsorOf, hfreed x hx, if_pos hx]
      rfl
    · rw [sponsorOf, hnode x hx, if_neg hx]
  · by_cases hx : x ∈ gone
    · rw [sponsoredOf, hfreed x hx, if_pos hx]
      rfl
    · rw [sponsoredOf, hnode x hx, if_neg hx]
  · rw [h.index]
    simp only [hmem]
    show (b.arena.index.lookup u).filter _ = _
    rw [hb.arena.index]
  · rw [h.free, mem_append, hmem] at hx
    exact hx.imp_left fun hx => hb.arena.free ▸ hx
  · rw [h.free]
    show (b.arena.freeList ++ order).Nodup
    rw [hb.arena.free, nodup_append]
    refine ⟨hv.arena.free_nodup, hperm.nodup_iff.mpr hnd, fun x hx y hy e => ?_⟩
    exact (hv.arena.free_freed x hx).2 (hlive x (hmem.mp (e ▸ hy)))
  · exact h.length.trans ((length_upd _).trans hb.arena.length)

/-- **What is left when all removed nodes are cleared.** -/
theorem HandedOver.cut {idx : NodeIndex}
    (hr : t.arena.parentOf idx = some parent) (hsub : Subtree t idx gone) (hnd : gone.Nodup)
    (hlive : ∀ x ∈ gone, t.arena.Live x) (hperm : order.Perm gone) (hrow : t.slots.lookup parent = some row)
    (hocc : (row.set (t.positionIn idx) none).reduceOption = (t.arena.childrenOf parent).filter (· ≠ idx))
    (h : Clearing (b.reslot parent (row.set (t.positionIn idx) none)) t' order order) :
    Cut t t' idx parent gone := by
  have hpar := hv.arena.live_parent hr
  have hlt : parent < b.arena.nodes.length := hb.arena.length ▸ hpar.lt
  have hmem : ∀ {x}, x ∈ order ↔ x ∈ gone := hperm.mem_iff
  refine { subtree := hsub, pruned := hb.pruned hv hpar hlive hnd hperm h, parentOf := fun x => ?_,
           childrenOf := fun x => ?_, depth := fun x hx => ?_, lookup := fun x => ?_,
           root := h.root.trans hb.arena.root, width := h.width.trans hb.width,
           spillover := h.spillover.trans hb.spillover }
  · rw [Arena.parentOf, h.node, nodeAt_reslot hlt, hb.arena.nodeAt]
    simp only [hmem]
    split <;> rfl
  · rw [childrenOf, h.node, nodeAt_reslot hlt, childrenOf, hb.arena.nodeAt]
    simp only [hmem]
    by_cases hx : x ∈ gone
    · simp only [if_pos hx]
      rfl
    · simp only [if_neg hx]
      by_cases hxp : x = parent
      · rw [if_pos hxp, hocc, hxp]
      · rw [if_neg hxp]
        refine (filter_eq_self.mpr fun y hy => decide_eq_true ?_).symm
        rintro rfl
        have := hv.arena.placed.mem_iff.mp hy
        rw [hr] at this
        exact hxp (Option.some.inj this).symm
  · rw [h.node, if_neg (mt hmem.mp hx), nodeAt_reslot hlt, hb.arena.nodeAt]
  · rw [h.lookup]
    simp only [hmem]
    show (if x ∈ gone then none else (b.slots.insert parent _).lookup x) = _
    rw [Maps.lookup_insert, hb.slots]
    by_cases hxp : x = parent
    · subst hxp
      simp [hrow]
    · simp [hxp]

end Removal

section Whole

variable {t : MatrixTree} {idx parent : NodeIndex} (hv : t.Valid)
  (hr : t.arena.parentOf idx = some parent)
include hv hr

/-- **The node and its subtree leave the tree**, and their users are appended to the tank, the node's
    own last. -/
theorem removeToHoldingTank_ok : ∃ below t', t.descendants idx = .ok below ∧
      (removeToHoldingTank idx (t.arena.nodeAt idx).userId).run t = .ok
        { removed := (t.arena.nodeAt idx).userId, promoted := none, repositioned := []
          movedToTank := (below ++ [idx]).map fun x => (t.arena.nodeAt x).userId
          relocated := [], responsored := t.arena.responsored (idx :: below) } t' ∧
      Cut t t' idx parent (idx :: below) ∧
      t'.holdingTank = t.holdingTank ++ (below ++ [idx]).map t.entryOf ∧ t'.Valid := by
  have hi := hv.arena.live_of_parent hr
  have hpar := hv.arena.live_parent hr
  obtain ⟨below, hbelow, hnd, hmem⟩ := hv.descendants hi
  have hsub := subtree_of_descendants hmem
  have hgnd : (idx :: below).Nodup := nodup_cons.mpr
    ⟨fun hm => hv.arena.forest.ranked.irrefl idx ((hmem idx).mp hm), hnd⟩
  have hlive : ∀ x ∈ idx :: below, t.arena.Live x := by
    intro x hx
    rcases hsub.up hx with rfl | ⟨q, -, hq⟩
    · exact hi
    · exact hv.arena.live_of_parent hq
  have hpout : parent ∉ idx :: below := by
    intro hm
    rcases mem_cons.mp hm with e | hm
    · exact hv.arena.forest.ranked.ne hr e.symm
    · exact hv.arena.forest.ranked.irrefl parent (((hmem parent).mp hm).tail hr)
  obtain ⟨row, hrow, hpos, hocc, -⟩ := hv.cleared_row hr
  obtain ⟨a1, hrun1, r1⟩ := reparentSponsored_ok hv.arena.sponsorsOk hgnd
    (fun x hx => (hlive x hx).lt) (fun i _ j _ hj => hv.arena.recruited.mem_iff.mpr hj)
  -- the entries are read off after the handover, before anything is cleared
  let b1 : MatrixTree := { t with arena := a1 }
  have hb1 : HandedOver t b1 (idx :: below) := ⟨r1, rfl, rfl, rfl⟩
  have hentry : ∀ x ∈ idx :: below,
      tankEntry ⟨a1, t.width, t.spillover, t.slots, t.holdingTank⟩ x = .ok (t.entryOf x) := fun x hx =>
    hb1.entryOf hx ▸ tankEntry_ok ((hb1.clearable hv hlive).live x hx) ((hb1.clearable hv hlive).sponsor x hx)
  have hentries : below.mapM (tankEntry ⟨a1, t.width, t.spillover, t.slots, t.holdingTank⟩) = .ok (below.map t.entryOf) :=
    mapM_eq_ok fun x hx => hentry x (mem_cons_of_mem _ hx)
  have hself : idx ∈ idx :: below := mem_cons_self
  have hnode : a1.node idx = (.ok (a1.nodeAt idx) : Query TreeError Node) := node_ok (hb1.live_iff.mpr hi)
  let entries := below.map t.entryOf ++ [{ t.entryOf idx with userId := (t.arena.nodeAt idx).userId }]
  have hall : entries = (below ++ [idx]).map t.entryOf := by simp [entries, entryOf]
  let b : MatrixTree := { b1 with holdingTank := t.holdingTank ++ entries }
  have hb : HandedOver t b (idx :: below) := ⟨r1, rfl, rfl, rfl⟩
  have hc := hb.clearable hv hlive
  obtain ⟨s1, hrun2, c1⟩ := @clearDescendants_ok _ _ hc below [] _ (Clearing.start b)
    (fun x hx => mem_cons_of_mem _ hx) hnd
  have hin : ∀ y ∈ [] ++ below, y ∈ idx :: below := fun y hy => mem_cons_of_mem _ hy
  obtain ⟨s2, hrun3, c2⟩ := c1.unlink hin (hc.sponsor idx hself) (hc.listed idx hself)
  have hpd : parent ∉ [] ++ below := fun hm => hpout (mem_cons_of_mem _ hm)
  have hbpar := hb.live_iff.mpr hpar
  have hrow2 : s2.slots.lookup parent = some row := by
    rw [c2.lookup, if_neg hpd]
    exact hrow
  let row' := row.set (t.positionIn idx) none
  have hrun4 : (setSlot parent (t.positionIn idx) none).run s2 = .ok () (s2.insertSlots parent row') :=
    setSlot_ok hrow2 hpos none
  have hrun5 : (rebuildChildren parent).run (s2.insertSlots parent row') = .ok () (s2.reslot parent row') :=
    rebuildChildren_ok (AList.lookup_insert _) (c2.live hbpar hpd)
  have huser : ∀ x, ((b.reslot parent row').arena.nodeAt x).userId = (t.arena.nodeAt x).userId := by
    intro x
    rw [nodeAt_reslot hbpar.lt]
    exact r1.userId x
  obtain ⟨t', hrun6, c3⟩ := (c2.reslot hbpar hpd row').clear (x := idx)
    (fun {u i} => by rw [huser, ← hv.arena.index_iff]; exact iff_of_eq (by rw [← r1.index]; rfl))
    (by show _ ≠ _; rw [huser]; exact hi)
    (fun hm => (nodup_cons.mp hgnd).1 hm) (hc.free idx hself)
  rw [huser] at hrun6
  have hcut := hb.cut hv hr hsub hgnd hlive perm_append_comm hrow hocc c3
  have htank : t'.holdingTank = t.holdingTank ++ (below ++ [idx]).map t.entryOf := by
    rw [c3.tank, ← hall]
    rfl
  refine ⟨below, t', hbelow, ?_, hcut, htank, hcut.valid hv hr ?_⟩
  · have h2 : (clearDescendants (idx :: below) below).run ⟨a1, t.width, t.spillover, t.slots,
        t.holdingTank ++ (below.map t.entryOf ++
          [{ t.entryOf idx with userId := (t.arena.nodeAt idx).userId }])⟩ = .ok () s1 := hrun2
    have h3 : (unlinkSurvivingSponsor (idx :: below) (a1.nodeAt idx).sponsor idx).run s1 = .ok () s2 := hrun3
    have husers : entries.map HoldingTankEntry.userId =
        (below ++ [idx]).map fun x => (t.arena.nodeAt x).userId := by
      rw [hall, map_map]
      rfl
    simp only [removeToHoldingTank, run_bind, run_reads, hv.parentOf_ok hr,
      hv.findSlotPosition hr, removalSet, bind_ok hbelow, onArena, run_zoom, hrun1,
      drop_succ_cons, drop_zero, hentries, hnode, hentry idx hself, run_modify, h2, h3,
      hrun4, hrun5, hrun6, run_pure, ← husers]
    rfl
  · rw [htank]
    exact TankOk.append hv hcut.pruned (fun x hx => by simpa [or_comm] using hx)
      (perm_append_comm.nodup_iff.mpr hgnd)

end Whole

end MatrixTree

end MlmForge.Engine
