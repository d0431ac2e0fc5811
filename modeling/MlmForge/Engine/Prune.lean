/-
  Subject:   Nodes taken out of the arena: where their recruits go, and that a valid arena stays
             valid.

  * **`Pruned.valid`** -- with a placement that is still a forest, the arena is valid.
-/
import MlmForge.Engine.Valid

namespace MlmForge.Engine

open Query Call List Option Arena

namespace Arena

/-- The nearest sponsor of a node outside `gone`. A chain is shorter than the node list. -/
def survivor (a : Arena) (gone : List NodeIndex) : NodeIndex → Option NodeIndex :=
  nearest a.sponsorOf (· ∈ gone) (a.nodes.length + 1)

/-- The recruits of a node that stay when `gone` go. -/
def recruitsLeft (a : Arena) (gone : List NodeIndex) (i : NodeIndex) : List NodeIndex :=
  (a.sponsoredOf i).filter (· ∉ gone)

/-- Where the recruits of a removed node go; nobody asks when it leaves none. -/
def heir (a : Arena) (gone : List NodeIndex) (i : NodeIndex) : Option NodeIndex :=
  if a.recruitsLeft gone i = [] then none else a.survivor gone i

/-- What `reparentSponsored` needs of the sponsor links; a list may lack what links to it. -/
structure SponsorsOk (a : Arena) : Prop where
  ranked : Ranked a.sponsorOf
  sponsor_lt : ∀ {i s}, a.sponsorOf i = some s → s < a.nodes.length
  sponsored : ∀ {i s}, s ∈ a.sponsoredOf i → a.sponsorOf s = some i ∧ s < a.nodes.length

variable {a : Arena}

theorem Valid.sponsorsOk (h : a.Valid) : a.SponsorsOk where
  ranked := h.chains
  sponsor_lt hs := (h.live_sponsor hs).lt
  sponsored hs := by
    have := h.recruited.mem_iff.mp hs
    exact ⟨this, (h.live_of_sponsor this).lt⟩

/-! ## 1. The nearest survivor -/

section Survivor

variable {a : Arena} {gone : List NodeIndex} (h : a.SponsorsOk)
include h

variable {i : NodeIndex}

theorem SponsorsOk.climb (hi : i < a.nodes.length) : climb a.sponsorOf a.nodes.length i = none := by
  refine h.ranked.climb_none _ (Finset.range a.nodes.length) i (by rw [Finset.card_range])
    fun j hj => Finset.mem_range.mpr ?_
  rcases Relation.ReflTransGen.cases_tail hj with rfl | ⟨k, _, hk⟩
  · exact hi
  · exact h.sponsor_lt hk

theorem SponsorsOk.contracts : Contracts a.sponsorOf (· ∈ gone) (a.survivor gone) := by
  refine nearest_contracts fun i => ?_
  by_cases hi : i < a.nodes.length
  · exact climb_none_succ (h.climb hi)
  · show (a.sponsorOf i).bind _ = none
    simp [sponsorOf, nodeAt_of_le (Nat.le_of_not_lt hi), Node.freed]

theorem SponsorsOk.sponsorWalk {cycle : TreeError} : ∀ {bound : Nat} {i : NodeIndex},
    MlmForge.climb a.sponsorOf bound i = none → a.sponsorWalk gone cycle bound (a.sponsorOf i) =
      .ok (nearest a.sponsorOf (· ∈ gone) bound i) := by
  intro bound
  induction bound with
  | zero => intro i hi; cases hi
  | succ bound ih =>
    intro i hi
    cases hs : a.sponsorOf i with
    | none => simp [Arena.sponsorWalk, nearest, hs]
    | some s =>
      rw [climb_succ_some hs] at hi
      by_cases hg : s ∈ gone
      · simp [Arena.sponsorWalk, nearest, hs, hg, bind_ok (slot_ok (h.sponsor_lt hs)), ih hi]
      · simp [Arena.sponsorWalk, nearest, hs, hg]

theorem SponsorsOk.survivingSponsor (hi : i < a.nodes.length) :
    a.survivingSponsor i gone = .ok (a.survivor gone i) := by
  unfold Arena.survivingSponsor survivor
  rw [bind_ok (slot_ok hi), nearest_succ (h.climb hi)]
  exact h.sponsorWalk (h.climb hi)

theorem SponsorsOk.survivor_lt {t : NodeIndex} (ht : a.survivor gone i = some t) : t < a.nodes.length := by
  have hab := (h.contracts).above ht
  rcases Relation.TransGen.tail'_iff.mp hab with ⟨k, _, hk⟩
  exact h.sponsor_lt hk

end Survivor

/-! ## 2. Moving recruits -/

/-- `a'` is `a` with sponsor links rewritten. -/
structure Responsor (a a' : Arena) (sponsor : NodeIndex → Option NodeIndex)
    (sponsored : NodeIndex → List NodeIndex) : Prop where
  nodeAt : ∀ j, a'.nodeAt j = { a.nodeAt j with sponsor := sponsor j, sponsored := sponsored j }
  index : a'.index = a.index
  root : a'.root = a.root
  free : a'.freeList = a.freeList
  length : a'.nodes.length = a.nodes.length

section Handover

variable {a : Arena}

theorem Responsor.userId {a' : Arena} {sp : NodeIndex → Option NodeIndex}
    {rc : NodeIndex → List NodeIndex} (r : Responsor a a' sp rc) (j : NodeIndex) :
    (a'.nodeAt j).userId = (a.nodeAt j).userId := by
  rw [r.nodeAt]

theorem Responsor.trans {a1 a2 : Arena} {sp1 sp2 : NodeIndex → Option NodeIndex}
    {rc1 rc2 : NodeIndex → List NodeIndex} (r1 : Responsor a a1 sp1 rc1)
    (r2 : Responsor a1 a2 sp2 rc2) : Responsor a a2 sp2 rc2 where
  nodeAt j := by rw [r2.nodeAt, r1.nodeAt]
  index := r2.index.trans r1.index
  root := r2.root.trans r1.root
  free := r2.free.trans r1.free
  length := r2.length.trans r1.length

/-- What is reported of one handover. -/
def moves (a : Arena) (target : Option NodeIndex) (survivors : List NodeIndex) :
    List Responsored :=
  match target with
  | none => []
  | some t => survivors.map fun s => ⟨(a.nodeAt s).userId, (a.nodeAt t).userId⟩

variable {target : Option NodeIndex}

theorem handOver_ok {s : NodeIndex} (hs : s < a.nodes.length)
    (ht : ∀ t, target = some t → t < a.nodes.length) :
    ∃ a', (handOver target s).run a = .ok (a.moves target [s]) a' ∧
      Responsor a a' (fun j => if j = s then target else a.sponsorOf j)
        (fun j => if target = some j then a.sponsoredOf j ++ [s] else a.sponsoredOf j) := by
  cases target with
  | none =>
    refine ⟨a.upd s fun n => { n with sponsor := none }, ?_, ?_⟩
    · simp [handOver, slotMut_ok hs, moves]
    · refine ⟨fun j => ?_, rfl, rfl, rfl, length_upd _⟩
      rw [nodeAt_upd hs]
      split_ifs <;> simp_all
  | some t =>
    let a1 := a.upd s fun n => { n with sponsor := some t }
    have hs1 : s < a1.nodes.length := by rw [length_upd]; exact hs
    have ht1 : t < a1.nodes.length := by rw [length_upd]; exact ht t rfl
    let a2 := a1.upd t fun n => { n with sponsored := n.sponsored ++ [s] }
    have hs2 : s < a2.nodes.length := by rw [length_upd]; exact hs1
    have ht2 : t < a2.nodes.length := by rw [length_upd]; exact ht1
    have hnode : ∀ j, a2.nodeAt j = { a.nodeAt j with
        sponsor := if j = s then some t else a.sponsorOf j
        sponsored := if some t = some j then a.sponsoredOf j ++ [s] else a.sponsoredOf j } := by
      intro j
      rw [nodeAt_upd ht1, nodeAt_upd hs]
      simp only [Option.some.injEq, @eq_comm _ t j]
      split_ifs <;> rfl
    refine ⟨a2, ?_, ⟨hnode, rfl, rfl, rfl, by rw [length_upd, length_upd]⟩⟩
    have e : (slotMut t fun n => { n with sponsored := n.sponsored ++ [s] } :
        Call TreeError Arena Unit).run a1 = .ok () a2 := slotMut_ok ht1 _
    have e1 : (slotMut s fun n => { n with sponsor := some t } :
        Call TreeError Arena Unit).run a = .ok () a1 := slotMut_ok hs _
    simp [handOver, e1, e, slot_ok hs2, slot_ok ht2, moves, hnode]

theorem handOverAll_ok : ∀ {survivors : List NodeIndex} {a : Arena}, (∀ s ∈ survivors, s < a.nodes.length) →
      (∀ t, target = some t → t < a.nodes.length) →
      ∃ a', (handOverAll target survivors).run a = .ok (a.moves target survivors) a' ∧
        Responsor a a' (fun j => if j ∈ survivors then target else a.sponsorOf j)
          (fun j => if target = some j then a.sponsoredOf j ++ survivors else a.sponsoredOf j) := by
  intro survivors
  induction survivors with
  | nil =>
    intro a _ _
    refine ⟨a, ?_, ⟨fun j => ?_, rfl, rfl, rfl, rfl⟩⟩
    · cases target <;> simp [handOverAll, moves]
    · simp
  | cons s survivors ih =>
    intro a hs ht
    obtain ⟨a1, h1, r1⟩ := handOver_ok (hs s mem_cons_self) ht
    obtain ⟨a2, h2, r2⟩ := ih (fun x hx => by rw [r1.length]; exact hs x (mem_cons_of_mem _ hx))
      (fun t e => by rw [r1.length]; exact ht t e)
    refine ⟨a2, ?_, ?_⟩
    · have e : a1.moves target survivors = a.moves target survivors := by
        cases target <;> simp [moves, r1.userId]
      simp only [handOverAll, run_bind, h1, h2, run_pure, e]
      cases target <;> simp [moves]
    · refine ⟨fun j => ?_, r2.index.trans r1.index, r2.root.trans r1.root,
        r2.free.trans r1.free, r2.length.trans r1.length⟩
      rw [r2.nodeAt, sponsorOf, sponsoredOf, r1.nodeAt]
      simp only [mem_cons]
      split_ifs <;> simp_all

/-- The sponsors after a plan is applied. -/
def sponsorsAfter (plan : List Handover) (sp : NodeIndex → Option NodeIndex) :
    NodeIndex → Option NodeIndex :=
  plan.foldl (fun sp h j => if j ∈ h.survivors then h.target else sp j) sp

/-- The recruits after a plan is applied: a removed node is cleared once it has handed over. -/
def sponsoredAfter (plan : List Handover) (rc : NodeIndex → List NodeIndex) :
    NodeIndex → List NodeIndex :=
  plan.foldl (fun rc h j => if j = h.idx then [] else
    if h.target = some j then rc j ++ h.survivors else rc j) rc

theorem applyHandovers_ok : ∀ {plan : List Handover} {a : Arena},
    (∀ h ∈ plan, h.idx < a.nodes.length ∧ (∀ s ∈ h.survivors, s < a.nodes.length) ∧
      ∀ t, h.target = some t → t < a.nodes.length) → ∃ a', (applyHandovers plan).run a =
        .ok (plan.flatMap fun h => a.moves h.target h.survivors) a' ∧
      Responsor a a' (sponsorsAfter plan a.sponsorOf) (sponsoredAfter plan a.sponsoredOf) := by
  intro plan
  induction plan with
  | nil => exact fun {a} _ => ⟨a, rfl, ⟨fun j => rfl, rfl, rfl, rfl, rfl⟩⟩
  | cons h plan ih =>
    intro a hlt
    obtain ⟨hi, hs, ht⟩ := hlt h mem_cons_self
    obtain ⟨a1, h1, r1⟩ := handOverAll_ok hs ht
    have hi1 : h.idx < a1.nodes.length := by rw [r1.length]; exact hi
    let a2 := a1.upd h.idx fun n => { n with sponsored := [] }
    have r2 : Responsor a a2 (fun j => if j ∈ h.survivors then h.target else a.sponsorOf j)
        (fun j => if j = h.idx then [] else
          if h.target = some j then a.sponsoredOf j ++ h.survivors else a.sponsoredOf j) := by
      refine ⟨fun j => ?_, r1.index, r1.root, r1.free, (length_upd _).trans r1.length⟩
      rw [nodeAt_upd hi1, r1.nodeAt]
      split_ifs <;> rfl
    obtain ⟨a3, h3, r3⟩ := ih (a := a2) fun h' hh' => by
      rw [r2.length]
      exact hlt h' (mem_cons_of_mem _ hh')
    refine ⟨a3, ?_, ?_⟩
    · have e : (plan.flatMap fun h => a2.moves h.target h.survivors) =
          plan.flatMap fun h => a.moves h.target h.survivors := by
        congr 1
        funext h
        cases h.target <;> simp [moves, r2.userId]
      have e2 : (slotMut h.idx fun n => { n with sponsored := [] } :
          Call TreeError Arena Unit).run a1 = .ok () a2 := slotMut_ok hi1 _
      simp only [applyHandovers, run_bind, h1, e2, h3, run_pure, e, flatMap_cons]
    · have hsp : a2.sponsorOf = fun j => if j ∈ h.survivors then h.target else a.sponsorOf j :=
        funext fun j => by simp only [sponsorOf, r2.nodeAt]
      have hrc : a2.sponsoredOf = fun j => if j = h.idx then [] else
          if h.target = some j then a.sponsoredOf j ++ h.survivors else a.sponsoredOf j :=
        funext fun j => by simp only [sponsoredOf, r2.nodeAt]
      have r := r2.trans r3
      rw [hsp, hrc] at r
      exact r

end Handover

/-! ## 3. The recruits of removed nodes -/

section Reparent

variable {a : Arena} {gone : List NodeIndex}

/-- The plan, as the check has made sure it exists. -/
def handover (a : Arena) (gone : List NodeIndex) (i : NodeIndex) : Handover :=
  ⟨i, a.recruitsLeft gone i, a.heir gone i⟩

/-- Whom a removal of `gone` moves, in the order it moves them. -/
def responsored (a : Arena) (gone : List NodeIndex) : List Responsored :=
  gone.flatMap fun i => a.moves (a.heir gone i) (a.recruitsLeft gone i)

variable {i : NodeIndex}

theorem mem_recruitsLeft {s : NodeIndex} : s ∈ a.recruitsLeft gone i ↔ s ∈ a.sponsoredOf i ∧ s ∉ gone := by
  simp [recruitsLeft]

theorem survivingRecruits_ok {ε : Type} (hi : i < a.nodes.length) :
    (a.survivingRecruits i gone : Query ε _) = .ok (a.recruitsLeft gone i) := by
  unfold survivingRecruits
  rw [bind_ok (slot_ok hi)]
  rfl

theorem SponsorsOk.planHandover (h : a.SponsorsOk) (hi : i < a.nodes.length) :
    a.planHandover gone i = .ok (a.handover gone i) := by
  unfold Arena.planHandover handover heir
  rw [bind_ok (survivingRecruits_ok hi)]
  split
  · rfl
  · rw [h.survivingSponsor hi]

theorem heir_eq_some {t : NodeIndex} (h : a.heir gone i = some t) : a.survivor gone i = some t := by
  unfold heir at h
  split at h
  · cases h
  · exact h

variable {j : NodeIndex}

theorem SponsorsOk.heir_of_mem (h : a.SponsorsOk) (hi : i ∈ gone)
    (hj : j ∈ a.recruitsLeft gone i) : a.heir gone i = a.survivor gone j := by
  have hne : a.recruitsLeft gone i ≠ [] := ne_nil_of_mem hj
  rw [heir, if_neg hne]
  exact ((h.contracts).skip (h.sponsored (mem_recruitsLeft.mp hj).1).1 hi).symm

theorem SponsorsOk.sponsorsAfter (h : a.SponsorsOk) :
    ∀ {l : List NodeIndex} {sp : NodeIndex → Option NodeIndex}, (∀ i ∈ l, i ∈ gone) →
      sponsorsAfter (l.map (a.handover gone)) sp j =
        if ∃ i ∈ l, j ∈ a.recruitsLeft gone i then a.survivor gone j else sp j := by
  intro l
  induction l with
  | nil => intro sp _; simp [Arena.sponsorsAfter]
  | cons i l ih =>
    intro sp hl
    show Arena.sponsorsAfter (l.map _) _ j = _
    rw [ih fun x hx => hl x (mem_cons_of_mem _ hx)]
    by_cases hlater : ∃ i ∈ l, j ∈ a.recruitsLeft gone i
    · rw [if_pos hlater, if_pos]
      obtain ⟨x, hx, hjx⟩ := hlater
      exact ⟨x, mem_cons_of_mem _ hx, hjx⟩
    · rw [if_neg hlater]
      by_cases hi : j ∈ a.recruitsLeft gone i
      · rw [if_pos ⟨i, mem_cons_self, hi⟩]
        exact (if_pos hi).trans (h.heir_of_mem (hl i mem_cons_self) hi)
      · have hno : ¬ ∃ x ∈ i :: l, j ∈ a.recruitsLeft gone x := by
          rintro ⟨x, hx, hjx⟩
          rcases mem_cons.mp hx with rfl | hx
          · exact hi hjx
          · exact hlater ⟨x, hx, hjx⟩
        rw [if_neg hno]
        exact if_neg hi

theorem SponsorsOk.sponsoredAfter (h : a.SponsorsOk) :
    ∀ {l : List NodeIndex} {rc : NodeIndex → List NodeIndex}, (∀ i ∈ l, i ∈ gone) →
      sponsoredAfter (l.map (a.handover gone)) rc j = if j ∈ l then [] else
        rc j ++ l.flatMap fun i => if a.survivor gone i = some j then a.recruitsLeft gone i else []
    := by
  intro l
  induction l with
  | nil => intro rc _; simp [Arena.sponsoredAfter]
  | cons i l ih =>
    intro rc hl
    show Arena.sponsoredAfter (l.map _) _ j = _
    rw [ih fun x hx => hl x (mem_cons_of_mem _ hx)]
    by_cases hjl : j ∈ l
    · simp [hjl]
    · rw [if_neg hjl]
      by_cases hji : j = i
      · -- nothing is handed to a removed node, so what was cleared stays cleared
        subst hji
        have hnone : ∀ x ∈ l, (if a.survivor gone x = some j then a.recruitsLeft gone x else []) =
            [] := fun x _ =>
          if_neg fun e => (h.contracts).survives e (hl j mem_cons_self)
        rw [if_pos mem_cons_self, flatMap_eq_nil_iff.mpr hnone, append_nil]
        exact if_pos rfl
      · rw [if_neg (by simp [hji, hjl])]
        have hstep : (if (a.handover gone i).target = some j then
            rc j ++ (a.handover gone i).survivors else rc j) =
            rc j ++ if a.survivor gone i = some j then a.recruitsLeft gone i else [] := by
          show (if a.heir gone i = some j then rc j ++ a.recruitsLeft gone i else rc j) = _
          unfold heir
          by_cases he : a.recruitsLeft gone i = []
          · simp [he]
          · simp only [he, if_false]
            split <;> simp
        show (if j = i then [] else _) ++ _ = _
        rw [if_neg hji, flatMap_cons, ← append_assoc, ← hstep]

/-- **Reparenting moves each surviving recruit of a removed node to its nearest survivor, and moves
    nothing else.** -/
theorem reparentSponsored_ok (h : a.SponsorsOk) (hnd : gone.Nodup) (hlt : ∀ i ∈ gone, i < a.nodes.length)
    (hfull : ∀ i ∈ gone, ∀ j, j ∉ gone → a.sponsorOf j = some i → j ∈ a.sponsoredOf i) :
    ∃ a', (reparentSponsored gone).run a = .ok (a.responsored gone) a' ∧
      Responsor a a' (fun j => if j ∈ gone then a.sponsorOf j else a.survivor gone j)
        (fun j => if j ∈ gone then [] else
          a.sponsoredOf j ++ movedTo a.sponsoredOf (a.survivor gone) gone j) := by
  have hplan : (firstSeen [] gone).mapM (a.planHandover gone) = .ok (gone.map (a.handover gone)) := by
    rw [firstSeen_eq_self hnd fun _ _ => not_mem_nil]
    exact mapM_eq_ok fun i hi => h.planHandover (hlt i hi)
  obtain ⟨a', hrun, r⟩ := @applyHandovers_ok (gone.map (a.handover gone)) a fun hd hhd => by
      obtain ⟨i, hi, rfl⟩ := mem_map.mp hhd
      refine ⟨hlt i hi, fun s hs => (h.sponsored (mem_recruitsLeft.mp hs).1).2, fun t ht => ?_⟩
      exact h.survivor_lt (heir_eq_some ht)
  refine ⟨a', ?_, ?_⟩
  · simp only [reparentSponsored, run_bind, run_reads, hplan, hrun, responsored, flatMap_map]
    rfl
  · have hsp : sponsorsAfter (gone.map (a.handover gone)) a.sponsorOf =
        fun j => if j ∈ gone then a.sponsorOf j else a.survivor gone j := by
      funext j
      rw [h.sponsorsAfter fun _ hi => hi]
      by_cases hj : j ∈ gone
      · rw [if_pos hj, if_neg]
        exact fun ⟨i, _, hi⟩ => (mem_recruitsLeft.mp hi).2 hj
      · rw [if_neg hj]
        split
        · rfl
        · rename_i hnot
          cases hs : a.sponsorOf j with
          | none => exact ((h.contracts).none hs).symm
          | some b =>
            refine ((h.contracts).stop hs fun hb => hnot ⟨b, hb, ?_⟩).symm
            exact mem_recruitsLeft.mpr ⟨hfull b hb j hj hs, hj⟩
    have hrc : sponsoredAfter (gone.map (a.handover gone)) a.sponsoredOf =
        fun j => if j ∈ gone then [] else
          a.sponsoredOf j ++ movedTo a.sponsoredOf (a.survivor gone) gone j :=
      funext fun j => h.sponsoredAfter fun _ hi => hi
    rw [hsp, hrc] at r
    exact r

variable {gone' : List NodeIndex}

theorem sponsorWalk_congr (hm : ∀ i, i ∈ gone ↔ i ∈ gone')
    {cycle : TreeError} : ∀ (bound : Nat) (i : Option NodeIndex),
    a.sponsorWalk gone cycle bound i = a.sponsorWalk gone' cycle bound i := by
  intro bound
  induction bound with
  | zero => exact fun _ => rfl
  | succ bound ih =>
    intro i
    cases i with
    | none => rfl
    | some c => simp only [sponsorWalk, hm, ih]

theorem planHandover_congr (hm : ∀ i, i ∈ gone ↔ i ∈ gone')
    (i : NodeIndex) : a.planHandover gone i = a.planHandover gone' i := by
  simp only [planHandover, survivingRecruits, survivingSponsor, hm, sponsorWalk_congr hm]

theorem reparentSponsored_firstSeen (gone : List NodeIndex) :
    reparentSponsored gone = reparentSponsored (firstSeen [] gone) := by
  have hm : ∀ i, i ∈ gone ↔ i ∈ firstSeen [] gone := fun i => by simp [mem_firstSeen]
  have hplan : ∀ a : Arena, a.planHandover gone = a.planHandover (firstSeen [] gone) :=
    fun a => funext (planHandover_congr hm)
  have hseen : firstSeen [] (firstSeen [] gone) = firstSeen [] gone :=
    firstSeen_eq_self (nodup_firstSeen [] gone) fun _ _ => not_mem_nil
  simp only [reparentSponsored, hseen, hplan]

end Reparent

/-! ## 4. What a removal does to users and sponsors -/

/-- `a'` is `a` without the users of `gone`, whose recruits are with their nearest survivors. -/
structure Pruned (a a' : Arena) (gone : List NodeIndex) : Prop where
  live : ∀ i ∈ gone, a.Live i
  nodup : gone.Nodup
  userId : ∀ j, (a'.nodeAt j).userId = if j ∈ gone then Uuid.nil else (a.nodeAt j).userId
  enrolledAt : ∀ j, j ∉ gone → (a'.nodeAt j).enrolledAt = (a.nodeAt j).enrolledAt
  sponsorOf : ∀ j, a'.sponsorOf j = if j ∈ gone then none else a.survivor gone j
  sponsoredOf : ∀ j, a'.sponsoredOf j = if j ∈ gone then [] else
    (a.sponsoredOf j).filter (· ∉ gone) ++ movedTo a.sponsoredOf (a.survivor gone) gone j
  index : ∀ u, a'.index.lookup u = (a.index.lookup u).filter (· ∉ gone)
  free_sub : ∀ i ∈ a'.freeList, i ∈ a.freeList ∨ i ∈ gone
  free_nodup : a'.freeList.Nodup
  length : a'.nodes.length = a.nodes.length

section Valid

variable {a a' : Arena} {gone : List NodeIndex}

theorem Pruned.live_iff (p : Pruned a a' gone) {j : NodeIndex} : a'.Live j ↔ j ∉ gone ∧ a.Live j := by
  unfold Live
  rw [p.userId]
  split <;> simp [*]

/-- **A valid arena stays valid when nodes are taken out**, if what is left of the placement is in
    order. -/
theorem Pruned.valid (p : Pruned a a' gone) (h : a.Valid) (placed : Linked a'.childrenOf a'.parentOf)
    (cleared : ∀ {j}, ¬ a'.Live j → a'.parentOf j = none ∧ a'.childrenOf j = [])
    (depth_top : ∀ {j}, a'.Live j → a'.parentOf j = none → (a'.nodeAt j).depth = 0)
    (depth_below : ∀ {i q}, a'.parentOf i = some q → (a'.nodeAt i).depth = (a'.nodeAt q).depth + 1)
    (root : ∀ {r}, a'.root = some r → a.root = some r ∧ r ∉ gone)
    (top_root : ∀ {i}, a'.Live i → a'.parentOf i = none → a'.root = some i) : a'.Valid where
  index_iff {u i} := by
    rw [p.index, filter_eq_some_iff, h.index_iff, p.userId, decide_eq_true_eq]
    by_cases hi : i ∈ gone
    · simp only [hi, if_true, not_true, and_false, false_iff, not_and]
      exact fun hu e => hu e.symm
    · simp [hi]
  cleared {j} hj := by
    obtain ⟨h1, h2⟩ := cleared hj
    rw [p.live_iff, not_and] at hj
    rw [p.sponsorOf, p.sponsoredOf]
    by_cases hg : j ∈ gone
    · simp only [hg, if_true]
      exact ⟨h1, trivial, h2, trivial⟩
    · obtain ⟨-, hs, -, hr⟩ := h.cleared (hj hg)
      simp only [hg, if_false]
      refine ⟨h1, h.sponsorsOk.contracts.none hs, h2, ?_⟩
      rw [hr, filter_nil, nil_append]
      refine flatMap_eq_nil_iff.mpr fun i _ => if_neg fun e => ?_
      obtain ⟨k, _, hk⟩ := Relation.TransGen.tail'_iff.mp (h.sponsorsOk.contracts.above e)
      exact hj hg (h.live_sponsor hk)
  placed := placed
  recruited := h.recruited.contract h.sponsorsOk.contracts p.nodup p.sponsorOf p.sponsoredOf
  depth_top := depth_top
  depth_below := depth_below
  free_freed i hi := by
    rw [p.live_iff, p.length]
    rcases p.free_sub i hi with hi | hi
    · obtain ⟨hlt, hd⟩ := h.free_freed i hi
      exact ⟨hlt, fun hl => hd hl.2⟩
    · exact ⟨(p.live i hi).lt, fun hl => hl.1 hi⟩
  free_nodup := p.free_nodup
  root_live {r} hr := by
    obtain ⟨hra, hrg⟩ := root hr
    obtain ⟨hl, hs⟩ := h.root_live hra
    refine ⟨p.live_iff.mpr ⟨hrg, hl⟩, ?_⟩
    rw [p.sponsorOf, if_neg hrg]
    exact h.sponsorsOk.contracts.none hs
  top_root := top_root
  chains := h.chains.contract h.sponsorsOk.contracts p.sponsorOf

end Valid

/-! ## 5. Checks and writes of a removal -/

/-- What a tree that only removes leaves refuses. -/
def checkRemoveLeaf (a : Arena) (userId : Uuid) : Query TreeError Unit := do
  let idx ← a.resolve userId
  let n ← a.node idx
  stopIf (0 < n.children.length) (.err (.hasChildren userId n.children.length))
  a.checkSponsoredRemovable [idx]

/-- Takes a node off its sponsor's list of recruits. -/
def unlinkSponsor {ε : Type} (idx : NodeIndex) : Call ε Arena Unit := do
  let n ← reads fun a => a.node idx
  match n.sponsor with
  | none => pure ()
  | some sponsorIdx =>
    nodeMut sponsorIdx fun s => { s with sponsored := s.sponsored.filter (· ≠ idx) }

/-- `self.arena.index.remove(&user_id)` -/
def indexRemove (a : Arena) (u : Uuid) : Arena := { a with index := a.index.erase u }

/-- The arena with a slot cleared and on the free list. -/
def buried (a : Arena) (idx : NodeIndex) : Arena :=
  { a.upd idx fun _ => Node.freed with freeList := a.freeList ++ [idx] }

/-- `m` is `a` with another placement. -/
structure Repositioned (a m : Arena) : Prop where
  userId : ∀ j, (m.nodeAt j).userId = (a.nodeAt j).userId
  sponsorOf : ∀ j, m.sponsorOf j = a.sponsorOf j
  sponsoredOf : ∀ j, m.sponsoredOf j = a.sponsoredOf j
  enrolledAt : ∀ j, (m.nodeAt j).enrolledAt = (a.nodeAt j).enrolledAt
  index : m.index = a.index
  free : m.freeList = a.freeList
  length : m.nodes.length = a.nodes.length

theorem Repositioned.trans {b c : Arena} (h : Repositioned a b) (h' : Repositioned b c) :
    Repositioned a c where
  userId j := (h'.userId j).trans (h.userId j)
  sponsorOf j := (h'.sponsorOf j).trans (h.sponsorOf j)
  sponsoredOf j := (h'.sponsoredOf j).trans (h.sponsoredOf j)
  enrolledAt j := (h'.enrolledAt j).trans (h.enrolledAt j)
  index := h'.index.trans h.index
  free := h'.free.trans h.free
  length := h'.length.trans h.length

theorem Repositioned.live_iff {m : Arena} (h : Repositioned a m) {j : NodeIndex} : m.Live j ↔ a.Live j := by
  unfold Live
  rw [h.userId]

theorem repositioned_upd {i : NodeIndex} (hi : i < a.nodes.length) {f : Node → Node}
    (hf : ∀ n, (f n).userId = n.userId ∧ (f n).sponsor = n.sponsor ∧
      (f n).sponsored = n.sponsored ∧ (f n).enrolledAt = n.enrolledAt) : Repositioned a (a.upd i f) := by
  have hnode : ∀ j, (a.upd i f).nodeAt j = a.nodeAt j ∨ (a.upd i f).nodeAt j = f (a.nodeAt j) := by
    intro j
    rw [nodeAt_upd hi]
    split
    · exact .inr rfl
    · exact .inl rfl
  refine { userId := fun j => ?_, sponsorOf := fun j => ?_, sponsoredOf := fun j => ?_,
           enrolledAt := fun j => ?_, index := rfl, free := rfl, length := length_upd _ } <;>
    rcases hnode j with e | e <;>
    simp only [sponsorOf, sponsoredOf, e, hf]

section Checks

variable {a : Arena} {gone : List NodeIndex}

/-- The check returns exactly when every removed node with recruits that stay has a survivor to give
    them to. A survivor is never one of those recruits: it is above them. -/
theorem Valid.checkRecruitsMovable (h : a.Valid) {i : NodeIndex} (hi : i < a.nodes.length) :
    a.checkRecruitsMovable gone i = if a.recruitsLeft gone i ≠ [] ∧ a.survivor gone i = none then
        .error (.err (.sponsorlessWithRecruits (a.nodeAt i).userId (a.recruitsLeft gone i).length))
      else .ok () := by
  unfold Arena.checkRecruitsMovable
  rw [bind_ok (survivingRecruits_ok hi)]
  by_cases he : a.recruitsLeft gone i = []
  · simp [he]
  · rw [if_neg he, bind_ok (slot_ok hi), bind_ok (h.sponsorsOk.survivingSponsor hi)]
    cases hs : a.survivor gone i with
    | none => simp [he]
    | some t =>
      have hnot : t ∉ a.recruitsLeft gone i := fun hmem =>
        h.chains.irrefl t (.head (h.recruited.mem_iff.mp (mem_recruitsLeft.mp hmem).1)
          (h.sponsorsOk.contracts.above hs))
      simp [stopIf, hnot]

theorem Valid.checkSponsoredRemovable_safe (h : a.Valid) (hlt : ∀ i ∈ gone, i < a.nodes.length) :
    Query.Safe (a.checkSponsoredRemovable gone) := by
  refine safe_forM fun i hi => ?_
  rw [h.checkRecruitsMovable (hlt i hi)]
  split
  · exact safe_err _
  · exact safe_ok _

theorem Valid.checkSponsoredRemovable_eq_ok (h : a.Valid) (hlt : ∀ i ∈ gone, i < a.nodes.length) :
    a.checkSponsoredRemovable gone = .ok () ↔
      ∀ i ∈ gone, a.recruitsLeft gone i ≠ [] → a.survivor gone i ≠ none := by
  unfold checkSponsoredRemovable
  rw [forM_eq_ok]
  refine forall_congr' fun i => forall_congr' fun hi => ?_
  rw [h.checkRecruitsMovable (hlt i hi)]
  split <;> simp_all

theorem Valid.checkRemoveLeaf_safe (h : a.Valid) (u : Uuid) : Query.Safe (a.checkRemoveLeaf u) := by
  refine (resolve_safe u).bind fun i hi => ?_
  have hl := h.live_of_lookup (resolve_eq_ok.mp hi)
  rw [bind_ok (node_ok hl)]
  refine (safe_stopIf _).bind fun _ _ => h.checkSponsoredRemovable_safe fun j hj => ?_
  rw [mem_singleton.mp hj]
  exact hl.lt

theorem Valid.checkRemoveLeaf_eq_ok (h : a.Valid) {u : Uuid} (hc : a.checkRemoveLeaf u = .ok ()) :
    ∃ i, a.index.lookup u = some i ∧ a.childrenOf i = [] ∧ a.checkSponsoredRemovable [i] = .ok () := by
  obtain ⟨i, hi, hc⟩ := bind_eq_ok.mp hc
  have hi := resolve_eq_ok.mp hi
  rw [bind_ok (node_ok (h.live_of_lookup hi)), seq_eq_ok, stopIf_eq_ok,
    Nat.not_lt, Nat.le_zero, length_eq_zero_iff] at hc
  exact ⟨i, hi, hc⟩

end Checks

section Writes

variable {a : Arena} {idx : NodeIndex} {ε : Type}

theorem nodeAt_buried (hi : idx < a.nodes.length) (j : NodeIndex) :
    (a.buried idx).nodeAt j = if j = idx then Node.freed else a.nodeAt j :=
  nodeAt_upd hi _ j

theorem tombstone_ok (hi : idx < a.nodes.length) (hf : idx ∉ a.freeList) :
    (tombstone idx : Call ε Arena Unit).run a = .ok () (a.buried idx) := by
  simp [tombstone, stopIf, hf, slotMut_ok hi, buried]

theorem unlinkSponsor_ok (hi : a.Live idx) (hs : ∀ s, a.sponsorOf idx = some s → a.Live s)
    (hm : ∀ j, idx ∈ a.sponsoredOf j → a.sponsorOf idx = some j) :
    ∃ a', (unlinkSponsor idx : Call ε Arena Unit).run a = .ok () a' ∧
      Responsor a a' a.sponsorOf fun j => (a.sponsoredOf j).filter (· ≠ idx) := by
  have hkeep : ∀ j, a.sponsorOf idx ≠ some j → (a.sponsoredOf j).filter (· ≠ idx) = a.sponsoredOf j := by
    intro j hj
    refine filter_eq_self.mpr fun x hx => decide_eq_true ?_
    rintro rfl
    exact hj (hm j hx)
  cases hsp : a.sponsorOf idx with
  | none =>
    refine ⟨a, ?_, ⟨fun j => ?_, rfl, rfl, rfl, rfl⟩⟩
    · simp only [unlinkSponsor, run_bind, run_reads, node_ok hi]
      rw [show (a.nodeAt idx).sponsor = none from hsp]
      rfl
    · simp only [hkeep j (by rw [hsp]; nofun)]
  | some s =>
    have hsl := hs s hsp
    refine ⟨a.upd s fun n => { n with sponsored := n.sponsored.filter (· ≠ idx) }, ?_,
      ⟨fun j => ?_, rfl, rfl, rfl, length_upd _⟩⟩
    · simp only [unlinkSponsor, run_bind, run_reads, node_ok hi]
      rw [show (a.nodeAt idx).sponsor = some s from hsp]
      exact nodeMut_ok hsl _
    · rw [nodeAt_upd hsl.lt]
      by_cases hj : j = s
      · simp [hj]
      · have hne : a.sponsorOf idx ≠ some j := by
          rw [hsp]
          exact fun e => hj (some.inj e).symm
        simp only [hj, if_false, hkeep j hne]

/-- What is left of the placement `m` when one node is cleared. -/
structure Cleared (m a' : Arena) (idx : NodeIndex) : Prop where
  parentOf : ∀ j, a'.parentOf j = if j = idx then none else m.parentOf j
  childrenOf : ∀ j, a'.childrenOf j = if j = idx then [] else m.childrenOf j
  depth : ∀ j, j ≠ idx → (a'.nodeAt j).depth = (m.nodeAt j).depth

theorem clearRoot_eq (b : Arena) : (if b.root = some idx then { b with root := none } else b) =
    { b with root := if b.root = some idx then none else b.root } := by
  split <;> rfl

/-- **Clearing one node**: after its sponsor has let go of it, its recruits are handed over, and its
    index entry and its slot are cleared. The root may be set in between. -/
theorem release_ok (h : a.Valid) {m : Arena} (hm : Repositioned a m) (hi : a.Live idx)
    (root : Option NodeIndex) : ∃ b b' a', (unlinkSponsor idx : Call TreeError Arena Unit).run m = .ok () b ∧
      b.root = m.root ∧
      (reparentSponsored [idx]).run { b with root } = .ok (a.responsored [idx]) b' ∧
      (tombstone idx : Call TreeError Arena Unit).run (b'.indexRemove (a.nodeAt idx).userId) = .ok () a' ∧
      Pruned a a' [idx] ∧ Cleared m a' idx ∧ a'.root = root := by
  have hlive : ∀ {j}, a.Live j → m.Live j := fun {j} hj => by
    show (m.nodeAt j).userId ≠ _
    rw [hm.userId]
    exact hj
  have hself : idx ∉ a.sponsoredOf idx := fun hmem => h.chains.ne (h.recruited.mem_iff.mp hmem) rfl
  obtain ⟨b, hb, rb⟩ := unlinkSponsor_ok (ε := TreeError) (hlive hi)
    (fun s hs => hlive (h.live_sponsor (hm.sponsorOf idx ▸ hs)))
    (fun j hj => by rw [hm.sponsoredOf] at hj; rw [hm.sponsorOf]; exact h.recruited.mem_iff.mp hj)
  let c : Arena := { b with root }
  have hcs : c.sponsorOf = a.sponsorOf := funext fun j => by
    show (b.nodeAt j).sponsor = _
    rw [rb.nodeAt]
    exact hm.sponsorOf j
  have hcr : c.sponsoredOf = fun j => (a.sponsoredOf j).filter (· ≠ idx) := funext fun j => by
    show (b.nodeAt j).sponsored = _
    rw [rb.nodeAt]
    show (m.sponsoredOf j).filter _ = _
    rw [hm.sponsoredOf]
  have hcl : c.nodes.length = a.nodes.length := rb.length.trans hm.length
  have hcu : ∀ j, (c.nodeAt j).userId = (a.nodeAt j).userId := fun j => (rb.userId j).trans (hm.userId j)
  have hcok : c.SponsorsOk :=
    { ranked := hcs ▸ h.chains
      sponsor_lt := fun hs => by
        rw [hcs] at hs
        rw [hcl]
        exact (h.live_sponsor hs).lt
      sponsored := fun {i s} hs => by
        rw [hcr] at hs
        rw [hcs, hcl]
        have := h.recruited.mem_iff.mp (mem_of_mem_filter hs)
        exact ⟨this, (h.live_of_sponsor this).lt⟩ }
  have hsurv : c.survivor [idx] = a.survivor [idx] := by
    unfold survivor
    rw [hcs, hcl]
  -- the removed node is in no list any more, and it was never in its own
  have hown : c.sponsoredOf idx = a.sponsoredOf idx := by
    rw [hcr]
    exact filter_eq_self.mpr fun x hx => decide_eq_true fun e => hself (e ▸ hx)
  obtain ⟨b', hb', rb'⟩ := reparentSponsored_ok hcok (nodup_singleton idx)
    (fun i hi' => by rw [mem_singleton.mp hi', hcl]; exact hi.lt)
    (fun i hi' j _ hj => by
      rw [mem_singleton.mp hi', hown]
      rw [hcs, mem_singleton.mp hi'] at hj
      exact h.recruited.mem_iff.mpr hj)
  have hleft : c.recruitsLeft [idx] idx = a.recruitsLeft [idx] idx := by
    unfold recruitsLeft
    rw [hown]
  have hresp : c.responsored [idx] = a.responsored [idx] := by
    simp only [responsored, flatMap_singleton, heir, hleft, hsurv]
    cases (if a.recruitsLeft [idx] idx = [] then none else a.survivor [idx] idx) <;>
      simp [moves, hcu]
  have hlt' : idx < (b'.indexRemove (a.nodeAt idx).userId).nodes.length := by
    show idx < b'.nodes.length
    rw [rb'.length, hcl]
    exact hi.lt
  have hfree : b'.freeList = a.freeList := (rb'.free.trans rb.free).trans hm.free
  have hnf : idx ∉ a.freeList := fun hf => (h.free_freed idx hf).2 hi
  have hnode : ∀ j, ((b'.indexRemove (a.nodeAt idx).userId).buried idx).nodeAt j =
      if j = idx then Node.freed else b'.nodeAt j := fun j => nodeAt_buried hlt' j
  have hbnode : ∀ j, b'.nodeAt j = { m.nodeAt j with
      sponsor := if j ∈ [idx] then c.sponsorOf j else c.survivor [idx] j
      sponsored := if j ∈ [idx] then [] else
        c.sponsoredOf j ++ movedTo c.sponsoredOf (c.survivor [idx]) [idx] j } := by
    intro j
    rw [rb'.nodeAt]
    show ({ b.nodeAt j with sponsor := _, sponsored := _ } : Node) = _
    rw [rb.nodeAt]
  refine ⟨b, b', _, hb, rb.root, hresp ▸ hb', tombstone_ok hlt' (hfree ▸ hnf), ?_, ?_, rb'.root⟩
  · refine ⟨fun i hi' => mem_singleton.mp hi' ▸ hi, nodup_singleton idx, fun j => ?_,
      fun j hj => ?_, fun j => ?_, fun j => ?_, fun u => ?_, fun i hi' => ?_, ?_, ?_⟩
    · simp only [hnode, mem_singleton]
      split
      · rfl
      · rw [hbnode]
        exact hm.userId j
    · rw [hnode, if_neg (by simpa using hj), hbnode]
      exact hm.enrolledAt j
    · simp only [sponsorOf, hnode, mem_singleton]
      split
      · rfl
      · rename_i hj
        simp only [hbnode, mem_singleton, hj, if_false, hsurv]
    · simp only [sponsoredOf, hnode, mem_singleton]
      split
      · rfl
      · rename_i hj
        have hmoved : movedTo c.sponsoredOf (a.survivor [idx]) [idx] j =
            movedTo a.sponsoredOf (a.survivor [idx]) [idx] j :=
          movedTo_congr (fun i hi => by rw [mem_singleton.mp hi, hown]) j
        simp only [hbnode, mem_singleton, hj, if_false, hsurv]
        rw [hmoved, hcr]
    · show (b'.index.erase _).lookup u = _
      rw [rb'.index.trans (rb.index.trans hm.index)]
      by_cases hu : u = (a.nodeAt idx).userId
      · subst hu
        rw [AList.lookup_erase, h.lookup_of_live hi]
        simp [Option.filter]
      · rw [AList.lookup_erase_ne hu]
        cases hl : a.index.lookup u with
        | none => rfl
        | some i =>
          have hne : i ≠ idx := fun e => hu (by rw [← e, (h.index_iff.mp hl).2])
          simp [Option.filter, hne]
    · have hi'' : i ∈ b'.freeList ++ [idx] := hi'
      rw [hfree] at hi''
      exact mem_append.mp hi''
    · show (b'.freeList ++ [idx]).Nodup
      rw [hfree]
      exact nodup_append.mpr ⟨h.free_nodup, nodup_singleton idx, fun x hx y hy e =>
        hnf (mem_singleton.mp hy ▸ e ▸ hx)⟩
    · show (b'.upd idx _).nodes.length = _
      rw [length_upd, rb'.length, hcl]
  · refine ⟨fun j => ?_, fun j => ?_, fun j hj => ?_⟩
    · simp only [parentOf, hnode]
      split
      · rfl
      · rw [hbnode]
    · simp only [childrenOf, hnode]
      split
      · rfl
      · rw [hbnode]
    · rw [hnode, if_neg hj, hbnode]

end Writes

/-! ## 6. Removing a leaf -/

section Leaf

variable {a m a' : Arena} {idx : NodeIndex}

/-- `m` is `a` with `idx` off its parent's list of children. -/
structure Unlisted (a m : Arena) (idx : NodeIndex) : Prop extends Repositioned a m where
  parentOf : ∀ j, m.parentOf j = a.parentOf j
  childrenOf : ∀ j, m.childrenOf j = (a.childrenOf j).filter (· ≠ idx)
  depth : ∀ j, (m.nodeAt j).depth = (a.nodeAt j).depth

theorem Valid.unlisted (h : a.Valid) {p : NodeIndex} (hp : a.parentOf idx = some p)
    (kids : List NodeIndex → List NodeIndex)
    (hk : kids (a.childrenOf p) = (a.childrenOf p).filter (· ≠ idx)) :
    Unlisted a (a.upd p fun n => { n with children := kids n.children }) idx := by
  have hlt := (h.live_parent hp).lt
  have hother : ∀ j, j ≠ p → (a.childrenOf j).filter (· ≠ idx) = a.childrenOf j := by
    intro j hj
    refine filter_eq_self.mpr fun x hx => decide_eq_true ?_
    rintro rfl
    have := h.placed.mem_iff.mp hx
    rw [hp] at this
    exact hj (some.inj this).symm
  have hnode : ∀ j, (a.upd p fun n => { n with children := kids n.children }).nodeAt j =
      { a.nodeAt j with children := (a.childrenOf j).filter (· ≠ idx) } := by
    intro j
    rw [nodeAt_upd hlt]
    by_cases hj : j = p
    · subst hj
      rw [if_pos rfl]
      exact congrArg (fun l => { a.nodeAt j with children := l }) hk
    · rw [if_neg hj, hother j hj]
  refine { userId := ?_, sponsorOf := ?_, sponsoredOf := ?_, enrolledAt := ?_, index := rfl,
           free := rfl, length := length_upd _, parentOf := ?_, childrenOf := ?_, depth := ?_ } <;>
    intro j <;> simp only [sponsorOf, sponsoredOf, parentOf, childrenOf, hnode]

theorem unlisted_top (h : a.Valid) (hp : a.parentOf idx = none) : Unlisted a a idx := by
  refine { userId := fun _ => rfl, sponsorOf := fun _ => rfl, sponsoredOf := fun _ => rfl,
           enrolledAt := fun _ => rfl, index := rfl, free := rfl, length := rfl,
           parentOf := fun _ => rfl, childrenOf := fun j => ?_, depth := fun _ => rfl }
  refine (filter_eq_self.mpr fun x hx => decide_eq_true ?_).symm
  rintro rfl
  have := h.placed.mem_iff.mp hx
  rw [hp] at this
  cases this

/-- **A valid arena stays valid when a leaf is removed.** -/
theorem Pruned.valid_of_leaf (p : Pruned a a' [idx]) (h : a.Valid) (hleaf : a.childrenOf idx = [])
    (hm : Unlisted a m idx) (hc : Cleared m a' idx)
    (hroot : a'.root = if a.root = some idx then none else a.root) : a'.Valid := by
  have hpar : ∀ j, a'.parentOf j = if j = idx then none else a.parentOf j := fun j => by
    rw [hc.parentOf, hm.parentOf]
  have hkid : ∀ j, a'.childrenOf j = if j = idx then [] else (a.childrenOf j).filter (· ≠ idx) :=
    fun j => by rw [hc.childrenOf, hm.childrenOf]
  have hlive : ∀ {j}, a'.Live j → j ≠ idx ∧ a.Live j := fun {j} hj => by
    have := p.live_iff.mp hj
    exact ⟨fun e => this.1 (mem_singleton.mpr e), this.2⟩
  have hnp : ∀ j, a.parentOf j ≠ some idx := h.placed.no_link_to hleaf
  have hdepth : ∀ j, j ≠ idx → (a'.nodeAt j).depth = (a.nodeAt j).depth := fun j hj => by
    rw [hc.depth j hj, hm.depth]
  refine p.valid h ⟨fun {x y} => ?_, fun x => ?_⟩ (fun {j} hj => ?_) (fun {j} hj hp => ?_)
    (fun {i q} hq => ?_) (fun {r} hr => ?_) (fun {i} hi hp => ?_)
  · rw [hkid, hpar]
    by_cases hx : x = idx
    · subst hx
      simp only [if_true, not_mem_nil, false_iff]
      split
      · nofun
      · exact hnp y
    · simp only [hx, if_false, mem_filter, decide_eq_true_eq, h.placed.mem_iff]
      by_cases hy : y = idx <;> simp [hy]
  · rw [hkid]
    split
    · exact nodup_nil
    · exact (h.placed.nodup x).filter _
  · rw [hpar, hkid]
    by_cases hji : j = idx
    · simp [hji]
    · have hd : ¬ a.Live j := fun hl => hj (p.live_iff.mpr ⟨by simpa using hji, hl⟩)
      obtain ⟨h1, -, h3, -⟩ := h.cleared hd
      simp [hji, h1, h3]
  · obtain ⟨hji, hl⟩ := hlive hj
    rw [hpar, if_neg hji] at hp
    rw [hdepth j hji]
    exact h.depth_top hl hp
  · rw [hpar] at hq
    by_cases hii : i = idx
    · rw [if_pos hii] at hq
      cases hq
    · rw [if_neg hii] at hq
      have hqi : q ≠ idx := fun e => hnp i (e ▸ hq)
      rw [hdepth i hii, hdepth q hqi]
      exact h.depth_below hq
  · rw [hroot] at hr
    split at hr
    · cases hr
    · rename_i hne
      exact ⟨hr, fun e => hne (mem_singleton.mp e ▸ hr)⟩
  · obtain ⟨hii, hl⟩ := hlive hi
    rw [hpar, if_neg hii] at hp
    have hr := h.top_root hl hp
    rw [hroot, hr, if_neg fun e => hii (some.inj e)]

end Leaf

end Arena

end MlmForge.Engine
