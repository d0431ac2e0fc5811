/-
  Subject:   Whom a seat depends on: a user can be seated again only after their parent and sponsor.

  * **`MatrixTree.promotion_grounded`** -- the removal of such a user keeps the links free of cycles, as
    every change that moves nobody does (`Effect.grounded`).

  The engine keeps the parents free of cycles and the sponsors free of cycles, each on its own. A removal
  that moves a subtree below the recruit of one of its members closes a cycle of both.
-/
import MlmForge.Basis.Acyclic
import MlmForge.Engine.PromoteEarliest

namespace MlmForge.Engine

open Relation Call Option List Function

/-! ## 1. Links up -/

namespace Roster

/-- Who has to be seated before a user is. -/
def Needs (r : Roster) (u v : Uuid) : Prop :=
  ∃ seat, r u = some seat ∧ (seat.parent = some v ∨ seat.sponsor = some v)

/-- Everybody below the root has a sponsor. -/
def Recruited (r : Roster) : Prop :=
  ∀ u seat, r u = some seat → seat.parent ≠ none → seat.sponsor ≠ none

theorem SponsoredBy.needs {r : Roster} {u v : Uuid} (h : r.SponsoredBy u v) : r.Needs u v := by
  obtain ⟨seat, hu, hs⟩ := h
  exact ⟨seat, hu, .inr hs⟩

theorem needs_of_parent {r : Roster} {u v : Uuid} (h : r.parentOf u = some v) : r.Needs u v := by
  obtain ⟨seat, hu, hp⟩ := bind_eq_some_iff.mp h
  exact ⟨seat, hu, .inl hp⟩

/-- **No links up lead from below one child of `u` to another** that moves when an earliest-enrolled one,
    `c`, is promoted. -/
def Loose (r : Roster) (u : Uuid) : Prop :=
  ∀ c, r.Eldest u c → ∀ e d, r.parentOf e = some u → r.parentOf d = some u → d ≠ e → d ≠ c →
    ∀ x, Above r.parentOf x e → ¬ ReflTransGen r.Needs x d

end Roster

section Reseat

variable {out : Outcome} {r : Roster} {u v : Uuid} {seat : Seat}

theorem Outcome.sponsor_reseat (out : Outcome) (u : Uuid) (seat : Seat) :
    (out.reseat u seat).sponsor = seat.sponsor ∨
      ∃ m ∈ out.responsored, m.userId = u ∧ (out.reseat u seat).sponsor = some m.newSponsorId := by
  unfold reseat
  cases hs : out.responsored.find? (·.userId = u) with
  | none => cases out.relocated.find? (·.userId = u) <;> exact .inl rfl
  | some m =>
    refine .inr ⟨m, mem_of_find?_eq_some hs, by simpa using find?_some hs, ?_⟩
    cases out.relocated.find? (·.userId = u) <;> rfl

theorem Outcome.parent_reseat (out : Outcome) (u : Uuid) (seat : Seat) :
    (out.reseat u seat).parent = seat.parent ∨
      ∃ m ∈ out.relocated, m.userId = u ∧ (out.reseat u seat).parent = some m.parentId := by
  unfold reseat
  cases hm : out.relocated.find? (·.userId = u) with
  | none => cases out.responsored.find? (·.userId = u) <;> exact .inl rfl
  | some m =>
    exact .inr ⟨m, mem_of_find?_eq_some hm, by simpa using find?_some hm, rfl⟩

theorem Outcome.applyTo_eq_some (h : out.applyTo r u = some seat) :
    ∃ before, r u = some before ∧ seat = out.reseat u before := by
  unfold applyTo at h
  split at h
  · cases h
  · obtain ⟨before, hb, e⟩ := map_eq_some_iff.mp h
    exact ⟨before, hb, e.symm⟩

/-- After a removal, a link up is one that old links lead along, or one to a parent. -/
theorem Report.needs (h : Report r out) (hn : (out.applyTo r).Needs u v) :
    TransGen r.Needs u v ∨ (out.applyTo r).parentOf u = some v := by
  obtain ⟨seat, hu, hv⟩ := hn
  obtain ⟨before, hb, rfl⟩ := Outcome.applyTo_eq_some hu
  rcases hv with hv | hv
  · exact .inr (bind_eq_some_iff.mpr ⟨_, hu, hv⟩)
  · rcases out.sponsor_reseat u before with e | ⟨m, hm, rfl, e⟩
    · exact .inl (.single ⟨before, hb, .inr (e.symm.trans hv)⟩)
    · rw [← some.inj (e.symm.trans hv)]
      exact .inl (TransGen.mono (fun _ _ hab => hab.needs) _ _ (h.responsored_up m hm))

/-- **A removal that moves nobody keeps the links up free of cycles.** -/
theorem Report.grounded (h : Report r out) (hg : Grounded r.Needs) (hstill : out.relocated = []) :
    Grounded (out.applyTo r).Needs := by
  refine hg.transGen.mono fun u v hn => (h.needs hn).elim id fun hp => ?_
  obtain ⟨seat, hu, hv⟩ := bind_eq_some_iff.mp hp
  obtain ⟨before, hb, rfl⟩ := Outcome.applyTo_eq_some hu
  rcases out.parent_reseat u before with e | ⟨m, hm, -⟩
  · exact .single ⟨before, hb, .inl (e.symm.trans hv)⟩
  · rw [hstill] at hm
    exact absurd hm not_mem_nil

/-- Seats are needed only by those who hold one, and only seats that are held. -/
theorem Roster.Sound.needs {limit : Option Nat} (h : r.Sound limit) (hn : r.Needs u v) : r v ≠ none := by
  obtain ⟨seat, hu, hv | hv⟩ := hn
  · obtain ⟨-, above, hb, -⟩ := h.below hu hv
    rw [hb]
    exact some_ne_none above
  · exact (h.sponsored hu hv).2

theorem Roster.Sound.grounded_update {limit : Option Nat} (h : r.Sound limit)
    (hg : Grounded r.Needs) (hfree : r u = none) (hp : ∀ p, seat.parent = some p → r p ≠ none)
    (hs : ∀ s, seat.sponsor = some s → r s ≠ none) :
    Grounded (Roster.Needs (Function.update r u (some seat))) := by
  have hother : ∀ x y, x ≠ u → Roster.Needs (Function.update r u (some seat)) x y → r.Needs x y := by
    intro x y hx hxy
    obtain ⟨b, hb, hy⟩ := hxy
    rw [update_of_ne hx] at hb
    exact ⟨b, hb, hy⟩
  refine hg.of_leaf (fun x hx => ?_) (fun hk => ?_) hother
  · by_contra hne
    exact h.needs (hother x u hne hx) hfree
  · obtain ⟨b, hb, hu⟩ := hk
    rw [update_self] at hb
    cases hb
    rcases hu with hu | hu
    · exact hp u hu hfree
    · exact hs u hu hfree

/-- Who joins has a sponsor. -/
theorem Roster.Recruited.update (h : r.Recruited) (hs : seat.parent ≠ none → seat.sponsor ≠ none) :
    Roster.Recruited (Function.update r u (some seat)) := by
  intro v b hb hp
  by_cases hv : v = u
  · rw [hv, update_self] at hb
    cases hb
    exact hs hp
  · rw [update_of_ne hv] at hb
    exact h v b hb hp

theorem Report.recruited (h : Report r out) (hr : r.Recruited) : (out.applyTo r).Recruited := by
  intro v seat hv hp
  obtain ⟨before, hb, rfl⟩ := Outcome.applyTo_eq_some hv
  rcases out.sponsor_reseat v before with e | ⟨m, -, -, e⟩
  · rw [e]
    refine hr v before hb ?_
    rcases out.parent_reseat v before with e' | ⟨m, hm, rfl, -⟩
    · rwa [e'] at hp
    · obtain ⟨-, seat, hseat, hpar⟩ := h.relocated_mem m hm
      cases hb.symm.trans hseat
      exact hpar
  · rw [e]
    exact some_ne_none _

end Reseat

/-! ## 2. Mutations -/

/-- **Only a promotion in a matrix tree moves anybody.** -/
theorem TreeInstance.relocated_of_mutate {t t' : TreeInstance} {mu : Mutation} {out : Outcome}
    (hv : t.Valid) (hroom : t.arena.Roomy) (hrun : (mutate mu).run t = .ok out t')
    (hmu : ∀ w u, t = .matrix w → mu ≠ .removeNode u (some .promoteEarliest)) : out.relocated = [] := by
  obtain ⟨-, -, heff⟩ := mutate_effect hv hroom hrun
  cases heff with
  | addRoot => rfl
  | addNode => rfl
  | addNodeAt => rfl
  | @removeNode u mode =>
    cases t with
    | unilevel t =>
      obtain ⟨t1, hrun, -⟩ := of_within_ok hrun
      simp only [UnilevelTree.mutate, run_map] at hrun
      split at hrun <;> cases hrun
      rfl
    | binary t =>
      obtain ⟨t1, hrun, -⟩ := of_within_ok hrun
      simp only [BinaryTree.mutate, run_map] at hrun
      split at hrun <;> cases hrun
      rfl
    | matrix t =>
      obtain ⟨t1, hrun, -⟩ := of_within_ok hrun
      cases mode with
      | none => cases hrun
      | some mode =>
        cases mode with
        | promoteEarliest => exact absurd rfl (hmu t u rfl)
        | holdingTank =>
          simp only [MatrixTree.mutate, run_map, run_relay] at hrun
          cases hr : (MatrixTree.removeNode u .holdingTank).run t with
          | error e t2 =>
            rw [hr] at hrun
            cases hrun
          | ok result t2 =>
            rw [hr] at hrun
            cases hrun
            exact MatrixTree.relocated_holdingTank hv hr

section Effect

variable {limit : Option Nat} {directed : Prop} {r r' : Roster} {mu : Mutation} {out : Outcome}

/-- **A mutation that moves nobody keeps the links up free of cycles.** -/
theorem Effect.grounded (h : Effect limit directed r r' mu out) (hs : r.Sound limit)
    (hg : Grounded r.Needs) (hstill : out.relocated = []) : Grounded r'.Needs := by
  cases h with
  | addRoot _ hempty hseats =>
    subst hseats
    exact hs.grounded_update hg (hempty _) (fun _ e => nomatch e) fun _ e => nomatch e
  | addNode hseated _ _ _ | addNodeAt hseated _ _ _ _ =>
    obtain ⟨hfree, ⟨p, above, hp, hab, -⟩, ⟨s, hsp, hss⟩, rfl⟩ := hseated
    refine hs.grounded_update hg hfree (fun p' e => ?_) fun s' e => ?_
    · cases hp.symm.trans e
      rw [hab]
      exact some_ne_none _
    · cases hsp.symm.trans e
      exact hss
  | removeNode hrep _ hseats =>
    subst hseats
    exact hrep.grounded hg hstill

theorem Effect.recruited (h : Effect limit directed r r' mu out) (hr : r.Recruited) : r'.Recruited := by
  cases h with
  | addRoot _ _ hseats =>
    subst hseats
    exact hr.update fun hp => absurd rfl hp
  | addNode hseated _ _ _ | addNodeAt hseated _ _ _ _ =>
    obtain ⟨-, -, ⟨s, hsp, -⟩, rfl⟩ := hseated
    refine hr.update fun _ => ?_
    rw [hsp]
    exact some_ne_none _
  | removeNode hrep _ hseats =>
    subst hseats
    exact hrep.recruited hr

end Effect

/-! ## 3. Promotions -/

namespace MatrixTree

section Promotion

variable {t t' : MatrixTree} {removed promoted parent : NodeIndex}
  (h : Promotion t t' removed promoted parent) (hv : t.Valid)
  (hp : t.arena.parentOf promoted = some removed)
include h hv hp

theorem Promotion.above_kept {x e : NodeIndex} (he : t.arena.parentOf e = some removed)
    (hx : Above t.arena.parentOf x e) : Above t'.arena.parentOf x e := by
  have hirrefl := hv.arena.forest.ranked.irrefl e
  induction hx using ReflTransGen.head_induction_on with
  | refl => exact .refl
  | @head k l hkl hle ih =>
    have hl : l ≠ removed := fun hl => hirrefl (.head' he (hl ▸ hle))
    have hk : t.arena.parentOf k ≠ some removed := fun hk => hl (some.inj (hkl.symm.trans hk))
    refine .head ?_ ih
    rw [h.unmoved k (fun hr => hirrefl (.head' he (hr ▸ .head hkl hle))) (fun hkp => hk (hkp ▸ hp)) hk, hkl]

/-- **A move leads, over links up, at most to a sibling that is above it in the new tree.** -/
theorem Promotion.leads_up (hloose : t.roster.Loose (t.arena.userAt removed))
    (heldest : t.roster.Eldest (t.arena.userAt removed) (t.arena.userAt promoted)) {i j d : NodeIndex}
    (hi : t.arena.parentOf i = some removed) (hip : i ≠ promoted) (hij : t'.arena.parentOf i = some j)
    (hd : t.arena.parentOf d = some removed) (hdp : d ≠ promoted)
    (hpath : ReflTransGen t.roster.Needs (t.arena.userAt j) (t.arena.userAt d)) :
    Above t'.arena.parentOf j d := by
  have hj : Above t'.arena.parentOf j promoted := by
    rcases ReflTransGen.cases_head (h.moved i hi) with e | ⟨k, hk, hab⟩
    · exact absurd e hip
    · cases hij.symm.trans hk
      exact hab
  obtain ⟨e, hje, he⟩ := TransGen.tail'_iff.mp (h.below_removed hp hj)
  have hchild : ∀ {c}, t.arena.parentOf c = some removed →
      t.roster.parentOf (t.arena.userAt c) = some (t.arena.userAt removed) := fun {c} hc =>
    hv.arena.roster_parentOf_eq_some.mpr ⟨c, removed, hc, rfl, rfl⟩
  have hel := hv.arena.live_of_parent he
  have hjl : t.arena.Live j := by
    rcases ReflTransGen.cases_head hje with rfl | ⟨k, hk, -⟩
    · exact hel
    · exact hv.arena.live_of_parent hk
  by_cases hde : d = e
  · exact hde ▸ h.above_kept hv hp he hje
  · exact absurd hpath (hloose _ heldest _ _ (hchild he) (hchild hd)
      (fun e => hde (hv.arena.userAt_inj hel e.symm).symm)
      (fun e => hdp (hv.arena.userAt_inj (hv.arena.live_of_parent hp) e.symm).symm) _
      ((hv.arena.above_iff hel).mpr ⟨j, hjl, rfl, hje⟩))

/-- **The promotion keeps the links up free of cycles.** -/
theorem Promotion.grounded (hv' : t'.Valid) (hr : t.arena.parentOf removed = some parent)
    (hloose : t.roster.Loose (t.arena.userAt removed))
    (heldest : t.roster.Eldest (t.arena.userAt removed) (t.arena.userAt promoted))
    (hneeds : ∀ x y, t'.roster.Needs x y → TransGen t.roster.Needs x y ∨ t'.roster.parentOf x = some y)
    (hg : Grounded t.roster.Needs) : Grounded t'.roster.Needs := by
  have hup : ∀ {i j}, t.arena.parentOf i = some j →
      t.roster.Needs (t.arena.userAt i) (t.arena.userAt j) := fun {i j} hij =>
    Roster.needs_of_parent (hv.arena.roster_parentOf_eq_some.mpr ⟨i, j, hij, rfl, rfl⟩)
  have hname : ∀ {i}, t'.arena.Live i → i ≠ removed ∧ t'.arena.userAt i = t.arena.userAt i := fun {i} hi => by
    have hgone := (h.pruned.live_iff.mp hi).1
    exact ⟨by simpa using hgone, h.pruned.userAt hgone⟩
  -- the new links: those of the siblings of the promoted node
  let moves : Uuid → Uuid → Prop := fun x y => ∃ i j, t.arena.parentOf i = some removed ∧ i ≠ promoted ∧
    t'.arena.parentOf i = some j ∧ t.arena.userAt i = x ∧ t.arena.userAt j = y
  have hmoves : Grounded (LeadsTo (TransGen t.roster.Needs) moves) := by
    refine Subrelation.wf (fun {z x} hxz => ?_) (InvImage.wf t'.roster.depthOf Nat.lt_wfRel.wf)
    obtain ⟨⟨_, ⟨i, j, hi, hip, hij, rfl, rfl⟩, hyz⟩, _, d, k, hd, hdp, hdk, rfl, rfl⟩ := hxz
    have hab := h.leads_up hv hp hloose heldest hi hip hij hd hdp (reflTransGen_transGen.le _ _ hyz)
    have hil := hv'.arena.live_of_parent hij
    have hdl := hv'.arena.live_of_parent hdk
    show t'.roster.depthOf _ < t'.roster.depthOf _
    rw [← (hname hil).2, ← (hname hdl).2, hv'.depthOf_userAt hil, hv'.depthOf_userAt hdl]
    have hdepth : (t'.arena.nodeAt i).depth = (t'.arena.nodeAt j).depth + 1 := hv'.arena.depth_below hij
    have hlt : j = d ∨ (t'.arena.nodeAt d).depth < (t'.arena.nodeAt j).depth :=
      depth_of_above hv'.arena.depth_below hab
    rcases hlt with rfl | hlt
    · omega
    · omega
  refine (hg.transGen.union hmoves).mono fun x y hxy => ?_
  rcases hneeds x y hxy with hold | hpar
  · exact .inl hold
  obtain ⟨i, j, hij, rfl, rfl⟩ := hv'.arena.roster_parentOf_eq_some.mp hpar
  obtain ⟨hir, hi⟩ := hname (hv'.arena.live_of_parent hij)
  rw [hi, (hname (hv'.arena.live_parent hij)).2]
  by_cases hip : i = promoted
  · -- the promoted node takes over the parent of its parent
    subst hip
    cases hij.symm.trans h.promoted_up
    exact .inl (.tail (.single (hup hp)) (hup hr))
  · by_cases hi : t.arena.parentOf i = some removed
    · exact .inr ⟨i, j, hi, hip, hij, rfl, rfl⟩
    · rw [h.unmoved i hir hip hi] at hij
      exact .inl (.single (hup hij))

end Promotion

/-- **The removal of a user whose children are not linked keeps the links up free of cycles.** -/
theorem promotion_grounded {t : MatrixTree} {u : Uuid} {out : Outcome} {x : TreeInstance} (hv : t.Valid)
    (hroom : t.arena.Roomy)
    (hrun : (TreeInstance.mutate (.removeNode u (some .promoteEarliest))).run (.matrix t) = .ok out x)
    (hg : Grounded t.roster.Needs) (hloose : t.roster.Loose u) : Grounded x.roster.Needs := by
  obtain ⟨-, -, heff⟩ := TreeInstance.mutate_effect (t := .matrix t) hv hroom hrun
  obtain ⟨t', hm, rfl⟩ := of_within_ok hrun
  cases heff with
  | removeNode hrep _ hseats =>
    have hneeds : ∀ x y, t'.roster.Needs x y →
        TransGen t.roster.Needs x y ∨ t'.roster.parentOf x = some y := by
      rw [show t'.roster = _ from hseats]
      exact fun x y => hrep.needs
    obtain ⟨result, hr⟩ : ∃ result, (removeNode u .promoteEarliest).run t = .ok result t' := by
      simp only [mutate, run_map, run_relay] at hm
      split at hm <;> cases hm
      rename_i hr
      split at hr <;> cases hr
      rename_i hr
      exact ⟨_, hr⟩
    have hc := checkRemoveNode_of_run hr
    obtain ⟨i, p, gone, moved, result', t'', hi, hp, -, -, hrun', hrem, hcut⟩ := removeNode_spec hv hc fun _ => hroom
    cases hrun'.symm.trans hr
    by_cases hkids : t.arena.childrenOf i = []
    · rcases hcut with hcut | ⟨promoted, hpp, -⟩
      · refine hg.transGen.mono fun x y hxy => (hneeds x y hxy).elim id fun hpar => ?_
        obtain ⟨j, k, hjk, rfl, rfl⟩ := hrem.valid.arena.roster_parentOf_eq_some.mp hpar
        rw [hcut.pruned.userAt (hcut.pruned.live_iff.mp (hrem.valid.arena.live_of_parent hjk)).1,
          hcut.pruned.userAt (hcut.pruned.live_iff.mp (hrem.valid.arena.live_parent hjk)).1]
        rw [hcut.parentOf] at hjk
        split at hjk
        · cases hjk
        · exact .single (Roster.needs_of_parent
            (hv.arena.roster_parentOf_eq_some.mpr ⟨j, k, hjk, rfl, rfl⟩))
      · have := hv.arena.placed.mem_iff.mpr hpp
        rw [hkids] at this
        exact absurd this not_mem_nil
    · obtain ⟨promoted, moved', result'', t'', hpp, hrun'', hrem', hprom, -, -, -, hmin⟩ :=
        removeNode_promoted hv hroom hc hi hp hkids
      cases hrun''.symm.trans hr
      obtain rfl : t.arena.userAt i = u := (hv.arena.index_iff.mp hi).2
      exact hprom.grounded hv hpp hrem.valid hp hloose (hv.eldest hpp hmin) hneeds hg

end MatrixTree

end MlmForge.Engine
