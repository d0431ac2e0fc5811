/-
  Subject:   Rank evaluation rises: with the ranks found so far, and with what distributors achieve.

  Two evaluations are compared, with their contexts and their rank maps. With `s` the contexts are
  one context over valid trees, and then more is true: what stops the lower evaluation stops the
  higher one as well.

  * `satisfies_under` -- **a rank met below is met above**.

  The one test that could be stopped below and not above is the search of a leg, which ends at the
  first match and then does not read the rest. In a valid tree reading it never fails.
-/
import MlmForge.Rank.Evaluate

namespace MlmForge.Rank

open Engine Query List Dec

/-! ## 1. Two contexts -/

/-- How high an evaluated rank is: below all ordinals without a rank. -/
def EvaluatedRank.level : EvaluatedRank → Nat
  | qualified _ ordinal => ordinal + 1
  | unranked => 0

/-- What one distributor has achieved is at least what the other has. -/
structure DistributorPrimitives.Within (p p' : DistributorPrimitives) : Prop where
  personal : p.personalVolume.value ≤ p'.personalVolume.value
  retail : p.retailVolume.value ≤ p'.retailVolume.value
  products : ∀ x ∈ p.activeProducts, x ∈ p'.activeProducts

theorem DistributorPrimitives.within_refl (p : DistributorPrimitives) : p.Within p :=
  ⟨le_rfl, le_rfl, fun _ hx => hx⟩

/-- **Over the same ladder and trees, everyone has achieved at least as much in `ctx'`**; with `s`
    the two are the same, and the trees valid. -/
structure Dominates (s : Prop) (ctx ctx' : EvalCtx) : Prop where
  same : s → ctx = ctx'
  valid : s → ∀ name t, ctx.trees.lookup name = some t → t.Valid
  ranks : ctx.ranks = ctx'.ranks
  trees : ctx.trees = ctx'.trees
  ordinals : ctx.rankOrdinals = ctx'.rankOrdinals
  window : ctx.historyWindow = ctx'.historyWindow
  distributors : ∀ u p, ctx.distributors.lookup u = some p →
    ∃ p', ctx'.distributors.lookup u = some p' ∧ p.Within p'
  volumes : ∀ u, (ctx.volumeIndex.cvFor u).value ≤ (ctx'.volumeIndex.cvFor u).value
  history : ∀ u threshold, ∀ pid ∈ ctx.historyWindow,
    achieved (ctx.history.lookup u) threshold pid = true →
      achieved (ctx'.history.lookup u) threshold pid = true

theorem dominates_self {ctx : EvalCtx}
    (h : ∀ name t, ctx.trees.lookup name = some t → t.Valid) : Dominates True ctx ctx where
  same _ := rfl
  valid _ := h
  ranks := rfl
  trees := rfl
  ordinals := rfl
  window := rfl
  distributors _ p hp := ⟨p, hp, p.within_refl⟩
  volumes _ := le_rfl
  history _ _ _ _ h := h

/-- The rank map of the lower evaluation is below that of the higher one. -/
abbrev RanksBelow (m m' : RankMap) : Prop := Climb.Below EvaluatedRank.level m m'

theorem holds_of_below {m m' : RankMap} (hm : RanksBelow m m') {u : Uuid} {rank : String} {o : Nat}
    (hu : m.lookup u = some (.qualified rank o)) :
    ∃ rank' o', m'.lookup u = some (.qualified rank' o') ∧ o ≤ o' := by
  have hle := hm u
  rw [hu] at hle
  cases hu' : m'.lookup u with
  | none => simp [hu'] at hle
  | some r' =>
    rw [hu'] at hle
    cases r' with
    | unranked => simp [EvaluatedRank.level] at hle
    | qualified rank' o' =>
      refine ⟨rank', o', rfl, ?_⟩
      simp only [Climb.height_some, EvaluatedRank.level] at hle
      omega

theorem atLeast_mono {m m' : RankMap} (hm : RanksBelow m m') {o : Nat} {u : Uuid}
    (h : atLeast m o u = true) : atLeast m' o u = true := by
  unfold atLeast at h ⊢
  cases hlook : m.lookup u with
  | none => simp [hlook] at h
  | some r =>
    cases r with
    | unranked => simp [hlook] at h
    | qualified name ordinal =>
      simp only [hlook, decide_eq_true_eq] at h
      obtain ⟨name', ordinal', hlook', hle⟩ := holds_of_below hm hlook
      rw [hlook']
      exact decide_eq_true (h.trans hle)

section Compare

variable {s : Prop} {ctx ctx' : EvalCtx} (h : Dominates s ctx ctx') {m m' : RankMap}
  (hm : RanksBelow m m')

/-! ## 2. Volumes and products -/

include h

variable {t : TreeInstance} {root : Uuid}

theorem legVolume_le {v v' : Dec} (hv : legVolume ctx.volumeIndex t root = .ok v)
    (hv' : legVolume ctx'.volumeIndex t root = .ok v') : v.value ≤ v'.value := by
  obtain ⟨l, hl, hv⟩ := bind_eq_ok.mp hv
  obtain ⟨l', hl', hv'⟩ := bind_eq_ok.mp hv'
  rw [hl] at hl'
  cases hl'
  rw [addAll_value (relay_eq_ok.mp hv), addAll_value (relay_eq_ok.mp hv'), map_map, map_map]
  exact add_le_add (h.volumes root) (sum_le_sum fun d _ => h.volumes d.userId)

omit h in
theorem capped_le {cap : Option Dec} {v v' : Dec} (hle : v.value ≤ v'.value) :
    (capped cap v).value ≤ (capped cap v').value := by
  cases cap with
  | none => exact hle
  | some c =>
    show (v.min c).value ≤ (v'.min c).value
    rw [value_min, value_min]
    exact min_le_min_right _ hle

theorem addLegs_le {cap : Option Dec} {l : List Node} {g g' v v' : Dec}
    (hg : g.value ≤ g'.value) (hv : l.foldlM (addLeg cap ctx.volumeIndex t) g = .ok v)
    (hv' : l.foldlM (addLeg cap ctx'.volumeIndex t) g' = .ok v') : v.value ≤ v'.value := by
  induction l generalizing g g' with
  | nil =>
    cases hv
    cases hv'
    exact hg
  | cons c l ih =>
    rw [foldlM_cons] at hv hv'
    obtain ⟨n, hn, hv⟩ := bind_eq_ok.mp hv
    obtain ⟨n', hn', hv'⟩ := bind_eq_ok.mp hv'
    obtain ⟨leg, hleg, hn⟩ := bind_eq_ok.mp hn
    obtain ⟨leg', hleg', hn'⟩ := bind_eq_ok.mp hn'
    refine ih ?_ hv hv'
    rw [tryAdd_value (relay_eq_ok.mp hn), tryAdd_value (relay_eq_ok.mp hn')]
    exact add_le_add hg (capped_le (legVolume_le h hleg hleg'))

theorem cappedGvMeets_under {p p' : DistributorPrimitives} (hp : p.Within p')
    (hsame : s → p = p') (required : AuthoredDec) (cap : Option Dec) (u : Uuid) (t : TreeInstance) :
    Under s (cappedGvMeets required cap u t ctx.volumeIndex p)
      (cappedGvMeets required cap u t ctx'.volumeIndex p') := by
  refine under_bind_of (fun hs v' hv' => ?_) fun v v' hv hv' => under_ok fun hmet => ?_
  · obtain rfl := h.same hs
    obtain rfl := hsame hs
    exact ⟨v', hv'⟩
  · obtain ⟨l, hl, hv⟩ := bind_eq_ok.mp hv
    obtain ⟨l', hl', hv'⟩ := bind_eq_ok.mp hv'
    rw [hl] at hl'
    cases hl'
    exact decide_le_mono hmet (addLegs_le h hp.personal hv hv')

omit h in
theorem requiredProductsMet_mono {p p' : DistributorPrimitives} (hp : p.Within p')
    {required : List String} (hmet : requiredProductsMet required p = true) :
    requiredProductsMet required p' = true := by
  unfold requiredProductsMet at hmet ⊢
  rw [Bool.or_eq_true, any_eq_true] at hmet ⊢
  refine hmet.imp_right fun hany => ?_
  obtain ⟨x, hx, hin⟩ := hany
  exact ⟨x, hx, contains_iff_mem.mpr (hp.products x (contains_iff_mem.mp hin))⟩

/-! ## 3. Ranks in the downline -/

include hm

theorem countsToward_under (req : DistributorCountRequirement) (t : TreeInstance) (o : Nat)
    (n : Node) : Under s (countsToward req t ctx.volumeIndex m o n)
      (countsToward req t ctx'.volumeIndex m' o n) := by
  unfold countsToward
  by_cases hat : atLeast m o n.userId = true
  · rw [if_pos hat, if_pos (atLeast_mono hm hat)]
    refine under_bind_of (fun hs v' hv' => ?_) fun v v' hv hv' => under_ok fun hmet => ?_
    · obtain rfl := h.same hs
      exact ⟨v', hv'⟩
    · exact decide_le_mono hmet (legVolume_le h (relay_eq_ok.mp hv) (relay_eq_ok.mp hv'))
  · rw [if_neg hat]
    exact under_shut _

theorem distributorCountMeets_under (req : DistributorCountRequirement) (u : Uuid) (t : TreeInstance) :
    Under s (distributorCountMeets req u t ctx.volumeIndex m ctx.rankOrdinals)
      (distributorCountMeets req u t ctx'.volumeIndex m' ctx'.rankOrdinals) := by
  rw [← h.ordinals]
  refine under_bind fun o _ => under_bind fun nodes _ => ?_
  split
  · exact under_refl _
  · exact under_countOf req.count fun n _ => countsToward_under h hm req t o n

theorem nodeMatches_under (predicate : LegPredicate) (u : Uuid) :
    Under s (nodeMatches predicate u m ctx.distributors ctx.rankOrdinals)
      (nodeMatches predicate u m' ctx'.distributors ctx'.rankOrdinals) := by
  rw [← h.ordinals]
  cases predicate with
  | containsRank minRank =>
    exact under_bind fun o _ => under_ok fun hat => atLeast_mono hm hat
  | containsPersonalVolume minPv =>
    simp only [nodeMatches]
    cases hp : ctx.distributors.lookup u with
    | none => exact under_shut _
    | some p =>
      obtain ⟨p', hp', hwithin⟩ := h.distributors u p hp
      rw [hp']
      exact under_ok fun hmet => decide_le_mono hmet hwithin.personal

omit h hm in
theorem nodeMatches_returns {predicate : LegPredicate}
    {distributors : AList fun _ : Uuid => DistributorPrimitives}
    {ordinals : AList fun _ : String => Nat} {u : Uuid} {b : Bool}
    (hb : nodeMatches predicate u m distributors ordinals = .ok b) (v : Uuid) :
    ∃ b', nodeMatches predicate v m distributors ordinals = .ok b' := by
  cases predicate with
  | containsRank minRank =>
    obtain ⟨o, ho, -⟩ := bind_eq_ok.mp hb
    exact ⟨_, bind_eq_ok.mpr ⟨o, ho, rfl⟩⟩
  | containsPersonalVolume minPv =>
    simp only [nodeMatches]
    cases distributors.lookup v with
    | none => exact ⟨_, rfl⟩
    | some p => exact ⟨_, rfl⟩

omit h hm in
/-- **The search of a leg of a valid tree returns** when the test of its root does. -/
theorem legContainsMatch_returns {predicate : LegPredicate} (ht : t.Valid)
    {distributors : AList fun _ : Uuid => DistributorPrimitives}
    {ordinals : AList fun _ : String => Nat} {b : Bool} (hroot : t.contains root = true)
    (hb : nodeMatches predicate root m distributors ordinals = .ok b) :
    ∃ x, legContainsMatch predicate t m distributors ordinals root = .ok x := by
  unfold legContainsMatch
  rw [bind_ok hb]
  cases b with
  | true => exact ⟨true, rfl⟩
  | false =>
    obtain ⟨nodes, hnodes⟩ := ht.getDownline_ok hroot 0
    choose p hp using nodeMatches_returns hb
    exact ⟨_, bind_eq_ok.mpr ⟨nodes, relay_eq_ok.mpr hnodes, anyOf_ok fun n _ => hp n.userId⟩⟩

theorem legContainsMatch_under {predicate : LegPredicate}
    (ht : s → t.Valid) (hroot : s → t.contains root = true) :
    Under s (legContainsMatch predicate t m ctx.distributors ctx.rankOrdinals root)
      (legContainsMatch predicate t m' ctx'.distributors ctx'.rankOrdinals root) := by
  have hnode := nodeMatches_under h hm predicate
  intro y hy
  obtain ⟨b', hb', hy⟩ := bind_eq_ok.mp hy
  refine ⟨fun hs => ?_, fun ho => ?_⟩
  · obtain ⟨b, hb⟩ := (hnode root b' hb').1 hs
    exact legContainsMatch_returns (ht hs) (hroot hs) hb
  · cases b' with
    | true =>
      cases hy
      rfl
    | false =>
      -- the root does not match above, so it does not below, and the match is further down
      obtain ⟨b, hb, ho⟩ := bind_eq_ok.mp ho
      cases b with
      | true => exact absurd ((hnode root false hb').2 hb) Bool.false_ne_true
      | false =>
        obtain ⟨nodes, hnodes, ho⟩ := bind_eq_ok.mp ho
        obtain ⟨nodes', hnodes', hy⟩ := bind_eq_ok.mp hy
        rw [hnodes] at hnodes'
        cases hnodes'
        obtain ⟨n, hn, hmatch⟩ := exists_of_anyOf ho
        cases y with
        | true => rfl
        | false => exact (hnode n.userId false (anyOf_eq_false hy n hn)).2 hmatch

theorem legQualityMeets_under (ht : s → t.Valid) (reqs : List LegQualityRequirement) (u : Uuid) :
    Under s (legQualityMeets reqs u t m ctx.distributors ctx.rankOrdinals)
      (legQualityMeets reqs u t m' ctx'.distributors ctx'.rankOrdinals) := by
  unfold legQualityMeets
  split
  · exact under_refl _
  · refine under_bind fun children hchildren => under_allOf fun req _ => ?_
    unfold legRequirementMet
    split
    · exact under_refl _
    · split
      · exact under_refl _
      · refine under_countOf req.count fun c hc => legContainsMatch_under h hm ht fun hs => ?_
        exact (ht hs).getChildren_mem (relay_eq_ok.mp hchildren) hc

/-! ## 4. One rank -/

theorem countGate_under (rank : String) (sq : StructureQualification) (u : Uuid)
    (t : TreeInstance) : Under s (countGate rank sq u t m ctx) (countGate rank sq u t m' ctx') := by
  unfold countGate
  split
  · exact (distributorCountMeets_under h hm _ u t).relay _
  · exact under_refl _

theorem downlineGates_under {p p' : DistributorPrimitives} (hp : p.Within p') (hsame : s → p = p')
    (ht : s → t.Valid) (rank : String) (sq : StructureQualification) (u : Uuid) :
    Under s (downlineGates rank sq u t m ctx p) (downlineGates rank sq u t m' ctx' p') := by
  refine under_bind fun cap _ => ?_
  exact ((cappedGvMeets_under h hp hsame _ cap u t).relay _).andThen
    ((countGate_under h hm rank sq u t).andThen ((legQualityMeets_under h hm ht _ u).relay _))

theorem structureMet_under {p p' : DistributorPrimitives} (hp : p.Within p') (hsame : s → p = p')
    (rank : String) (u : Uuid) (sq : StructureQualification) :
    Under s (structureMet rank u m ctx p sq) (structureMet rank u m' ctx' p' sq) := by
  unfold structureMet
  rw [← h.trees]
  cases htree : ctx.trees.lookup sq.structureName with
  | none => exact under_refl _
  | some t =>
    simp only
    split
    · exact under_refl _
    · by_cases hpv : pvMeets sq.personalVolume p = true
      · have hpv' : pvMeets sq.personalVolume p' = true := decide_le_mono hpv hp.personal
        rw [if_neg (not_not.mpr hpv), if_neg (not_not.mpr hpv')]
        by_cases hretail : retailMeets sq.minRetailVolume p = true
        · have hretail' : retailMeets sq.minRetailVolume p' = true := decide_le_mono hretail hp.retail
          rw [if_neg (not_not.mpr hretail), if_neg (not_not.mpr hretail')]
          exact downlineGates_under h hm hp hsame (fun hs => h.valid hs _ t htree) rank sq u
        · rw [if_pos hretail]
          exact under_shut _
      · rw [if_pos hpv]
        exact under_shut _

omit hm in
theorem windowGate_under (rank : RankDefinition) (u : Uuid) :
    Under s (windowGate rank u ctx) (windowGate rank u ctx') := by
  unfold windowGate
  split
  · rename_i w _
    unfold windowedMeets
    rw [← h.ordinals, ← h.window]
    refine under_bind fun threshold _ => ?_
    split
    · exact under_refl _
    · refine under_ok fun hmet => decide_eq_true ((of_decide_eq_true hmet).trans ?_)
      rw [← countP_eq_length_filter, ← countP_eq_length_filter]
      exact countP_mono_left fun pid hpid => h.history u threshold pid (mem_of_mem_take hpid)
  · exact under_refl _

omit hm in
theorem tenureGate_under (rank : RankDefinition) (u : Uuid) :
    Under s (tenureGate rank u ctx) (tenureGate rank u ctx') := by
  unfold tenureGate
  split
  · rename_i t _
    unfold tenureMeets
    rw [← h.ordinals, ← h.window]
    refine under_bind fun threshold _ => ?_
    split
    · exact under_refl _
    · refine under_ok fun hmet => all_eq_true.mpr fun pid hpid => ?_
      exact h.history u threshold pid (mem_of_mem_take hpid) (all_eq_true.mp hmet pid hpid)
  · exact under_refl _

/-- **A rank met below is met above.** -/
theorem satisfies_under (rank : RankDefinition) (u : Uuid) :
    Under s (satisfies rank u m ctx) (satisfies rank u m' ctx') := by
  unfold satisfies
  cases hp : ctx.distributors.lookup u with
  | none => exact under_shut _
  | some p =>
    obtain ⟨p', hp', hwithin⟩ := h.distributors u p hp
    have hsame : s → p = p' := by
      intro hs
      obtain rfl := h.same hs
      exact Option.some.inj (hp.symm.trans hp')
    rw [hp']
    simp only
    by_cases hproducts : requiredProductsMet rank.qualification.requiredProducts p = true
    · rw [if_neg (not_not.mpr hproducts), if_neg (not_not.mpr (requiredProductsMet_mono hwithin hproducts))]
      exact (under_allOf fun sq _ => structureMet_under h hm hwithin hsame rank.name u sq).andThen
        ((windowGate_under h rank u).andThen (tenureGate_under h rank u))
    · rw [if_pos hproducts]
      exact under_shut _

/-! ## 5. The ladder -/

theorem ascent_under {u : Uuid} {l : List RankDefinition} {c c' r' : RankDefinition}
    (hl : (c :: l).Pairwise fun a b => a.ordinal ≤ b.ordinal) (hc : c.ordinal ≤ c'.ordinal)
    (hr' : l.foldlM (ascend u m' ctx') c' = .ok r') : (s → ∃ r, l.foldlM (ascend u m ctx) c = .ok r) ∧
      ∀ r, l.foldlM (ascend u m ctx) c = .ok r → r.ordinal ≤ r'.ordinal := by
  induction l generalizing c c' with
  | nil =>
    cases hr'
    exact ⟨fun _ => ⟨c, rfl⟩, fun r hr => by cases hr; exact hc⟩
  | cons rank l ih =>
    obtain ⟨hfirst, hrest⟩ := pairwise_cons.mp hl
    have hskip : (c :: l).Pairwise fun a b => a.ordinal ≤ b.ordinal :=
      pairwise_cons.mpr ⟨fun x hx => hfirst x (mem_cons_of_mem _ hx), (pairwise_cons.mp hrest).2⟩
    rw [foldlM_cons] at hr'
    obtain ⟨d', hd', hr'⟩ := bind_eq_ok.mp hr'
    obtain ⟨b', hb', hd'⟩ := bind_eq_ok.mp hd'
    obtain ⟨hret, hopen⟩ := satisfies_under h hm rank u b' hb'
    have hup : c.ordinal ≤ d'.ordinal := by
      cases b' with
      | true =>
        cases hd'
        exact hfirst _ mem_cons_self
      | false =>
        cases hd'
        exact hc
    have hmet : b' = true → d' = rank := by
      intro hb
      subst hb
      cases hd'
      rfl
    constructor
    · intro hs
      obtain ⟨b, hb⟩ := hret hs
      cases b with
      | true =>
        have hd : rank.ordinal ≤ d'.ordinal := (hmet (hopen hb)) ▸ le_rfl
        obtain ⟨r, hr⟩ := (ih hrest hd hr').1 hs
        exact ⟨r, by rw [foldlM_cons, ascend, bind_ok hb]; exact hr⟩
      | false =>
        obtain ⟨r, hr⟩ := (ih hskip hup hr').1 hs
        exact ⟨r, by rw [foldlM_cons, ascend, bind_ok hb]; exact hr⟩
    · intro r hr
      rw [foldlM_cons] at hr
      obtain ⟨d, hd, hr⟩ := bind_eq_ok.mp hr
      obtain ⟨b, hb, hd⟩ := bind_eq_ok.mp hd
      cases b with
      | true =>
        cases hd
        exact (ih hrest ((hmet (hopen hb)) ▸ le_rfl) hr').2 r hr
      | false =>
        cases hd
        exact (ih hskip hup hr').2 r hr

/-- **The rank found above is at least the one found below**, and with `s` the lower evaluation
    returns wherever the higher one does. -/
theorem evaluateDistributor_under (hranks : ctx.ranks.Pairwise fun a b => a.ordinal ≤ b.ordinal)
    {u : Uuid} {r' : EvaluatedRank} (hr' : evaluateDistributor u m' ctx' = .ok r') :
    (s → ∃ r, evaluateDistributor u m ctx = .ok r) ∧
      ∀ r, evaluateDistributor u m ctx = .ok r → r.level ≤ r'.level := by
  unfold evaluateDistributor at hr' ⊢
  rw [← h.ranks] at hr'
  cases hladder : ctx.ranks with
  | nil =>
    rw [hladder] at hr'
    cases hr'
    exact ⟨fun _ => ⟨_, rfl⟩, fun r hr => by cases hr; exact le_rfl⟩
  | cons base higher =>
    rw [hladder] at hr' hranks
    obtain ⟨c', hc', hr'⟩ := bind_eq_ok.mp hr'
    cases hr'
    obtain ⟨hret, hle⟩ := ascent_under h hm hranks le_rfl hc'
    refine ⟨fun hs => ?_, fun r hr => ?_⟩
    · obtain ⟨c, hc⟩ := hret hs
      exact ⟨c.held, bind_eq_ok.mpr ⟨c, hc, rfl⟩⟩
    · obtain ⟨c, hc, hr⟩ := bind_eq_ok.mp hr
      cases hr
      exact Nat.succ_le_succ (hle c hc)

end Compare

end MlmForge.Rank
