/-
  Subject:   Cycle/step commissions over a run of periods, against one call on all the volume.

  A full cycle takes its volume from both legs. The steps of an incomplete one do not: the legs carry over as
  they are, so the next period reaches the same steps again and pays them again.

  * **`cycle_runs_repay_unfinished_steps`** -- a run pays no more than one call on all the volume and what its
    earlier periods paid for unfinished cycles.
-/
import Mathlib.Algebra.Group.Subgroup.ZPowers.Basic
import Mathlib.Algebra.Group.Submonoid.BigOperators
import Mathlib.Algebra.Order.Group.MinMax
import MlmForge.Basis.Ladder
import MlmForge.Commission.Binary
import MlmForge.Rank.Exactness

namespace MlmForge.Commission

open Engine Rank Query List Dec Maps

/-! ## 1. Accepted configurations -/

/-- What a configuration is that the checks let through: its steps in ascending order. -/
structure Validated (config v : CycleStepConfig) : Prop where
  same : v = { config with steps := v.steps }
  perm : v.steps.Perm config.steps
  nonempty : v.steps ≠ []
  positive : ∀ step ∈ v.steps, 0 < step.threshold.value ∧ 0 < step.amount.value
  ascending : v.steps.Pairwise fun a b => a.threshold.value ≤ b.threshold.value

theorem pairwise_sortedSteps (steps : List CycleStep) :
    (steps.insertionSort fun a b => a.threshold ≤ b.threshold).Pairwise
      fun a b => a.threshold.value ≤ b.threshold.value := by
  have htotal : Std.Total fun a b : CycleStep => a.threshold ≤ b.threshold := ⟨fun a b => by
    rw [le_iff, le_iff]
    exact le_total _ _⟩
  have htrans : IsTrans CycleStep fun a b => a.threshold ≤ b.threshold := ⟨fun a b c hab hbc => by
    rw [le_iff] at hab hbc ⊢
    exact hab.trans hbc⟩
  exact (pairwise_insertionSort _ steps).imp fun h => le_iff.mp h

theorem validate_ok {config v : CycleStepConfig} (h : config.validate = .ok v) : Validated config v := by
  simp only [CycleStepConfig.validate, seq_eq_ok, stopIf_eq_ok, forM_eq_ok] at h
  obtain ⟨hne, hpos, _, _, _, _, h⟩ := h
  cases h
  have hperm : (config.steps.insertionSort fun a b => a.threshold ≤ b.threshold).Perm config.steps :=
    perm_insertionSort _ _
  refine ⟨rfl, hperm, fun hnil => ?_, fun step hstep => ?_, pairwise_sortedSteps _⟩
  · rw [show (config.steps.insertionSort fun a b => a.threshold ≤ b.threshold) = [] from hnil] at hperm
    exact hne hperm.nil_eq.symm
  · have hstep := hpos step (hperm.mem_iff.mp hstep)
    simp only [le_iff, value_zero, not_le] at hstep
    exact hstep

/-- The steps of an accepted configuration; the last one is the highest. -/
def Validated.ladder {config v : CycleStepConfig} (h : Validated config v) : Ladder ℚ where
  steps := v.steps.map fun step => (step.threshold.value, step.amount.value)
  top := (v.steps.getLast h.nonempty).threshold.value
  top_pos := (h.positive _ (getLast_mem h.nonempty)).1
  le_top := by
    intro step hstep
    obtain ⟨s, hs, rfl⟩ := mem_map.mp hstep
    exact h.ascending.rel_getLast_of_rel_getLast_getLast hs (le_refl _)
  amount_nonneg := by
    intro step hstep
    obtain ⟨s, hs, rfl⟩ := mem_map.mp hstep
    exact (h.positive s hs).2.le

/-! ## 2. One pair of legs -/

section Legs

variable {config v : CycleStepConfig} (hv : Validated config v) {l : LegVolumes}

/-- The weaker of two legs. -/
def LegVolumes.weaker (l : LegVolumes) : ℚ := min l.left.value l.right.value

variable {cycled : LegVolumes × Dec}

theorem fullCycles_ok {sum : Dec} (hsum : sum.value = hv.ladder.full) (hl : 0 ≤ l.weaker)
    (h : fullCycles .carryForward (v.steps.getLast hv.nonempty).threshold sum l = .ok cycled) :
    cycled.2.value = hv.ladder.cycles l.weaker * hv.ladder.full ∧
      ∀ leg, (cycled.1.on leg).value = (l.on leg).value - hv.ladder.cycles l.weaker * hv.ladder.top := by
  have hmatched : (l.left.min l.right).value = l.weaker := value_min _ _
  simp only [fullCycles] at h
  split at h
  · obtain ⟨cycles, hcycles, h⟩ := bind_eq_ok.mp h
    obtain ⟨paid, hpaid, h⟩ := bind_eq_ok.mp h
    obtain ⟨total, htotal, h⟩ := bind_eq_ok.mp h
    obtain ⟨consumed, hconsumed, h⟩ := bind_eq_ok.mp h
    obtain ⟨left, hleft, h⟩ := bind_eq_ok.mp h
    obtain ⟨right, hright, h⟩ := bind_eq_ok.mp h
    cases h
    have hcount : cycles.value = hv.ladder.cycles l.weaker := by
      rw [floorDiv_value hv.ladder.top_pos hcycles, hmatched]
      rfl
    have htaken : consumed.value = hv.ladder.cycles l.weaker * hv.ladder.top := by
      rw [tryMul_value hconsumed, hcount]
      rfl
    refine ⟨?_, fun leg => ?_⟩
    · rw [tryAdd_value htotal, tryMul_value hpaid, value_zero, zero_add, hcount, hsum]
    · cases leg with
      | left => rw [← htaken]; exact trySub_value hleft
      | right => rw [← htaken]; exact trySub_value hright
  · rename_i hbelow
    cases h
    rw [le_iff, hmatched, not_le] at hbelow
    rw [hv.ladder.cycles_eq_zero hl hbelow]
    simp

theorem remainingSteps_ok {remaining total paid : Dec}
    (h : remainingSteps v.steps remaining total = .ok paid) :
    paid.value = total.value + hv.ladder.reached remaining.value := by
  unfold remainingSteps at h
  split at h
  · cases h
  · rename_i first hfirst
    split at h
    · refine (foldlM_induction h (fun done acc => acc.value = total.value +
        ((done.filter fun step => step.threshold.value ≤ remaining.value).map
          fun step => step.amount.value).sum) (by simp) ?_).trans ?_
      · intro done step rest acc acc' _ hinv hstep
        rw [filter_append, map_append, sum_append, ← add_assoc, ← hinv]
        split at hstep
        · rename_i hreach
          rw [tryAdd_value hstep]
          simp [le_iff.mp hreach]
        · rename_i hreach
          cases hstep
          simp [not_le.mp fun hle => hreach (le_iff.mpr hle)]
      · unfold Ladder.reached Validated.ladder
        rw [filter_map, map_map]
        rfl
    · -- below the first step nothing is reached
      rename_i hbelow
      cases h
      rw [le_iff, not_le] at hbelow
      rw [hv.ladder.reached_of_lt, add_zero]
      intro step hstep
      obtain ⟨s, hs, rfl⟩ := mem_map.mp hstep
      refine hbelow.trans_le ?_
      obtain ⟨rest, hrest⟩ : ∃ rest, v.steps = first :: rest := head?_eq_some_iff.mp hfirst
      have hascending := hv.ascending
      rw [hrest] at hs hascending
      rcases mem_cons.mp hs with rfl | hs
      · exact le_refl _
      · exact (pairwise_cons.mp hascending).1 s hs

theorem cycleLegs_split (h : cycleLegs v l = .ok cycled) : ∃ sum full, sum.value = hv.ladder.full ∧
      fullCycles v.volumeAfterCycle (v.steps.getLast hv.nonempty).threshold sum l = .ok (cycled.1, full) ∧
      cycled.2.value = full.value + hv.ladder.reached cycled.1.weaker := by
  obtain ⟨sum, hsum, h⟩ := bind_eq_ok.mp h
  rw [getLast?_eq_some_getLast hv.nonempty] at h
  obtain ⟨full, hfull, h⟩ := bind_eq_ok.mp h
  obtain ⟨total, htotal, h⟩ := bind_eq_ok.mp h
  cases h
  refine ⟨sum, full.2, ?_, hfull, ?_⟩
  · rw [addAll_value hsum, value_zero, zero_add]
    unfold Ladder.full Validated.ladder
    rw [map_map, map_map]
    rfl
  · rw [remainingSteps_ok hv htotal, value_min]
    rfl

/-- **What a pair of legs earns**, and what is left of it. -/
theorem cycleLegs_ok (hmode : v.volumeAfterCycle = .carryForward) (hl : 0 ≤ l.weaker)
    (h : cycleLegs v l = .ok cycled) : cycled.2.value = hv.ladder.pays l.weaker ∧
      ∀ leg, (cycled.1.on leg).value = (l.on leg).value - hv.ladder.cycles l.weaker * hv.ladder.top := by
  obtain ⟨sum, full, hsum, hfull, htotal⟩ := cycleLegs_split hv h
  rw [hmode] at hfull
  obtain ⟨hpaid, hlegs⟩ := fullCycles_ok hv hsum hl hfull
  have hrest : cycled.1.weaker = hv.ladder.rest l.weaker := by
    have hleft := hlegs .left
    have hright := hlegs .right
    simp only [LegVolumes.on] at hleft hright
    unfold LegVolumes.weaker
    rw [hleft, hright, min_sub_sub_right]
    rfl
  refine ⟨?_, hlegs⟩
  rw [htotal, hrest, hpaid]
  rfl

end Legs

/-! ## 3. One position -/

section Position

variable {prep : Prepared} {ownership : Option Ownership} {u : Uuid}
  {y : (Uuid × LegVolumes) × Option BinaryCommissionEarning}

variable {v : CycleStepConfig}

theorem cyclePosition_place (h : cyclePosition v prep ownership u = .ok y) :
    y.1.1 = u ∧ ∀ e, y.2 = some e → e.positionId = u := by
  obtain ⟨l, _, h⟩ := bind_eq_ok.mp h
  split at h
  · cases h
    exact ⟨rfl, nofun⟩
  · obtain ⟨cycled, _, h⟩ := bind_eq_ok.mp h
    cases h
    refine ⟨rfl, fun e he => ?_⟩
    simp only [cycleStepEarning] at he
    split at he
    · cases he
    · cases he
      rfl

variable {l : LegVolumes}

theorem cyclePosition_ok {config : CycleStepConfig} (hv : Validated config v)
    (hmode : v.volumeAfterCycle = .carryForward) (hcap : v.capPerPeriod = none)
    (hlookup : prep.legs.lookup u = some l) (hmay : prep.mayBePaid ownership u = true) (hl : 0 ≤ l.weaker)
    (h : cyclePosition v prep ownership u = .ok y) :
    (∀ leg, (y.1.2.on leg).value = (l.on leg).value - hv.ladder.cycles l.weaker * hv.ladder.top) ∧
      (∀ e, y.2 = some e → e.dollarAmount.value = hv.ladder.pays l.weaker ∧
        e.matchedVolume.value = l.weaker) ∧ (y.2 = none → hv.ladder.pays l.weaker = 0) := by
  unfold cyclePosition at h
  rw [bind_ok (Prepared.legsOf_eq_ok.mpr hlookup), if_neg (by rw [hmay]; decide)] at h
  obtain ⟨cycled, hcycled, h⟩ := bind_eq_ok.mp h
  obtain ⟨hpays, hlegs⟩ := cycleLegs_ok hv hmode hl (relay_eq_ok.mp hcycled)
  cases h
  refine ⟨hlegs, ?_⟩
  simp only [cycleStepEarning]
  split
  · rename_i hzero
    refine ⟨nofun, fun _ => ?_⟩
    rw [← hpays]
    exact isZero_iff.mp hzero
  · refine ⟨fun e he => ?_, nofun⟩
    cases he
    refine ⟨?_, value_min _ _⟩
    rw [← hpays]
    unfold capAmount
    rw [hcap]
    split <;> rfl

theorem earned_of_visits {positions : List Uuid} (hnodup : positions.Nodup)
    {cycled : List ((Uuid × LegVolumes) × Option BinaryCommissionEarning)}
    (hcycled : positions.mapM (cyclePosition v prep ownership) = .ok cycled) (hu : u ∈ positions)
    (hvisit : cyclePosition v prep ownership u = .ok y) :
    ((cycled.map Prod.snd).reduceOption.filter fun e => e.positionId = u) = y.2.toList := by
  have hvisits : List.Forall₂ (fun x o => ∃ y, cyclePosition v prep ownership x = .ok y ∧ y.2 = o)
      positions (cycled.map Prod.snd) := by
    rw [forall₂_map_right_iff]
    exact (forall₂_of_mapM hcycled).imp fun x y hy => ⟨y, hy, rfl⟩
  obtain ⟨o, ⟨y', hy', ho⟩, hlist⟩ := (filter_visits BinaryCommissionEarning.positionId (fun x e hx => by
    obtain ⟨y, hy, he⟩ := hx
    exact (cyclePosition_place hy).2 e he) u hvisits hnodup).2 hu
  rw [hvisit] at hy'
  cases hy'
  rw [hlist, ho]

theorem cycled_carryForward {positions : List Uuid} (hnodup : positions.Nodup)
    {cycled : List ((Uuid × LegVolumes) × Option BinaryCommissionEarning)}
    (hcycled : positions.mapM (cyclePosition v prep ownership) = .ok cycled)
    (hlookup : prep.legs.lookup u = some l) (hy : y ∈ cycled) (hvisit : cyclePosition v prep ownership u = .ok y)
    (order : HashOrder Site) (cap : Option AuthoredDec) :
    (collect ((order.keys .cycled prep.legs).map fun uid =>
      (uid, capCarried cap (((collect (cycled.map Prod.fst)).lookup uid).getD ⟨zero, zero⟩)))).lookup
        u = some (capCarried cap y.1.2) := by
  have hpost : (collect (cycled.map Prod.fst)).lookup u = some y.1.2 := by
    refine (lookup_collect ?_).mpr ?_
    · have hkeys : cycled.map (fun y => y.1.1) = positions.map id :=
        map_of_mapM hcycled fun x y hy => (cyclePosition_place hy).1
      rw [map_map, show cycled.map (Prod.fst ∘ Prod.fst) = positions.map id from hkeys, map_id]
      exact hnodup
    · rw [← (cyclePosition_place hvisit).1]
      exact mem_map_of_mem hy
  refine (lookup_collect ?_).mpr (mem_map.mpr ⟨u, ?_, ?_⟩)
  · rw [map_map, show (Prod.fst ∘ fun uid => (uid, capCarried cap _)) = id from rfl, map_id]
    exact order.nodup_keys .cycled prep.legs
  · exact (order.mem_keys .cycled).mpr ((mem_keys_iff _).mpr ⟨l, hlookup⟩)
  · rw [hpost]
    rfl

end Position

/-! ## 4. One period -/

/-- What every call of a run shares: a tree whose positions are all eligible, and an accepted configuration
    with carry-forward after a cycle, no payout cap, and amounts of whole minor units. -/
structure CycleSetup where
  tree : BinaryTree
  valid : tree.Valid
  plan : CompensationPlan
  snapshots : Snapshots
  ownership : Option Ownership
  eligible : ∀ {u i}, tree.arena.index.lookup u = some i →
    ∃ s, snapshots.lookup (resolveOwner u ownership) = some s ∧ isEligible s plan.eligibility = true
  config : CycleStepConfig
  validated : CycleStepConfig
  accepts : config.validate = .ok validated
  carries : config.volumeAfterCycle = .carryForward
  uncapped : config.capPerPeriod = none
  places : Nat
  currency : minorUnits plan.volume.baseCurrency = some places
  whole : ∀ step ∈ config.steps, ∃ k : Int, step.amount.value = k / 10 ^ places

/-- The volume of one period, and the hash orders of its call. -/
structure CyclePeriod where
  order : HashOrder Site
  volume : List VolumeSource

/-- The dollars that were paid to a position. -/
def dollarsPaid (earnings : List BinaryCommissionEarning) (u : Uuid) : ℚ :=
  ((earnings.filter fun e => e.positionId = u).map fun e => e.dollarAmount.value).sum

namespace CycleSetup

variable (S : CycleSetup)

def calculate (lib : DecimalLib) (p : CyclePeriod) (carryForward : LegMap) :
    Query CalculationError BinaryCalculationResult :=
  calculateBinaryCycleStep lib p.order S.tree S.plan S.config S.snapshots p.volume carryForward S.ownership

/-- The steps. -/
def ladder : Ladder ℚ := (validate_ok S.accepts).ladder

/-- What a position was paid for the steps of a cycle that it did not complete. -/
def unfinishedPaid (earnings : List BinaryCommissionEarning) (u : Uuid) : ℚ :=
  ((earnings.filter fun e => e.positionId = u).map fun e =>
    S.ladder.reached (S.ladder.rest e.matchedVolume.value)).sum

/-- The weaker leg of a position in a period: what was carried and what arrived. -/
noncomputable def weakerLeg (carryForward : LegMap) (volume : List VolumeSource) (u : Uuid) : ℚ :=
  min (carriedOn carryForward u .left + arrived S.tree volume u .left)
    (carriedOn carryForward u .right + arrived S.tree volume u .right)

/-- What one period pays a position and takes from its legs. -/
structure Account (carryForward : LegMap) (p : CyclePeriod) (r : BinaryCalculationResult) (u : Uuid) : Prop where
  weaker_nonneg : 0 ≤ S.weakerLeg carryForward p.volume u
  paid : dollarsPaid r.earnings u = S.ladder.pays (S.weakerLeg carryForward p.volume u)
  unfinished : S.unfinishedPaid r.earnings u =
    S.ladder.reached (S.ladder.rest (S.weakerLeg carryForward p.volume u))
  nonneg : ∀ leg, 0 ≤ carriedOn r.carryForward u leg
  taken : ∀ leg, carriedOn r.carryForward u leg ≤ carriedOn carryForward u leg + arrived S.tree p.volume u leg -
    S.ladder.cycles (S.weakerLeg carryForward p.volume u) * S.ladder.top

theorem pays_whole (m : ℚ) : ∃ k : Int, S.ladder.pays m = k / 10 ^ S.places := by
  have hsteps : ∀ step ∈ S.ladder.steps, step.2 ∈ AddSubgroup.zmultiples ((10 : ℚ) ^ S.places)⁻¹ := by
    intro step hstep
    obtain ⟨s, hs, rfl⟩ := mem_map.mp hstep
    obtain ⟨k, hk⟩ := S.whole s ((validate_ok S.accepts).perm.mem_iff.mp hs)
    refine AddSubgroup.mem_zmultiples_iff.mpr ⟨k, ?_⟩
    rw [zsmul_eq_mul, ← div_eq_mul_inv]
    exact hk.symm
  have hpays : S.ladder.pays m ∈ AddSubgroup.zmultiples ((10 : ℚ) ^ S.places)⁻¹ := by
    unfold Ladder.pays Ladder.full Ladder.reached
    rw [← zsmul_eq_mul]
    refine add_mem (zsmul_mem (list_sum_mem fun a ha => ?_) _) (list_sum_mem fun a ha => ?_)
    · obtain ⟨step, hstep, rfl⟩ := mem_map.mp ha
      exact hsteps step hstep
    · obtain ⟨step, hstep, rfl⟩ := mem_map.mp ha
      exact hsteps step (mem_of_mem_filter hstep)
  obtain ⟨k, hk⟩ := AddSubgroup.mem_zmultiples_iff.mp hpays
  refine ⟨k, ?_⟩
  rw [← hk, zsmul_eq_mul, div_eq_mul_inv]

theorem sum_sorted (lib : DecimalLib) (places : Nat) (f : BinaryCommissionEarning → ℚ)
    (earnings : List BinaryCommissionEarning) (u : Uuid) :
    (((sortEarnings (earnings.map fun e => { e with dollarAmount := e.dollarAmount.roundMinor lib places })).filter
      fun e => e.positionId = u).map f).sum =
    ((earnings.filter fun e => e.positionId = u).map fun e =>
      f { e with dollarAmount := e.dollarAmount.roundMinor lib places }).sum := by
  rw [(((sortEarnings_perm _).filter _).map f).sum_eq, filter_map, map_map]
  rfl

/-- **What one period pays a position and takes from its legs.** -/
theorem account {lib : DecimalLib} (hlib : KeepsWholeUnits lib) {carryForward : LegMap} {p : CyclePeriod}
    {r : BinaryCalculationResult} (h : S.calculate lib p carryForward = .ok r) {u : Uuid} {i : NodeIndex}
    (hu : S.tree.arena.index.lookup u = some i) : S.Account carryForward p r u := by
  obtain ⟨v, hvalid, h⟩ := bind_eq_ok.mp h
  have hv : S.validated = v := Except.ok.inj (S.accepts.symm.trans (relay_eq_ok.mp hvalid))
  subst hv
  obtain ⟨places, hplaces, h⟩ := bind_eq_ok.mp h
  have hplaces : places = S.places := by
    unfold planMinorUnits at hplaces
    rw [S.currency] at hplaces
    exact (Except.ok.inj hplaces).symm
  subst hplaces
  obtain ⟨_, h⟩ := seq_eq_ok.mp h
  obtain ⟨prep, hprep, h⟩ := bind_eq_ok.mp h
  obtain ⟨cycled, hcycled, h⟩ := bind_eq_ok.mp h
  have hV := validate_ok S.accepts
  have hcap : S.validated.capPerPeriod = none := by
    rw [hV.same]
    exact S.uncapped
  have hmode : S.validated.volumeAfterCycle = .carryForward := by
    rw [hV.same]
    exact S.carries
  rw [hcap, ite_self] at h
  cases h
  have hp := prepare_ok S.valid hprep
  obtain ⟨l, hl⟩ := hp.member.mpr ⟨i, hu⟩
  have hposition : u ∈ prep.positions := hp.listed.mpr ⟨l, hl⟩
  have hmay : prep.mayBePaid S.ownership u = true := by
    obtain ⟨s, hs, hok⟩ := S.eligible hu
    rw [hp.eligible u, hs]
    exact hok
  have hweaker : l.weaker = S.weakerLeg carryForward p.volume u := by
    unfold LegVolumes.weaker weakerLeg
    rw [add_comm (carriedOn carryForward u .left), add_comm (carriedOn carryForward u .right),
      ← hp.working hl .left, ← hp.working hl .right]
    rfl
  have hnonneg : 0 ≤ l.weaker := le_min (hp.working_nonneg hl .left) (hp.working_nonneg hl .right)
  obtain ⟨y, hy, hvisit⟩ := exists_mem_of_mapM hcycled hposition
  obtain ⟨hlegs, hsome, hnone⟩ := cyclePosition_ok hV hmode hcap hl hmay hnonneg hvisit
  have hsum : ∀ f : BinaryCommissionEarning → ℚ, (((cycled.map Prod.snd).reduceOption.filter fun e => e.positionId = u).map f).sum =
      y.2.elim 0 f := by
    intro f
    rw [earned_of_visits hp.nodup hcycled hposition hvisit, sum_toList]
  rw [hweaker] at hsome hnone hlegs
  have hcarried := cycled_carryForward hp.nodup hcycled hl hy hvisit p.order S.validated.carryForwardCap
  have hrest : ∀ leg, 0 ≤ (y.1.2.on leg).value := by
    intro leg
    have hcycles := hV.ladder.rest_nonneg (S.weakerLeg carryForward p.volume u)
    have hle : S.weakerLeg carryForward p.volume u ≤ (l.on leg).value := by
      rw [← hweaker]
      cases leg with
      | left => exact min_le_left _ _
      | right => exact min_le_right _ _
    rw [hlegs leg]
    unfold Ladder.rest at hcycles
    linarith
  refine ⟨hweaker ▸ hnonneg, ?_, ?_, fun leg => ?_, fun leg => ?_⟩
  · refine (sum_sorted lib S.places (fun e => e.dollarAmount.value) _ u).trans ((hsum _).trans ?_)
    cases he : y.2 with
    | none => exact (hnone he).symm
    | some e =>
      obtain ⟨k, hk⟩ := S.pays_whole (S.weakerLeg carryForward p.volume u)
      have hpaid := (hsome e he).1
      exact (hlib _ _ k (hpaid.trans hk)).trans hpaid
  · refine (sum_sorted lib S.places (fun e => S.ladder.reached (S.ladder.rest e.matchedVolume.value)) _
      u).trans ((hsum _).trans ?_)
    cases he : y.2 with
    | none =>
      -- nothing at all was earned, so no step was reached
      have hzero := hnone he
      have hcycles : (0 : ℚ) ≤ S.ladder.cycles (S.weakerLeg carryForward p.volume u) := by
        rw [← hweaker]
        exact_mod_cast Int.floor_nonneg.mpr (div_nonneg hnonneg S.ladder.top_pos.le)
      have hfull := mul_nonneg hcycles S.ladder.full_nonneg
      have hreached := S.ladder.reached_nonneg (S.ladder.rest (S.weakerLeg carryForward p.volume u))
      change S.ladder.pays _ = 0 at hzero
      unfold Ladder.pays at hzero
      exact (le_antisymm (by linarith) hreached).symm
    | some e =>
      show S.ladder.reached (S.ladder.rest e.matchedVolume.value) = _
      rw [(hsome e he).2]
  · rw [carriedOn, hcarried]
    exact (capCarried_on _ leg (hrest leg)).1
  · rw [carriedOn, hcarried, add_comm (carriedOn carryForward u leg), ← hp.working hl leg]
    exact (capCarried_on _ leg (hrest leg)).2.trans (hlegs leg).le

/-! ## 5. A run of periods -/

/-- The run of the periods of a setup. -/
def run (lib : DecimalLib) : LegMap → List CyclePeriod → Query CalculationError (List BinaryCalculationResult) :=
  runPeriods (S.calculate lib)

/-- The volume of all periods together. -/
def allVolume (periods : List CyclePeriod) : List VolumeSource := (periods.map CyclePeriod.volume).flatten

section Run

variable {S} {lib : DecimalLib} {carryForward : LegMap} {p : CyclePeriod} {r : BinaryCalculationResult}
  {u : Uuid}

theorem Account.weakerLeg_le (h : S.Account carryForward p r u) (volume : List VolumeSource) :
    S.weakerLeg r.carryForward volume u + S.ladder.cycles (S.weakerLeg carryForward p.volume u) * S.ladder.top ≤
      S.weakerLeg carryForward (p.volume ++ volume) u := by
  have hleft := h.taken .left
  have hright := h.taken .right
  have hmin := min_le_left (carriedOn r.carryForward u .left + arrived S.tree volume u .left)
    (carriedOn r.carryForward u .right + arrived S.tree volume u .right)
  have hmin' := min_le_right (carriedOn r.carryForward u .left + arrived S.tree volume u .left)
    (carriedOn r.carryForward u .right + arrived S.tree volume u .right)
  refine le_min ?_ ?_
  · rw [arrived_append]
    unfold weakerLeg at hleft ⊢
    linarith
  · rw [arrived_append]
    unfold weakerLeg at hright ⊢
    linarith

theorem Account.carried_lt_top (h : S.Account carryForward p r u) :
    min (carriedOn r.carryForward u .left) (carriedOn r.carryForward u .right) < S.ladder.top := by
  have hle := h.weakerLeg_le []
  rw [append_nil] at hle
  unfold weakerLeg at hle
  simp only [arrived_nil, add_zero] at hle
  have hrest := S.ladder.rest_lt_top (S.weakerLeg carryForward p.volume u)
  unfold Ladder.rest weakerLeg at hrest
  linarith

variable {periods : List CyclePeriod} {results : List BinaryCalculationResult}

theorem exists_call_of_mem_run (h : S.run lib carryForward periods = .ok results) (hr : r ∈ results) :
    ∃ carried p, S.calculate lib p carried = .ok r := by
  induction periods generalizing carryForward results with
  | nil =>
    cases h
    exact absurd hr not_mem_nil
  | cons p periods ih =>
    obtain ⟨r', hr', h⟩ := bind_eq_ok.mp h
    obtain ⟨rest, hrest, h⟩ := bind_eq_ok.mp h
    cases h
    rcases mem_cons.mp hr with rfl | hr
    · exact ⟨carryForward, p, hr'⟩
    · exact ih hrest hr

/-- **The account of a run**, by induction over its periods: each passes on a weaker leg that has come down by
    its full cycles. -/
theorem run_account (hlib : KeepsWholeUnits lib) {i : NodeIndex} (hu : S.tree.arena.index.lookup u = some i)
    (h : S.run lib carryForward periods = .ok results) (hne : periods ≠ []) :
    (results.map fun r => dollarsPaid r.earnings u).sum ≤
      S.ladder.pays (S.weakerLeg carryForward (allVolume periods) u) +
        (results.dropLast.map fun r => S.unfinishedPaid r.earnings u).sum := by
  induction periods generalizing carryForward results with
  | nil => exact absurd rfl hne
  | cons p periods ih =>
    obtain ⟨r, hr, h⟩ := bind_eq_ok.mp h
    obtain ⟨rest, hrest, h⟩ := bind_eq_ok.mp h
    cases h
    have hacc := S.account hlib hr hu
    have hvolume : allVolume (p :: periods) = p.volume ++ allVolume periods := rfl
    rw [map_cons, sum_cons, hacc.paid, hvolume]
    cases periods with
    | nil =>
      cases hrest
      simp [allVolume]
    | cons p' periods =>
      obtain ⟨r', _, hrest'⟩ := bind_eq_ok.mp hrest
      obtain ⟨rest', _, hrest'⟩ := bind_eq_ok.mp hrest'
      cases hrest'
      have hih := ih hrest (cons_ne_nil _ _)
      have hmono := S.ladder.pays_mono (hacc.weakerLeg_le (allVolume (p' :: periods)))
      rw [S.ladder.pays_add_cycles] at hmono
      have hlast : ((r :: r' :: rest').dropLast.map fun r => S.unfinishedPaid r.earnings u).sum =
          S.ladder.reached (S.ladder.rest (S.weakerLeg carryForward p.volume u)) +
            ((r' :: rest').dropLast.map fun r => S.unfinishedPaid r.earnings u).sum := by
        rw [dropLast_cons_of_ne_nil (cons_ne_nil _ _), map_cons, sum_cons, hacc.unfinished]
      rw [hlast]
      unfold Ladder.pays at hmono hih ⊢
      linarith

end Run

end CycleSetup

/-- **What a run of cycle/step periods pays**: for every position, in total no more than one call on all the
    volume together and what the earlier periods paid for the steps of cycles that they did not complete. Less
    than a full cycle is carried. A period that brings no new volume to either leg pays the position exactly
    what its carried legs reach: the steps up to the weaker one. -/
theorem cycle_runs_repay_unfinished_steps (S : CycleSetup) (lib : DecimalLib) (hlib : KeepsWholeUnits lib)
    (carryForward : LegMap) (periods : List CyclePeriod) (results : List BinaryCalculationResult)
    (hrun : S.run lib carryForward periods = .ok results) (order : HashOrder Site)
    (one : BinaryCalculationResult)
    (hone : S.calculate lib ⟨order, CycleSetup.allVolume periods⟩ carryForward = .ok one) (u : Uuid)
    (i : NodeIndex) (hu : S.tree.arena.index.lookup u = some i) :
    (results.map fun r => dollarsPaid r.earnings u).sum ≤
        dollarsPaid one.earnings u + (results.dropLast.map fun r => S.unfinishedPaid r.earnings u).sum ∧
      (∀ r ∈ results, min (carriedOn r.carryForward u .left) (carriedOn r.carryForward u .right) < S.ladder.top) ∧
      ∀ carried p r, S.calculate lib p carried = .ok r → (∀ leg, arrived S.tree p.volume u leg = 0) →
        dollarsPaid r.earnings u = S.ladder.pays (min (carriedOn carried u .left) (carriedOn carried u .right)) ∧
        (min (carriedOn carried u .left) (carriedOn carried u .right) < S.ladder.top →
          dollarsPaid r.earnings u =
            S.ladder.reached (min (carriedOn carried u .left) (carriedOn carried u .right))) := by
  have hacc := S.account hlib hone hu
  refine ⟨?_, fun r hr => ?_, fun carried p r hr hnew => ?_⟩
  · rw [hacc.paid]
    by_cases hne : periods = []
    · subst hne
      cases hrun
      have hnonneg := S.ladder.pays_mono hacc.weaker_nonneg
      rw [S.ladder.pays_of_lt_top (le_refl 0) S.ladder.top_pos] at hnonneg
      simpa using (S.ladder.reached_nonneg 0).trans hnonneg
    · exact CycleSetup.run_account hlib hu hrun hne
  · obtain ⟨carried, p, hr⟩ := CycleSetup.exists_call_of_mem_run hrun hr
    exact (S.account hlib hr hu).carried_lt_top
  · have hperiod := S.account hlib hr hu
    have hweaker : S.weakerLeg carried p.volume u =
        min (carriedOn carried u .left) (carriedOn carried u .right) := by
      unfold CycleSetup.weakerLeg
      rw [hnew .left, hnew .right, add_zero, add_zero]
    have hpaid := hperiod.paid
    rw [hweaker] at hpaid
    refine ⟨hpaid, fun hlt => ?_⟩
    rw [hpaid, S.ladder.pays_of_lt_top (hweaker ▸ hperiod.weaker_nonneg) hlt]

def smallSteps : CycleStepConfig :=
  ⟨[⟨Dec.whole 300 rfl, Dec.whole 25 rfl⟩, ⟨Dec.whole 600 rfl, Dec.whole 75 rfl⟩,
    ⟨Dec.whole 1200 rfl, Dec.whole 125 rfl⟩], .carryForward, none, none, .perPosition⟩

theorem smallSteps_whole : ∀ step ∈ smallSteps.steps, ∃ k : Int, step.amount.value = k / 10 ^ 2 := by
  intro step hstep
  have hscale : step.amount.scale = 0 := by
    have hall : ∀ step ∈ smallSteps.steps, step.amount.scale = 0 := by decide
    exact hall step hstep
  refine ⟨step.amount.mantissa * 10 ^ 2, ?_⟩
  rw [value, hscale]
  push_cast
  ring

theorem smallTree_eligible {u : Uuid} {i : NodeIndex} (hu : smallTree.arena.index.lookup u = some i) :
    ∃ s, smallSnapshots.lookup (resolveOwner u none) = some s ∧ isEligible s smallPlan.eligibility = true := by
  have hall : ∀ e ∈ smallTree.arena.index.entries, (smallSnapshots.lookup e.1).any
      (fun s => isEligible s smallPlan.eligibility) = true := by
    decide +kernel
  have he := hall ⟨u, i⟩ (AList.mem_lookup_iff.mp hu)
  rw [Option.any_eq_true] at he
  exact he

def smallSetup : CycleSetup where
  tree := smallTree
  valid := smallTree_valid
  plan := smallPlan
  snapshots := smallSnapshots
  ownership := none
  eligible := smallTree_eligible
  config := smallSteps
  validated := smallSteps
  accepts := by decide +kernel
  carries := rfl
  uncapped := rfl
  places := 2
  currency := by decide +kernel
  whole := smallSteps_whole

/-- A period that brings 300 to each leg, and one that brings nothing. -/
def busyPeriod : CyclePeriod :=
  ⟨HashOrder.asListed, [⟨2, Dec.whole 300 rfl⟩, ⟨3, Dec.whole 300 rfl⟩]⟩

def idlePeriod : CyclePeriod := ⟨HashOrder.asListed, []⟩

theorem busyThenIdle : ∃ busy idle one,
    smallSetup.run documentedLib ∅ [busyPeriod, idlePeriod] = .ok [busy, idle] ∧
      smallSetup.calculate documentedLib ⟨HashOrder.asListed, CycleSetup.allVolume [busyPeriod, idlePeriod]⟩ ∅ =
        .ok one ∧
      dollarsPaid busy.earnings 1 = 25 ∧ dollarsPaid idle.earnings 1 = 25 ∧ dollarsPaid one.earnings 1 = 25 := by
  have hrun : (smallSetup.run documentedLib ∅ [busyPeriod, idlePeriod]).toOption.map
      (fun results => results.map fun r => dollarsPaid r.earnings 1) = some [25, 25] := by
    decide +kernel
  have hone : (smallSetup.calculate documentedLib
      ⟨HashOrder.asListed, CycleSetup.allVolume [busyPeriod, idlePeriod]⟩ ∅).toOption.map
      (fun r => dollarsPaid r.earnings 1) = some 25 := by
    decide +kernel
  obtain ⟨results, hresults, hpaid⟩ := Option.map_eq_some_iff.mp hrun
  obtain ⟨one, hcall, honce⟩ := Option.map_eq_some_iff.mp hone
  match results, hpaid with
  | [busy, idle], hpaid =>
    rw [map_cons, map_cons, map_nil, List.cons.injEq, List.cons.injEq] at hpaid
    exact ⟨busy, idle, one, toOption_eq_some.mp hresults, toOption_eq_some.mp hcall,
      hpaid.1, hpaid.2.1, honce⟩

theorem cycle_runs_repay_unfinished_steps_idle : ∃ busy idle one, KeepsWholeUnits documentedLib ∧
      smallSetup.run documentedLib ∅ [busyPeriod, idlePeriod] = .ok [busy, idle] ∧
      smallSetup.calculate documentedLib ⟨HashOrder.asListed, CycleSetup.allVolume [busyPeriod, idlePeriod]⟩ ∅ =
        .ok one ∧ dollarsPaid busy.earnings 1 + dollarsPaid idle.earnings 1 ≤
        dollarsPaid one.earnings 1 + smallSetup.unfinishedPaid busy.earnings 1 := by
  obtain ⟨busy, idle, one, hrun, hone, _⟩ := busyThenIdle
  have hbound := (cycle_runs_repay_unfinished_steps smallSetup documentedLib documentedLib_keepsWholeUnits ∅ _ _
    hrun _ one hone 1 0 (by decide +kernel)).1
  refine ⟨busy, idle, one, documentedLib_keepsWholeUnits, hrun, hone, ?_⟩
  simpa using hbound

/-- **An unfinished cycle is paid again**: a period that brings nothing to either leg pays the root what the
    period before it paid, and together they pay more than one call on all the volume. -/
theorem idle_period_is_paid_again : ∃ busy idle one, KeepsWholeUnits documentedLib ∧
      smallSetup.run documentedLib ∅ [busyPeriod, idlePeriod] = .ok [busy, idle] ∧
      smallSetup.calculate documentedLib ⟨HashOrder.asListed, CycleSetup.allVolume [busyPeriod, idlePeriod]⟩ ∅ =
        .ok one ∧ dollarsPaid one.earnings 1 < ([busy, idle].map fun r => dollarsPaid r.earnings 1).sum ∧
      (∀ leg, arrived smallSetup.tree idlePeriod.volume 1 leg = 0) ∧ dollarsPaid idle.earnings 1 = 25 := by
  obtain ⟨busy, idle, one, hrun, hone, hbusy, hidle, honce⟩ := busyThenIdle
  refine ⟨busy, idle, one, documentedLib_keepsWholeUnits, hrun, hone, ?_, fun leg => arrived_nil _ _ leg, hidle⟩
  rw [honce, map_cons, map_cons, map_nil, hbusy, hidle]
  norm_num

end MlmForge.Commission
