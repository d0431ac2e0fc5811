/-
  Subject:   Pairing over a run of periods: nothing is paid or carried that did not arrive.

  * **`pairing_pays_what_arrived`** -- the account of a whole run.
-/
import MlmForge.Commission.Binary

namespace MlmForge.Commission

open Engine Rank Query List Dec Maps

/-! ## 1. One position -/

/-- The volume matched at a position, if it was eligible. -/
def matchedAt (prep : Prepared) (ownership : Option Ownership) (u : Uuid) (l : LegVolumes) : ℚ :=
  if prep.mayBePaid ownership u then min l.left.value l.right.value else 0

section Position

variable {lib : DecimalLib} {pairing : PairingConfig} {multiplier : AuthoredDec} {prep : Prepared}
  {ownership : Option Ownership} {u : Uuid} {l : LegVolumes}

theorem pairPosition_ok (hl : prep.legs.lookup u = some l) {o : Option BinaryCommissionEarning}
    (h : pairPosition lib pairing multiplier prep ownership u = .ok o) :
    (∀ e, o = some e → e.positionId = u) ∧
      o.elim 0 (fun e => e.matchedVolume.value) = matchedAt prep ownership u l := by
  unfold pairPosition at h
  rw [bind_ok (Prepared.legsOf_eq_ok.mpr hl)] at h
  simp only at h
  unfold matchedAt
  split at h
  · rename_i hnot
    cases h
    refine ⟨nofun, ?_⟩
    rcases hnot with hnot | hzero
    · simp [hnot]
    · rw [isZero_iff, value_min] at hzero
      simp [hzero]
  · rename_i hpays
    rw [not_or, Bool.not_eq_false] at hpays
    obtain ⟨amounts, _, h⟩ := bind_eq_ok.mp h
    cases h
    refine ⟨fun e he => ?_, ?_⟩
    · cases he
      rfl
    · rw [if_pos hpays.1]
      exact value_min l.left l.right

variable {mode : VolumeAfterPayout} {matched : Dec} {rest : LegVolumes}

theorem legsAfterPayout_values (h : legsAfterPayout mode l matched = .ok rest) :
    (mode = .fullFlush ∧ rest.left.value = 0 ∧ rest.right.value = 0) ∨
    (mode = .netOff ∧ rest.left.value = l.left.value - matched.value ∧
      rest.right.value = l.right.value - matched.value) ∨
    (mode = .carryForward ∧ l.left.value ≤ l.right.value ∧ rest.left.value = 0 ∧
      rest.right.value = l.right.value - matched.value) ∨
    (mode = .carryForward ∧ l.right.value < l.left.value ∧
      rest.left.value = l.left.value - matched.value ∧ rest.right.value = 0) := by
  cases mode with
  | fullFlush =>
    cases h
    exact .inl ⟨rfl, value_zero, value_zero⟩
  | netOff =>
    obtain ⟨left, hleft, h⟩ := bind_eq_ok.mp h
    obtain ⟨right, hright, h⟩ := bind_eq_ok.mp h
    cases h
    exact .inr (.inl ⟨rfl, trySub_value hleft, trySub_value hright⟩)
  | carryForward =>
    simp only [legsAfterPayout] at h
    split at h
    · rename_i hweaker
      obtain ⟨right, hright, h⟩ := bind_eq_ok.mp h
      cases h
      exact .inr (.inr (.inl ⟨rfl, le_iff.mp hweaker, value_zero, trySub_value hright⟩))
    · rename_i hweaker
      obtain ⟨left, hleft, h⟩ := bind_eq_ok.mp h
      cases h
      rw [le_iff, not_le] at hweaker
      exact .inr (.inr (.inr ⟨rfl, hweaker, trySub_value hleft, value_zero⟩))

theorem legsAfterPayout_on
    (hle : ∀ leg, matched.value ≤ (l.on leg).value) (h : legsAfterPayout mode l matched = .ok rest)
    (leg : BinaryLeg) : 0 ≤ (rest.on leg).value ∧ (rest.on leg).value + matched.value ≤ (l.on leg).value := by
  have hleft : matched.value ≤ l.left.value := hle .left
  have hright : matched.value ≤ l.right.value := hle .right
  rcases legsAfterPayout_values h with ⟨_, hl, hr⟩ | ⟨_, hl, hr⟩ | ⟨_, _, hl, hr⟩ | ⟨_, _, hl, hr⟩ <;>
    cases leg <;> simp only [LegVolumes.on] <;> constructor <;> linarith

/-- A leg that held only what was matched is empty afterwards, unless nothing is subtracted from it. -/
theorem legsAfterPayout_spent (hmode : mode ≠ .fullFlush)
    (hmatched : matched.value = min l.left.value l.right.value)
    (h : legsAfterPayout mode l matched = .ok rest) : rest.left.value = 0 ∨ rest.right.value = 0 := by
  rcases legsAfterPayout_values h with ⟨hflush, _⟩ | ⟨_, hl, hr⟩ | ⟨_, _, hl, _⟩ | ⟨_, _, _, hr⟩
  · exact absurd hflush hmode
  · rw [hmatched] at hl hr
    rcases le_total l.left.value l.right.value with hle | hle
    · exact .inl (by rw [hl, min_eq_left hle, sub_self])
    · exact .inr (by rw [hr, min_eq_right hle, sub_self])
  · exact .inl hl
  · exact .inr hr

/-- What one period does to the legs of a position. -/
structure CarriesAfter (mode : VolumeAfterPayout) (l : LegVolumes) (paid : Bool) (c : LegVolumes) : Prop where
  nonneg : ∀ leg, 0 ≤ (c.on leg).value
  bounded : ∀ leg, (if paid then min l.left.value l.right.value else 0) + (c.on leg).value ≤ (l.on leg).value
  spent : paid = true → mode ≠ .fullFlush → c.left.value = 0 ∨ c.right.value = 0

variable {entry : Uuid × LegVolumes}

theorem carryPosition_fst (h : carryPosition pairing prep ownership u = .ok entry) : entry.1 = u := by
  obtain ⟨l, _, h⟩ := bind_eq_ok.mp h
  obtain ⟨rest, _, h⟩ := bind_eq_ok.mp h
  cases h
  rfl

theorem carryPosition_ok (hl : prep.legs.lookup u = some l) (hpos : ∀ leg, 0 ≤ (l.on leg).value)
    (h : carryPosition pairing prep ownership u = .ok entry) :
    entry.1 = u ∧ CarriesAfter pairing.volumeAfterPayout l (prep.mayBePaid ownership u) entry.2 := by
  unfold carryPosition at h
  rw [bind_ok (Prepared.legsOf_eq_ok.mpr hl)] at h
  obtain ⟨rest, hrest, h⟩ := bind_eq_ok.mp h
  cases h
  rw [relay_eq_ok] at hrest
  have hmatched : (if prep.mayBePaid ownership u then l.left.min l.right else zero).value =
      if prep.mayBePaid ownership u then min l.left.value l.right.value else 0 := by
    split
    · exact value_min l.left l.right
    · exact value_zero
  have hle : ∀ leg, (if prep.mayBePaid ownership u then min l.left.value l.right.value else 0) ≤
      (l.on leg).value := by
    intro leg
    split
    · cases leg with
      | left => exact min_le_left _ _
      | right => exact min_le_right _ _
    · exact hpos leg
  have hon := legsAfterPayout_on (fun leg => hmatched.le.trans (hle leg)) hrest
  have hcap := fun leg => capCarried_on pairing.carryForwardCap leg (hon leg).1
  refine ⟨rfl, fun leg => (hcap leg).1, fun leg => ?_, fun hpaid hmode => ?_⟩
  · have hrest := (hon leg).2
    rw [hmatched] at hrest
    linarith [(hcap leg).2]
  · rw [hpaid] at hrest hmatched
    have hzero : ∀ leg, (rest.on leg).value = 0 →
        ((capCarried pairing.carryForwardCap rest).on leg).value = 0 :=
      fun leg h0 => le_antisymm ((hcap leg).2.trans h0.le) (hcap leg).1
    exact (legsAfterPayout_spent hmode hmatched hrest).imp (hzero .left) (hzero .right)

end Position

/-! ## 2. One period -/

/-- The inputs of one call, apart from what was carried. -/
structure Period where
  order : HashOrder Site
  tree : BinaryTree
  valid : tree.Valid
  plan : CompensationPlan
  volumeToDollarMultiplier : Option AuthoredDec
  pairing : PairingConfig
  snapshots : Snapshots
  volume : List VolumeSource
  ownership : Option Ownership

def Period.calculate (lib : DecimalLib) (p : Period) (carryForward : LegMap) :
    Query CalculationError BinaryCalculationResult :=
  calculateBinaryPairing lib p.order p.tree p.plan ⟨⟨p.volumeToDollarMultiplier, .pairing p.pairing⟩⟩ p.snapshots
    p.volume carryForward p.ownership

/-- Whether a position could be paid: its owner is in the snapshots and eligible. -/
def Period.Eligible (p : Period) (u : Uuid) : Prop :=
  ∃ s, p.snapshots.lookup (resolveOwner u p.ownership) = some s ∧ isEligible s p.plan.eligibility = true

/-- The matched volume that was paid to a position. -/
def matchedVolumePaid (earnings : List BinaryCommissionEarning) (u : Uuid) : ℚ :=
  ((earnings.filter fun e => e.positionId = u).map fun e => e.matchedVolume.value).sum

theorem matchedVolumePaid_perm {earnings earnings' : List BinaryCommissionEarning}
    (h : (earnings.map BinaryCommissionEarning.basis).Perm (earnings'.map BinaryCommissionEarning.basis))
    (u : Uuid) : matchedVolumePaid earnings u = matchedVolumePaid earnings' u := by
  have hbasis : ∀ l : List BinaryCommissionEarning, matchedVolumePaid l u =
      matchedVolumePaid (l.map BinaryCommissionEarning.basis) u := by
    intro l
    unfold matchedVolumePaid
    rw [filter_map, map_map]
    rfl
  rw [hbasis earnings, hbasis earnings']
  exact ((h.filter _).map _).sum_eq

/-- **One period's account**: on each leg, what was paid and is carried is at most what was carried and
    arrived. -/
theorem Period.conserves {lib : DecimalLib} {p : Period} {carryForward : LegMap}
    {r : BinaryCalculationResult} (h : p.calculate lib carryForward = .ok r) (u : Uuid) :
    (∀ leg, 0 ≤ carriedOn r.carryForward u leg) ∧
    (∀ leg, matchedVolumePaid r.earnings u + carriedOn r.carryForward u leg ≤
      carriedOn carryForward u leg + arrived p.tree p.volume u leg) ∧
    (p.Eligible u → p.pairing.volumeAfterPayout ≠ .fullFlush →
      carriedOn r.carryForward u .left = 0 ∨ carriedOn r.carryForward u .right = 0) := by
  obtain ⟨_, h⟩ := seq_eq_ok.mp h
  obtain ⟨minorUnits, _, h⟩ := bind_eq_ok.mp h
  obtain ⟨_, h⟩ := seq_eq_ok.mp h
  obtain ⟨prep, hprep, h⟩ := bind_eq_ok.mp h
  obtain ⟨earned, hearned, h⟩ := bind_eq_ok.mp h
  obtain ⟨earnings, hearnings, h⟩ := bind_eq_ok.mp h
  obtain ⟨carried, hcarried, h⟩ := bind_eq_ok.mp h
  cases h
  have hp := prepare_ok p.valid hprep
  have hlegs : ∀ x ∈ prep.positions, ∃ l, prep.legs.lookup x = some l := fun x hx => hp.listed.mp hx
  -- what was paid is what the visit of the position yielded
  have hpaid : matchedVolumePaid (sortEarnings earnings) u = matchedVolumePaid earned.reduceOption u :=
    matchedVolumePaid_perm (((sortEarnings_perm earnings).map _).trans
      (finalizeEarnings_basis (relay_eq_ok.mp hearnings))) u
  have hvisits : List.Forall₂ (fun x o => x ∈ prep.positions ∧
      pairPosition lib p.pairing (p.volumeToDollarMultiplier.getD p.plan.volume.volumeToDollarMultiplier) prep
        p.ownership x = .ok o) prep.positions earned :=
    forall₂_mem_of_mapM hearned
  obtain ⟨hout, hin⟩ := filter_visits BinaryCommissionEarning.positionId (fun x e hx => by
    obtain ⟨l, hl⟩ := hlegs x hx.1
    exact (pairPosition_ok hl hx.2).1 e rfl) u hvisits hp.nodup
  have hkeys : (carried.map Prod.fst).Nodup := by
    rw [map_of_mapM hcarried fun x entry hentry => carryPosition_fst hentry, map_id']
    exact hp.nodup
  by_cases hu : u ∈ prep.positions
  · obtain ⟨l, hl⟩ := hlegs u hu
    obtain ⟨o, ho, hlist⟩ := hin hu
    obtain ⟨entry, hmem, hentry⟩ := exists_mem_of_mapM hcarried hu
    obtain ⟨hfst, hafter⟩ := carryPosition_ok hl (hp.working_nonneg hl) hentry
    have hlook : (collect carried).lookup u = some entry.2 :=
      (lookup_collect hkeys).mpr (by rw [← hfst]; exact hmem)
    have hon : ∀ leg, carriedOn (collect carried) u leg = (entry.2.on leg).value := by
      intro leg
      rw [carriedOn, hlook]
    have hmatched : matchedVolumePaid (sortEarnings earnings) u =
        if prep.mayBePaid p.ownership u then min l.left.value l.right.value else 0 := by
      rw [hpaid, matchedVolumePaid, hlist, sum_toList]
      exact (pairPosition_ok hl ho.2).2
    refine ⟨fun leg => ?_, fun leg => ?_, fun heligible hmode => ?_⟩
    · rw [hon leg]
      exact hafter.nonneg leg
    · rw [hon leg, hmatched, add_comm (carriedOn carryForward u leg), ← hp.working hl leg]
      exact hafter.bounded leg
    · obtain ⟨s, hs, hok⟩ := heligible
      have hmay : prep.mayBePaid p.ownership u = true := by
        rw [hp.eligible u, hs]
        exact hok
      rw [hon, hon]
      exact hafter.spent hmay hmode
  · -- a position that is not in the tree is not paid and carries nothing
    have hnone : (collect carried).lookup u = none := by
      refine Option.eq_none_iff_forall_not_mem.mpr fun c hc => hu ?_
      obtain ⟨x, hx, hentry⟩ := exists_of_mem_mapM hcarried ((lookup_collect hkeys).mp hc)
      rw [show u = x from carryPosition_fst hentry]
      exact hx
    have hon : ∀ leg, carriedOn (collect carried) u leg = 0 := by
      intro leg
      rw [carriedOn, hnone]
    have hzero : matchedVolumePaid (sortEarnings earnings) u = 0 := by
      rw [hpaid, matchedVolumePaid, hout hu]
      rfl
    refine ⟨fun leg => (hon leg).ge, fun leg => ?_, fun _ _ => .inl (hon .left)⟩
    rw [hon leg, hzero, add_zero]
    exact add_nonneg (hp.carried u leg) (hp.arriving u leg)

/-! ## 3. A run of periods -/

/-- What is carried after the last period. -/
def lastCarried (carryForward : LegMap) (results : List BinaryCalculationResult) : LegMap :=
  (results.getLast?.map BinaryCalculationResult.carryForward).getD carryForward

theorem lastCarried_cons (carryForward : LegMap) (r : BinaryCalculationResult)
    (results : List BinaryCalculationResult) :
    lastCarried carryForward (r :: results) = lastCarried r.carryForward results := by
  unfold lastCarried
  rw [getLast?_cons]
  cases results.getLast? <;> rfl

/-- **Pairing never pays or carries volume that did not arrive**: over any run of periods, for every position
    and each of its legs, the matched volume that was paid and the volume carried after the last period are at
    most what was carried at the start and the volume of the leg's subtree in each period. No carried leg is
    negative, and after a period in which the position was eligible, unless both legs are flushed, one of them
    is empty. -/
theorem pairing_pays_what_arrived (lib : DecimalLib) (carryForward : LegMap) (periods : List Period)
    (results : List BinaryCalculationResult) (h : runPeriods (fun p => p.calculate lib) carryForward periods = .ok results)
    (u : Uuid) : (∀ leg, (results.map fun r => matchedVolumePaid r.earnings u).sum +
        carriedOn (lastCarried carryForward results) u leg ≤
      carriedOn carryForward u leg + (periods.map fun p => arrived p.tree p.volume u leg).sum) ∧
    List.Forall₂ (fun p r => (∀ leg, 0 ≤ carriedOn r.carryForward u leg) ∧
      (p.Eligible u → p.pairing.volumeAfterPayout = .netOff ∨ p.pairing.volumeAfterPayout = .carryForward →
        carriedOn r.carryForward u .left = 0 ∨ carriedOn r.carryForward u .right = 0)) periods results := by
  induction periods generalizing carryForward results with
  | nil =>
    cases h
    refine ⟨fun leg => ?_, .nil⟩
    simp [lastCarried]
  | cons p periods ih =>
    obtain ⟨r, hr, h⟩ := bind_eq_ok.mp h
    obtain ⟨rest, hrest, h⟩ := bind_eq_ok.mp h
    cases h
    obtain ⟨hnonneg, hbound, hspent⟩ := Period.conserves hr u
    obtain ⟨hrun, hall⟩ := ih r.carryForward rest hrest
    refine ⟨fun leg => ?_, .cons ⟨hnonneg, fun heligible hmode => hspent heligible ?_⟩ hall⟩
    · rw [map_cons, sum_cons, map_cons, sum_cons, lastCarried_cons]
      linarith [hrun leg, hbound leg]
    · rcases hmode with hmode | hmode <;> rw [hmode] <;> decide

/-- A period that brings 90 to the left leg and 50 to the right one, and pays what is matched. -/
def smallPeriod : Period where
  order := HashOrder.asListed
  tree := smallTree
  valid := smallTree_valid
  plan := smallPlan
  volumeToDollarMultiplier := none
  pairing := ⟨one, .weakerLeg, none, .netOff, none, .perPosition⟩
  snapshots := smallSnapshots
  volume := [⟨2, whole 90 rfl⟩, ⟨3, whole 50 rfl⟩]
  ownership := none

theorem pairing_pays_what_arrived_twice :
    ∃ results, runPeriods (fun p => p.calculate documentedLib) ∅ [smallPeriod, smallPeriod] = .ok results ∧
      (results.map fun r => matchedVolumePaid r.earnings 1) = [50, 50] ∧
      ∀ leg, (results.map fun r => matchedVolumePaid r.earnings 1).sum + carriedOn (lastCarried ∅ results) 1 leg ≤
        carriedOn ∅ 1 leg + ([smallPeriod, smallPeriod].map fun p => arrived p.tree p.volume 1 leg).sum := by
  have hpaid : (runPeriods (fun p => p.calculate documentedLib) ∅ [smallPeriod, smallPeriod]).toOption.map
      (fun results => results.map fun r => matchedVolumePaid r.earnings 1) = some [50, 50] := by
    decide +kernel
  obtain ⟨results, hresults, hmatched⟩ := Option.map_eq_some_iff.mp hpaid
  have hrun := toOption_eq_some.mp hresults
  exact ⟨results, hrun, hmatched, (pairing_pays_what_arrived documentedLib ∅ _ results hrun 1).1⟩

end MlmForge.Commission
