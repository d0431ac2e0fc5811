/-
  Subject:   How deep a distributor earns, by the number of their eligible recruits.

  The level walks look the depth up in tiers, by a count of recruits that is cast to 16 bits.

  * **`countActiveLegs_eq`** -- the count is their number, modulo `2 ^ 16`;
  * **`recruits_deepen_earning`** -- so more of them never earn less deep, as long as they are fewer than that.
-/
import Mathlib.Data.Set.Card
import MlmForge.Commission.Plan
import MlmForge.Network.Refine

namespace MlmForge.Commission.Walk

open Engine Rank Network Query List Arena Maps

/-! ## 1. The preparation -/

structure EligibilityResult where
  eligible : Bool
  maxEarningDepth : Option UInt8
  deriving DecidableEq

/-- The depth of the last tier that is reached; no limit where it is 0, or where there is no such tier. -/
def determineMaxDepth (activeLegCount : UInt16) (tiers : List ActiveLegTier) : Option UInt8 :=
  if tiers.isEmpty then none
  else match tiers.reverse.find? fun tier => tier.minActiveLegs ≤ activeLegCount with
    | some tier =>
      if tier.maxCommissionDepth = 0 then none
      else some (if tier.maxCommissionDepth ≤ 255 then tier.maxCommissionDepth.toUInt8 else 255)
    | none => none

/-- How many recruits are eligible. The last step is a cast. -/
def countActiveLegs (a : Arena) (userId : Uuid) (snapshots : Snapshots)
    (eligibility : CommissionEligibility) : Query CalculationError UInt16 :=
  match a.getSponsored userId with
  | .error (.err _) => .ok 0
  | .error (.panic msg) => .error (.panic msg)
  | .error .loop => .error .loop
  | .ok sponsored => .ok (UInt16.ofNat (sponsored.countP fun node =>
      ((snapshots.lookup node.userId).map fun s => isEligible s eligibility).getD false))

def evaluateEligibility (order : HashOrder Site) (snapshots : Snapshots) (a : Arena)
    (eligibility : CommissionEligibility) : Query CalculationError (AList fun _ : Uuid => EligibilityResult) := do
  let results ← (order.entries .eligibility snapshots).mapM fun e => do
    let eligible := isEligible e.2 eligibility
    let activeLegCount ← if eligible && !eligibility.activeLegTiers.isEmpty then
        countActiveLegs a e.1 snapshots eligibility
      else .ok 0
    .ok (e.1, EligibilityResult.mk eligible (determineMaxDepth activeLegCount eligibility.activeLegTiers))
  .ok (collect results)

/-! ## 2. The count -/

/-- The eligible distributors that a user sponsors. -/
def activeLegs (a : Arena) (snapshots : Snapshots) (eligibility : CommissionEligibility) (u : Uuid) : Set Uuid :=
  {v | (a.roster fun _ => none).SponsoredBy v u ∧
    ∃ s, snapshots.lookup v = some s ∧ isEligible s eligibility = true}

section Count

variable {a : Arena} {snapshots : Snapshots} {eligibility : CommissionEligibility} {u : Uuid}

variable {i : NodeIndex}

theorem getSponsored_ok (ha : a.Valid) (hu : a.index.lookup u = some i) :
    a.getSponsored u = .ok ((a.sponsoredOf i).map a.nodeAt) := by
  have hlive : ∀ j ∈ a.sponsoredOf i, a.Live j := fun j hj => ha.live_of_sponsor (ha.recruited.mem_iff.mp hj)
  rw [getSponsored, bind_ok (resolve_eq_ok.mpr hu), bind_ok (slot_ok (ha.live_of_lookup hu).lt)]
  exact mapM_eq_ok fun j hj => slot_ok (hlive j hj).lt

theorem sponsoredBy_iff (ha : a.Valid) (hu : a.index.lookup u = some i) {v : Uuid} :
    (a.roster fun _ => none).SponsoredBy v u ↔ ∃ j ∈ a.sponsoredOf i, a.userAt j = v := by
  constructor
  · rintro ⟨seat, hseat, hsponsor⟩
    obtain ⟨j, hj, rfl, rfl⟩ := ha.roster_eq_some.mp hseat
    obtain ⟨k, hk, hku⟩ := Option.map_eq_some_iff.mp hsponsor
    have hki : k = i := ha.userAt_inj (ha.live_sponsor hk) (hku.trans (ha.index_iff.mp hu).2.symm)
    exact ⟨j, ha.recruited.mem_iff.mpr (hki ▸ hk), rfl⟩
  · rintro ⟨j, hj, rfl⟩
    have hsponsor := ha.recruited.mem_iff.mp hj
    refine ⟨_, ha.roster_userAt (ha.live_of_sponsor hsponsor), ?_⟩
    rw [seatAt, hsponsor, ← (ha.index_iff.mp hu).2]
    rfl

theorem activeLegs_finite : (activeLegs a snapshots eligibility u).Finite := by
  refine (finite_toSet snapshots.keys).subset fun v hv => ?_
  obtain ⟨-, s, hs, -⟩ := hv
  exact (mem_keys_iff snapshots).mpr ⟨s, hs⟩

/-- **The count is the number of eligible recruits, modulo `2 ^ 16`.** -/
theorem countActiveLegs_eq (ha : a.Valid) : countActiveLegs a u snapshots eligibility =
    .ok (UInt16.ofNat (activeLegs a snapshots eligibility u).ncard) := by
  classical
  cases hu : a.index.lookup u with
  | none =>
    have hempty : activeLegs a snapshots eligibility u = ∅ := by
      refine Set.eq_empty_of_forall_notMem fun v hv => ?_
      obtain ⟨⟨seat, hseat, hsponsor⟩, -⟩ := hv
      obtain ⟨j, hj, -, rfl⟩ := ha.roster_eq_some.mp hseat
      obtain ⟨k, hk, rfl⟩ := Option.map_eq_some_iff.mp hsponsor
      rw [userAt, ha.lookup_of_live (ha.live_sponsor hk)] at hu
      cases hu
    rw [hempty, Set.ncard_empty]
    unfold countActiveLegs getSponsored resolve
    rw [hu]
    rfl
  | some i =>
    -- the recruits in the list, each once, by their ids
    let counts : Uuid → Bool := fun v => ((snapshots.lookup v).map fun s => isEligible s eligibility).getD false
    let ids := ((a.sponsoredOf i).map a.userAt).filter counts
    have hnodup : ids.Nodup := by
      refine ((ha.recruited.nodup i).map_on fun j hj k _ hjk => ?_).filter _
      exact ha.userAt_inj (ha.live_of_sponsor (ha.recruited.mem_iff.mp hj)) hjk
    have hset : activeLegs a snapshots eligibility u = (ids.toFinset : Set Uuid) := by
      ext v
      rw [coe_toFinset, Set.mem_ofPred_eq, mem_filter, mem_map, ← sponsoredBy_iff ha hu]
      refine and_congr Iff.rfl ?_
      cases hs : snapshots.lookup v <;> simp [counts, hs]
    rw [hset, Set.ncard_coe_finset, toFinset_card_of_nodup hnodup, ← countP_eq_length_filter,
      countP_map, countActiveLegs, getSponsored_ok ha hu]
    dsimp only
    rw [countP_map]
    rfl

theorem evaluateEligibility_ok (ha : a.Valid) (order : HashOrder Site) {s : DistributorSnapshot}
    (hs : snapshots.lookup u = some s) (heligible : isEligible s eligibility = true) :
    ∃ results, evaluateEligibility order snapshots a eligibility = .ok results ∧
      results.lookup u = some ⟨true, determineMaxDepth
        (UInt16.ofNat (activeLegs a snapshots eligibility u).ncard) eligibility.activeLegTiers⟩ := by
  let result : (Sigma fun _ : Uuid => DistributorSnapshot) → EligibilityResult := fun e =>
    ⟨isEligible e.2 eligibility, determineMaxDepth
      (if isEligible e.2 eligibility && !eligibility.activeLegTiers.isEmpty then
        UInt16.ofNat (activeLegs a snapshots eligibility e.1).ncard else 0) eligibility.activeLegTiers⟩
  have hrun : evaluateEligibility order snapshots a eligibility =
      .ok (collect ((order.entries .eligibility snapshots).map fun e => (e.1, result e))) := by
    unfold evaluateEligibility
    rw [bind_ok (mapM_eq_ok fun e _ => ?_)]
    dsimp only [result]
    split
    · rw [bind_ok (countActiveLegs_eq ha)]
    · rfl
  refine ⟨_, hrun, ?_⟩
  rw [lookup_collect_entries, hs, Option.map_some]
  -- without tiers the count is not looked at
  cases htiers : eligibility.activeLegTiers <;> simp [result, heligible, htiers, determineMaxDepth]

end Count

/-! ## 3. The tiers -/

/-- A depth, where 0 or none stands for no limit. -/
def ActiveLegTier.reach (tier : ActiveLegTier) : WithTop ℕ :=
  if tier.maxCommissionDepth = 0 then ⊤ else (tier.maxCommissionDepth.toNat : ℕ)

def EligibilityResult.reach (r : EligibilityResult) : WithTop ℕ :=
  match r.maxEarningDepth with
  | none => ⊤
  | some depth => (depth.toNat : ℕ)

/-- Tiers as the documents ask for them: a first one for everybody, and more legs reach as deep or deeper. -/
structure AscendingTiers (tiers : List ActiveLegTier) : Prop where
  base : ∃ tier ∈ tiers, tier.minActiveLegs = 0
  legs : tiers.Pairwise fun x y => x.minActiveLegs ≤ y.minActiveLegs
  deeper : tiers.Pairwise fun x y => ActiveLegTier.reach x ≤ ActiveLegTier.reach y

theorem exists_find?_of_imp {α : Type} {p q : α → Bool} {R : α → α → Prop} (hpq : ∀ x, p x = true → q x = true) :
    ∀ {l : List α} {x : α}, l.Pairwise R → l.find? p = some x → ∃ y, l.find? q = some y ∧ (y = x ∨ R y x) := by
  intro l
  induction l with
  | nil => exact nofun
  | cons z l ih =>
    intro x hl hx
    rw [pairwise_cons] at hl
    by_cases hp : p z = true
    · rw [find?_cons_of_pos hp, Option.some.injEq] at hx
      exact ⟨z, find?_cons_of_pos (hpq z hp), .inl hx⟩
    · rw [find?_cons_of_neg hp] at hx
      by_cases hq : q z = true
      · exact ⟨z, find?_cons_of_pos hq, .inr (hl.1 x (mem_of_find?_eq_some hx))⟩
      · obtain ⟨y, hy, hyx⟩ := ih hl.2 hx
        exact ⟨y, by rw [find?_cons_of_neg hq, hy], hyx⟩

variable {eligible : Bool} {c : UInt16} {tiers : List ActiveLegTier}

theorem reach_of_find? {tier : ActiveLegTier}
    (h : tiers.reverse.find? (fun tier => tier.minActiveLegs ≤ c) = some tier) :
    EligibilityResult.reach ⟨eligible, determineMaxDepth c tiers⟩ =
      if tier.maxCommissionDepth = 0 then ⊤ else ((min tier.maxCommissionDepth.toNat 255 : ℕ) : WithTop ℕ) := by
  have hne : ¬ tiers.isEmpty = true := by
    rintro hnil
    rw [List.isEmpty_iff.mp hnil] at h
    cases h
  unfold EligibilityResult.reach determineMaxDepth
  rw [if_neg hne, h]
  dsimp only
  by_cases hzero : tier.maxCommissionDepth = 0
  · rw [if_pos hzero, if_pos hzero]
  · have hle : tier.maxCommissionDepth ≤ 255 ↔ tier.maxCommissionDepth.toNat ≤ 255 := UInt16.le_iff_toNat_le
    rw [if_neg hzero, if_neg hzero]
    dsimp only
    congr 1
    by_cases hfits : tier.maxCommissionDepth ≤ 255
    · have := hle.mp hfits
      rw [if_pos hfits, UInt16.toNat_toUInt8, min_eq_left this, Nat.mod_eq_of_lt (by omega)]
    · have := mt hle.mpr hfits
      rw [if_neg hfits, min_eq_right (by omega)]
      rfl

theorem reach_mono {eligible' : Bool} {c' : UInt16} (htiers : AscendingTiers tiers) (hc : c ≤ c') :
    EligibilityResult.reach ⟨eligible, determineMaxDepth c tiers⟩ ≤
      EligibilityResult.reach ⟨eligible', determineMaxDepth c' tiers⟩ := by
  obtain ⟨base, hbase, hzero⟩ := htiers.base
  have hfound : (tiers.reverse.find? fun tier => tier.minActiveLegs ≤ c).isSome = true := by
    rw [find?_isSome]
    exact ⟨base, mem_reverse.mpr hbase, decide_eq_true (hzero ▸ UInt16.zero_le)⟩
  obtain ⟨tier, htier⟩ := Option.isSome_iff_exists.mp hfound
  obtain ⟨tier', htier', hlater⟩ := exists_find?_of_imp (q := fun tier => decide (tier.minActiveLegs ≤ c'))
    (fun t ht => decide_eq_true (UInt16.le_trans (of_decide_eq_true ht) hc)) (pairwise_reverse.mpr htiers.deeper) htier
  have hreach : ActiveLegTier.reach tier ≤ ActiveLegTier.reach tier' := by
    rcases hlater with rfl | hlater
    · exact le_refl _
    · exact hlater
  rw [reach_of_find? htier, reach_of_find? htier']
  unfold ActiveLegTier.reach at hreach
  split at hreach <;> split at hreach <;> simp_all

/-! ## 4. More recruits -/

/-- **More eligible recruits never earn less deep, and are counted, exactly as long as there are fewer than
    `2 ^ 16` of them.** -/
theorem recruits_deepen_earning {a : Arena} (ha : a.Valid) {eligibility : CommissionEligibility}
    (htiers : AscendingTiers eligibility.activeLegTiers) (order order' : HashOrder Site)
    {first second : Snapshots} {u : Uuid} {s s' : DistributorSnapshot}
    (hs : first.lookup u = some s) (heligible : isEligible s eligibility = true)
    (hs' : second.lookup u = some s') (heligible' : isEligible s' eligibility = true)
    (hmore : activeLegs a first eligibility u ⊆ activeLegs a second eligibility u) :
    ((∃ results results' r r', evaluateEligibility order first a eligibility = .ok results ∧
          evaluateEligibility order' second a eligibility = .ok results' ∧ results.lookup u = some r ∧
          results'.lookup u = some r' ∧ r.reach ≤ r'.reach) ∧
        ∃ c, countActiveLegs a u second eligibility = .ok c ∧
          c.toNat = (activeLegs a second eligibility u).ncard) ↔
      (activeLegs a second eligibility u).ncard < 2 ^ 16 := by
  constructor
  · rintro ⟨-, c, -, hc⟩
    rw [← hc]
    exact c.toNat_lt
  · intro hfew
    have hle := Set.ncard_le_ncard hmore activeLegs_finite
    obtain ⟨results, hrun, hr⟩ := evaluateEligibility_ok ha order hs heligible
    obtain ⟨results', hrun', hr'⟩ := evaluateEligibility_ok ha order' hs' heligible'
    refine ⟨⟨results, results', _, _, hrun, hrun', hr, hr', reach_mono htiers ?_⟩, _, countActiveLegs_eq ha, ?_⟩
    · rw [UInt16.le_iff_toNat_le, UInt16.toNat_ofNat_of_lt' (hle.trans_lt hfew), UInt16.toNat_ofNat_of_lt' hfew]
      exact hle
    · exact UInt16.toNat_ofNat_of_lt' hfew

def agent : DistributorSnapshot := ⟨"Agent", Dec.zero, "active", true⟩

/-- One level for everybody, and all levels with one eligible recruit. -/
def oneRecruit : CommissionEligibility := ⟨Dec.zero, false, [], [⟨0, 1⟩, ⟨1, 0⟩]⟩

theorem oneRecruit_ascending : AscendingTiers oneRecruit.activeLegTiers where
  base := ⟨⟨0, 1⟩, mem_cons_self, rfl⟩
  legs := by simp [oneRecruit]
  deeper := by simp [oneRecruit, ActiveLegTier.reach]

/-- Snapshots of the first of a line and of the `m` after them. -/
def agents (m : Nat) : Snapshots := collect ((range (m + 1)).map fun k => (lineUser k, agent))

section Line

variable {d m : Nat} {t : UnilevelTree}

theorem lookup_agents (hm : m < 2 ^ 31) {v : Uuid} {s : DistributorSnapshot} :
    (agents m).lookup v = some s ↔ ∃ k < m + 1, lineUser k = v ∧ agent = s := by
  have hnodup : (((range (m + 1)).map fun k => (lineUser k, agent)).map Prod.fst).Nodup := by
    rw [map_map]
    refine nodup_range.map_on fun k hk l hl h => ?_
    rw [mem_range] at hk hl
    exact lineUser_inj (by omega) (by omega) h
  rw [agents, lookup_collect hnodup, mem_map]
  simp only [mem_range, Prod.mk.injEq]

theorem agents_first (hm : m < 2 ^ 31) : (agents m).lookup (lineUser 0) = some agent :=
  (lookup_agents hm).mpr ⟨0, Nat.succ_pos m, rfl, rfl⟩

variable (hline : Strung d t.roster) (hd : d < 2 ^ 31) (hm : m ≤ d)
include hline hd hm

/-- Of a line with the first `m + 1` snapshots, the first has `m` eligible recruits. -/
theorem activeLegs_line :
    activeLegs t.arena (agents m) oneRecruit (lineUser 0) = (fun k => lineUser (k + 1)) '' Set.Iio m := by
  ext v
  constructor
  · rintro ⟨⟨seat, hseat, hsponsor⟩, s, hs, -⟩
    obtain ⟨k, hk, rfl, -⟩ := (lookup_agents (by omega)).mp hs
    rcases hline.only _ seat hseat with hnone | ⟨l, hl, hkl⟩
    · rw [hnone] at hsponsor
      cases hsponsor
    · have := lineUser_inj (by omega) (by omega) hkl
      exact ⟨l, by rw [Set.mem_Iio]; omega, hkl.symm⟩
  · rintro ⟨k, hk, rfl⟩
    rw [Set.mem_Iio] at hk
    obtain ⟨seat, hseat, -, hsponsor⟩ := hline.placed k (by omega)
    exact ⟨⟨seat, hseat, hsponsor⟩, agent, (lookup_agents (by omega)).mpr ⟨k + 1, by omega, rfl, rfl⟩, rfl⟩

theorem ncard_activeLegs_line : (activeLegs t.arena (agents m) oneRecruit (lineUser 0)).ncard = m := by
  have hinj : Set.InjOn (fun k => lineUser (k + 1)) (Set.Iio m) := by
    intro k hk l hl h
    rw [Set.mem_Iio] at hk hl
    have := lineUser_inj (by omega) (by omega) h
    omega
  rw [activeLegs_line hline hd hm, hinj.ncard_image, ← Finset.coe_range, Set.ncard_coe_finset, Finset.card_range]

theorem activeLegs_line_mono {l : Nat} (hl : l ≤ m) :
    activeLegs t.arena (agents l) oneRecruit (lineUser 0) ⊆ activeLegs t.arena (agents m) oneRecruit (lineUser 0) := by
  rw [activeLegs_line hline hd (hl.trans hm), activeLegs_line hline hd hm]
  exact Set.image_mono (Set.Iio_subset_Iio hl)

end Line

theorem recruits_deepen_earning_two : ∃ t : UnilevelTree, t.arena.Valid ∧
    activeLegs t.arena (agents 0) oneRecruit (lineUser 0) ⊆ activeLegs t.arena (agents 1) oneRecruit (lineUser 0) ∧
      ∃ results results' r r', evaluateEligibility .asListed (agents 0) t.arena oneRecruit = .ok results ∧
        evaluateEligibility .asListed (agents 1) t.arena oneRecruit = .ok results' ∧
        results.lookup (lineUser 0) = some r ∧ results'.lookup (lineUser 0) = some r' ∧ r.reach ≤ r'.reach := by
  obtain ⟨t, s, h⟩ := exists_line 1 (by omega)
  have hline := h.strung
  have hv : t.arena.Valid := h.reached.level.valid
  have hmore := activeLegs_line_mono hline (by omega) (le_refl 1) zero_le_one
  have hone := ncard_activeLegs_line hline (by omega) (le_refl 1)
  exact ⟨t, hv, hmore, ((recruits_deepen_earning hv oneRecruit_ascending .asListed .asListed (agents_first (by omega)) rfl
    (agents_first (by omega)) rfl hmore).mpr (by rw [hone]; norm_num)).1⟩

/-- With `2 ^ 16` eligible recruits none is counted, and all levels but one are lost. -/
theorem crowd_earns_one_level : ∃ (t : UnilevelTree) (first second : Snapshots) (u : Uuid)
    (results results' : AList fun _ : Uuid => EligibilityResult) (r r' : EligibilityResult),
    t.arena.Valid ∧ AscendingTiers oneRecruit.activeLegTiers ∧
      first.lookup u = some agent ∧ second.lookup u = some agent ∧ isEligible agent oneRecruit = true ∧
      activeLegs t.arena first oneRecruit u ⊆ activeLegs t.arena second oneRecruit u ∧
      (activeLegs t.arena second oneRecruit u).ncard = 2 ^ 16 ∧
      countActiveLegs t.arena u second oneRecruit = .ok 0 ∧
      evaluateEligibility .asListed first t.arena oneRecruit = .ok results ∧
      evaluateEligibility .asListed second t.arena oneRecruit = .ok results' ∧
      results.lookup u = some r ∧ results'.lookup u = some r' ∧ r'.reach = 1 ∧ r.reach = ⊤ := by
  obtain ⟨n, hn⟩ : ∃ n, n = 2 ^ 16 := ⟨_, rfl⟩
  obtain ⟨t, s, h⟩ := exists_line n (by omega)
  have hline := h.strung
  have hv : t.arena.Valid := h.reached.level.valid
  have hone := ncard_activeLegs_line hline (m := 1) (by omega) (by omega)
  have hall := ncard_activeLegs_line hline (by omega) (le_refl n)
  have heligible : isEligible agent oneRecruit = true := rfl
  obtain ⟨results, hrun, hr⟩ := evaluateEligibility_ok hv .asListed (agents_first (m := 1) (by omega)) heligible
  obtain ⟨results', hrun', hr'⟩ := evaluateEligibility_ok hv .asListed (agents_first (m := n) (by omega)) heligible
  rw [hone] at hr
  rw [hall, hn] at hr'
  refine ⟨t, agents 1, agents n, lineUser 0, results, results', _, _, hv, oneRecruit_ascending, agents_first (by omega),
    agents_first (by omega), heligible, activeLegs_line_mono hline (by omega) (le_refl n) (by omega), hall.trans hn, ?_,
    hrun, hrun', hr, hr', rfl, rfl⟩
  rw [countActiveLegs_eq hv, hall, hn]
  rfl

end MlmForge.Commission.Walk
