/-
  Subject:   The two calculators of a binary tree: pairing and cycle/step.

  Both start from the working legs of `prepare`, visit the positions in id order, settle the earnings against
  the caps and say what each position carries into the next period.

  * **`prepare_ok`** -- what the working legs are, and that they are not negative;
  * **`finalizeEarnings_basis`** -- settling changes amounts only.
-/
import Mathlib.Data.List.SplitBy
import MlmForge.Commission.Legs

namespace MlmForge.Commission

open Engine Rank List Query Maps Dec

/-! ## 1. Configuration -/

inductive MultiPositionCapMode where
  | perPosition
  | aggregate
  deriving DecidableEq

inductive PairingCalculation where
  | weakerLeg
  | volumeRatio
  deriving DecidableEq

/-- What happens to leg volumes after the commission run. -/
inductive VolumeAfterPayout where
  | fullFlush
  | netOff
  | carryForward
  deriving DecidableEq

structure PairingConfig where
  percent : AuthoredDec
  calculation : PairingCalculation
  capPerPeriod : Option AuthoredDec
  volumeAfterPayout : VolumeAfterPayout
  carryForwardCap : Option AuthoredDec
  multiPositionCapMode : MultiPositionCapMode
  deriving DecidableEq

structure CycleStep where
  threshold : AuthoredDec
  amount : AuthoredDec
  deriving DecidableEq

structure CycleStepConfig where
  steps : List CycleStep
  volumeAfterCycle : VolumeAfterPayout
  capPerPeriod : Option AuthoredDec
  carryForwardCap : Option AuthoredDec
  multiPositionCapMode : MultiPositionCapMode
  deriving DecidableEq

inductive BinaryCommissionMode where
  | pairing (config : PairingConfig)
  | cycleStep (config : CycleStepConfig)
  deriving DecidableEq

structure BinaryCommissionConfig where
  volumeToDollarMultiplier : Option AuthoredDec
  mode : BinaryCommissionMode
  deriving DecidableEq

structure BinaryStructureConfig where
  binaryCommission : BinaryCommissionConfig
  deriving DecidableEq

/-- The checks of a cycle/step configuration, and its steps in ascending order. -/
def CycleStepConfig.validate (config : CycleStepConfig) : Query ConfigFault CycleStepConfig := do
  stopIf (config.steps = []) (.err .noSteps)
  forM config.steps fun step => do
    stopIf (step.threshold ≤ zero) (.err .thresholdNotPositive)
    stopIf (step.amount ≤ zero) (.err .amountNotPositive)
  let steps := config.steps.insertionSort fun a b => a.threshold ≤ b.threshold
  forM (steps.zip steps.tail) fun pair =>
    stopIf (pair.1.threshold.same pair.2.threshold) (.err (.duplicateThreshold pair.1.threshold))
  stopIf (config.volumeAfterCycle = .netOff) (.err .netOffUnsupported)
  stopIf (config.capPerPeriod.any isNegative = true) (.err .capNegative)
  stopIf (config.carryForwardCap.any isNegative = true) (.err .carryForwardCapNegative)
  .ok { config with steps := steps }

/-! ## 2. Earnings -/

structure BinaryCommissionEarning where
  earnerId : Uuid
  positionId : Uuid
  leftVolume : Dec
  rightVolume : Dec
  matchedVolume : Dec
  ratio : Dec
  percent : Dec
  dollarAmount : Dec
  capped : Bool
  deriving DecidableEq

structure BinaryCalculationResult where
  earnings : List BinaryCommissionEarning
  carryForward : LegMap
  deriving DecidableEq

/-- Earnings are sorted by earner, then by position. -/
def BinaryCommissionEarning.before (a b : BinaryCommissionEarning) : Prop :=
  a.earnerId < b.earnerId ∨ (a.earnerId = b.earnerId ∧ a.positionId ≤ b.positionId)

instance : DecidableRel BinaryCommissionEarning.before := fun a b =>
  inferInstanceAs (Decidable (a.earnerId < b.earnerId ∨ (a.earnerId = b.earnerId ∧ a.positionId ≤ b.positionId)))

def sortEarnings (earnings : List BinaryCommissionEarning) : List BinaryCommissionEarning :=
  earnings.insertionSort BinaryCommissionEarning.before

/-- Writes amounts into earnings, one each. -/
def assign (write : BinaryCommissionEarning → Dec → BinaryCommissionEarning) :
    List BinaryCommissionEarning → List Dec → List BinaryCommissionEarning
  | e :: earnings, amount :: amounts => write e amount :: assign write earnings amounts
  | earnings, _ => earnings

section Settling

variable (lib : DecimalLib)

/-- Settles the earnings of one owner. -/
def settleGroup (cap : Dec) (minorUnits : Nat) (group : List BinaryCommissionEarning) :
    Query NumericError (List BinaryCommissionEarning) := do
  let raw := group.map BinaryCommissionEarning.dollarAmount
  let rounded := raw.map fun a => a.roundMinor lib minorUnits
  if sumExceeds raw cap = false ∧ sumExceeds rounded cap = false then
    .ok (assign (fun e amount => { e with dollarAmount := amount }) group rounded)
  else do
    let shares ← allocateLargestRemainder raw cap minorUnits
    .ok (assign (fun e amount => { e with dollarAmount := amount, capped := true }) group shares)

/-- Sorts the earnings and settles each owner's against `cap`. -/
def applyAggregateCap (earnings : List BinaryCommissionEarning) (cap : Dec) (minorUnits : Nat) :
    Query NumericError (List BinaryCommissionEarning) := do
  let groups := (sortEarnings earnings).splitBy fun a b => a.earnerId == b.earnerId
  let settled ← groups.mapM (settleGroup lib cap minorUnits)
  .ok settled.flatten

/-- Rounds every earning, or settles each owner's against the aggregate cap when there is one. -/
def finalizeEarnings (earnings : List BinaryCommissionEarning) (aggregateCap : Option Dec)
    (minorUnits : Nat) : Query NumericError (List BinaryCommissionEarning) :=
  match aggregateCap with
  | some cap => applyAggregateCap lib earnings cap minorUnits
  | none => .ok (earnings.map fun e => { e with dollarAmount := e.dollarAmount.roundMinor lib minorUnits })

/-- Refuses a cap that is negative or not a whole number of minor units. -/
def checkCap (cap : Option AuthoredDec) (plan : CompensationPlan) (minorUnits : Nat) :
    Query CalculationError Unit :=
  match cap with
  | none => .ok ()
  | some cap => do
      stopIf (cap.isNegative = true) (.err (.negativeCap cap))
      stopIf (¬ (cap.roundMinor lib minorUnits).same cap)
        (.err (.capNotWholeMinorUnits cap plan.volume.baseCurrency))

end Settling

/-- An amount held to the per-position cap, and whether it was cut. -/
def capAmount (cap : Option AuthoredDec) (useAggregateCap : Bool) (amount : Dec) : Dec × Bool :=
  if useAggregateCap then (amount, false)
  else
    match cap with
    | some cap => if amount ≤ cap then (amount, false) else (cap, true)
    | none => (amount, false)

/-- Legs held to the carry cap, and never negative. -/
def capCarried (cap : Option AuthoredDec) (legs : LegVolumes) : LegVolumes :=
  let capped := match cap with
    | some cap => LegVolumes.mk (legs.left.min cap) (legs.right.min cap)
    | none => legs
  ⟨capped.left.max zero, capped.right.max zero⟩

/-! ## 3. What both calculators prepare -/

structure Prepared where
  eligible : AList fun _ : Uuid => Bool
  legs : LegMap
  positions : List Uuid

def prepare (order : HashOrder Site) (t : BinaryTree) (plan : CompensationPlan) (snapshots : Snapshots)
    (volume : List VolumeSource) (carryForward : LegMap) (ownership : Option Ownership) :
    Query CalculationError Prepared := do
  checkCarriedLegs order carryForward
  validateSnapshots order plan snapshots
    ((order.keys .userIds t.arena.index).map fun position => resolveOwner position ownership)
  let volumeTotals ← aggregateVolume t snapshots volume ownership
  let eligible := evaluateEligibility order snapshots plan.eligibility
  let legs ← relay .numeric (accumulateLegVolumes order t volumeTotals carryForward)
  .ok ⟨eligible, legs, sortedPositions order legs⟩

/-- `working_legs[uid]` -/
def Prepared.legsOf (prep : Prepared) (uid : Uuid) : Query CalculationError LegVolumes :=
  match prep.legs.lookup uid with
  | some l => .ok l
  | none => .error (.panic "no entry found for key")

/-- Whether the owner of a position may be paid. -/
def Prepared.mayBePaid (prep : Prepared) (ownership : Option Ownership) (uid : Uuid) : Bool :=
  (prep.eligible.lookup (resolveOwner uid ownership)).getD false

/-- Whether caps are settled for an owner's positions together. -/
def useAggregateCap (mode : MultiPositionCapMode) (ownership : Option Ownership) : Bool :=
  mode = .aggregate ∧ ownership.isSome

/-! ## 4. Pairing -/

section Pairing

variable (lib : DecimalLib)

/-- The balance ratio and the raw amount of a pair of legs. -/
def pairAmounts (pairing : PairingConfig) (multiplier : AuthoredDec) (legs : LegVolumes) :
    Query NumericError (Dec × Dec) := do
  let matched := legs.left.min legs.right
  let minLeg := if legs.left ≤ legs.right then legs.left else legs.right
  let maxLeg := if legs.left ≤ legs.right then legs.right else legs.left
  match pairing.calculation with
  | .weakerLeg => do
      let product ← matched.tryMul pairing.percent
      let raw ← product.tryMul multiplier
      .ok (Dec.one, raw)
  | .volumeRatio =>
    if maxLeg ≤ zero then .ok (zero, zero)
    else do
      let ratio ← minLeg.divRatio lib maxLeg
      let raw ← matched.mulDivRatio lib pairing.percent multiplier minLeg maxLeg
      .ok (ratio, raw)

def pairPosition (pairing : PairingConfig) (multiplier : AuthoredDec) (prep : Prepared)
    (ownership : Option Ownership) (uid : Uuid) :
    Query CalculationError (Option BinaryCommissionEarning) := do
  let legs ← prep.legsOf uid
  let matched := legs.left.min legs.right
  if prep.mayBePaid ownership uid = false ∨ matched.isZero = true then .ok none
  else do
    let amounts ← relay .numeric (pairAmounts lib pairing multiplier legs)
    let held := capAmount pairing.capPerPeriod (useAggregateCap pairing.multiPositionCapMode ownership) amounts.2
    .ok (some {
      earnerId := resolveOwner uid ownership
      positionId := uid
      leftVolume := legs.left
      rightVolume := legs.right
      matchedVolume := matched
      ratio := amounts.1
      percent := pairing.percent
      dollarAmount := held.1
      capped := held.2 })

/-- The legs of a position after `matched` was paid. -/
def legsAfterPayout (mode : VolumeAfterPayout) (legs : LegVolumes) (matched : Dec) :
    Query NumericError LegVolumes :=
  match mode with
  | .fullFlush => .ok ⟨zero, zero⟩
  | .netOff => do
      let left ← legs.left.trySub matched
      let right ← legs.right.trySub matched
      .ok ⟨left, right⟩
  | .carryForward =>
    if legs.left ≤ legs.right then do
      let right ← legs.right.trySub matched
      .ok ⟨zero, right⟩
    else do
      let left ← legs.left.trySub matched
      .ok ⟨left, zero⟩

/-- What one position carries. Nothing was matched for a position that is not eligible. -/
def carryPosition (pairing : PairingConfig) (prep : Prepared) (ownership : Option Ownership) (uid : Uuid) :
    Query CalculationError (Uuid × LegVolumes) := do
  let legs ← prep.legsOf uid
  let matched := if prep.mayBePaid ownership uid then legs.left.min legs.right else zero
  let rest ← relay .numeric (legsAfterPayout pairing.volumeAfterPayout legs matched)
  .ok (uid, capCarried pairing.carryForwardCap rest)

def calculatePairing (order : HashOrder Site) (t : BinaryTree) (plan : CompensationPlan)
    (multiplier : AuthoredDec) (pairing : PairingConfig) (snapshots : Snapshots) (volume : List VolumeSource)
    (carryForward : LegMap) (ownership : Option Ownership) :
    Query CalculationError BinaryCalculationResult := do
  stopIf (pairing.percent.isNegative = true ∨ ¬ pairing.percent ≤ Dec.one)
    (.err (.pairingPercentOutOfRange pairing.percent))
  let minorUnits ← planMinorUnits plan
  checkCap lib pairing.capPerPeriod plan minorUnits
  let prep ← prepare order t plan snapshots volume carryForward ownership
  let earned ← prep.positions.mapM (pairPosition lib pairing multiplier prep ownership)
  let aggregateCap :=
    if useAggregateCap pairing.multiPositionCapMode ownership then pairing.capPerPeriod else none
  let earnings ← relay .numeric (finalizeEarnings lib earned.reduceOption aggregateCap minorUnits)
  let carried ← prep.positions.mapM (carryPosition pairing prep ownership)
  .ok ⟨sortEarnings earnings, collect carried⟩

end Pairing

/-! ## 5. Cycles and steps -/

section CycleStep

variable (lib : DecimalLib)

/-- Pays the full cycles that both legs hold. -/
def fullCycles (mode : VolumeAfterPayout) (highest sumOfAmounts : Dec) (legs : LegVolumes) :
    Query NumericError (LegVolumes × Dec) :=
  let matched := legs.left.min legs.right
  if highest ≤ matched then
    match mode with
    | .fullFlush => do
        -- at most one complete cycle
        let total ← zero.tryAdd sumOfAmounts
        .ok (⟨zero, zero⟩, total)
    | .carryForward => do
        let cycles ← matched.floorDiv highest
        let paid ← cycles.tryMul sumOfAmounts
        let total ← zero.tryAdd paid
        let consumed ← cycles.tryMul highest
        let left ← legs.left.trySub consumed
        let right ← legs.right.trySub consumed
        .ok (⟨left, right⟩, total)
    | .netOff => .error (.panic "net_off is validated out for cycle step")
  else .ok (legs, zero)

/-- Pays the steps that what is left reaches. No volume is subtracted. -/
def remainingSteps (steps : List CycleStep) (remaining total : Dec) : Query NumericError Dec :=
  match steps.head? with
  | none => .error (.panic "index out of bounds")
  | some first =>
    if first.threshold ≤ remaining then
      steps.foldlM (fun total step => if step.threshold ≤ remaining then total.tryAdd step.amount else .ok total)
        total
    else .ok total

/-- What the legs of a position earn, and what they are afterwards. -/
def cycleLegs (config : CycleStepConfig) (legs : LegVolumes) : Query NumericError (LegVolumes × Dec) := do
  let sumOfAmounts ← zero.addAll (config.steps.map CycleStep.amount)
  match config.steps.getLast? with
  | none => .error (.panic "validate() guarantees non-empty steps")
  | some last => do
      let cycled ← fullCycles config.volumeAfterCycle last.threshold sumOfAmounts legs
      let total ← remainingSteps config.steps (cycled.1.left.min cycled.1.right) cycled.2
      .ok (cycled.1, total)

/-- What is reported for a position that earned `total`. -/
def cycleStepEarning (config : CycleStepConfig) (ownership : Option Ownership) (uid : Uuid) (legs : LegVolumes)
    (total : Dec) : Option BinaryCommissionEarning :=
  if total.isZero then none
  else
    let held := capAmount config.capPerPeriod (useAggregateCap config.multiPositionCapMode ownership) total
    some {
      earnerId := resolveOwner uid ownership
      positionId := uid
      leftVolume := legs.left
      rightVolume := legs.right
      matchedVolume := legs.left.min legs.right
      ratio := zero
      percent := zero
      dollarAmount := held.1
      capped := held.2 }

/-- What one position earns, and its legs after the cycles. -/
def cyclePosition (config : CycleStepConfig) (prep : Prepared) (ownership : Option Ownership) (uid : Uuid) :
    Query CalculationError ((Uuid × LegVolumes) × Option BinaryCommissionEarning) := do
  let legs ← prep.legsOf uid
  if prep.mayBePaid ownership uid = false then .ok ((uid, legs), none)
  else do
    let cycled ← relay .numeric (cycleLegs config legs)
    .ok ((uid, cycled.1), cycleStepEarning config ownership uid legs cycled.2)

def calculateBinaryCycleStep (order : HashOrder Site) (t : BinaryTree) (plan : CompensationPlan)
    (config : CycleStepConfig) (snapshots : Snapshots) (volume : List VolumeSource) (carryForward : LegMap)
    (ownership : Option Ownership) : Query CalculationError BinaryCalculationResult := do
  let config ← relay .configError config.validate
  let minorUnits ← planMinorUnits plan
  checkCap lib config.capPerPeriod plan minorUnits
  let prep ← prepare order t plan snapshots volume carryForward ownership
  let cycled ← prep.positions.mapM (cyclePosition config prep ownership)
  let postCycleLegs := collect (cycled.map Prod.fst)
  let aggregateCap :=
    if useAggregateCap config.multiPositionCapMode ownership then config.capPerPeriod else none
  let earnings ← relay .numeric
    (finalizeEarnings lib (cycled.map Prod.snd).reduceOption aggregateCap minorUnits)
  let carried := (order.keys .cycled prep.legs).map fun uid =>
    (uid, capCarried config.carryForwardCap ((postCycleLegs.lookup uid).getD ⟨zero, zero⟩))
  .ok ⟨sortEarnings earnings, collect carried⟩

end CycleStep

/-- Calculates the commissions of a binary tree for a period. -/
def calculateBinaryPairing (lib : DecimalLib) (order : HashOrder Site) (t : BinaryTree)
    (plan : CompensationPlan) (config : BinaryStructureConfig) (snapshots : Snapshots)
    (volume : List VolumeSource) (carryForward : LegMap) (ownership : Option Ownership) :
    Query CalculationError BinaryCalculationResult :=
  match config.binaryCommission.mode with
  | .pairing pairing =>
    calculatePairing lib order t plan (config.binaryCommission.volumeToDollarMultiplier.getD
      plan.volume.volumeToDollarMultiplier) pairing snapshots volume carryForward ownership
  | .cycleStep cycle => calculateBinaryCycleStep lib order t plan cycle snapshots volume carryForward ownership

/-- Runs the periods one after the other; each is given what the one before carried. -/
def runPeriods {π : Type*} (calculate : π → LegMap → Query CalculationError BinaryCalculationResult) :
    LegMap → List π → Query CalculationError (List BinaryCalculationResult)
  | _, [] => .ok []
  | carryForward, p :: periods => do
      let r ← calculate p carryForward
      let results ← runPeriods calculate r.carryForward periods
      .ok (r :: results)

/-! ## 6. What is prepared -/

/-- What the working legs are. -/
structure PreparedFor (t : BinaryTree) (plan : CompensationPlan) (snapshots : Snapshots)
    (volume : List VolumeSource) (carryForward : LegMap) (ownership : Option Ownership) (prep : Prepared) :
    Prop where
  carried : ∀ u leg, 0 ≤ carriedOn carryForward u leg
  arriving : ∀ u leg, 0 ≤ arrived t volume u leg
  working : ∀ {u l}, prep.legs.lookup u = some l → ∀ leg,
    (l.on leg).value = arrived t volume u leg + carriedOn carryForward u leg
  member : ∀ {u}, (∃ l, prep.legs.lookup u = some l) ↔ ∃ i, t.arena.index.lookup u = some i
  listed : ∀ {u}, u ∈ prep.positions ↔ ∃ l, prep.legs.lookup u = some l
  nodup : prep.positions.Nodup
  eligible : ∀ u, prep.mayBePaid ownership u =
    ((snapshots.lookup (resolveOwner u ownership)).map fun s => isEligible s plan.eligibility).getD false

section Preparing

variable {order : HashOrder Site} {t : BinaryTree} {plan : CompensationPlan} {snapshots : Snapshots}
  {volume : List VolumeSource} {carryForward : LegMap} {ownership : Option Ownership} {prep : Prepared}

theorem prepare_ok (ht : t.Valid)
    (h : prepare order t plan snapshots volume carryForward ownership = .ok prep) :
    PreparedFor t plan snapshots volume carryForward ownership prep := by
  unfold prepare at h
  rw [seq_eq_ok, seq_eq_ok] at h
  obtain ⟨hcarry, _, h⟩ := h
  obtain ⟨totals, htotals, h⟩ := bind_eq_ok.mp h
  obtain ⟨legs, hlegs, h⟩ := bind_eq_ok.mp h
  cases h
  have hacc := accumulateLegVolumes_ok ht htotals (relay_eq_ok.mp hlegs)
  refine ⟨fun u leg => ?_, arrived_nonneg htotals, fun hl => (hacc _).2 _ hl, (hacc _).1,
    mem_sortedPositions, nodup_sortedPositions order legs, fun u => ?_⟩
  · unfold carriedOn
    split
    · exact le_refl 0
    · rename_i l hl
      exact checkCarriedLegs_ok hcarry hl leg
  · rw [Prepared.mayBePaid, lookup_evaluateEligibility]

variable {u : Uuid} {l : LegVolumes}

theorem PreparedFor.working_nonneg (h : PreparedFor t plan snapshots volume carryForward ownership prep)
    (hl : prep.legs.lookup u = some l) (leg : BinaryLeg) : 0 ≤ (l.on leg).value := by
  rw [h.working hl leg]
  exact add_nonneg (h.arriving u leg) (h.carried u leg)

theorem Prepared.legsOf_eq_ok : prep.legsOf u = .ok l ↔ prep.legs.lookup u = some l := by
  unfold Prepared.legsOf
  split <;> simp_all

theorem capCarried_on (cap : Option AuthoredDec) (leg : BinaryLeg) (hl : 0 ≤ (l.on leg).value) :
    0 ≤ ((capCarried cap l).on leg).value ∧ ((capCarried cap l).on leg).value ≤ (l.on leg).value := by
  cases cap <;> cases leg <;>
    simp only [capCarried, LegVolumes.on, value_max, value_min, value_zero] at hl ⊢
  all_goals exact ⟨le_max_right _ _, max_le (by first | exact le_refl _ | exact min_le_left _ _) hl⟩

end Preparing

/-! ## 7. What settling leaves alone -/

/-- An earning without its amount. -/
def BinaryCommissionEarning.basis (e : BinaryCommissionEarning) : BinaryCommissionEarning :=
  { e with dollarAmount := zero, capped := false }

section Settled

variable {lib : DecimalLib} {earnings settled : List BinaryCommissionEarning} {cap : Dec} {minorUnits : Nat}

theorem assign_basis {write : BinaryCommissionEarning → Dec → BinaryCommissionEarning}
    (hwrite : ∀ e amount, (write e amount).basis = e.basis) (earnings : List BinaryCommissionEarning)
    (amounts : List Dec) : (assign write earnings amounts).map BinaryCommissionEarning.basis =
      earnings.map BinaryCommissionEarning.basis := by
  induction earnings generalizing amounts with
  | nil => rfl
  | cons e earnings ih =>
    cases amounts with
    | nil => rfl
    | cons amount amounts => rw [assign, map_cons, map_cons, hwrite, ih]

theorem settleGroup_basis (h : settleGroup lib cap minorUnits earnings = .ok settled) :
    settled.map BinaryCommissionEarning.basis = earnings.map BinaryCommissionEarning.basis := by
  simp only [settleGroup] at h
  split at h
  · cases h
    refine assign_basis ?_ _ _
    exact fun _ _ => rfl
  · obtain ⟨shares, _, h⟩ := bind_eq_ok.mp h
    cases h
    refine assign_basis ?_ _ _
    exact fun _ _ => rfl

theorem sortEarnings_perm (earnings : List BinaryCommissionEarning) : (sortEarnings earnings).Perm earnings :=
  perm_insertionSort _ _

theorem applyAggregateCap_basis (h : applyAggregateCap lib earnings cap minorUnits = .ok settled) :
    settled.map BinaryCommissionEarning.basis = (sortEarnings earnings).map BinaryCommissionEarning.basis := by
  obtain ⟨groups, hgroups, h⟩ := bind_eq_ok.mp h
  cases h
  have hmap := map_of_mapM (g := map BinaryCommissionEarning.basis)
    (k := map BinaryCommissionEarning.basis) hgroups fun _ _ hgroup => settleGroup_basis hgroup
  rw [map_flatten, hmap, ← map_flatten, flatten_splitBy]

/-- **Settling changes amounts only.** -/
theorem finalizeEarnings_basis {aggregateCap : Option Dec}
    (h : finalizeEarnings lib earnings aggregateCap minorUnits = .ok settled) :
    (settled.map BinaryCommissionEarning.basis).Perm (earnings.map BinaryCommissionEarning.basis) := by
  cases aggregateCap with
  | none =>
    cases h
    rw [map_map]
    exact List.Perm.refl _
  | some cap =>
    rw [applyAggregateCap_basis h]
    exact (sortEarnings_perm earnings).map _

/-- Where each position is visited once, what there is for a position is what its visit yielded. -/
theorem filter_visits {E : Type} {R : Uuid → Option E → Prop} (place : E → Uuid)
    (hplace : ∀ x e, R x (some e) → place e = x) (u : Uuid) {l : List Uuid} {r : List (Option E)}
    (h : List.Forall₂ R l r) (hl : l.Nodup) :
    (u ∉ l → (r.reduceOption.filter fun e => place e = u) = []) ∧
      (u ∈ l → ∃ o, R u o ∧ (r.reduceOption.filter fun e => place e = u) = o.toList) := by
  induction h with
  | nil => exact ⟨fun _ => rfl, fun hu => absurd hu not_mem_nil⟩
  | @cons x o l r hxo _ ih =>
    obtain ⟨hx, hl⟩ := nodup_cons.mp hl
    obtain ⟨hout, hin⟩ := ih hl
    by_cases hux : x = u
    · subst hux
      refine ⟨fun hu => absurd mem_cons_self hu, fun _ => ⟨o, hxo, ?_⟩⟩
      cases o with
      | none => exact hout hx
      | some e =>
        rw [reduceOption_cons_of_some, filter_cons_of_pos (by simp [hplace _ _ hxo]), hout hx]
        rfl
    · have hsame : ((o :: r).reduceOption.filter fun e => place e = u) =
          r.reduceOption.filter fun e => place e = u := by
        cases o with
        | none => rfl
        | some e =>
          rw [reduceOption_cons_of_some, filter_cons_of_neg (by simp [hplace _ _ hxo, hux])]
      rw [hsame]
      refine ⟨fun hu => hout fun h => hu (mem_cons_of_mem _ h), fun hu => ?_⟩
      exact hin ((mem_cons.mp hu).resolve_left (Ne.symm hux))

theorem sum_toList {E : Type} (amount : E → ℚ) (o : Option E) : (o.toList.map amount).sum = o.elim 0 amount := by
  cases o with
  | none => rfl
  | some e => exact add_zero _

end Settled

/-! ## 8. A small tree -/

def smallTree : BinaryTree where
  arena :=
    { nodes := [⟨1, none, [1, 2], none, [1, 2], 0, 0⟩, ⟨2, some 0, [], some 0, [], 1, 5⟩,
        ⟨3, some 0, [], some 0, [], 1, 6⟩]
      index := collect [(1, 0), (2, 1), (3, 2)]
      freeList := []
      root := some 0 }
  slots := collect [(0, #v[some 1, some 2]), (1, Vector.replicate 2 none), (2, Vector.replicate 2 none)]

theorem smallTree_valid : smallTree.Valid := BinaryTree.validateRestored_iff.mp (by decide +kernel)

/-- A plan with one rank and no conditions. -/
def smallPlan : CompensationPlan where
  volume := ⟨"USD", Dec.one⟩
  ranks := [⟨"Agent", 1, ⟨[], [], none, none⟩⟩]
  eligibility := ⟨zero, false, [], []⟩

def smallSnapshots : Snapshots :=
  let agent : DistributorSnapshot := ⟨"Agent", zero, "active", true⟩
  collect [(1, agent), (2, agent), (3, agent)]

end MlmForge.Commission
