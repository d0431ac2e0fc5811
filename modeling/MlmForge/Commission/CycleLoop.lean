/-
  Subject:   The cycle count of the cycle/step calculator, against the loop that the guide describes.

  The calculator divides the weaker leg by the highest threshold. The guide pays cycle by cycle: while the
  weaker leg reaches the highest threshold, every step is paid and the volume of a cycle is taken away.

  * **`guideLoop_carryForward`**, **`guideLoop_fullFlush`** -- where it ends;
  * **`cycle_count_follows_guide`** -- the calculator pays what the loop pays, and leaves the same legs.
-/
import MlmForge.Commission.CycleStep

namespace MlmForge.Commission

open Engine Rank Query Dec

/-! ## 1. The loop of the guide -/

/-- The legs of a position and what it was paid so far. -/
structure CycleState where
  left : ℚ
  right : ℚ
  total : ℚ

namespace CycleState

def weaker (s : CycleState) : ℚ := min s.left s.right

/-- After one full cycle: every step is paid, and its volume is taken away, or all volume is. -/
def afterCycle (L : Ladder ℚ) (mode : VolumeAfterPayout) (s : CycleState) : CycleState :=
  match mode with
  | .fullFlush => ⟨0, 0, s.total + L.full⟩
  | _ => ⟨s.left - L.top, s.right - L.top, s.total + L.full⟩

end CycleState

/-- While the weaker leg reaches the top, a full cycle is paid. Then the steps are paid that it still reaches, and
    nothing is taken away. -/
inductive GuideLoop (L : Ladder ℚ) (mode : VolumeAfterPayout) : CycleState → CycleState → Prop
  | cycle {s r : CycleState} : L.top ≤ s.weaker → GuideLoop L mode (s.afterCycle L mode) r → GuideLoop L mode s r
  | stop {s : CycleState} : s.weaker < L.top →
      GuideLoop L mode s { s with total := s.total + L.reached s.weaker }

section Loop

variable {L : Ladder ℚ} {mode : VolumeAfterPayout} {s r r' : CycleState}

/-- The loop ends in one state. -/
theorem GuideLoop.unique (h : GuideLoop L mode s r) (h' : GuideLoop L mode s r') : r = r' := by
  induction h with
  | cycle hreach _ ih =>
    cases h' with
    | cycle _ h' => exact ih h'
    | stop hbelow => exact absurd hreach (not_le.mpr hbelow)
  | stop hbelow =>
    cases h' with
    | cycle hreach _ => exact absurd hreach (not_le.mpr hbelow)
    | stop _ => rfl

/-- **Carrying forward**, the loop takes as many cycles as there are in the weaker leg. -/
theorem guideLoop_carryForward (h0 : 0 ≤ s.weaker) :
    GuideLoop L .carryForward s ⟨s.left - L.cycles s.weaker * L.top, s.right - L.cycles s.weaker * L.top,
      s.total + L.pays s.weaker⟩ := by
  -- the number of cycles goes down by one
  induction hn : (L.cycles s.weaker).toNat generalizing s with
  | zero =>
    have hcycles : L.cycles s.weaker = 0 := by
      have hpos : 0 ≤ L.cycles s.weaker := Int.floor_nonneg.mpr (div_nonneg h0 L.top_pos.le)
      omega
    have hbelow : s.weaker < L.top := by
      have hrest := L.rest_lt_top s.weaker
      rwa [Ladder.rest, hcycles, Int.cast_zero, zero_mul, sub_zero] at hrest
    rw [hcycles, L.pays_of_lt_top h0 hbelow, Int.cast_zero, zero_mul, sub_zero, sub_zero]
    exact .stop hbelow
  | succ n ih =>
    have hreach : L.top ≤ s.weaker := by
      by_contra hbelow
      rw [L.cycles_eq_zero h0 (not_le.mp hbelow)] at hn
      cases hn
    have hnext : (s.afterCycle L .carryForward).weaker = s.weaker - L.top := min_sub_sub_right _ _ _
    have hback : s.weaker = (s.weaker - L.top) + (1 : ℤ) * L.top := by
      push_cast
      ring
    have hcycles : L.cycles s.weaker = L.cycles (s.weaker - L.top) + 1 := by
      conv_lhs => rw [hback]
      exact L.cycles_add_mul _ 1
    have hpays : L.pays s.weaker = L.pays (s.weaker - L.top) + L.full := by
      conv_lhs => rw [hback, L.pays_add_cycles, Int.cast_one, one_mul]
    have hrun := ih (s := s.afterCycle L .carryForward) (by rw [hnext]; linarith) (by rw [hnext]; omega)
    rw [hnext] at hrun
    refine .cycle hreach ?_
    convert hrun using 2
    · rw [hcycles]
      show _ = s.left - L.top - _
      push_cast
      ring
    · rw [hcycles]
      show _ = s.right - L.top - _
      push_cast
      ring
    · rw [hpays]
      show _ = s.total + L.full + _
      ring

/-- **Flushing**, it takes one cycle at most. -/
theorem guideLoop_fullFlush (hsteps : L.reached 0 = 0) :
    GuideLoop L .fullFlush s (if L.top ≤ s.weaker then ⟨0, 0, s.total + L.full⟩
      else { s with total := s.total + L.reached s.weaker }) := by
  by_cases hreach : L.top ≤ s.weaker
  · rw [if_pos hreach]
    have hzero : (s.afterCycle L .fullFlush).weaker = 0 := min_self 0
    have hstop : GuideLoop L .fullFlush (s.afterCycle L .fullFlush) _ := .stop (by rw [hzero]; exact L.top_pos)
    rw [hzero, hsteps, add_zero] at hstop
    exact .cycle hreach hstop
  · rw [if_neg hreach]
    exact .stop (not_le.mp hreach)

end Loop

/-! ## 2. The calculator -/

/-- Two legs that were paid so much. -/
def LegVolumes.state (l : LegVolumes) (total : ℚ) : CycleState := ⟨l.left.value, l.right.value, total⟩

theorem validate_mode {config v : CycleStepConfig} (h : config.validate = .ok v) : v.volumeAfterCycle ≠ .netOff := by
  simp only [CycleStepConfig.validate, seq_eq_ok, stopIf_eq_ok] at h
  obtain ⟨-, -, -, hmode, -, -, h⟩ := h
  cases h
  exact hmode

section Legs

variable {config v : CycleStepConfig} (hv : Validated config v) {l : LegVolumes} {cycled : LegVolumes × Dec}

theorem reached_zero : hv.ladder.reached 0 = 0 := by
  refine hv.ladder.reached_of_lt fun step hstep => ?_
  obtain ⟨s, hs, rfl⟩ := List.mem_map.mp hstep
  exact (hv.positive s hs).1

/-- **The closed form is the loop**, for one pair of legs. -/
theorem guideLoop_cycleLegs (hmode : v.volumeAfterCycle ≠ .netOff) (hl : ∀ leg, 0 ≤ (l.on leg).value)
    (h : cycleLegs v l = .ok cycled) :
    GuideLoop hv.ladder v.volumeAfterCycle (l.state 0) (cycled.1.state cycled.2.value) ∧
      (∀ leg, 0 ≤ (cycled.1.on leg).value) ∧ cycled.1.weaker < hv.ladder.top := by
  have h0 : 0 ≤ l.weaker := le_min (hl .left) (hl .right)
  cases hcase : v.volumeAfterCycle with
  | netOff => exact absurd hcase hmode
  | carryForward =>
    obtain ⟨hpaid, hlegs⟩ := cycleLegs_ok hv hcase h0 h
    have hleft := hlegs .left
    have hright := hlegs .right
    simp only [LegVolumes.on] at hleft hright
    refine ⟨?_, fun leg => ?_, ?_⟩
    · have hloop := guideLoop_carryForward (L := hv.ladder) (s := l.state 0) h0
      unfold LegVolumes.state at hloop ⊢
      rw [hleft, hright, hpaid]
      rwa [zero_add] at hloop
    · have hle : l.weaker ≤ (l.on leg).value := by
        cases leg with
        | left => exact min_le_left _ _
        | right => exact min_le_right _ _
      have hrest : 0 ≤ l.weaker - _ := hv.ladder.rest_nonneg l.weaker
      rw [hlegs leg]
      linarith
    · have hrest : l.weaker - _ < _ := hv.ladder.rest_lt_top l.weaker
      unfold LegVolumes.weaker
      rw [hleft, hright, min_sub_sub_right]
      exact hrest
  | fullFlush =>
    obtain ⟨sum, full, hsum, hfull, htotal⟩ := cycleLegs_split hv h
    have hmatched : (v.steps.getLast hv.nonempty).threshold ≤ l.left.min l.right ↔ hv.ladder.top ≤ l.weaker := by
      rw [le_iff, value_min]
      rfl
    have hloop : GuideLoop hv.ladder .fullFlush (l.state 0)
        (if hv.ladder.top ≤ l.weaker then ⟨0, 0, 0 + hv.ladder.full⟩
          else ⟨l.left.value, l.right.value, 0 + hv.ladder.reached l.weaker⟩) :=
      guideLoop_fullFlush (reached_zero hv)
    obtain ⟨rest, paid⟩ := cycled
    rw [htotal]
    simp only [fullCycles, hcase, hmatched] at hfull
    split at hfull
    · rename_i hreach
      obtain ⟨total, hadd, hfull⟩ := bind_eq_ok.mp hfull
      cases hfull
      have hzero : LegVolumes.weaker ⟨Dec.zero, Dec.zero⟩ = 0 := by simp [LegVolumes.weaker]
      rw [if_pos hreach] at hloop
      refine ⟨?_, fun leg => ?_, hv.ladder.top_pos.trans_eq' hzero.symm⟩
      · rw [hzero, reached_zero hv, add_zero, tryAdd_value hadd, hsum, value_zero]
        simpa [LegVolumes.state] using hloop
      cases leg <;> exact value_zero.ge
    · rename_i hbelow
      cases hfull
      rw [if_neg hbelow] at hloop
      refine ⟨?_, hl, not_le.mp hbelow⟩
      rwa [value_zero]

end Legs

/-- A position with one earning at most keeps it when the earnings are sorted. -/
theorem filter_sortEarnings {earnings : List BinaryCommissionEarning} {u : Uuid} {e : Option BinaryCommissionEarning}
    (h : (earnings.filter fun x => x.positionId = u) = e.toList) :
    ((sortEarnings earnings).filter fun x => x.positionId = u) = e.toList := by
  have hperm := (sortEarnings_perm earnings).filter fun x => decide (x.positionId = u)
  rw [h] at hperm
  cases e with
  | none => exact hperm.eq_nil
  | some e => exact List.perm_singleton.mp hperm

/-- What the result of a calculation has for a position: what it earned, which the loop says, is reported once,
    capped and rounded, or enters the settling of its owner's cap, and what the loop leaves is carried, capped. -/
structure ReportedFor (lib : DecimalLib) (v : CycleStepConfig) (ownership : Option Ownership) (minorUnits : Nat)
    (raw : List BinaryCommissionEarning) (r : BinaryCalculationResult) (u : Uuid) (l : LegVolumes)
    (cycled : LegVolumes × Dec) : Prop where
  earned : (raw.filter fun e => e.positionId = u) = (cycleStepEarning v ownership u l cycled.2).toList
  rounded : useAggregateCap v.multiPositionCapMode ownership = false →
    (r.earnings.filter fun e => e.positionId = u) = ((cycleStepEarning v ownership u l cycled.2).map fun e =>
      { e with dollarAmount := e.dollarAmount.roundMinor lib minorUnits }).toList
  carried : r.carryForward.lookup u = some (capCarried v.carryForwardCap cycled.1)

/-- **The closed form is the loop of the guide**: when a calculation succeeds, every position that may be paid earns
    before caps what the loop pays, is left with the legs that the loop leaves, neither of them negative, its
    weaker leg is below the highest threshold, and the result reports what it earned and carries what it has. -/
theorem cycle_count_follows_guide {lib : DecimalLib} {order : HashOrder Site} {t : BinaryTree}
    {plan : CompensationPlan} {config : CycleStepConfig} {snapshots : Snapshots} {volume : List VolumeSource}
    {carryForward : LegMap} {ownership : Option Ownership} {r : BinaryCalculationResult} (ht : t.Valid)
    (h : calculateBinaryCycleStep lib order t plan config snapshots volume carryForward ownership = .ok r) :
    ∃ (v : CycleStepConfig) (hv : Validated config v) (prep : Prepared) (minorUnits : Nat)
      (raw settled : List BinaryCommissionEarning), config.validate = .ok v ∧
      prepare order t plan snapshots volume carryForward ownership = .ok prep ∧
      planMinorUnits plan = .ok minorUnits ∧
      finalizeEarnings lib raw
        (if useAggregateCap v.multiPositionCapMode ownership then v.capPerPeriod else none) minorUnits =
          .ok settled ∧ r.earnings = sortEarnings settled ∧
      ∀ u l, prep.legs.lookup u = some l → prep.mayBePaid ownership u = true →
        ∃ cycled, cycleLegs v l = .ok cycled ∧
          (∀ e, GuideLoop hv.ladder v.volumeAfterCycle (l.state 0) e ↔ e = cycled.1.state cycled.2.value) ∧
          (∀ leg, 0 ≤ (cycled.1.on leg).value) ∧ cycled.1.weaker < hv.ladder.top ∧
          ReportedFor lib v ownership minorUnits raw r u l cycled := by
  obtain ⟨v, hvalid, h⟩ := bind_eq_ok.mp h
  have hvalid := relay_eq_ok.mp hvalid
  obtain ⟨places, hplaces, h⟩ := bind_eq_ok.mp h
  obtain ⟨-, h⟩ := seq_eq_ok.mp h
  obtain ⟨prep, hprep, h⟩ := bind_eq_ok.mp h
  obtain ⟨visits, hvisits, h⟩ := bind_eq_ok.mp h
  obtain ⟨settled, hsettled, h⟩ := bind_eq_ok.mp h
  have hsettled := relay_eq_ok.mp hsettled
  cases h
  have hp := prepare_ok ht hprep
  refine ⟨v, validate_ok hvalid, prep, places, _, settled, hvalid, hprep, hplaces, hsettled, rfl,
    fun u l hl hmay => ?_⟩
  have hposition := hp.listed.mpr ⟨l, hl⟩
  obtain ⟨y, hy, hvisit⟩ := exists_mem_of_mapM hvisits hposition
  have hcarried := cycled_carryForward hp.nodup hvisits hl hy hvisit order v.carryForwardCap
  have hearned := earned_of_visits hp.nodup hvisits hposition hvisit
  unfold cyclePosition at hvisit
  rw [bind_ok (Prepared.legsOf_eq_ok.mpr hl), if_neg (by rw [hmay]; decide)] at hvisit
  obtain ⟨cycled, hcycled, hvisit⟩ := bind_eq_ok.mp hvisit
  have hcycled := relay_eq_ok.mp hcycled
  cases hvisit
  obtain ⟨hloop, hnonneg, hbelow⟩ :=
    guideLoop_cycleLegs (validate_ok hvalid) (validate_mode hvalid) (hp.working_nonneg hl) hcycled
  refine ⟨cycled, hcycled, fun e => ⟨fun he => he.unique hloop, fun he => he ▸ hloop⟩, hnonneg, hbelow,
    hearned, fun haggregate => ?_, hcarried⟩
  rw [haggregate, if_neg Bool.false_ne_true] at hsettled
  cases hsettled
  refine filter_sortEarnings ?_
  rw [List.filter_map, Option.toList_map]
  exact congrArg (List.map _) hearned

/-- A period in which both legs reach 1500: one full cycle, and the first step of the next one. -/
def fullPeriod : CyclePeriod :=
  ⟨HashOrder.asListed, [⟨2, Dec.whole 1500 rfl⟩, ⟨3, Dec.whole 1600 rfl⟩]⟩

/-- The top position is paid 225 for the cycle and 25 for the step, and carries 300 and 400. -/
theorem cycle_count_follows_guide_full : ∃ r, smallSetup.calculate documentedLib fullPeriod ∅ = .ok r ∧
    dollarsPaid r.earnings 1 = 250 ∧
    ∃ (v : CycleStepConfig) (hv : Validated smallSteps v) (prep : Prepared) (l : LegVolumes),
      smallSteps.validate = .ok v ∧
      prepare HashOrder.asListed smallTree smallPlan smallSnapshots fullPeriod.volume ∅ none = .ok prep ∧
      prep.legs.lookup 1 = some l ∧ l.weaker = 1500 ∧ prep.mayBePaid none 1 = true ∧
      GuideLoop hv.ladder v.volumeAfterCycle (l.state 0) ⟨300, 400, 250⟩ ∧
      carriedOn r.carryForward 1 .left = 300 ∧ carriedOn r.carryForward 1 .right = 400 := by
  have hcall : (smallSetup.calculate documentedLib fullPeriod ∅).toOption.map (fun r =>
      (dollarsPaid r.earnings 1, carriedOn r.carryForward 1 .left, carriedOn r.carryForward 1 .right)) =
      some (250, 300, 400) := by
    decide +kernel
  have hlegs : (smallSteps.validate.toOption.bind fun v =>
      (prepare HashOrder.asListed smallTree smallPlan smallSnapshots fullPeriod.volume ∅ none).toOption.bind fun prep =>
        (prep.legs.lookup 1).bind fun l => (cycleLegs v l).toOption.map fun cycled =>
          (prep.mayBePaid none 1, l.weaker, cycled.1.left.value, cycled.1.right.value, cycled.2.value)) =
      some (true, 1500, 300, 400, 250) := by
    decide +kernel
  obtain ⟨r, hr, hfacts⟩ := Option.map_eq_some_iff.mp hcall
  have hr := toOption_eq_some.mp hr
  obtain ⟨hpaid, hcarried⟩ := Prod.mk.inj hfacts
  obtain ⟨v', hv', hlegs⟩ := Option.bind_eq_some_iff.mp hlegs
  obtain ⟨prep', hprep', hlegs⟩ := Option.bind_eq_some_iff.mp hlegs
  obtain ⟨l, hl, hlegs⟩ := Option.bind_eq_some_iff.mp hlegs
  obtain ⟨cycled', hcycled', hlegs⟩ := Option.map_eq_some_iff.mp hlegs
  obtain ⟨v, hv, prep, places, raw, settled, hvalid, hprep, -, -, -, hloop⟩ :=
    cycle_count_follows_guide smallTree_valid hr
  cases hvalid.symm.trans (toOption_eq_some.mp hv')
  cases hprep.symm.trans (toOption_eq_some.mp hprep')
  obtain ⟨hmay, hlegs⟩ := Prod.mk.inj hlegs
  obtain ⟨hweaker, hlegs⟩ := Prod.mk.inj hlegs
  obtain ⟨hleft, hlegs⟩ := Prod.mk.inj hlegs
  obtain ⟨hright, htotal⟩ := Prod.mk.inj hlegs
  obtain ⟨cycled, hcycled, hiff, -⟩ := hloop 1 l hl hmay
  cases hcycled.symm.trans (toOption_eq_some.mp hcycled')
  refine ⟨r, hr, hpaid, v', hv, prep', l, hvalid, hprep, hl, hweaker, hmay, (hiff _).mpr ?_, Prod.mk.inj hcarried⟩
  rw [LegVolumes.state, hleft, hright, htotal]

end MlmForge.Commission
