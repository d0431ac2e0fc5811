/-
  Subject:   The pay of board cycles: a fixed amount each, for so many cycles of a member in a period.

  * **`cycle_pay_composes`** -- however a period is cut into calls it pays the same, and of each member the first
    cycles are paid until the limit is reached.
-/
import MlmForge.Basis.Maps
import MlmForge.BoardPlan.Engine
import MlmForge.Commission.Money

namespace MlmForge.Commission

open Engine Rank BoardPlan List Query

abbrev CycleCounts := AList fun _ : Uuid => Nat

def CycleCounts.of (counts : CycleCounts) (u : Uuid) : Nat := (counts.lookup u).getD 0

/-- What the calculator reads of a plan. -/
structure CyclePay where
  cycleCommission : AuthoredDec
  maxCyclesPerPeriod : Nat

structure BoardCycleEarning where
  earnerId : Uuid
  boardId : Uuid
  dollarAmount : Dec
  cycleNumber : Nat
  capped : Bool
  deriving DecidableEq

structure BoardCommissionResult where
  earnings : List BoardCycleEarning
  updatedCycleCounts : CycleCounts
  deriving DecidableEq

section Pay

variable (lib : DecimalLib) (config : CyclePay) (minorUnits : Nat)

/-- What a member earns with a cycle, by the number it has in the period. -/
def cycleEarning (event : CycleEvent) (count : Nat) : BoardCycleEarning :=
  let capped := decide (config.maxCyclesPerPeriod < count)
  ⟨event.cycledMember, event.boardId,
    if capped then Dec.zero else config.cycleCommission.roundMinor lib minorUnits, count, capped⟩

def calculateBoardCommissions : List CycleEvent → CycleCounts → Query Empty BoardCommissionResult
  | [], counts => .ok ⟨[], counts⟩
  | event :: events, counts => do
      let count := counts.of event.cycledMember + 1
      stopIf (2 ^ 32 ≤ count) (.panic "attempt to add with overflow")
      let rest ← calculateBoardCommissions events (counts.insert event.cycledMember count)
      .ok ⟨cycleEarning lib config minorUnits event count :: rest.earnings, rest.updatedCycleCounts⟩

/-- One call for each part, with the counts passed on. -/
def calculateInParts : List (List CycleEvent) → CycleCounts → Query Empty BoardCommissionResult
  | [], counts => .ok ⟨[], counts⟩
  | part :: parts, counts => do
      let paid ← calculateBoardCommissions lib config minorUnits part counts
      let rest ← calculateInParts parts paid.updatedCycleCounts
      .ok ⟨paid.earnings ++ rest.earnings, rest.updatedCycleCounts⟩

theorem calculateBoardCommissions_append (l l' : List CycleEvent) (counts : CycleCounts) :
    calculateBoardCommissions lib config minorUnits (l ++ l') counts = (do
      let paid ← calculateBoardCommissions lib config minorUnits l counts
      let rest ← calculateBoardCommissions lib config minorUnits l' paid.updatedCycleCounts
      .ok ⟨paid.earnings ++ rest.earnings, rest.updatedCycleCounts⟩) := by
  induction l generalizing counts with
  | nil =>
    rw [calculateBoardCommissions, nil_append, bind_ok rfl]
    cases calculateBoardCommissions lib config minorUnits l' counts <;> rfl
  | cons event l ih =>
    rw [cons_append, calculateBoardCommissions, calculateBoardCommissions, ih]
    simp only [bind_assoc]
    rfl

theorem calculateInParts_eq (parts : List (List CycleEvent)) (counts : CycleCounts) :
    calculateInParts lib config minorUnits parts counts =
      calculateBoardCommissions lib config minorUnits parts.flatten counts := by
  induction parts generalizing counts with
  | nil => rfl
  | cons part parts ih =>
    rw [calculateInParts, flatten_cons, calculateBoardCommissions_append]
    simp only [ih]

/-- What the events of one member are paid. -/
structure PaidUpTo (prior : CycleCounts) (events : List CycleEvent) (result : BoardCommissionResult) (u : Uuid) :
    Prop where
  count : result.updatedCycleCounts.of u = prior.of u + (events.filter (·.cycledMember = u)).length
  earned : ((result.earnings.filter (·.earnerId = u)).map fun e => (e.dollarAmount, e.capped)) =
    let n := (events.filter (·.cycledMember = u)).length
    let paid := min n (config.maxCyclesPerPeriod - prior.of u)
    replicate paid (config.cycleCommission.roundMinor lib minorUnits, false) ++
      replicate (n - paid) (Dec.zero, true)

theorem of_insert (counts : CycleCounts) (u v : Uuid) (n : Nat) :
    CycleCounts.of (counts.insert u n) v = if v = u then n else counts.of v := by
  rw [CycleCounts.of, Maps.lookup_insert]
  split <;> rfl

theorem paidUpTo_cons {prior : CycleCounts} {event : CycleEvent} {events : List CycleEvent}
    {rest : BoardCommissionResult} {u : Uuid} (h : PaidUpTo lib config minorUnits
      (prior.insert event.cycledMember (prior.of event.cycledMember + 1)) events rest u) :
    PaidUpTo lib config minorUnits prior (event :: events)
      ⟨cycleEarning lib config minorUnits event (prior.of event.cycledMember + 1) :: rest.earnings,
        rest.updatedCycleCounts⟩ u := by
  obtain ⟨hcount, hearned⟩ := h
  rw [of_insert] at hcount hearned
  by_cases hu : event.cycledMember = u
  · subst hu
    rw [if_pos rfl] at hcount hearned
    refine ⟨?_, ?_⟩
    · rw [hcount, filter_cons_of_pos (by simp), length_cons]
      omega
    · rw [filter_cons_of_pos (by simp [cycleEarning]), filter_cons_of_pos (by simp), map_cons, hearned, length_cons]
      generalize (events.filter (·.cycledMember = event.cycledMember)).length = n
      by_cases hcap : config.maxCyclesPerPeriod < prior.of event.cycledMember + 1
      · have hnone : config.maxCyclesPerPeriod - prior.of event.cycledMember = 0 := by omega
        have hnone' : config.maxCyclesPerPeriod - (prior.of event.cycledMember + 1) = 0 := by omega
        simp [cycleEarning, hcap, hnone, hnone', replicate_succ]
      · have hone : config.maxCyclesPerPeriod - prior.of event.cycledMember =
            config.maxCyclesPerPeriod - (prior.of event.cycledMember + 1) + 1 := by omega
        simp [cycleEarning, hcap, hone, replicate_succ]
  · rw [if_neg (Ne.symm hu)] at hcount hearned
    refine ⟨?_, ?_⟩
    · rw [filter_cons_of_neg (by simpa using hu)]
      exact hcount
    · rw [filter_cons_of_neg (by simpa [cycleEarning] using hu), filter_cons_of_neg (by simpa using hu)]
      exact hearned

/-- **Cycle pay composes over a period**: cut into calls in any way, with the counts passed on, it is what one call
    pays; and of the cycles of each member the first ones are paid, as many as the period still allows. -/
theorem cycle_pay_composes (prior : CycleCounts) (events : List CycleEvent)
    (hroom : ∀ u, prior.of u + (events.filter (·.cycledMember = u)).length < 2 ^ 32) :
    (∀ parts, parts.flatten = events → calculateInParts lib config minorUnits parts prior =
      calculateBoardCommissions lib config minorUnits events prior) ∧
    ∃ result, calculateBoardCommissions lib config minorUnits events prior = .ok result ∧
      result.earnings.map (fun e => (e.earnerId, e.boardId)) =
        events.map (fun e => (e.cycledMember, e.boardId)) ∧
      ∀ u, PaidUpTo lib config minorUnits prior events result u := by
  refine ⟨fun parts hparts => by rw [calculateInParts_eq, hparts], ?_⟩
  induction events generalizing prior with
  | nil => exact ⟨⟨[], prior⟩, rfl, rfl, fun u => ⟨rfl, by simp⟩⟩
  | cons event events ih =>
    obtain ⟨rest, hrest, hwho, hpaid⟩ := ih (prior.insert event.cycledMember
      (prior.of event.cycledMember + 1)) fun u => by
        have hu := hroom u
        rw [of_insert]
        by_cases he : event.cycledMember = u
        · subst he
          rw [filter_cons_of_pos (by simp), length_cons] at hu
          rw [if_pos rfl]
          omega
        · rw [filter_cons_of_neg (by simpa using he)] at hu
          rw [if_neg (Ne.symm he)]
          exact hu
    have hlt : ¬ 2 ^ 32 ≤ prior.of event.cycledMember + 1 := by
      have hu := hroom event.cycledMember
      rw [filter_cons_of_pos (by simp), length_cons] at hu
      omega
    refine ⟨_, seq_eq_ok.mpr ⟨stopIf_eq_ok.mpr hlt, bind_ok hrest _⟩, ?_, fun u => ?_⟩
    · exact congrArg _ hwho
    · exact paidUpTo_cons lib config minorUnits (hpaid u)

end Pay

/-- A member who cycles twice where one cycle is paid. -/
def twoCycles : List CycleEvent := [⟨1, 7, [], none⟩, ⟨2, 7, [], none⟩]

theorem cycle_pay_composes_two : ∃ result,
    calculateBoardCommissions documentedLib ⟨Dec.one, 1⟩ 2 twoCycles ∅ = .ok result ∧
      calculateInParts documentedLib ⟨Dec.one, 1⟩ 2 [twoCycles.take 1, twoCycles.drop 1] ∅ = .ok result ∧
      PaidUpTo documentedLib ⟨Dec.one, 1⟩ 2 ∅ twoCycles result 7 := by
  obtain ⟨hparts, result, hok, -, hpaid⟩ := cycle_pay_composes documentedLib ⟨Dec.one, 1⟩ 2 ∅ twoCycles fun u => by
    have hle := length_filter_le (·.cycledMember = u) twoCycles
    exact Nat.lt_of_le_of_lt (Nat.add_le_add_left hle 0) (by decide)
  exact ⟨result, hok, (hparts [twoCycles.take 1, twoCycles.drop 1] rfl).trans hok, hpaid 7⟩

end MlmForge.Commission
