/-
  Subject:   What the commission calculators read besides a tree: the plan, the distributors of the period,
             and the checks that they share.

  * `validateSnapshots`, `isEligible` -- the checks.
-/
import MlmForge.Basis.HashOrder
import MlmForge.Commission.Money
import MlmForge.Rank.Predicates

namespace MlmForge.Commission

open Engine Rank

/-! ## 1. Data -/

/-- The places where the calculators iterate a hash map. -/
inductive Site where
  | index
  | userIds
  | ranks
  | volumes
  | eligibility
  | carried
  | legs
  | cycled
  deriving DecidableEq

/-- Who is paid for the number of active legs, and how deep. -/
structure ActiveLegTier where
  minActiveLegs : UInt16
  maxCommissionDepth : UInt16
  deriving DecidableEq

structure CommissionEligibility where
  minimumPv : AuthoredDec
  requireOrderInPeriod : Bool
  eligibleStatuses : List String
  activeLegTiers : List ActiveLegTier
  deriving DecidableEq

structure VolumeConfig where
  baseCurrency : String
  volumeToDollarMultiplier : AuthoredDec
  deriving DecidableEq

structure CompensationPlan where
  volume : VolumeConfig
  ranks : List RankDefinition
  eligibility : CommissionEligibility
  deriving DecidableEq

/-- Point-in-time facts about a distributor. -/
structure DistributorSnapshot where
  rank : String
  personalVolume : AuthoredDec
  status : String
  hasOrderInPeriod : Bool
  deriving DecidableEq

abbrev Snapshots := AList fun _ : Uuid => DistributorSnapshot

inductive BinaryLeg where
  | left
  | right
  deriving DecidableEq

/-- What is wrong with a configuration. -/
inductive ConfigFault where
  | noSteps
  | thresholdNotPositive
  | amountNotPositive
  | duplicateThreshold (threshold : AuthoredDec)
  | netOffUnsupported
  | capNegative
  | carryForwardCapNegative
  deriving DecidableEq

inductive CalculationError where
  | negativeCarriedLegVolume (position : Uuid) (leg : BinaryLeg) (volume : Dec)
  | sourceNotInTree (userId : Uuid)
  | sourceNotInSnapshot (userId : Uuid)
  | uplineNotInSnapshot (userId : Uuid)
  | distributorNotInSnapshot (userId : Uuid)
  | unknownSnapshotRank (userId : Uuid) (rank : String)
  | invalidCvAmount (userId : Uuid) (cvAmount : AuthoredDec)
  | invalidPersonalVolume (userId : Uuid) (personalVolume : AuthoredDec)
  | configError (fault : ConfigFault)
  | pairingPercentOutOfRange (percent : AuthoredDec)
  | negativeCap (cap : AuthoredDec)
  | capNotWholeMinorUnits (cap : AuthoredDec) (currency : String)
  | unknownCurrency (currency : String)
  | numeric (e : NumericError)
  | treeConfigMismatch (structureName : String) (expectedWidth actualWidth : UInt8)
      (expectedSpillover actualSpillover : SpilloverDirection)
  deriving DecidableEq

/-! ## 2. Currencies -/

/-- The decimal places of each currency's minor unit. -/
def minorUnitTable : List (String × Nat) :=
  [("AED", 2), ("AFN", 2), ("ALL", 2), ("AMD", 2), ("AOA", 2), ("ARS", 2), ("AUD", 2), ("AWG", 2),
   ("AZN", 2), ("BAM", 2), ("BBD", 2), ("BDT", 2), ("BHD", 3), ("BIF", 0), ("BMD", 2), ("BND", 2),
   ("BOB", 2), ("BRL", 2), ("BSD", 2), ("BTN", 2), ("BWP", 2), ("BYN", 2), ("BZD", 2), ("CAD", 2),
   ("CDF", 2), ("CHF", 2), ("CLP", 0), ("CNY", 2), ("COP", 2), ("CRC", 2), ("CUP", 2), ("CVE", 2),
   ("CZK", 2), ("DJF", 0), ("DKK", 2), ("DOP", 2), ("DZD", 2), ("EGP", 2), ("ERN", 2), ("ETB", 2),
   ("EUR", 2), ("FJD", 2), ("FKP", 2), ("GBP", 2), ("GEL", 2), ("GHS", 2), ("GIP", 2), ("GMD", 2),
   ("GNF", 0), ("GTQ", 2), ("GYD", 2), ("HKD", 2), ("HNL", 2), ("HTG", 2), ("HUF", 2), ("IDR", 2),
   ("ILS", 2), ("INR", 2), ("IQD", 3), ("IRR", 2), ("ISK", 0), ("JMD", 2), ("JOD", 3), ("JPY", 0),
   ("KES", 2), ("KGS", 2), ("KHR", 2), ("KMF", 0), ("KPW", 2), ("KRW", 0), ("KWD", 3), ("KYD", 2),
   ("KZT", 2), ("LAK", 2), ("LBP", 2), ("LKR", 2), ("LRD", 2), ("LSL", 2), ("LYD", 3), ("MAD", 2),
   ("MDL", 2), ("MGA", 2), ("MKD", 2), ("MMK", 2), ("MNT", 2), ("MOP", 2), ("MRU", 2), ("MUR", 2),
   ("MVR", 2), ("MWK", 2), ("MXN", 2), ("MYR", 2), ("MZN", 2), ("NAD", 2), ("NGN", 2), ("NIO", 2),
   ("NOK", 2), ("NPR", 2), ("NZD", 2), ("OMR", 3), ("PAB", 2), ("PEN", 2), ("PGK", 2), ("PHP", 2),
   ("PKR", 2), ("PLN", 2), ("PYG", 0), ("QAR", 2), ("RON", 2), ("RSD", 2), ("RUB", 2), ("RWF", 0),
   ("SAR", 2), ("SBD", 2), ("SCR", 2), ("SDG", 2), ("SEK", 2), ("SGD", 2), ("SHP", 2), ("SLE", 2),
   ("SOS", 2), ("SRD", 2), ("SSP", 2), ("STN", 2), ("SVC", 2), ("SYP", 2), ("SZL", 2), ("THB", 2),
   ("TJS", 2), ("TMT", 2), ("TND", 3), ("TOP", 2), ("TRY", 2), ("TTD", 2), ("TWD", 2), ("TZS", 2),
   ("UAH", 2), ("UGX", 0), ("USD", 2), ("UYU", 2), ("UZS", 2), ("VED", 2), ("VES", 2), ("VND", 0),
   ("VUV", 0), ("WST", 2), ("XAF", 0), ("XCD", 2), ("XCG", 2), ("XOF", 0), ("XPF", 0), ("YER", 2),
   ("ZAR", 2), ("ZMW", 2), ("ZWG", 2)]

def minorUnits (code : String) : Option Nat := minorUnitTable.lookup code

def planMinorUnits (plan : CompensationPlan) : Query CalculationError Nat :=
  match minorUnits plan.volume.baseCurrency with
  | some units => .ok units
  | none => .error (.err (.unknownCurrency plan.volume.baseCurrency))

/-! ## 3. Snapshots -/

/-- Whether a distributor meets basic commission eligibility. -/
def isEligible (snapshot : DistributorSnapshot) (eligibility : CommissionEligibility) : Bool :=
  eligibility.minimumPv ≤ snapshot.personalVolume &&
    (!eligibility.requireOrderInPeriod || snapshot.hasOrderInPeriod) &&
    (eligibility.eligibleStatuses.isEmpty || snapshot.status ∈ eligibility.eligibleStatuses)

/-- Refuses a rank that the plan does not define. Of several offenders the lowest is named. -/
def validateSnapshotRanks (order : HashOrder Site) (plan : CompensationPlan) (snapshots : Snapshots) :
    Query CalculationError Unit :=
  let known := plan.ranks.map RankDefinition.name
  lowestFault (fun id s => .ok (if s.rank ∈ known then none else some (.unknownSnapshotRank id s.rank)))
    none (order.entries .ranks snapshots)

/-- Refuses a negative personal volume. -/
def validateSnapshotVolumes (order : HashOrder Site) (snapshots : Snapshots) :
    Query CalculationError Unit :=
  lowestFault (fun id s => .ok (if s.personalVolume.isNegative then
      some (.invalidPersonalVolume id s.personalVolume) else none))
    none (order.entries .volumes snapshots)

/-- Refuses a required distributor without a snapshot. -/
def validateSnapshotCoverage (required : List Uuid) (snapshots : Snapshots) :
    Query CalculationError Unit :=
  lowestFault (fun id (_ : Unit) => .ok (if (snapshots.lookup id).isSome then none
      else some (.distributorNotInSnapshot id)))
    none (required.map fun id => ⟨id, ()⟩)

/-- The snapshot checks, in a fixed order. -/
def validateSnapshots (order : HashOrder Site) (plan : CompensationPlan) (snapshots : Snapshots)
    (required : List Uuid) : Query CalculationError Unit := do
  validateSnapshotRanks order plan snapshots
  validateSnapshotVolumes order snapshots
  validateSnapshotCoverage required snapshots

end MlmForge.Commission
