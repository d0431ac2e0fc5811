/-
  Subject:   Who sits where: an arena read as a table of seats, one for every user.

  The arena names nodes by slot, reuses slots, and moves nodes between them. What the rest of the
  system sees of a tree is its roster: for every user the seat they hold, with parent and sponsor
  named by user. `place` gives the slot of a node in its parent's row, where the tree has rows.

  * **`Pruned.roster`** -- a removal changes the roster by exactly what it reports.
-/
import MlmForge.Engine.Matrix

namespace MlmForge.Engine

open List Function Option

/-- The seat of one user. -/
structure Seat where
  parent : Option Uuid
  position : Option Int
  depth : Int
  sponsor : Option Uuid
  enrolledAt : Int
  deriving DecidableEq, Repr

/-- The seats of a tree, by user. -/
abbrev Roster := Uuid → Option Seat

/-- **A sound roster**: one root at depth 0, everybody else one below their parent, sponsors seated,
    and in a tree with rows of `limit` slots no slot held twice. -/
structure Roster.Sound (limit : Option Nat) (r : Roster) : Prop where
  nil : r Uuid.nil = none
  root_unique : ∀ {u v a b}, r u = some a → r v = some b → a.parent = none → b.parent = none → u = v
  rooted : ∀ {u}, r u ≠ none → ∃ v b, r v = some b ∧ b.parent = none
  top : ∀ {u a}, r u = some a → a.parent = none →
    a.depth = 0 ∧ a.position = none ∧ a.sponsor = none
  below : ∀ {u a p}, r u = some a → a.parent = some p →
    p ≠ u ∧ ∃ b, r p = some b ∧ a.depth = b.depth + 1 ∧ 0 ≤ b.depth
  sponsored : ∀ {u a s}, r u = some a → a.sponsor = some s → s ≠ u ∧ r s ≠ none
  unslotted : limit = none → ∀ {u a}, r u = some a → a.position = none
  slotted : ∀ {n}, limit = some n → ∀ {u a}, r u = some a → a.parent ≠ none →
    ∃ q : Nat, q < n ∧ a.position = some (q : Int)
  slot_unique : ∀ {u v a b p q}, r u = some a → r v = some b → a.parent = some p →
    b.parent = some p → a.position = some q → b.position = some q → u = v

def Roster.SponsoredBy (r : Roster) (u v : Uuid) : Prop :=
  ∃ seat, r u = some seat ∧ seat.sponsor = some v

/-- What a mutation reports beyond its success. -/
structure Outcome where
  responsored : List Responsored
  relocated : List Relocation
  removed : List Uuid
  deriving DecidableEq, Repr

namespace Outcome

/-- A mutation that only adds reports nothing. -/
def quiet : Outcome := ⟨[], [], []⟩

/-- The seat of a user who stays, with the sponsor and the placement that are reported for them. -/
def reseat (out : Outcome) (u : Uuid) (seat : Seat) : Seat :=
  let seat := (out.responsored.find? (·.userId = u)).elim seat fun m =>
    { seat with sponsor := some m.newSponsorId }
  (out.relocated.find? (·.userId = u)).elim seat fun m =>
    { seat with parent := some m.parentId, position := some m.position.toNat, depth := m.depth }

/-- The roster after a removal, from the roster before and what the removal reports. -/
def applyTo (out : Outcome) (r : Roster) : Roster := fun u =>
  if u ∈ out.removed then none else (r u).map (out.reseat u)

end Outcome

/-- **What a removal reports fits the roster it removes from**: it names seated users, nobody twice,
    hands recruits to someone their sponsors lead to, and moves nobody into a slot that another
    survivor holds. -/
structure Report (r : Roster) (out : Outcome) : Prop where
  removed_ne : out.removed ≠ []
  removed_nodup : out.removed.Nodup
  removed_mem : ∀ u ∈ out.removed, r u ≠ none
  responsored_nodup : (out.responsored.map Responsored.userId).Nodup
  responsored_mem : ∀ m ∈ out.responsored, m.userId ∉ out.removed ∧
    ∃ seat, r m.userId = some seat ∧ seat.parent ≠ none
  responsored_up : ∀ m ∈ out.responsored, Relation.TransGen r.SponsoredBy m.userId m.newSponsorId
  relocated_nodup : (out.relocated.map Relocation.userId).Nodup
  relocated_mem : ∀ m ∈ out.relocated, m.userId ∉ out.removed ∧
    ∃ seat, r m.userId = some seat ∧ seat.parent ≠ none
  target_free : ∀ m ∈ out.relocated, ∀ v seat, r v = some seat → v ∉ out.removed →
    seat.parent = some m.parentId → seat.position = some (m.position.toNat : Int) → v = m.userId

namespace Arena

/-- The user of a slot. -/
def userAt (a : Arena) (i : NodeIndex) : Uuid := (a.nodeAt i).userId

/-- The seat of a node. -/
def seatAt (a : Arena) (place : NodeIndex → Option Nat) (i : NodeIndex) : Seat where
  parent := (a.parentOf i).map a.userAt
  position := (place i).map Int.ofNat
  depth := (a.nodeAt i).depth
  sponsor := (a.sponsorOf i).map a.userAt
  enrolledAt := (a.nodeAt i).enrolledAt

/-- The seats of an arena. -/
def roster (a : Arena) (place : NodeIndex → Option Nat) : Roster := fun u =>
  (a.index.lookup u).map (a.seatAt place)

/-! ## 1. Reading a roster -/

section Read

variable {a : Arena} {place : NodeIndex → Option Nat} (h : a.Valid)
include h

variable {i : NodeIndex}

theorem Valid.roster_userAt (hi : a.Live i) : a.roster place (a.userAt i) = some (a.seatAt place i) := by
  rw [roster, userAt, h.lookup_of_live hi]
  rfl

theorem Valid.resolve_userAt (hi : a.Live i) : a.resolve (a.userAt i) = .ok i :=
  resolve_eq_ok.mpr (h.lookup_of_live hi)

theorem Valid.roster_eq_some {u : Uuid} {seat : Seat} :
    a.roster place u = some seat ↔ ∃ i, a.Live i ∧ a.userAt i = u ∧ a.seatAt place i = seat := by
  constructor
  · intro hu
    obtain ⟨i, hi, e⟩ := map_eq_some_iff.mp hu
    exact ⟨i, h.live_of_lookup hi, (h.index_iff.mp hi).2, e⟩
  · rintro ⟨i, hi, rfl, rfl⟩
    exact h.roster_userAt hi

theorem Valid.userAt_inj {j : NodeIndex} (hi : a.Live i) (e : a.userAt i = a.userAt j) : i = j :=
  h.userId_inj hi e

theorem Valid.sponsors_lead {j : NodeIndex} (hij : StrictlyAbove a.sponsorOf i j) :
    Relation.TransGen (a.roster place).SponsoredBy (a.userAt i) (a.userAt j) := by
  have hstep : ∀ {x y}, a.sponsorOf x = some y →
      (a.roster place).SponsoredBy (a.userAt x) (a.userAt y) := fun {x y} hxy =>
    ⟨_, h.roster_userAt (h.live_of_sponsor hxy), by simp [seatAt, hxy]⟩
  exact Relation.TransGen.lift a.userAt (fun _ _ => hstep) _ _ hij

/-- The roster of a valid arena is sound, when the places are. -/
theorem Valid.sound {limit : Option Nat} (htop : ∀ i, a.parentOf i = none → place i = none)
    (hnone : limit = none → ∀ i, place i = none)
    (hsome : ∀ {n}, limit = some n → ∀ {i p}, a.parentOf i = some p → ∃ q < n, place i = some q)
    (hinj : ∀ {i j p q}, a.parentOf i = some p → a.parentOf j = some p → place i = some q →
      place j = some q → i = j) : Roster.Sound limit (a.roster place) := by
  have hparent : ∀ {i p}, (a.seatAt place i).parent = some p →
      ∃ j, a.parentOf i = some j ∧ a.userAt j = p := fun hp => map_eq_some_iff.mp hp
  refine { nil := ?nil, root_unique := ?root_unique, rooted := ?rooted, top := ?top, below := ?below,
           sponsored := ?sponsored, unslotted := ?unslotted, slotted := ?slotted,
           slot_unique := ?slot_unique }
  case nil =>
    by_contra hne
    obtain ⟨seat, hseat⟩ := ne_none_iff_exists'.mp hne
    obtain ⟨i, hi, e, -⟩ := h.roster_eq_some.mp hseat
    exact hi e
  case root_unique =>
    intro u v _ _ hu hv hup hvp
    obtain ⟨i, hi, rfl, rfl⟩ := h.roster_eq_some.mp hu
    obtain ⟨j, hj, rfl, rfl⟩ := h.roster_eq_some.mp hv
    have h1 := h.top_root hi (map_eq_none_iff.mp hup)
    rw [h.top_root hj (map_eq_none_iff.mp hvp)] at h1
    rw [some.inj h1]
  case rooted =>
    intro u hu
    obtain ⟨seat, hseat⟩ := ne_none_iff_exists'.mp hu
    obtain ⟨i, hi, -, -⟩ := h.roster_eq_some.mp hseat
    obtain ⟨r, hr, -⟩ := h.root_above hi
    refine ⟨_, _, h.roster_userAt (h.root_live hr).1, ?_⟩
    exact map_eq_none_iff.mpr (h.root_parent hr)
  case top =>
    intro u _ hu hp
    obtain ⟨i, hi, -, rfl⟩ := h.roster_eq_some.mp hu
    have hp := map_eq_none_iff.mp hp
    refine ⟨?_, ?_, ?_⟩
    · simp [seatAt, h.depth_top hi hp]
    · simp [seatAt, htop i hp]
    · simp [seatAt, (h.root_live (h.top_root hi hp)).2]
  case below =>
    intro u _ p hu hp
    obtain ⟨i, hi, rfl, rfl⟩ := h.roster_eq_some.mp hu
    obtain ⟨j, hj, rfl⟩ := hparent hp
    refine ⟨fun e => ?_, _, h.roster_userAt (h.live_parent hj), ?_, ?_⟩
    · exact h.forest.ranked.ne hj (h.userAt_inj (h.live_parent hj) e).symm
    · simp [seatAt, h.depth_below hj]
    · simp [seatAt]
  case sponsored =>
    intro u _ s hu hs
    obtain ⟨i, hi, rfl, rfl⟩ := h.roster_eq_some.mp hu
    obtain ⟨j, hj, rfl⟩ := map_eq_some_iff.mp hs
    refine ⟨fun e => ?_, ?_⟩
    · exact h.chains.ne hj (h.userAt_inj (h.live_sponsor hj) e).symm
    · rw [h.roster_userAt (h.live_sponsor hj)]
      nofun
  case unslotted =>
    intro hl u _ hu
    obtain ⟨i, -, -, rfl⟩ := h.roster_eq_some.mp hu
    simp [seatAt, hnone hl i]
  case slotted =>
    intro n hl u _ hu hp
    obtain ⟨i, -, -, rfl⟩ := h.roster_eq_some.mp hu
    obtain ⟨p, hp⟩ := ne_none_iff_exists'.mp hp
    obtain ⟨j, hj, -⟩ := hparent hp
    obtain ⟨q, hq, e⟩ := hsome hl hj
    exact ⟨q, hq, by simp [seatAt, e]⟩
  case slot_unique =>
    intro u v _ _ p q hu hv hup hvp huq hvq
    obtain ⟨i, hi, rfl, rfl⟩ := h.roster_eq_some.mp hu
    obtain ⟨j, hj, rfl, rfl⟩ := h.roster_eq_some.mp hv
    obtain ⟨p1, hp1, rfl⟩ := hparent hup
    obtain ⟨p2, hp2, e⟩ := hparent hvp
    cases h.userAt_inj (h.live_parent hp2) e
    obtain ⟨q1, hq1, rfl⟩ := map_eq_some_iff.mp huq
    obtain ⟨q2, hq2, e2⟩ := map_eq_some_iff.mp hvq
    rw [Int.ofNat_inj.mp e2] at hq2
    rw [hinj hp1 hp2 hq1 hq2]

end Read

/-! ## 2. Placements -/

/-- The seat a placement gives. -/
def newSeat (a : Arena) (leaf : Node) (place : Option Nat) : Seat where
  parent := leaf.parent.map a.userAt
  position := place.map Int.ofNat
  depth := leaf.depth
  sponsor := leaf.sponsor.map a.userAt
  enrolledAt := leaf.enrolledAt

section Grown

variable {a a' : Arena} {k : NodeIndex} {leaf : Node} {kids : List NodeIndex}
  {place place' : NodeIndex → Option Nat}

theorem Grown.userAt (g : Grown a a' k leaf kids) {j : NodeIndex} (hj : a.Live j) :
    a'.userAt j = a.userAt j := by
  rw [Arena.userAt, g.userId, if_neg (g.ne hj)]
  rfl

/-- **A placement adds one seat** and changes no other. -/
theorem Grown.roster (g : Grown a a' k leaf kids) (h : a.Valid) (hl : Leaf a leaf)
    (hplace : ∀ j, a.Live j → place' j = place j) : a'.roster place' =
      update (a.roster place) leaf.userId (some (a.newSeat leaf (place' k))) := by
  funext u
  rw [update_apply]
  unfold Arena.roster
  rw [g.index]
  by_cases hu : u = leaf.userId
  · subst hu
    rw [AList.lookup_insert, if_pos rfl, map_some]
    have hp : leaf.parent.map a'.userAt = leaf.parent.map a.userAt :=
      map_congr fun p hp => g.userAt (hl.parent hp).1
    have hs : leaf.sponsor.map a'.userAt = leaf.sponsor.map a.userAt :=
      map_congr fun s hs => g.userAt (hl.sponsor hs)
    simp only [seatAt, newSeat, g.parentOf, g.sponsorOf, g.depth, g.enrolledAt, if_true, hp, hs]
  · rw [AList.lookup_insert_ne hu, if_neg hu]
    refine map_congr fun i hi => ?_
    have hil := h.live_of_lookup hi
    have hik := g.ne hil
    have hp : (a.parentOf i).map a'.userAt = (a.parentOf i).map a.userAt :=
      map_congr fun p hp => g.userAt (h.live_parent hp)
    have hs : (a.sponsorOf i).map a'.userAt = (a.sponsorOf i).map a.userAt :=
      map_congr fun s hs => g.userAt (h.live_sponsor hs)
    simp only [seatAt, g.parentOf, g.sponsorOf, g.depth, g.enrolledAt, if_neg hik, hp, hs, hplace i hil]

end Grown

/-! ## 3. Removals -/

section Pruned

variable {a a' : Arena} {gone : List NodeIndex} {place place' : NodeIndex → Option Nat} {m : Responsored}

theorem mem_responsored : m ∈ a.responsored gone ↔
    ∃ i ∈ gone, ∃ s ∈ a.recruitsLeft gone i, ∃ t, a.heir gone i = some t ∧ m = ⟨a.userAt s, a.userAt t⟩ := by
  unfold responsored
  rw [mem_flatMap]
  refine exists_congr fun i => and_congr_right fun _ => ?_
  unfold moves
  cases a.heir gone i with
  | none => simp
  | some t => simp [userAt, eq_comm]

/-- A recruit that a removal hands over had a sponsor who goes, and gets the nearest one who stays. -/
theorem Valid.responsored_spec (h : a.Valid) (hm : m ∈ a.responsored gone) :
    ∃ x s t, s ∈ gone ∧ x ∉ gone ∧ a.sponsorOf x = some s ∧ a.survivor gone x = some t ∧
      m = ⟨a.userAt x, a.userAt t⟩ := by
  obtain ⟨i, hi, x, hx, t, ht, e⟩ := mem_responsored.mp hm
  obtain ⟨hxi, hxg⟩ := mem_recruitsLeft.mp hx
  exact ⟨x, i, t, hi, hxg, h.recruited.mem_iff.mp hxi, (h.sponsorsOk.heir_of_mem hi hx).symm.trans ht, e⟩

theorem Valid.responsored_nodup (h : a.Valid) (hnd : gone.Nodup) :
    ((a.responsored gone).map Responsored.userId).Nodup := by
  have hmoves : ∀ i, ((a.moves (a.heir gone i) (a.recruitsLeft gone i)).map
      Responsored.userId).Sublist ((a.recruitsLeft gone i).map a.userAt) := by
    intro i
    unfold moves
    cases a.heir gone i with
    | none => exact nil_sublist _
    | some t =>
      rw [List.map_map]
      exact List.Sublist.refl _
  have hrec : ∀ {i x}, x ∈ a.recruitsLeft gone i → a.sponsorOf x = some i := fun hx =>
    h.recruited.mem_iff.mp (mem_recruitsLeft.mp hx).1
  unfold responsored
  rw [map_flatMap, nodup_flatMap]
  refine ⟨fun i _ => (hmoves i).nodup ?_, hnd.imp fun {i j} hij => ?_⟩
  · refine ((h.recruited.nodup i).filter _).map_on fun x hx y _ e => ?_
    exact h.userAt_inj (h.live_of_sponsor (hrec hx)) e
  · -- two removed sponsors share no recruit
    intro u hui huj
    obtain ⟨x, hx, rfl⟩ := mem_map.mp ((hmoves i).mem hui)
    obtain ⟨y, hy, e⟩ := mem_map.mp ((hmoves j).mem huj)
    have hxy := h.userAt_inj (h.live_of_sponsor (hrec hy)) e
    rw [hxy] at hy
    exact hij (some.inj ((hrec hx).symm.trans (hrec hy)))

theorem Pruned.userAt (p : Pruned a a' gone) {j : NodeIndex} (hj : j ∉ gone) : a'.userAt j = a.userAt j := by
  rw [Arena.userAt, p.userId, if_neg hj]
  rfl

variable {x : NodeIndex}

/-- **The reported sponsors are the sponsors after the removal.** -/
theorem Pruned.sponsor_user (p : Pruned a a' gone) (h : a.Valid)
    (hmov : a.checkSponsoredRemovable gone = .ok ()) (hxg : x ∉ gone) : (a'.sponsorOf x).map a'.userAt =
      ((a.responsored gone).find? (·.userId = a.userAt x)).elim ((a.sponsorOf x).map a.userAt)
        fun m => some m.newSponsorId := by
  have hco : Contracts a.sponsorOf (· ∈ gone) (a.survivor gone) := h.sponsorsOk.contracts
  have hheirs := (h.checkSponsoredRemovable_eq_ok fun i hi => (p.live i hi).lt).mp hmov
  rw [p.sponsorOf, if_neg hxg]
  -- who is reported for `x` had a sponsor in `gone`
  have hfound : ∀ m, (a.responsored gone).find? (·.userId = a.userAt x) = some m →
      ∃ s t, s ∈ gone ∧ a.sponsorOf x = some s ∧ a.survivor gone x = some t ∧
        m.newSponsorId = a.userAt t := by
    intro m hm
    obtain ⟨y, s, t, hs, -, hys, hyt, rfl⟩ := h.responsored_spec (mem_of_find?_eq_some hm)
    have hu : a.userAt y = a.userAt x := by simpa using find?_some hm
    cases h.userAt_inj (h.live_of_sponsor hys) hu
    exact ⟨s, t, hs, hys, hyt, rfl⟩
  cases hf : (a.responsored gone).find? (·.userId = a.userAt x) with
  | some m =>
    obtain ⟨s, t, -, -, ht, hm⟩ := hfound m hf
    rw [ht, elim_some, hm, map_some, p.userAt (hco.survives ht)]
  | none =>
    rw [elim_none]
    cases hs : a.sponsorOf x with
    | none => rw [hco.none hs]; rfl
    | some s =>
      by_cases hsg : s ∈ gone
      · exfalso
        have hrec : x ∈ a.recruitsLeft gone s := mem_recruitsLeft.mpr ⟨h.recruited.mem_iff.mpr hs, hxg⟩
        obtain ⟨t, ht⟩ := ne_none_iff_exists'.mp (hheirs s hsg (ne_nil_of_mem hrec))
        have hheir : a.heir gone s = some t := by
          rw [heir, if_neg (ne_nil_of_mem hrec), ht]
        have := find?_eq_none.mp hf _ (mem_responsored.mpr ⟨s, hsg, x, hrec, t, hheir, rfl⟩)
        simp at this
      · rw [hco.stop hs hsg, map_some, map_some, p.userAt hsg]

/-- What is reported as relocated is where those who stay now are. -/
structure Relocates (a a' : Arena) (place place' : NodeIndex → Option Nat) (gone : List NodeIndex)
    (relocated : List Relocation) : Prop where
  nodup : (relocated.map Relocation.userId).Nodup
  named : ∀ m ∈ relocated, ∃ x, a.Live x ∧ x ∉ gone ∧ m.userId = a.userAt x ∧
    a.parentOf x ≠ none ∧ (a'.parentOf x).map a'.userAt = some m.parentId ∧
    place' x = some m.position.toNat ∧ (a'.nodeAt x).depth = m.depth
  kept : ∀ x, a.Live x → x ∉ gone → (∀ m ∈ relocated, m.userId ≠ a.userAt x) →
    (a'.parentOf x).map a'.userAt = (a.parentOf x).map a.userAt ∧ place' x = place x ∧
    (a'.nodeAt x).depth = (a.nodeAt x).depth

/-- The reported users are those of the removed nodes. -/
def Names (a : Arena) (gone : List NodeIndex) (removed : List Uuid) : Prop :=
  ∀ u, u ∈ removed ↔ ∃ x ∈ gone, a.userAt x = u

theorem Valid.not_named (h : a.Valid) {removed : List Uuid} (hn : Names a gone removed)
    (hx : a.Live x) : a.userAt x ∈ removed ↔ x ∈ gone := by
  rw [hn]
  constructor
  · rintro ⟨y, hy, e⟩
    exact h.userAt_inj hx e.symm ▸ hy
  · exact fun hxg => ⟨x, hxg, rfl⟩

variable {out : Outcome}

section PrunedRoster

variable (p : Pruned a a' gone) (h : a.Valid) (hmov : a.checkSponsoredRemovable gone = .ok ())
  (hresp : out.responsored = a.responsored gone)
include p h hmov hresp

/-- The seat of a survivor is the one before, with what is reported. -/
theorem Pruned.seatAt (hreloc : Relocates a a' place place' gone out.relocated) (hx : a.Live x)
    (hxg : x ∉ gone) : a'.seatAt place' x = out.reseat (a.userAt x) (a.seatAt place x) := by
  have hs := p.sponsor_user h hmov hxg
  have he := p.enrolledAt x hxg
  unfold Outcome.reseat
  rw [hresp]
  cases hf : out.relocated.find? (·.userId = a.userAt x) with
  | some m =>
    have hmu : m.userId = a.userAt x := by simpa using find?_some hf
    obtain ⟨y, hy, -, hyu, -, hpar, hpl, hd⟩ := hreloc.named m (mem_of_find?_eq_some hf)
    cases h.userAt_inj hx (hmu.symm.trans hyu)
    cases hr : (a.responsored gone).find? (·.userId = a.userAt x) <;>
      simp_all [Arena.seatAt]
  | none =>
    have hno : ∀ m ∈ out.relocated, m.userId ≠ a.userAt x := by simpa using hf
    obtain ⟨hpar, hpl, hd⟩ := hreloc.kept x hx hxg hno
    cases hr : (a.responsored gone).find? (·.userId = a.userAt x) <;>
      simp_all [Arena.seatAt]

/-- **A removal changes the roster by exactly what it reports.** -/
theorem Pruned.roster
    (hrem : Names a gone out.removed) (hreloc : Relocates a a' place place' gone out.relocated) :
    a'.roster place' = out.applyTo (a.roster place) := by
  funext u
  unfold Arena.roster Outcome.applyTo
  rw [p.index]
  cases hu : a.index.lookup u with
  | none => simp [hu]
  | some x =>
    have hx := h.live_of_lookup hu
    have hxu : a.userAt x = u := (h.index_iff.mp hu).2
    subst hxu
    by_cases hxg : x ∈ gone
    · simp [Option.filter, hxg, (h.not_named hrem hx).mpr hxg]
    · have hnot : a.userAt x ∉ out.removed := fun hm => hxg ((h.not_named hrem hx).mp hm)
      simp [hu, Option.filter, hxg, hnot, p.seatAt h hmov hresp hreloc hx hxg]

end PrunedRoster

/-- **What a removal reports is consistent**, when the slots it moves into are free. -/
theorem Pruned.report (p : Pruned a a' gone) (h : a.Valid) (hne : out.removed ≠ []) (hnd : out.removed.Nodup)
    (hresp : out.responsored = a.responsored gone) (hrem : Names a gone out.removed)
    (hreloc : Relocates a a' place place' gone out.relocated)
    (hfree : ∀ m ∈ out.relocated, ∀ y, a.Live y → y ∉ gone →
      (a.parentOf y).map a.userAt = some m.parentId → place y = some m.position.toNat →
      a.userAt y = m.userId) : Report (a.roster place) out := by
  refine { removed_ne := hne, removed_nodup := hnd, removed_mem := ?removed_mem,
           responsored_nodup := ?responsored_nodup, responsored_mem := ?responsored_mem,
           responsored_up := ?responsored_up,
           relocated_nodup := hreloc.nodup, relocated_mem := ?relocated_mem,
           target_free := ?target_free }
  case removed_mem =>
    intro u hu
    obtain ⟨x, hx, rfl⟩ := (hrem u).mp hu
    rw [h.roster_userAt (p.live x hx)]
    nofun
  case responsored_nodup => exact hresp ▸ h.responsored_nodup p.nodup
  case responsored_mem =>
    intro m hm
    rw [hresp] at hm
    obtain ⟨x, s, t, -, hxg, hs, -, rfl⟩ := h.responsored_spec hm
    have hx := h.live_of_sponsor hs
    refine ⟨fun hmem => hxg ((h.not_named hrem hx).mp hmem), _, h.roster_userAt hx, ?_⟩
    -- the root has no sponsor, so a recruit has a parent
    intro hp
    have hroot := h.top_root hx (map_eq_none_iff.mp hp)
    rw [(h.root_live hroot).2] at hs
    cases hs
  case responsored_up =>
    intro m hm
    rw [hresp] at hm
    obtain ⟨x, s, t, -, -, -, ht, rfl⟩ := h.responsored_spec hm
    exact h.sponsors_lead (h.sponsorsOk.contracts.above ht)
  case relocated_mem =>
    intro m hm
    obtain ⟨x, hx, hxg, hmu, hpar, -⟩ := hreloc.named m hm
    rw [hmu]
    refine ⟨fun hmem => hxg ((h.not_named hrem hx).mp hmem), _, h.roster_userAt hx, ?_⟩
    exact fun hp => hpar (map_eq_none_iff.mp hp)
  case target_free =>
    intro m hm v seat hv hvr hpar hpos
    obtain ⟨y, hy, rfl, rfl⟩ := h.roster_eq_some.mp hv
    refine hfree m hm y hy (fun hyg => hvr ((h.not_named hrem hy).mpr hyg)) hpar ?_
    obtain ⟨q, hq, e⟩ := map_eq_some_iff.mp hpos
    rw [hq, Int.ofNat_inj.mp e]

end Pruned

end Arena

end MlmForge.Engine
