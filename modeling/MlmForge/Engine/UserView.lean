/-
  Subject:   A matrix tree read by users: who is placed under whom, who sponsors whom, the rows and the
             recruit lists with users in place of nodes.

  * **`Arena.Pruned.responsors`** -- every removal reports that, and does it.
-/
import MlmForge.Engine.Seating

namespace MlmForge.Engine

open Option

namespace Roster

/-- Whom a user is placed under. -/
def parentOf (r : Roster) (u : Uuid) : Option Uuid := (r u).bind Seat.parent

def sponsorOf (r : Roster) (u : Uuid) : Option Uuid := (r u).bind Seat.sponsor

end Roster

/-- The parent, slot and depth of a seat. -/
def Seat.placement (seat : Seat) : Option Uuid × Option Int × Int :=
  (seat.parent, seat.position, seat.depth)

namespace Arena

/-! ## 1. Links by user -/

section Links

variable {a : Arena} {place : NodeIndex → Option Nat} (h : a.Valid)
include h

variable {i : NodeIndex}

theorem Valid.roster_parentOf (hi : a.Live i) :
    (a.roster place).parentOf (a.userAt i) = (a.parentOf i).map a.userAt := by
  rw [Roster.parentOf, h.roster_userAt hi]
  rfl

theorem Valid.roster_sponsorOf (hi : a.Live i) :
    (a.roster place).sponsorOf (a.userAt i) = (a.sponsorOf i).map a.userAt := by
  rw [Roster.sponsorOf, h.roster_userAt hi]
  rfl

variable {u : Uuid}

theorem Valid.roster_ne_none : a.roster place u ≠ none ↔ ∃ i, a.Live i ∧ a.userAt i = u := by
  constructor
  · intro hu
    obtain ⟨seat, hseat⟩ := ne_none_iff_exists'.mp hu
    obtain ⟨i, hi, e, -⟩ := h.roster_eq_some.mp hseat
    exact ⟨i, hi, e⟩
  · intro hu
    obtain ⟨i, hi, rfl⟩ := hu
    rw [h.roster_userAt hi]
    nofun

theorem Valid.roster_parentOf_eq_some {p : Uuid} : (a.roster place).parentOf u = some p ↔
      ∃ i j, a.parentOf i = some j ∧ a.userAt i = u ∧ a.userAt j = p := by
  constructor
  · intro hu
    obtain ⟨seat, hseat, hp⟩ := bind_eq_some_iff.mp hu
    obtain ⟨i, hi, rfl, rfl⟩ := h.roster_eq_some.mp hseat
    obtain ⟨j, hj, rfl⟩ := map_eq_some_iff.mp hp
    exact ⟨i, j, hj, rfl, rfl⟩
  · intro hu
    obtain ⟨i, j, hij, rfl, rfl⟩ := hu
    rw [h.roster_parentOf (h.live_of_parent hij), hij]
    rfl

theorem Valid.roster_sponsorOf_eq_some {s : Uuid} : (a.roster place).sponsorOf u = some s ↔
      ∃ i j, a.sponsorOf i = some j ∧ a.userAt i = u ∧ a.userAt j = s := by
  constructor
  · intro hu
    obtain ⟨seat, hseat, hs⟩ := bind_eq_some_iff.mp hu
    obtain ⟨i, hi, rfl, rfl⟩ := h.roster_eq_some.mp hseat
    obtain ⟨j, hj, rfl⟩ := map_eq_some_iff.mp hs
    exact ⟨i, j, hj, rfl, rfl⟩
  · intro hu
    obtain ⟨i, j, hij, rfl, rfl⟩ := hu
    rw [h.roster_sponsorOf (h.live_of_sponsor hij), hij]
    rfl

/-- **A chain of parents of users is a chain of parents of nodes.** -/
theorem Valid.above_iff {j : NodeIndex} (hj : a.Live j) : Above (a.roster place).parentOf u (a.userAt j) ↔
      ∃ i, a.Live i ∧ a.userAt i = u ∧ Above a.parentOf i j := by
  constructor
  · intro hu
    induction hu using Relation.ReflTransGen.head_induction_on with
    | refl => exact ⟨j, hj, rfl, .refl⟩
    | head huw _ ih =>
      obtain ⟨i', hi', rfl, hab⟩ := ih
      obtain ⟨i, k, hik, rfl, hk⟩ := h.roster_parentOf_eq_some.mp huw
      cases h.userAt_inj (h.live_parent hik) hk
      exact ⟨i, h.live_of_parent hik, rfl, .head hik hab⟩
  · intro hu
    obtain ⟨i, -, rfl, hij⟩ := hu
    exact Relation.ReflTransGen.lift a.userAt
      (fun x y hxy => h.roster_parentOf_eq_some.mpr ⟨x, y, hxy, rfl, rfl⟩) _ _ hij

end Links

end Arena

/-! ## 2. Sponsors after a removal -/

/-- **What a removal of `gone` does to sponsors, and what it reports**: a survivor sponsored by one of
    them gets the first sponsor up the chain who stays, and is reported once; nobody else's sponsor
    changes, and nobody else is reported. -/
structure Responsors (r r' : Roster) (gone : List Uuid) (report : List Responsored) : Prop where
  nodup : (report.map Responsored.userId).Nodup
  listed : ∀ m, m ∈ report ↔ m.userId ∉ gone ∧ (∃ s ∈ gone, r.sponsorOf m.userId = some s) ∧
    FirstKept r.sponsorOf (· ∈ gone) m.userId m.newSponsorId
  moved : ∀ v ∉ gone, ∀ s ∈ gone, r.sponsorOf v = some s →
    ∃ w, ⟨v, w⟩ ∈ report ∧ r'.sponsorOf v = some w
  kept : ∀ v ∉ gone, (∀ s ∈ gone, r.sponsorOf v ≠ some s) → r'.sponsorOf v = r.sponsorOf v

section Reported

variable {r r' : Roster} {gone : List Uuid} {report : List Responsored} (h : Responsors r r' gone report)
include h

/-- Who is reported has the reported sponsor, -/
theorem Responsors.now {m : Responsored} (hm : m ∈ report) : r'.sponsorOf m.userId = some m.newSponsorId := by
  obtain ⟨hv, ⟨s, hs, hvs⟩, hfirst⟩ := (h.listed m).mp hm
  obtain ⟨w, hw, hnow⟩ := h.moved _ hv s hs hvs
  rw [hnow, hfirst.unique ((h.listed _).mp hw).2.2]

theorem Responsors.changed_iff {v : Uuid} (hv : v ∉ gone) :
    (∃ w, ⟨v, w⟩ ∈ report) ↔ r'.sponsorOf v ≠ r.sponsorOf v := by
  constructor
  · intro hw
    obtain ⟨w, hw⟩ := hw
    obtain ⟨-, ⟨s, hs, hvs⟩, hfirst⟩ := (h.listed _).mp hw
    rw [h.now hw, hvs]
    intro e
    exact hfirst.kept (some.inj e ▸ hs)
  · intro hne
    by_contra hno
    refine hne (h.kept v hv fun s hs hvs => ?_)
    obtain ⟨w, hw, -⟩ := h.moved v hv s hs hvs
    exact hno ⟨w, hw⟩

end Reported

namespace Arena

section Pruned

variable {a a' : Arena} {gone : List NodeIndex} {place place' : NodeIndex → Option Nat}
  (p : Pruned a a' gone) (h : a.Valid) {users : List Uuid} (hn : Names a gone users)
include p h

theorem Pruned.exists_survivor (hmov : a.checkSponsoredRemovable gone = .ok ()) {x s : NodeIndex}
    (hx : x ∉ gone) (hs : a.sponsorOf x = some s) (hsg : s ∈ gone) :
    ∃ t, a.survivor gone x = some t ∧ ⟨a.userAt x, a.userAt t⟩ ∈ a.responsored gone := by
  have hheirs := (h.checkSponsoredRemovable_eq_ok fun i hi => (p.live i hi).lt).mp hmov
  have hrec : x ∈ a.recruitsLeft gone s := mem_recruitsLeft.mpr ⟨h.recruited.mem_iff.mpr hs, hx⟩
  obtain ⟨t, ht⟩ := ne_none_iff_exists'.mp (hheirs s hsg (List.ne_nil_of_mem hrec))
  have hheir : a.heir gone s = some t := by
    rw [heir, if_neg (List.ne_nil_of_mem hrec), ht]
  exact ⟨t, (h.sponsorsOk.contracts.skip hs hsg).trans ht,
    mem_responsored.mpr ⟨s, hsg, x, hrec, t, hheir, rfl⟩⟩

include hn

omit p in
theorem Valid.firstKept {x t : NodeIndex} (ht : a.survivor gone x = some t) :
    FirstKept (a.roster place).sponsorOf (· ∈ users) (a.userAt x) (a.userAt t) := by
  refine (h.sponsorsOk.contracts.firstKept ht).map (fun {i j} hij => ?_) fun {i j} hij => ?_
  · exact h.roster_sponsorOf_eq_some.mpr ⟨i, j, hij, rfl, rfl⟩
  · exact h.not_named hn (h.live_sponsor hij)

/-- **A removal reports what it does to sponsors.** -/
theorem Pruned.responsors (h' : a'.Valid) (hmov : a.checkSponsoredRemovable gone = .ok ()) :
    Responsors (a.roster place) (a'.roster place') users (a.responsored gone) := by
  have hco : Contracts a.sponsorOf (· ∈ gone) (a.survivor gone) := h.sponsorsOk.contracts
  -- the sponsor of a survivor afterwards, by user
  have hafter : ∀ {x}, a.Live x → x ∉ gone → (a'.roster place').sponsorOf (a.userAt x) =
      (a.survivor gone x).map a.userAt := by
    intro x hx hxg
    have hsp : a'.sponsorOf x = a.survivor gone x := by rw [p.sponsorOf, if_neg hxg]
    rw [← p.userAt hxg, h'.roster_sponsorOf (p.live_iff.mpr ⟨hxg, hx⟩), hsp]
    exact Option.map_congr fun t ht => p.userAt (hco.survives ht)
  -- a survivor with a sponsor among those who go is a recruit of a removed node
  have hrecruit : ∀ {v s}, v ∉ users → s ∈ users → (a.roster place).sponsorOf v = some s →
      ∃ x i, a.userAt x = v ∧ x ∉ gone ∧ a.sponsorOf x = some i ∧ i ∈ gone := by
    intro v s hv hs hvs
    obtain ⟨x, i, hxi, rfl, rfl⟩ := h.roster_sponsorOf_eq_some.mp hvs
    exact ⟨x, i, rfl, mt (h.not_named hn (h.live_of_sponsor hxi)).mpr hv, hxi,
      (h.not_named hn (h.live_sponsor hxi)).mp hs⟩
  refine ⟨h.responsored_nodup p.nodup, fun m => ⟨fun hm => ?_, fun hm => ?_⟩,
    fun v hv s hs hvs => ?_, fun v hv hno => ?_⟩
  · obtain ⟨x, s, t, hs, hxg, hxs, ht, rfl⟩ := h.responsored_spec hm
    have hx := h.live_of_sponsor hxs
    refine ⟨mt (h.not_named hn hx).mp hxg, ⟨a.userAt s, ?_, ?_⟩, h.firstKept hn ht⟩
    · exact (h.not_named hn (h.live_sponsor hxs)).mpr hs
    · exact h.roster_sponsorOf_eq_some.mpr ⟨x, s, hxs, rfl, rfl⟩
  · obtain ⟨v, w⟩ := m
    obtain ⟨hv, ⟨s, hs, hvs⟩, hfirst⟩ := hm
    obtain ⟨x, i, rfl, hxg, hxi, hi⟩ := hrecruit hv hs hvs
    obtain ⟨t, ht, hmem⟩ := p.exists_survivor h hmov hxg hxi hi
    have hw : w = a.userAt t := hfirst.unique (h.firstKept hn ht)
    rw [hw]
    exact hmem
  · obtain ⟨x, i, rfl, hxg, hxi, hi⟩ := hrecruit hv hs hvs
    obtain ⟨t, ht, hmem⟩ := p.exists_survivor h hmov hxg hxi hi
    refine ⟨_, hmem, ?_⟩
    rw [hafter (h.live_of_sponsor hxi) hxg, ht]
    rfl
  · by_cases hlive : a.roster place v = none
    · have hgone : a'.roster place' v = none := by
        have hnone : a.index.lookup v = none := map_eq_none_iff.mp hlive
        show (a'.index.lookup v).map _ = none
        rw [p.index, hnone]
        rfl
      rw [Roster.sponsorOf, Roster.sponsorOf, hlive, hgone]
    · obtain ⟨x, hx, rfl⟩ := h.roster_ne_none.mp hlive
      have hxg : x ∉ gone := mt (h.not_named hn hx).mpr hv
      rw [hafter hx hxg, h.roster_sponsorOf hx]
      cases hs : a.sponsorOf x with
      | none => rw [hco.none hs]
      | some s =>
        have hsg : s ∉ gone := by
          intro hsg
          refine hno _ ((h.not_named hn (h.live_sponsor hs)).mpr hsg) ?_
          exact h.roster_sponsorOf_eq_some.mpr ⟨x, s, hs, rfl, rfl⟩
        rw [hco.stop hs hsg]

end Pruned

end Arena

/-! ## 3. Rows and recruits by user -/

namespace MatrixTree

/-- The slots below a user, with the users in them. -/
def rowAt (t : MatrixTree) (u : Uuid) : Option (List (Option Uuid)) :=
  (t.arena.index.lookup u).bind fun i =>
    (t.slots.lookup i).map fun row => row.map (Option.map t.arena.userAt)

/-- The users that a user sponsors, in the order they were recruited. -/
def recruitsAt (t : MatrixTree) (u : Uuid) : Option (List Uuid) :=
  (t.arena.index.lookup u).map fun i => (t.arena.sponsoredOf i).map t.arena.userAt

section Rows

variable {t : MatrixTree} (h : t.Valid)
include h

theorem Valid.rowAt_userAt {i : NodeIndex} {row : MatrixSlots} (hrow : t.slots.lookup i = some row) :
    t.rowAt (t.arena.userAt i) = some (row.map (Option.map t.arena.userAt)) := by
  have hi : t.arena.Live i := h.agree.live_of_row hrow
  rw [rowAt, Arena.userAt, h.arena.lookup_of_live hi, bind_some, hrow]
  rfl

end Rows

/-! ## 4. Removals by user -/

section Removal

variable {t t' : MatrixTree} {mode : PruningMode} {idx : NodeIndex} {gone moved : List NodeIndex}
  {result : RemovalResult}

variable {users : List Uuid} {v : Uuid}

variable (hr : Removed t t' mode idx gone moved result) (h : t.Valid)
include hr h

theorem Removed.roster_gone (hn : t.arena.Names gone users) (hv : v ∈ users) : t'.roster v = none := by
  obtain ⟨x, hx, rfl⟩ := (hn v).mp hv
  show (t'.arena.index.lookup _).map _ = none
  rw [hr.pruned.index, Arena.userAt, h.arena.lookup_of_live (hr.pruned.live x hx)]
  simp [Option.filter, hx]

theorem Removed.roster_kept (hn : t.arena.Names gone users) (hv : v ∉ users) :
    (t.roster v = none ∧ t'.roster v = none) ∨ ∃ x, t.arena.Live x ∧ x ∉ gone ∧
      t.arena.userAt x = v ∧ t'.roster v = some (t'.arena.seatAt (t'.arena.slotIn t'.slots.lookup) x) ∧
      t.roster v = some (t.arena.seatAt (t.arena.slotIn t.slots.lookup) x) := by
  by_cases hlive : t.roster v = none
  · refine .inl ⟨hlive, ?_⟩
    have hnone : t.arena.index.lookup v = none := map_eq_none_iff.mp hlive
    show (t'.arena.index.lookup v).map _ = none
    rw [hr.pruned.index, hnone]
    rfl
  · obtain ⟨x, hx, rfl⟩ := h.arena.roster_ne_none.mp hlive
    have hxg : x ∉ gone := mt (h.arena.not_named hn hx).mpr hv
    refine .inr ⟨x, hx, hxg, rfl, ?_, h.arena.roster_userAt hx⟩
    rw [← hr.pruned.userAt hxg]
    exact hr.valid.arena.roster_userAt (hr.pruned.live_iff.mpr ⟨hxg, hx⟩)

/-- and their placement, when the removal moves nobody. -/
theorem Removed.placed (hreloc : result.relocated = []) (hn : t.arena.Names gone users)
    (hv : v ∉ users) : (t'.roster v).map Seat.placement = (t.roster v).map Seat.placement := by
  rcases hr.roster_kept h hn hv with ⟨h1, h2⟩ | ⟨x, hx, hxg, -, h2, h1⟩
  · rw [h1, h2]
  · obtain ⟨hpar, hplace, hdepth⟩ := (hr.relocates h).kept x hx hxg (by simp [hreloc])
    rw [h1, h2]
    simp [Seat.placement, Arena.seatAt, hpar, hplace, hdepth]

end Removal

end MatrixTree

end MlmForge.Engine
