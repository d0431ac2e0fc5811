/-
  Subject:   The sponsor forest after recruits are handed over: `check_sponsored_removable` and
             `reparent_sponsored` on a valid arena.

  A removal set is a list of slots, repeats allowed. The removed nodes are still in the arena when
  `reparent_sponsored` returns; the trees clear them afterwards.

  * **`sponsor_reparenting_is_sound`** -- an accepted removal set is reparented like that, and the check
    refuses exactly the sets with a stuck node.
-/
import MlmForge.Engine.Walks

namespace MlmForge.Engine

open Option List Query Arena

namespace Arena

/-- A node with a recruit that stays and nobody up its sponsor chain who does. -/
structure Stuck (a : Arena) (gone : NodeIndex → Prop) (i : NodeIndex) : Prop where
  leaves : ∃ j, ¬ gone j ∧ a.sponsorOf j = some i
  alone : ∀ t, StrictlyAbove a.sponsorOf i t → gone t

/-- `j` stays and its sponsor goes. -/
def LosesSponsor (a : Arena) (gone : NodeIndex → Prop) (j : NodeIndex) : Prop :=
  ¬ gone j ∧ ∃ i, gone i ∧ a.sponsorOf j = some i

/-- `a'` is `a` with the recruits of the nodes that go handed over. -/
structure Reparented (a a' : Arena) (gone : NodeIndex → Prop) : Prop where
  moved : ∀ j, a.LosesSponsor gone j →
    ∃ t, FirstKept a.sponsorOf gone j t ∧ a'.sponsorOf j = some t
  kept : ∀ j, ¬ a.LosesSponsor gone j → a'.sponsorOf j = a.sponsorOf j
  appended : ∀ t, ¬ gone t → ∃ new : List NodeIndex, a'.sponsoredOf t = a.sponsoredOf t ++ new ∧
    (a'.sponsoredOf t).Nodup ∧ ∀ j, j ∈ new ↔ a.LosesSponsor gone j ∧ a'.sponsorOf j = some t
  emptied : ∀ i, gone i → a'.sponsoredOf i = []
  acyclic : ∀ j, ¬ StrictlyAbove a'.sponsorOf j j
  closed : ∀ j t, ¬ gone j → a'.sponsorOf j = some t → ¬ gone t
  reciprocal : ∀ j t, ¬ gone t → (j ∈ a'.sponsoredOf t ↔ a'.sponsorOf j = some t)
  not_own : ∀ j, a'.sponsorOf j ≠ some j
  other : ∀ j, a'.nodeAt j =
    { a.nodeAt j with sponsor := a'.sponsorOf j, sponsored := a'.sponsoredOf j }
  index : a'.index = a.index
  root : a'.root = a.root
  free : a'.freeList = a.freeList
  length : a'.nodes.length = a.nodes.length

/-! ## 1. The check -/

section Check

variable {a : Arena} {removed : List NodeIndex} {i : NodeIndex}

/-- A set with a slot outside the arena is not accepted: the check reads every slot of the set. -/
theorem lt_of_checkSponsoredRemovable (hc : a.checkSponsoredRemovable removed = .ok ())
    (hi : i ∈ removed) : i < a.nodes.length := by
  have hone := forM_eq_ok.mp hc i hi
  obtain ⟨l, hl, -⟩ := bind_eq_ok.mp hone
  obtain ⟨n, hn, -⟩ := bind_eq_ok.mp hl
  exact (slot_eq_ok.mp hn).1

variable (h : a.Valid)
include h

theorem Valid.stuck_iff : a.Stuck (· ∈ removed) i ↔
    a.recruitsLeft removed i ≠ [] ∧ a.survivor removed i = none := by
  have hleft : a.recruitsLeft removed i ≠ [] ↔ ∃ j, j ∉ removed ∧ a.sponsorOf j = some i := by
    rw [ne_eq, eq_nil_iff_forall_not_mem, not_forall_not]
    refine exists_congr fun j => ?_
    rw [mem_recruitsLeft, h.recruited.mem_iff, and_comm]
  rw [hleft, h.sponsorsOk.contracts.eq_none_iff]
  exact ⟨fun s => ⟨s.leaves, s.alone⟩, fun s => ⟨s.1, s.2⟩⟩

theorem Valid.checkSponsoredRemovable_iff (hlt : ∀ i ∈ removed, i < a.nodes.length) :
    a.checkSponsoredRemovable removed = .ok () ↔ ∀ i ∈ removed, ¬ a.Stuck (· ∈ removed) i := by
  rw [h.checkSponsoredRemovable_eq_ok hlt]
  refine forall_congr' fun i => forall_congr' fun _ => ?_
  rw [h.stuck_iff, not_and]

theorem Valid.checkSponsoredRemovable_error (hlt : ∀ i ∈ removed, i < a.nodes.length)
    {e : Stop TreeError} (he : a.checkSponsoredRemovable removed = .error e) :
    ∃ i ∈ removed, a.Stuck (· ∈ removed) i ∧ e = .err (.sponsorlessWithRecruits
      (a.nodeAt i).userId (a.recruitsLeft removed i).length) := by
  obtain ⟨i, hi, he⟩ := exists_of_forM_error he
  rw [h.checkRecruitsMovable (hlt i hi)] at he
  split at he
  · rename_i hstuck
    cases he
    exact ⟨i, hi, h.stuck_iff.mpr hstuck, rfl⟩
  · cases he

end Check

/-! ## 2. The handover -/

section Handover

variable {a a' : Arena} {gone : List NodeIndex} (h : a.Valid)
  (r : Responsor a a' (fun j => if j ∈ gone then a.sponsorOf j else a.survivor gone j)
    (fun j => if j ∈ gone then [] else
      a.sponsoredOf j ++ movedTo a.sponsoredOf (a.survivor gone) gone j))

include r in
theorem Responsor.sponsorOf_gone {j : NodeIndex} (hj : j ∈ gone) : a'.sponsorOf j = a.sponsorOf j := by
  show (a'.nodeAt j).sponsor = _
  rw [r.nodeAt]
  exact if_pos hj

include r in
theorem Responsor.sponsorOf_left {j : NodeIndex} (hj : j ∉ gone) : a'.sponsorOf j = a.survivor gone j := by
  show (a'.nodeAt j).sponsor = _
  rw [r.nodeAt]
  exact if_neg hj

include r in
theorem Responsor.sponsoredOf_left {t : NodeIndex} (ht : t ∉ gone) :
    a'.sponsoredOf t = a.sponsoredOf t ++ movedTo a.sponsoredOf (a.survivor gone) gone t := by
  show (a'.nodeAt t).sponsored = _
  rw [r.nodeAt]
  exact if_neg ht

include h r

theorem Responsor.strictlyAbove {j t : NodeIndex} (hj : a'.sponsorOf j = some t) :
    StrictlyAbove a.sponsorOf j t := by
  by_cases hg : j ∈ gone
  · exact .single (r.sponsorOf_gone hg ▸ hj)
  · exact h.sponsorsOk.contracts.above (r.sponsorOf_left hg ▸ hj)

theorem Responsor.ranked : Ranked a'.sponsorOf :=
  h.chains.shortcut fun _ _ hj => r.strictlyAbove h hj

theorem Responsor.kept {j : NodeIndex} (hj : ¬ a.LosesSponsor (· ∈ gone) j) :
    a'.sponsorOf j = a.sponsorOf j := by
  by_cases hg : j ∈ gone
  · exact r.sponsorOf_gone hg
  · rw [r.sponsorOf_left hg]
    cases hs : a.sponsorOf j with
    | none => exact h.sponsorsOk.contracts.none hs
    | some b => exact h.sponsorsOk.contracts.stop hs fun hb => hj ⟨hg, b, hb, hs⟩

theorem Responsor.mem_movedTo {j t : NodeIndex} : j ∈ movedTo a.sponsoredOf (a.survivor gone) gone t ↔
      a.LosesSponsor (· ∈ gone) j ∧ a'.sponsorOf j = some t := by
  have hco : Contracts a.sponsorOf (· ∈ gone) (a.survivor gone) := h.sponsorsOk.contracts
  rw [MlmForge.mem_movedTo]
  constructor
  · intro hm
    obtain ⟨i, hi, hit, hji, hj⟩ := hm
    have hs := h.recruited.mem_iff.mp hji
    refine ⟨⟨hj, i, hi, hs⟩, ?_⟩
    rw [r.sponsorOf_left hj, hco.skip hs hi, hit]
  · intro hm
    obtain ⟨⟨hj, i, hi, hs⟩, ht⟩ := hm
    rw [r.sponsorOf_left hj, hco.skip hs hi] at ht
    exact ⟨i, hi, ht, h.recruited.mem_iff.mpr hs, hj⟩

theorem Responsor.reciprocal {j t : NodeIndex} (ht : t ∉ gone) :
    j ∈ a'.sponsoredOf t ↔ a'.sponsorOf j = some t := by
  rw [r.sponsoredOf_left ht, mem_append, r.mem_movedTo h, h.recruited.mem_iff]
  by_cases hj : a.LosesSponsor (· ∈ gone) j
  · have hne : a.sponsorOf j ≠ some t := by
      obtain ⟨-, i, hi, hs⟩ := hj
      exact fun e => ht (some.inj (hs.symm.trans e) ▸ hi)
    simp [hne, hj]
  · simp [hj, r.kept h hj]

theorem Responsor.nodup_sponsoredOf (hnd : gone.Nodup) {t : NodeIndex} (ht : t ∉ gone) :
    (a'.sponsoredOf t).Nodup := by
  rw [r.sponsoredOf_left ht]
  refine nodup_append.mpr ⟨h.recruited.nodup t, h.recruited.nodup_movedTo hnd t, ?_⟩
  intro x hx y hy e
  subst e
  obtain ⟨⟨-, i, hi, hs⟩, -⟩ := (r.mem_movedTo h).mp hy
  exact ht (some.inj ((h.recruited.mem_iff.mp hx).symm.trans hs) ▸ hi)

/-- **The forest after the handover**, when no node that goes is stuck. -/
theorem Responsor.reparented (hnd : gone.Nodup) (hfree : ∀ i ∈ gone, ¬ a.Stuck (· ∈ gone) i) :
    Reparented a a' (· ∈ gone) where
  moved j hj := by
    have hco : Contracts a.sponsorOf (· ∈ gone) (a.survivor gone) := h.sponsorsOk.contracts
    obtain ⟨hjg, i, hi, hs⟩ := hj
    cases ht : a.survivor gone j with
    | none =>
      refine absurd ⟨⟨j, hjg, hs⟩, ?_⟩ (hfree i hi)
      exact hco.eq_none_iff.mp ((hco.skip hs hi).symm.trans ht)
    | some t => exact ⟨t, hco.firstKept ht, (r.sponsorOf_left hjg).trans ht⟩
  kept j hj := r.kept h hj
  appended t ht := ⟨_, r.sponsoredOf_left ht, r.nodup_sponsoredOf h hnd ht, fun j => r.mem_movedTo h⟩
  emptied i hi := by
    show (a'.nodeAt i).sponsored = _
    rw [r.nodeAt]
    exact if_pos hi
  acyclic := (r.ranked h).irrefl
  closed j t hj ht := h.sponsorsOk.contracts.survives (r.sponsorOf_left hj ▸ ht)
  reciprocal j t ht := r.reciprocal h ht
  not_own j hj := (r.ranked h).ne hj rfl
  other j := by
    rw [sponsorOf, sponsoredOf, r.nodeAt]
  index := r.index
  root := r.root
  free := r.free
  length := r.length

end Handover

theorem Valid.reparented {a : Arena} (h : a.Valid) {removed : List NodeIndex}
    (hc : a.checkSponsoredRemovable removed = .ok ()) :
    ∃ moved a', (Arena.reparentSponsored removed).run a = .ok moved a' ∧ Reparented a a' (· ∈ removed) := by
  have hlt : ∀ i ∈ removed, i < a.nodes.length := fun i hi => lt_of_checkSponsoredRemovable hc hi
  have hfree := (h.checkSponsoredRemovable_iff hlt).mp hc
  have hm : (· ∈ removed) = (· ∈ firstSeen [] removed) := funext fun i => propext (by simp [mem_firstSeen])
  have hm' : ∀ i, i ∈ removed ↔ i ∈ firstSeen [] removed := fun i => iff_of_eq (congrFun hm i)
  rw [reparentSponsored_firstSeen, hm]
  obtain ⟨a', hrun, r⟩ := reparentSponsored_ok h.sponsorsOk (nodup_firstSeen [] removed)
    (fun i hi => hlt i ((hm' i).mpr hi)) fun i _ j _ hs => h.recruited.mem_iff.mpr hs
  refine ⟨_, a', hrun, r.reparented h (nodup_firstSeen [] removed) fun i hi => ?_⟩
  rw [← hm]
  exact hfree i ((hm' i).mpr hi)

end Arena

/-- **Sponsor re-parenting keeps the sponsor forest sound.** On a valid arena every removal set that the
    check accepts is reparented: each survivor who loses their sponsor gets the first survivor up the
    chain and is appended there once, all other links stay, and the links are acyclic and kept at both
    ends among the survivors. And the check of a set of slots refuses exactly those with a stuck node,
    with an error that says so. -/
theorem sponsor_reparenting_is_sound (a : Arena) (h : a.Valid) (removed : List NodeIndex) :
    (a.checkSponsoredRemovable removed = .ok () →
      ∃ moved a', (Arena.reparentSponsored removed).run a = .ok moved a' ∧
        Arena.Reparented a a' (· ∈ removed)) ∧ ((∀ i ∈ removed, i < a.nodes.length) →
      ((∃ e, a.checkSponsoredRemovable removed = .error (.err e)) ↔ ∃ i ∈ removed, a.Stuck (· ∈ removed) i) ∧
      (a.checkSponsoredRemovable removed = .ok () ↔ ¬ ∃ i ∈ removed, a.Stuck (· ∈ removed) i) ∧
      ∀ e, a.checkSponsoredRemovable removed = .error e → ∃ u n,
        e = .err (.sponsorlessWithRecruits u n)) := by
  refine ⟨h.reparented, fun hlt => ⟨⟨fun he => ?_, fun hs => ?_⟩, ?_, fun e he => ?_⟩⟩
  · obtain ⟨e, he⟩ := he
    obtain ⟨i, hi, hs, -⟩ := h.checkSponsoredRemovable_error hlt he
    exact ⟨i, hi, hs⟩
  · obtain ⟨i, hi, hs⟩ := hs
    cases hc : a.checkSponsoredRemovable removed with
    | ok u => exact absurd hs ((h.checkSponsoredRemovable_iff hlt).mp hc i hi)
    | error e =>
      obtain ⟨j, -, -, rfl⟩ := h.checkSponsoredRemovable_error hlt hc
      exact ⟨_, rfl⟩
  · rw [h.checkSponsoredRemovable_iff hlt]
    simp
  · obtain ⟨i, -, -, rfl⟩ := h.checkSponsoredRemovable_error hlt he
    exact ⟨_, _, rfl⟩

/-- Three in a row, each sponsored by the one above. -/
def rowArena : Arena where
  nodes := [⟨1, none, [1], none, [1], 0, 0⟩, ⟨2, some 0, [2], some 0, [2], 1, 5⟩,
    ⟨3, some 1, [], some 1, [], 2, 6⟩]
  index := ((AList.singleton 3 2).insert 2 1).insert 1 0
  freeList := []
  root := some 0

theorem sponsor_reparenting_is_sound_row :
    (∃ moved a', (Arena.reparentSponsored [1, 1]).run rowArena = .ok moved a' ∧
      Arena.Reparented rowArena a' (· ∈ [1, 1])) ∧ ∃ i ∈ [0], rowArena.Stuck (· ∈ [0]) i := by
  have h : rowArena.Valid := validateRestored_iff.mp (by decide)
  refine ⟨(sponsor_reparenting_is_sound rowArena h [1, 1]).1 (by decide), ?_⟩
  exact ((sponsor_reparenting_is_sound rowArena h [0]).2 (by decide)).1.mp
    ⟨.sponsorlessWithRecruits 1 1, by decide⟩

end MlmForge.Engine
