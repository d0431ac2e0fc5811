/-
  Subject:   The valid matrix trees: what `validate_restored` accepts, said without passes.

  * **`validateRestored_iff`** -- a restored matrix tree is accepted exactly when it is valid.
-/
import MlmForge.Engine.Matrix

namespace MlmForge.Engine

open Query List Option Arena AList

namespace MatrixTree

/-! ## 1. The holding tank -/

/-- The sponsor that a user's tank entry names. -/
def tankLink (tank : List HoldingTankEntry) (u : Uuid) : Option Uuid :=
  (tank.find? fun e => e.userId = u).bind HoldingTankEntry.sponsorUserId

/-- What the operations keep of the holding tank. -/
structure TankOk (a : Arena) (tank : List HoldingTankEntry) : Prop where
  user : ∀ e ∈ tank, e.userId ≠ Uuid.nil
  sponsor : ∀ e ∈ tank, e.sponsorUserId ≠ some Uuid.nil
  absent : ∀ e ∈ tank, a.index.lookup e.userId = none
  nodup : (tank.map HoldingTankEntry.userId).Nodup
  chains : Ranked (tankLink tank)

section Tank

variable {tank : List HoldingTankEntry}

theorem positionOf_concat (tank : List HoldingTankEntry) (e : HoldingTankEntry) :
    positionOf (tank ++ [e]) = (positionOf tank).insert e.userId tank.length := by
  simp [positionOf, zipIdx_append]

variable {u : Uuid} {q : Nat}

theorem positionOf_eq_some (h : (positionOf tank).lookup u = some q) :
    ∃ e, tank[q]? = some e ∧ e.userId = u := by
  induction tank using reverseRecOn with
  | nil => cases h
  | append_singleton tank e ih =>
    rw [positionOf_concat] at h
    by_cases hu : u = e.userId
    · subst hu
      rw [AList.lookup_insert] at h
      cases h
      exact ⟨e, by simp, rfl⟩
    · rw [lookup_insert_ne hu] at h
      obtain ⟨e', he', hu'⟩ := ih h
      refine ⟨e', ?_, hu'⟩
      rw [getElem?_append_left (List.getElem?_eq_some_iff.mp he').1]
      exact he'

variable {e : HoldingTankEntry}

theorem positionOf_ne_none (he : e ∈ tank) : (positionOf tank).lookup e.userId ≠ none := by
  induction tank using reverseRecOn with
  | nil => exact absurd he not_mem_nil
  | append_singleton tank e' ih =>
    rw [positionOf_concat]
    by_cases hu : e.userId = e'.userId
    · rw [hu, AList.lookup_insert]
      nofun
    · rw [lookup_insert_ne hu]
      rcases mem_append.mp he with he | he
      · exact ih he
      · exact absurd (congrArg HoldingTankEntry.userId (mem_singleton.mp he)) hu

theorem find?_eq_of_nodup (hnd : (tank.map HoldingTankEntry.userId).Nodup)
    (he : e ∈ tank) : (tank.find? fun x => x.userId = e.userId) = some e := by
  induction tank with
  | nil => exact absurd he not_mem_nil
  | cons x tank ih =>
    rw [map_cons, nodup_cons] at hnd
    rcases mem_cons.mp he with rfl | he
    · simp
    · have hne : x.userId ≠ e.userId := fun h => hnd.1 (h ▸ mem_map_of_mem he)
      rw [find?_cons_of_neg (by simpa using hne)]
      exact ih hnd.2 he

theorem tankLink_eq_some {v : Uuid} (h : tankLink tank u = some v) :
    ∃ e ∈ tank, e.userId = u ∧ e.sponsorUserId = some v := by
  obtain ⟨e, he, hs⟩ := bind_eq_some_iff.mp h
  exact ⟨e, mem_of_find?_eq_some he, by simpa using find?_some he, hs⟩

theorem tankLink_of_mem (hnd : (tank.map HoldingTankEntry.userId).Nodup)
    (he : e ∈ tank) : tankLink tank e.userId = e.sponsorUserId := by
  unfold tankLink
  rw [find?_eq_of_nodup hnd he]
  rfl

theorem tankSponsor_eq_some {p : Nat} (h : tankSponsor tank p = some q) :
    ∃ e e', tank[p]? = some e ∧ tank[q]? = some e' ∧ e.sponsorUserId = some e'.userId := by
  obtain ⟨u, hu, hq⟩ := bind_eq_some_iff.mp h
  obtain ⟨e, he, hs⟩ := bind_eq_some_iff.mp hu
  obtain ⟨e', he', rfl⟩ := positionOf_eq_some hq
  exact ⟨e, e', he, he', hs⟩

theorem ranked_tankSponsor_iff (hnd : (tank.map HoldingTankEntry.userId).Nodup) :
    Ranked (tankSponsor tank) ↔ Ranked (tankLink tank) := by
  constructor
  · rintro ⟨rank, hr⟩
    refine ⟨fun u => ((positionOf tank).lookup u).elim 0 fun p => rank p + 1, fun u v huv => ?_⟩
    obtain ⟨e, he, rfl, hs⟩ := tankLink_eq_some huv
    obtain ⟨p, hp⟩ := ne_none_iff_exists'.mp (positionOf_ne_none he)
    dsimp only
    rw [hp]
    cases hq : (positionOf tank).lookup v with
    | none => exact Nat.succ_pos _
    | some q =>
      obtain ⟨e', he', hu'⟩ := positionOf_eq_some hp
      have : e' = e := by
        have h1 := find?_eq_of_nodup hnd (mem_of_getElem? he')
        rw [hu', find?_eq_of_nodup hnd he] at h1
        exact (some.inj h1).symm
      subst this
      have : tankSponsor tank p = some q := by
        simp only [tankSponsor, he', bind_some, hs]
        exact hq
      have := hr p q this
      exact Nat.succ_lt_succ this
  · rintro ⟨rank, hr⟩
    refine ⟨fun p => rank (tankUser tank p), fun p q hpq => ?_⟩
    obtain ⟨e, e', he, he', hs⟩ := tankSponsor_eq_some hpq
    have hu : ∀ {p e}, tank[p]? = some e → tankUser tank p = e.userId := fun h => by
      simp [tankUser, h]
    show rank (tankUser tank q) < rank (tankUser tank p)
    rw [hu he, hu he']
    exact hr _ _ ((tankLink_of_mem hnd (mem_of_getElem? he)).trans hs)

end Tank

/-! ## 2. Valid matrix trees -/

/-- A valid arena with rows of `width` slots that hold the children, and a sound tank. -/
structure Valid (t : MatrixTree) : Prop where
  width : ¬ t.width < 2
  spillover : t.spillover ≠ .depthFirst
  arena : t.arena.Valid
  agree : Arena.SlotsAgree id t.arena t.slots
  rows : ∀ i row, t.slots.lookup i = some row → row.length = t.width.toNat
  tank : TankOk t.arena t.holdingTank

variable {t : MatrixTree}

theorem checkTank_iff : t.checkTank = .ok () ↔ TankOk t.arena t.holdingTank := by
  have hzip : ∀ {P : HoldingTankEntry → Prop},
      (∀ x ∈ t.holdingTank.zipIdx, P x.1) ↔ ∀ e ∈ t.holdingTank, P e := by
    intro P
    constructor
    · intro h e he
      obtain ⟨q, hq, rfl⟩ := mem_iff_getElem.mp he
      exact h (_, q) (mem_zipIdx_iff_getElem?.mpr (getElem?_eq_getElem hq))
    · rintro h ⟨e, q⟩ hx
      exact h e (mem_of_getElem? (mem_zipIdx_iff_getElem?.mp hx))
  simp only [checkTank, seq_eq_ok, forM_eq_ok, stopIf_eq_ok, forDistinct_eq_ok,
    implies_true, true_and, not_mem_nil, not_false_eq_true, and_true, checkTankSponsorChainsEnd]
  have hrange : ∀ p q, tankSponsor t.holdingTank p = some q → q < t.holdingTank.length := by
    intro p q h
    obtain ⟨_, _, _, he', _⟩ := tankSponsor_eq_some h
    exact (List.getElem?_eq_some_iff.mp he').1
  constructor
  · rintro ⟨hu, hs, ha, hnd, hch⟩
    refine ⟨hzip.mp hu, hzip.mp hs, fun e he => ?_, hnd, (ranked_tankSponsor_iff hnd).mp ?_⟩
    · have := ha e he
      split at this
      · cases this
      · assumption
    · refine ranked_iff_ends.mpr fun p => ?_
      by_cases hp : p < t.holdingTank.length
      · exact ends_of_chainsEnd_ok hch hp rfl
      · refine ends_of_none ?_
        simp [tankSponsor, getElem?_eq_none (Nat.le_of_not_lt hp)]
  · intro h
    refine ⟨hzip.mpr h.user, hzip.mpr h.sponsor, fun e he => ?_, h.nodup, ?_⟩
    · rw [h.absent e he]
    · exact chainsEnd_ok_of_ranked ((ranked_tankSponsor_iff h.nodup).mpr h.chains) hrange _

/-- **A restored matrix tree is accepted exactly when it is valid.** -/
theorem validateRestored_iff : t.validateRestored = .ok () ↔ t.Valid := by
  have hshape : (∀ i c, t.slots.lookup i = some c → t.widthFault i c = none) ↔
      ∀ i c, t.slots.lookup i = some c → c.length = t.width.toNat := by
    refine forall_congr' fun i => forall_congr' fun c => forall_congr' fun _ => ?_
    unfold widthFault
    split <;> simp_all
  unfold validateRestored
  simp only [seq_eq_ok, stopIf_eq_ok, Arena.validateRestored_iff, checkTank_iff]
  constructor
  · rintro ⟨hw, hs, hv, h1, ht, h2⟩
    obtain ⟨ha, hr⟩ := (checkSlots_iff hv).mp ⟨h1, h2⟩
    exact ⟨hw, hs, hv, ha, hshape.mp hr, ht⟩
  · intro h
    obtain ⟨h1, h2⟩ := (checkSlots_iff h.arena).mpr ⟨h.agree, hshape.mpr h.rows⟩
    exact ⟨h.width, h.spillover, h.arena, h1, h.tank, h2⟩

theorem new_valid {width : UInt8} {spillover : SpilloverDirection}
    (h : new width spillover = .ok t) : t.Valid := by
  simp only [new, seq_eq_ok, stopIf_eq_ok, Except.ok.injEq] at h
  obtain ⟨hw, hs, rfl⟩ := h
  exact ⟨hw, hs, Arena.new_valid, ⟨fun _ => ⟨fun h => absurd rfl h, fun h => absurd rfl h⟩, nofun⟩, nofun,
    ⟨nofun, nofun, nofun, nodup_nil, ⟨fun _ => 0, nofun⟩⟩⟩

end MatrixTree

end MlmForge.Engine
