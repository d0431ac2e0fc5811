/-
  Subject:   Whether the rows that a run leaves behind can be loaded again.

  * **`reloads_if_loose`** -- they do after every run in which the children of those who are replaced by
    promotion are not linked to each other;
  * **`promotion_blocks_reload`** -- a run of accepted changes after which they do not: a removal from a
    matrix tree moves a user below the one that they sponsor.
-/
import MlmForge.Network.Loader
import MlmForge.Network.Refine

namespace MlmForge.Network

open Engine MemoryTreeStore List Option

/-! ## 1. The preflight of a state that is reached -/

/-- The type under which a tree is loaded. -/
def typeOf : TreeInstance → TreeType
  | .unilevel _ => .unilevel
  | .binary _ => .binary
  | .matrix _ => .matrix

/-- The parameters with which a tree is loaded. -/
def configOf : TreeInstance → LoadTreeConfig
  | .unilevel _ => ⟨0⟩
  | .binary _ => ⟨0⟩
  | .matrix t => ⟨t.width.toNat⟩

theorem slotLimit_configOf (treeId : Uuid) (t : TreeInstance) :
    slotLimit treeId (configOf t) (typeOf t) = .ok (t.limit.map Int.ofNat) := by
  cases t <;> rfl

/-- The preflight of a load, over the rows in the order in which the store returns them. -/
def preflightOf (treeId : Uuid) (t : TreeInstance) (s : MemoryTreeStore) : Query LoadRejection Unit :=
  preflight treeId (typeOf t) (configOf t) (s.getByTreeDepthOrdered treeId)

section Run

variable {treeId : Uuid} {ok : TreeInstance → Change → Prop} {t : TreeInstance} {s : MemoryTreeStore}
  {n : Nat}

theorem Corresponds.describes (h : Corresponds treeId t s) :
    Describes (s.getByTreeDepthOrdered treeId) t.roster := by
  have hperm : (s.getByTreeDepthOrdered treeId).Perm (s.getByTree treeId) := mergeSort_perm _ _
  refine ⟨(hperm.map _).nodup_iff.mpr h.unique, fun n hn => h.row n (hperm.mem_iff.mp hn),
    fun u seat hu => ?_⟩
  obtain ⟨n, hn, hseat⟩ := h.node u seat hu
  exact ⟨n, hperm.mem_iff.mpr hn, hseat⟩

theorem Reached.recruited (h : Reached treeId ok t s n) : t.roster.Recruited := by
  induction h with
  | start hfresh =>
    intro u seat hu
    rw [hfresh.roster u] at hu
    cases hu
  | step hbefore hroom _ haccepted _ _ ih =>
    exact (TreeInstance.mutate_effect hbefore.level.valid hroom haccepted).2.2.recruited ih

/-- **The rows of a state that is reached pass exactly when its links up form no cycle.** -/
theorem Reached.preflight_iff (h : Reached treeId ok t s n) :
    preflightOf treeId t s = .ok () ↔ Grounded t.roster.Needs :=
  h.level.corresponds.describes.preflight_iff h.level.valid.sound h.recruited (slotLimit_configOf treeId t)

/-- A removal that promotes a child into the place of `u`. -/
def Promotes (t : TreeInstance) (c : Change) (u : Uuid) : Prop :=
  (∃ w, t = .matrix w) ∧ c.request = .remove u (some .promoteEarliest)

/-- **The children of those whom a run replaces by promotion are not linked to each other.** -/
def LooseChange (t : TreeInstance) (c : Change) : Prop := ∀ u, Promotes t c u → t.roster.Loose u

theorem Reached.grounded (h : Reached treeId LooseChange t s n) : Grounded t.roster.Needs := by
  induction h with
  | @start t hfresh =>
    refine ⟨fun u => ⟨u, fun v hv => ?_⟩⟩
    obtain ⟨seat, hseat, -⟩ := hv
    rw [hfresh.roster u] at hseat
    cases hseat
  | @step t t' s s' n c out hbefore hroom hok haccepted _ _ ih =>
    have hv := hbefore.level.valid
    by_cases hp : ∃ u, Promotes t c u
    · obtain ⟨u, hp⟩ := hp
      obtain ⟨⟨w, rfl⟩, hc⟩ := id hp
      simp only [Change.mutation, hc] at haccepted
      exact MatrixTree.promotion_grounded hv hroom haccepted ih (hok u hp)
    · obtain ⟨-, -, heff⟩ := TreeInstance.mutate_effect hv hroom haccepted
      refine heff.grounded hv.sound ih (TreeInstance.relocated_of_mutate hv hroom haccepted fun w u ht hmu => ?_)
      refine hp ⟨u, ⟨w, ht⟩, ?_⟩
      obtain ⟨eventId, request, enrolledAt, now⟩ := c
      cases request <;> cases hmu
      rfl

end Run

/-! ## 2. A history that cannot be loaded -/

/-- The second member holds both the third and the fourth, and the third sponsors the fourth. When the
    second leaves, the fourth is promoted, since of equally old children the one in the first slot is;
    the third moves below it. -/
def tanglingHistory : List Change :=
  [⟨101, .addRoot 1 1, 0, 0⟩, ⟨102, .placeAt 2 1 1 0, 0, 0⟩, ⟨103, .placeAt 3 2 1 1, 0, 0⟩,
    ⟨104, .placeAt 4 2 3 0, 0, 0⟩, ⟨105, .remove 2 (some .promoteEarliest), 0, 0⟩]

/-- **A promotion can block every later load**: the third waits for the fourth, which is its parent, and
    the fourth for the third, which is its sponsor. -/
theorem promotion_blocks_reload : ∃ t s n, Reached 7 (fun _ _ => True) t s n ∧
    preflightOf 7 t s ≠ .ok () := by
  have hlinks : ((runChanges 7 tanglingHistory (emptyMatrix, newMemoryTreeStore, 0)).map fun x =>
      ((x.1.roster 3).bind Seat.parent, (x.1.roster 4).bind Seat.sponsor)) = some (some 4, some 3) := by
    decide +kernel
  obtain ⟨⟨t, s, n⟩, hrun, hlinks⟩ := map_eq_some_iff.mp hlinks
  have hstart : Reached 7 (fun _ _ => True) emptyMatrix newMemoryTreeStore 0 := .start emptyMatrix_fresh
  have hreached : Reached 7 (fun _ _ => True) t s n :=
    Reached.runChanges (fun _ _ _ _ _ _ => trivial) hstart hrun
  refine ⟨t, s, n, hreached, fun hok => ?_⟩
  obtain ⟨h3, h4⟩ := Prod.mk.inj hlinks
  obtain ⟨third, hthird, hparent⟩ := bind_eq_some_iff.mp h3
  obtain ⟨fourth, hfourth, hsponsor⟩ := bind_eq_some_iff.mp h4
  have hgrounded := (hreached.preflight_iff.mp hok).transGen
  exact hgrounded.irrefl.irrefl 3
    (.tail (.single ⟨third, hthird, .inl hparent⟩) ⟨fourth, hfourth, .inr hsponsor⟩)

/-! ## 3. Histories that can -/

/-- **What a run leaves behind can be loaded again when its promotions are loose.** Changes to
    unilevel and binary trees, placements and removals to the holding tank need no condition. -/
theorem reloads_if_loose {treeId : Uuid} {t : TreeInstance} {s : MemoryTreeStore} {n : Nat}
    (h : Reached treeId LooseChange t s n) : preflightOf treeId t s = .ok () :=
  h.preflight_iff.mpr h.grounded

/-- Everybody with their seat. -/
def seats (t : TreeInstance) : List (Uuid × Seat) :=
  t.arena.index.keys.filterMap fun u => (t.roster u).map fun seat => (u, seat)

theorem mem_seats {t : TreeInstance} {u : Uuid} {seat : Seat} (hu : t.roster u = some seat) :
    (u, seat) ∈ seats t := by
  refine mem_filterMap.mpr ⟨u, ?_, by rw [hu]; rfl⟩
  cases t <;> obtain ⟨i, hi, -⟩ := map_eq_some_iff.mp hu <;>
    exact AList.mem_keys.mp (AList.lookup_isSome.mp (by rw [TreeInstance.arena, hi]; rfl))

/-- The seats before the second member leaves. -/
def siblingSeats : List (Uuid × Seat) :=
  [(1, ⟨none, none, 0, none, 0⟩), (2, ⟨some 1, some 0, 1, some 1, 0⟩), (3, ⟨some 2, some 0, 2, some 1, 0⟩),
    (4, ⟨some 2, some 1, 2, some 3, 10⟩)]

theorem siblings_loose {r : Roster} (hr : ∀ u seat, r u = some seat → (u, seat) ∈ siblingSeats) : r.Loose 2 := by
  simp only [siblingSeats, mem_cons, Prod.mk.injEq, not_mem_nil, or_false] at hr
  have hneeds : ∀ {v w}, r.Needs v w → w ≠ 4 := by
    rintro v w ⟨seat, hv, hw⟩ rfl
    rcases hr v seat hv with ⟨-, rfl⟩ | ⟨-, rfl⟩ | ⟨-, rfl⟩ | ⟨-, rfl⟩ <;> rcases hw with hw | hw <;> cases hw
  have hkid : ∀ {v w}, r.parentOf v = some w → v = 2 ∧ w = 1 ∨ (v = 3 ∨ v = 4) ∧ w = 2 := by
    intro v w hv
    obtain ⟨seat, hv, hw⟩ := bind_eq_some_iff.mp hv
    rcases hr v seat hv with ⟨rfl, rfl⟩ | ⟨rfl, rfl⟩ | ⟨rfl, rfl⟩ | ⟨rfl, rfl⟩ <;> cases hw <;> decide
  rintro c ⟨hc, hfirst⟩ e d he hd hde hdc x hx hpath
  by_cases hd4 : d = 4
  · -- nobody needs the fourth, who has nobody below
    rcases hpath.cases_tail with rfl | ⟨y, -, hy⟩
    · subst hd4
      rcases hx.cases_tail with rfl | ⟨y, -, hy⟩
      · exact hde rfl
      · rcases hkid he with ⟨-, h⟩ | ⟨rfl | rfl, -⟩
        · exact absurd h (by decide)
        · rcases hkid hy with ⟨-, h⟩ | ⟨-, h⟩ <;> exact absurd h (by decide)
        · exact hde rfl
    · exact hneeds hy hd4
  · -- the third is promoted, since the fourth joined later
    have hd3 : d = 3 := ((hkid hd).resolve_left fun h => absurd h.2 (by decide)).1.resolve_right hd4
    have hc4 : c = 4 := ((hkid hc).resolve_left fun h => absurd h.2 (by decide)).1.resolve_left
      fun h => hdc (hd3.trans h.symm)
    obtain ⟨a, ha, -⟩ := bind_eq_some_iff.mp hc
    obtain ⟨b, hb, -⟩ := bind_eq_some_iff.mp hd
    have hle := hfirst d a b hd ha hb
    subst hd3 hc4
    have ha : a = ⟨some 2, some 1, 2, some 3, 10⟩ := by simpa using hr 4 a ha
    have hb : b = ⟨some 2, some 0, 2, some 1, 0⟩ := by simpa using hr 3 b hb
    subst ha hb
    exact absurd hle (by decide)

/-- The third takes the place of the second, the fourth moves below the third, and the tree can be loaded. -/
theorem reloads_if_loose_promotion : ∃ t s n, Reached 7 LooseChange t s n ∧ t.roster 2 = none ∧
    (t.roster 4).bind Seat.parent = some 3 ∧ preflightOf 7 t s = .ok () := by
  have hfacts : ((runChanges 7 siblings (emptyMatrix, newMemoryTreeStore, 0)).bind fun x =>
      (runChange 7 siblingLeave x).map fun y => ((seats x.1).reverse, y.1.roster 2, (y.1.roster 4).bind Seat.parent)) =
      some (siblingSeats, none, some 3) := by
    decide +kernel
  obtain ⟨x, hrun, hfacts⟩ := bind_eq_some_iff.mp hfacts
  obtain ⟨y, hleave, hfacts⟩ := map_eq_some_iff.mp hfacts
  obtain ⟨hseats, hfacts⟩ := Prod.mk.inj hfacts
  have hadds : ∀ c ∈ siblings, ∀ t, LooseChange t c := by
    intro c hc t u hp
    simp only [siblings, mem_cons, not_mem_nil, or_false] at hc
    rcases hc with rfl | rfl | rfl | rfl <;> cases hp.2
  have hx : Reached 7 LooseChange x.1 x.2.1 x.2.2 :=
    Reached.runChanges (fun c hc t _ _ _ => hadds c hc t) (.start emptyMatrix_fresh) hrun
  have hloose : LooseChange x.1 siblingLeave := by
    intro u hp
    cases hp.2
    exact siblings_loose fun u seat hu => hseats ▸ mem_reverse.mpr (mem_seats hu)
  have hy := hx.runChange hloose hleave
  exact ⟨_, _, _, hy, (Prod.mk.inj hfacts).1, (Prod.mk.inj hfacts).2, reloads_if_loose hy⟩

end MlmForge.Network
