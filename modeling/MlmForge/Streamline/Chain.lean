/-
  Subject:   A unilevel tree that is a single chain, seen as the list of its members.

  A stream of the streamline engine keeps its members in a unilevel tree and only ever appends below
  the bottom one. The list of a chain names the bottom member first, so that the tree's roster is
  defined by recursion: a member sits below the rest of the list, and its depth is the length of it.

  * `Holds.getDownline` and the other reads return what the list says.
-/
import MlmForge.Basis.Maps
import MlmForge.Engine.Seating
import MlmForge.Engine.Walks

namespace MlmForge.Engine.UnilevelTree

open Query List Option Arena Function

/-! ## 1. Reads of the tree -/

/-- Whether the tree holds a user. -/
def contains (t : UnilevelTree) (userId : Uuid) : Bool := (t.arena.index.lookup userId).isSome

/-- Every user of the tree. -/
def userIds (t : UnilevelTree) : List Uuid := t.arena.index.keys

def getParent (t : UnilevelTree) (userId : Uuid) : Query TreeError (Option Node) := do
  let idx ← t.arena.resolve userId
  let n ← t.arena.node idx
  match n.parent with
  | some parentIdx => do
      let p ← t.arena.node parentIdx
      .ok (some p)
  | none => .ok none

/-- The sponsor of a node, or none when the node has none. -/
def getSponsor (t : UnilevelTree) (userId : Uuid) : Query TreeError (Option Node) := do
  let idx ← t.arena.resolve userId
  let n ← t.arena.slot idx
  match n.sponsor with
  | some sponsorIdx => do
      let s ← t.arena.slot sponsorIdx
      .ok (some s)
  | none => .ok none

/-- The nodes below a node in breadth-first order; all levels when `depth` is 0. -/
def getDownline (t : UnilevelTree) (userId : Uuid) (depth : Nat) : Query TreeError (List Node) := do
  let idx ← t.arena.resolve userId
  t.arena.bfsDownline idx depth

end MlmForge.Engine.UnilevelTree

namespace MlmForge.Streamline

open Engine Query List Option Arena Function

/-! ## 2. The list of a chain -/

/-- A member of a chain: who recruited them, and when. -/
structure Member where
  user : Uuid
  sponsor : Option Uuid
  enrolledAt : Int
  deriving DecidableEq, Repr

/-- The users of a chain. -/
def users (l : List Member) : List Uuid := l.map Member.user

/-- The seat of a member above whom the chain is `above`. -/
def seatBelow (above : List Member) (m : Member) : Seat where
  parent := above.head?.map Member.user
  position := none
  depth := above.length
  sponsor := m.sponsor
  enrolledAt := m.enrolledAt

/-- The roster of a chain, the bottom member first. -/
def lineup : List Member → Roster
  | [] => fun _ => none
  | m :: above => update (lineup above) m.user (some (seatBelow above m))

/-- **What the list of a chain is**: no user twice and none nil, the top without a sponsor, everybody
    else recruited by someone above. -/
inductive Stacked : List Member → Prop where
  | empty : Stacked []
  | root {m : Member} (user : m.user ≠ Uuid.nil) (sponsor : m.sponsor = none) : Stacked [m]
  | under {m p : Member} {above : List Member} (stacked : Stacked (p :: above))
      (user : m.user ≠ Uuid.nil) (new : m.user ∉ users (p :: above)) {s : Uuid}
      (sponsor : m.sponsor = some s) (recruiter : s ∈ users (p :: above)) :
      Stacked (m :: p :: above)

section Stacked

variable {l above below : List Member} {m : Member} {u : Uuid}

theorem mem_users (hm : m ∈ l) : m.user ∈ users l := mem_map_of_mem hm

@[simp] theorem users_nil : users [] = [] := rfl

@[simp] theorem users_cons : users (m :: l) = m.user :: users l := rfl

@[simp] theorem users_append : users (below ++ above) = users below ++ users above := map_append

theorem Stacked.tail (h : Stacked (m :: above)) : Stacked above := by
  cases h with
  | root => exact .empty
  | under stacked => exact stacked

theorem Stacked.drop (h : Stacked (below ++ above)) : Stacked above := by
  induction below with
  | nil => exact h
  | cons m below ih => exact ih h.tail

theorem Stacked.user (h : Stacked (m :: above)) : m.user ≠ Uuid.nil := by
  cases h with
  | root user => exact user
  | under _ user => exact user

theorem Stacked.new (h : Stacked (m :: above)) : m.user ∉ users above := by
  cases h with
  | root => exact not_mem_nil
  | under _ _ new => exact new

theorem Stacked.nodup (h : Stacked l) : (users l).Nodup := by
  induction l with
  | nil => exact nodup_nil
  | cons m above ih => exact nodup_cons.mpr ⟨h.new, ih h.tail⟩

theorem Stacked.ne_nil (h : Stacked l) (hu : u ∈ users l) : u ≠ Uuid.nil := by
  induction l with
  | nil => exact absurd hu not_mem_nil
  | cons m above ih =>
    rcases mem_cons.mp hu with e | hu
    · exact e ▸ h.user
    · exact ih h.tail hu

theorem Stacked.sponsor_mem (h : Stacked (m :: above)) {s : Uuid} (hs : m.sponsor = some s) :
    s ∈ users above := by
  cases h with
  | root _ sponsor => rw [sponsor] at hs; cases hs
  | under _ _ _ sponsor recruiter =>
    rw [sponsor] at hs
    cases hs
    exact recruiter

theorem Stacked.recruited (h : Stacked (m :: above)) (hne : above ≠ []) :
    ∃ s, m.sponsor = some s ∧ s ∈ users above := by
  cases h with
  | root => exact absurd rfl hne
  | under _ _ _ sponsor recruiter => exact ⟨_, sponsor, recruiter⟩

theorem lineup_of_not_mem (hu : u ∉ users l) : lineup l u = none := by
  induction l with
  | nil => rfl
  | cons m above ih =>
    obtain ⟨hne, hu⟩ := not_or.mp (mt mem_cons.mpr hu)
    rw [lineup, update_of_ne hne, ih hu]

theorem lineup_mid (h : Stacked (below ++ m :: above)) :
    lineup (below ++ m :: above) m.user = some (seatBelow above m) := by
  induction below with
  | nil => exact update_self _ _ _
  | cons b below ih =>
    have hne : m.user ≠ b.user := by
      intro e
      have hnew : b.user ∉ users (below ++ m :: above) := h.new
      rw [← e, users_append] at hnew
      exact hnew (mem_append_right _ mem_cons_self)
    rw [cons_append, lineup, update_of_ne hne, ih h.tail]

theorem exists_split (hu : u ∈ users l) : ∃ below m above, l = below ++ m :: above ∧ m.user = u := by
  obtain ⟨m, hm, rfl⟩ := mem_map.mp hu
  obtain ⟨below, above, e⟩ := append_of_mem hm
  exact ⟨below, m, above, e, rfl⟩

theorem lineup_eq_some (h : Stacked l) {seat : Seat} : lineup l u = some seat ↔
    ∃ below m above, l = below ++ m :: above ∧ m.user = u ∧ seatBelow above m = seat := by
  constructor
  · intro hs
    have hu : u ∈ users l := by
      by_contra hn
      rw [lineup_of_not_mem hn] at hs
      cases hs
    obtain ⟨below, m, above, rfl, rfl⟩ := exists_split hu
    rw [lineup_mid h] at hs
    exact ⟨below, m, above, rfl, rfl, some.inj hs⟩
  · intro hs
    obtain ⟨below, m, above, rfl, rfl, rfl⟩ := hs
    exact lineup_mid h

theorem lineup_ne_none (h : Stacked l) : lineup l u ≠ none ↔ u ∈ users l := by
  refine ⟨fun hn => by_contra fun hu => hn (lineup_of_not_mem hu), fun hu => ?_⟩
  obtain ⟨below, m, above, rfl, rfl⟩ := exists_split hu
  rw [lineup_mid h]
  exact some_ne_none _

/-- A member who moves up below `up`: a recruit of `gone` is now recruited by whoever they sit
    below. -/
def moveUp (gone : Uuid) (up : List Member) (m : Member) : List Member :=
  { m with
    sponsor := up.head?.bind fun p => if m.sponsor = some gone then some p.user else m.sponsor } :: up

/-- The chain once `gone` has left between `above` and the members below, who move up. -/
def closeUp (gone : Uuid) (above : List Member) : List Member → List Member
  | [] => above
  | m :: below => moveUp gone (closeUp gone above below) m

theorem closeUp_append (gone : Uuid) (above low : List Member) : ∀ below : List Member,
    closeUp gone above (below ++ low) = closeUp gone (closeUp gone above low) below := by
  intro below
  induction below with
  | nil => rfl
  | cons m below ih => rw [cons_append, closeUp, ih, closeUp]

theorem exists_closeUp (gone : Uuid) (above below : List Member) :
    ∃ l, closeUp gone above below = l ++ above := by
  induction below with
  | nil => exact ⟨[], rfl⟩
  | cons m below ih =>
    obtain ⟨l, hl⟩ := ih
    exact ⟨_ :: l, by rw [closeUp, moveUp, hl, cons_append]⟩

theorem users_closeUp (gone : Uuid) (above : List Member) : ∀ below : List Member,
    users (closeUp gone above below) = users below ++ users above := by
  intro below
  induction below with
  | nil => rfl
  | cons m below ih => rw [closeUp, moveUp, users_cons, ih, users_cons, cons_append]

/-- **Closing up keeps a chain.** -/
theorem Stacked.closeUp {x : Member} (h : Stacked (below ++ x :: above)) :
    Stacked (closeUp x.user above below) := by
  induction below with
  | nil => exact Stacked.tail h
  | cons m below ih =>
    have hrest := ih h.tail
    have husers := users_closeUp x.user above below
    have hnew : m.user ∉ users (Streamline.closeUp x.user above below) := by
      have := h.new
      rw [append_eq, users_append, users_cons] at this
      rw [husers]
      simp_all
    rw [Streamline.closeUp, moveUp]
    cases hup : Streamline.closeUp x.user above below with
    | nil => exact .root h.user rfl
    | cons p rest =>
      rw [hup] at hrest hnew husers
      by_cases hs : m.sponsor = some x.user
      · exact .under hrest h.user hnew (by simp [hs]) mem_cons_self
      · obtain ⟨s, hms, hmem⟩ := Stacked.recruited h (by simp)
        have hne : s ≠ x.user := fun e => hs (hms.trans (congrArg some e))
        refine .under hrest h.user hnew (s := s) (by simp [hms, hne]) ?_
        rw [append_eq, users_append, users_cons] at hmem
        rw [husers]
        simp_all

/-- The user at the top of a chain; nil when there is none. -/
def topUser (l : List Member) : Uuid := (l.getLast?.map Member.user).getD Uuid.nil

end Stacked

/-! ## 3. A tree that holds a chain -/

/-- **The tree is the chain**: it is valid, and its members sit one below the other as the list has
    them. -/
structure Holds (t : UnilevelTree) (l : List Member) : Prop where
  valid : t.arena.Valid
  stacked : Stacked l
  seats : t.roster = lineup l
  -- a depth is a `u32`
  fits : l.length ≤ 2 ^ 32

section Holds

variable {t : UnilevelTree} {l above below : List Member} {m : Member} {u : Uuid}

theorem holds_new : Holds UnilevelTree.new [] where
  valid := new_valid
  stacked := .empty
  seats := rfl
  fits := Nat.zero_le _

/-- The node of a member. -/
theorem Holds.node (h : Holds t (below ++ m :: above)) : ∃ i, t.arena.index.lookup m.user = some i ∧
    t.arena.Live i ∧ t.arena.userAt i = m.user ∧ t.arena.seatAt (fun _ => none) i = seatBelow above m := by
  have hseat : t.roster m.user = some (seatBelow above m) := by
    rw [h.seats, lineup_mid h.stacked]
  obtain ⟨i, hi, e⟩ := map_eq_some_iff.mp hseat
  exact ⟨i, hi, h.valid.live_of_lookup hi, (h.valid.index_iff.mp hi).2, e⟩

variable {i : NodeIndex}

theorem Holds.seat_of_live (h : Holds t l) (hi : t.arena.Live i) :
    lineup l (t.arena.userAt i) = some (t.arena.seatAt (fun _ => none) i) := by
  rw [← h.seats]
  exact h.valid.roster_userAt hi

theorem Holds.lookup_eq_none (h : Holds t l) : t.arena.index.lookup u = none ↔ u ∉ users l := by
  have hroster : t.roster u = none ↔ t.arena.index.lookup u = none := map_eq_none_iff
  rw [← hroster, h.seats, ← not_iff_not, not_not]
  exact lineup_ne_none h.stacked

theorem Holds.contains (h : Holds t l) : t.contains u = true ↔ u ∈ users l := by
  rw [UnilevelTree.contains, isSome_iff_ne_none, ne_eq, h.lookup_eq_none, not_not]

theorem Holds.mem_userIds (h : Holds t l) : u ∈ t.userIds ↔ u ∈ users l := by
  rw [← h.contains, UnilevelTree.contains, AList.lookup_isSome]
  exact AList.mem_keys.symm

theorem Holds.userIds_perm (h : Holds t l) : t.userIds.Perm (users l) :=
  (perm_ext_iff_of_nodup t.arena.index.keys_nodup h.stacked.nodup).mpr fun _ => h.mem_userIds

theorem Holds.userIds_eq_nil (h : Holds t l) : t.userIds = [] ↔ l = [] := by
  rw [← length_eq_zero_iff, h.userIds_perm.length_eq, users, length_map, length_eq_zero_iff]

theorem Holds.root (h : Holds t []) : t.arena.root = none := by
  cases hr : t.arena.root with
  | none => rfl
  | some r =>
    cases h.seat_of_live (h.valid.root_live hr).1

theorem Holds.parentOf (h : Holds t (below ++ m :: above)) (hi : t.arena.index.lookup m.user = some i) :
    (t.arena.parentOf i).map t.arena.userAt = above.head?.map Member.user ∧
    (t.arena.sponsorOf i).map t.arena.userAt = m.sponsor ∧
    (t.arena.nodeAt i).depth = above.length ∧ (t.arena.nodeAt i).enrolledAt = m.enrolledAt := by
  obtain ⟨j, hj, -, -, hseat⟩ := h.node
  cases hi.symm.trans hj
  refine ⟨congrArg Seat.parent hseat, congrArg Seat.sponsor hseat, ?_, congrArg Seat.enrolledAt hseat⟩
  exact Int.ofNat_inj.mp (congrArg Seat.depth hseat)

theorem Holds.getParent (h : Holds t (below ++ m :: above)) : ∃ found,
    t.getParent m.user = .ok found ∧ found.map Node.userId = above.head?.map Member.user ∧
    ∀ p, found = some p → p.depth + 1 = above.length := by
  obtain ⟨i, hi, hlive, -, -⟩ := h.node
  obtain ⟨hpar, -, hdepth, -⟩ := h.parentOf hi
  unfold Arena.parentOf at hpar
  rw [UnilevelTree.getParent, bind_ok (resolve_eq_ok.mpr hi), bind_ok (node_ok hlive)]
  cases hp : (t.arena.nodeAt i).parent with
  | none =>
    rw [hp] at hpar
    exact ⟨none, rfl, hpar, nofun⟩
  | some p =>
    rw [hp] at hpar
    refine ⟨some (t.arena.nodeAt p), bind_ok (node_ok (h.valid.live_parent hp)) _, hpar, fun q e => ?_⟩
    cases e
    rw [← hdepth, h.valid.depth_below hp]

theorem Holds.getSponsor (h : Holds t (below ++ m :: above)) : ∃ found,
    t.getSponsor m.user = .ok found ∧ found.map Node.userId = m.sponsor := by
  obtain ⟨i, hi, hlive, -, -⟩ := h.node
  obtain ⟨-, hspon, -, -⟩ := h.parentOf hi
  unfold Arena.sponsorOf at hspon
  rw [UnilevelTree.getSponsor, bind_ok (resolve_eq_ok.mpr hi), bind_ok (slot_ok hlive.lt)]
  cases hs : (t.arena.nodeAt i).sponsor with
  | none =>
    rw [hs] at hspon
    exact ⟨none, rfl, hspon⟩
  | some s =>
    rw [hs] at hspon
    exact ⟨some (t.arena.nodeAt s), bind_ok (slot_ok (h.valid.live_sponsor hs).lt) _, hspon⟩

/-! ## 4. The nodes below a member -/

theorem split_unique : ∀ {b1 b2 a1 a2 : List Member} {m1 m2 : Member},
    Stacked (b1 ++ m1 :: a1) → b1 ++ m1 :: a1 = b2 ++ m2 :: a2 → m1.user = m2.user →
    b1 = b2 ∧ m1 = m2 ∧ a1 = a2 := by
  intro b1
  induction b1 with
  | nil =>
    intro b2 a1 a2 m1 m2 h e hu
    cases b2 with
    | nil =>
      cases e
      exact ⟨rfl, rfl, rfl⟩
    | cons x b2 =>
      obtain ⟨-, e⟩ := List.cons.inj e
      have hnew : m1.user ∉ users a1 := Stacked.new h
      rw [e, hu, append_eq, users_append] at hnew
      exact absurd (mem_append_right _ mem_cons_self) hnew
  | cons x b1 ih =>
    intro b2 a1 a2 m1 m2 h e hu
    cases b2 with
    | nil =>
      cases e
      have hnew : x.user ∉ users (b1 ++ m1 :: a1) := Stacked.new h
      rw [← hu, users_append] at hnew
      exact absurd (mem_append_right _ mem_cons_self) hnew
    | cons y b2 =>
      obtain ⟨hxy, e⟩ := List.cons.inj e
      obtain ⟨rfl, rfl, rfl⟩ := ih h.tail e hu
      exact ⟨congrArg (· :: b1) hxy, rfl, rfl⟩

theorem Holds.mem_childrenOf (h : Holds t (below ++ m :: above)) {j : NodeIndex}
    (hi : t.arena.index.lookup m.user = some i) : j ∈ t.arena.childrenOf i ↔
      ∃ b c, below = b ++ [c] ∧ t.arena.index.lookup c.user = some j := by
  rw [h.valid.placed.mem_iff]
  have hiu := (h.valid.index_iff.mp hi).2
  constructor
  · intro hj
    obtain ⟨b, c, a, e, hc, hseat⟩ := (lineup_eq_some h.stacked).mp
      (h.seat_of_live (h.valid.live_of_parent hj))
    have hpar : a.head?.map Member.user = some m.user := by
      have hup : (t.arena.seatAt (fun _ => none) j).parent = some m.user := by
        rw [seatAt, hj, map_some, userAt, hiu]
      exact (congrArg Seat.parent hseat).trans hup
    obtain ⟨p, hp, hpu⟩ := map_eq_some_iff.mp hpar
    obtain ⟨a', rfl⟩ := head?_eq_some_iff.mp hp
    obtain ⟨rfl, -, -⟩ := split_unique h.stacked (e.trans (append_cons b c (p :: a'))) hpu.symm
    refine ⟨b, c, rfl, ?_⟩
    rw [hc]
    exact h.valid.lookup_of_live (h.valid.live_of_parent hj)
  · intro hj
    obtain ⟨b, c, rfl, hc⟩ := hj
    rw [← append_cons] at h
    obtain ⟨hpar, -⟩ := h.parentOf hc
    obtain ⟨p, hp, hpu⟩ := map_eq_some_iff.mp hpar
    rw [hp, h.valid.userAt_inj (h.valid.live_parent hp) (hpu.trans hiu.symm)]

theorem Holds.childrenOf_bottom (h : Holds t (m :: above))
    (hi : t.arena.index.lookup m.user = some i) : t.arena.childrenOf i = [] := by
  refine eq_nil_iff_forall_not_mem.mpr fun j hj => ?_
  have h0 : Holds t ([] ++ m :: above) := h
  obtain ⟨b, c, e, -⟩ := (h0.mem_childrenOf hi).mp hj
  cases b <;> cases e

theorem Holds.childrenOf_mid {c : Member} (h : Holds t (below ++ [c] ++ m :: above))
    {j : NodeIndex} (hi : t.arena.index.lookup m.user = some i)
    (hj : t.arena.index.lookup c.user = some j) : t.arena.childrenOf i = [j] := by
  refine perm_singleton.mp ((perm_ext_iff_of_nodup (h.valid.placed.nodup i)
    (nodup_singleton j)).mpr fun x => ?_)
  rw [h.mem_childrenOf hi, mem_singleton]
  constructor
  · intro hx
    obtain ⟨b, d, e, hd⟩ := hx
    obtain ⟨-, e⟩ := append_inj' e rfl
    cases e
    exact some.inj (hd.symm.trans hj)
  · intro e
    exact ⟨below, c, rfl, e ▸ hj⟩

/-- A member's node as a list of members has it. -/
def Reads (n : Node) (m : Member) : Prop := n.userId = m.user ∧ n.enrolledAt = m.enrolledAt

/-- A walk down from a member meets them and everybody below, in the order of the chain. -/
theorem Holds.walk (startDepth : Nat) : ∀ {below : List Member} {c : Member} {above : List Member}
    (fuel : Nat) {i : NodeIndex} (acc : List Node), Holds t (below ++ c :: above) →
    t.arena.index.lookup c.user = some i → startDepth ≤ above.length → below.length < fuel →
    ∃ ns, (bfsFold (t.arena.visitDown startDepth 0 fun acc n => acc ++ [n]) fuel [i] acc :
      Query TreeError _) = .ok (acc ++ ns) ∧ List.Forall₂ Reads ns (c :: below.reverse) := by
  intro below
  -- along the chain downwards: the last of `below` is the next node of the walk
  induction below using reverseRecOn with
  | nil =>
    intro c above fuel i acc h hi hd hf
    obtain ⟨fuel, rfl⟩ := Nat.exists_eq_succ_of_ne_zero (Nat.ne_of_gt hf)
    obtain ⟨-, -, hdepth, henr⟩ := h.parentOf hi
    refine ⟨[t.arena.nodeAt i], ?_, .cons ⟨(h.valid.index_iff.mp hi).2, henr⟩ .nil⟩
    have hlive := h.valid.live_of_lookup hi
    rw [bfsFold, visitDown, bind_ok (slot_ok hlive.lt), bind_ok (a := ()) (stopIf_eq_ok.mpr (by omega))]
    have hnone : (t.arena.nodeAt i).children = [] := Holds.childrenOf_bottom h hi
    simp [hnone, bfsFold, bind, Except.bind]
  | append_singleton below d ih =>
    intro c above fuel i acc h hi hd hf
    obtain ⟨fuel, rfl⟩ := Nat.exists_eq_succ_of_ne_zero (Nat.ne_of_gt (Nat.zero_lt_of_lt hf))
    obtain ⟨-, -, hdepth, henr⟩ := h.parentOf hi
    have hlive := h.valid.live_of_lookup hi
    have h' : Holds t (below ++ d :: c :: above) := by
      rw [append_cons]
      exact h
    obtain ⟨j, hj, -⟩ := h'.node
    have hkids : (t.arena.nodeAt i).children = [j] := h.childrenOf_mid hi hj
    rw [length_append, length_singleton] at hf
    obtain ⟨ns, hns, hreads⟩ := ih fuel (acc ++ [t.arena.nodeAt i]) h' hj
      (by rw [length_cons]; omega) (by omega)
    refine ⟨t.arena.nodeAt i :: ns, ?_, ?_⟩
    · rw [bfsFold, visitDown, bind_ok (slot_ok hlive.lt), bind_ok (a := ()) (stopIf_eq_ok.mpr (by omega))]
      rw [show acc ++ t.arena.nodeAt i :: ns = acc ++ [t.arena.nodeAt i] ++ ns by simp]
      simpa [hkids, bind, Except.bind] using hns
    · rw [reverse_append]
      exact .cons ⟨(h.valid.index_iff.mp hi).2, henr⟩ hreads

/-- **The downline of a member is what the chain has below them**, from the top. -/
theorem Holds.getDownline (h : Holds t (below ++ m :: above)) :
    ∃ ns, t.getDownline m.user 0 = .ok ns ∧ List.Forall₂ Reads ns below.reverse := by
  obtain ⟨i, hi, hlive, -, -⟩ := h.node
  obtain ⟨-, -, hdepth, -⟩ := h.parentOf hi
  have hrun : t.getDownline m.user 0 = bfsFold (t.arena.visitDown (t.arena.nodeAt i).depth 0
      fun acc n => acc ++ [n]) (t.arena.nodes.length + 1) (t.arena.childrenOf i) [] := by
    rw [UnilevelTree.getDownline, bind_ok (resolve_eq_ok.mpr hi), bfsDownline, bind_ok (slot_ok hlive.lt)]
  rw [hrun]
  rcases eq_nil_or_concat' below with rfl | ⟨b, c, rfl⟩
  · rw [Holds.childrenOf_bottom h hi]
    exact ⟨[], rfl, .nil⟩
  · have h' : Holds t (b ++ c :: m :: above) := by
      rw [append_cons]
      exact h
    obtain ⟨j, hj, -⟩ := h'.node
    -- the arena has a slot for everybody, so the walk ends within its bound
    have hlen : b.length < t.arena.nodes.length + 1 := by
      cases b with
      | nil => exact Nat.zero_lt_succ _
      | cons x b =>
        have h0 : Holds t ([] ++ x :: (b ++ c :: m :: above)) := h'
        obtain ⟨k, hk, hklive, -, -⟩ := h0.node
        obtain ⟨-, -, hkd, -⟩ := h0.parentOf hk
        have hlt := h'.valid.depth_lt hklive
        simp only [hkd, length_append, length_cons] at hlt ⊢
        omega
    obtain ⟨ns, hns, hreads⟩ := h'.walk (t.arena.nodeAt i).depth (t.arena.nodes.length + 1) [] hj
      (by rw [hdepth]; exact Nat.le_succ _) hlen
    rw [h.childrenOf_mid hi hj]
    refine ⟨ns, hns, ?_⟩
    rw [reverse_append]
    exact hreads

/-! ## 5. Push and pop -/

theorem Holds.addRoot (h : Holds t []) (hu : u ≠ Uuid.nil) (e : Int) :
    ∃ k t', (UnilevelTree.addRoot u e).run t = .ok k t' ∧ Holds t' [⟨u, none, e⟩] := by
  have hc : t.checkAddRoot u = .ok () := checkAddRoot_eq_ok.mpr ⟨hu, h.root, h.lookup_eq_none.mpr not_mem_nil⟩
  obtain ⟨k, t', hrun, g, hv⟩ := UnilevelTree.addRoot_spec h.valid hc e
  refine ⟨k, t', hrun, hv, .root hu rfl, ?_, Nat.succ_le_succ (Nat.zero_le _)⟩
  have hroster : t'.roster = update t.roster u (some ⟨none, none, 0, none, e⟩) :=
    g.roster h.valid (leaf_root hc) fun _ _ => rfl
  rw [hroster, h.seats]
  rfl

variable {p : Member} {s : Uuid}

/-- Below the bottom a recruit of somebody on the chain is not refused. -/
theorem Holds.check (h : Holds t (p :: above)) (hu : u ≠ Uuid.nil) (hnew : u ∉ users (p :: above))
    (hs : s ∈ users (p :: above)) : t.checkAddNode u p.user s = .ok () ∧
      ∃ i, t.arena.index.lookup p.user = some i ∧ (t.arena.nodeAt i).depth = above.length := by
  have h0 : Holds t ([] ++ p :: above) := h
  obtain ⟨i, hi, -, -, -⟩ := h0.node
  obtain ⟨-, -, hdepth, -⟩ := h0.parentOf hi
  obtain ⟨j, hj⟩ := ne_none_iff_exists'.mp (mt h.lookup_eq_none.mp (not_not.mpr hs))
  exact ⟨UnilevelTree.checkAddNode_ok hu (h.lookup_eq_none.mpr hnew) hi hj, i, hi, hdepth⟩

theorem Holds.addNode (h : Holds t (p :: above)) (hroom : (p :: above).length < 2 ^ 32) (hu : u ≠ Uuid.nil)
    (hnew : u ∉ users (p :: above)) (hs : s ∈ users (p :: above)) (e : Int) :
    ∃ k t', (UnilevelTree.addNode u p.user s e).run t = .ok k t' ∧
      Holds t' (⟨u, some s, e⟩ :: p :: above) := by
  obtain ⟨hc, i, hi, hdepth⟩ := h.check hu hnew hs
  have hfree := h.lookup_eq_none.mpr hnew
  obtain ⟨k, t', p', s', hp', hs', hrun, g, hv⟩ := UnilevelTree.addNode_spec h.valid hc
    (fun i' hi' => by cases hi.symm.trans hi'; rw [hdepth]; exact hroom) e
  cases hi.symm.trans hp'
  refine ⟨k, t', hrun, hv, .under h.stacked hu hnew rfl hs, ?_, hroom⟩
  have hseated : Seated t.roster t'.roster u _ := g.seated h.valid hu hfree hp' hs' fun _ _ => rfl
  rw [hseated.seats, h.seats, hdepth]
  rfl

theorem Holds.addNode_full (h : Holds t (p :: above)) (hfull : ¬ (p :: above).length < 2 ^ 32)
    (hu : u ≠ Uuid.nil) (hnew : u ∉ users (p :: above)) (hs : s ∈ users (p :: above)) (e : Int) :
    (UnilevelTree.addNode u p.user s e).run t = .error depthPanic t := by
  obtain ⟨hc, i, hi, hdepth⟩ := h.check hu hnew hs
  exact UnilevelTree.addNode_full h.valid hc hi (by rw [hdepth]; exact hfull) e

theorem Holds.addNode_refused (h : Holds t (p :: above)) (hu : u ≠ Uuid.nil)
    (hnew : u ∉ users (p :: above)) (hs : s ∉ users (p :: above)) (e : Int) :
    (UnilevelTree.addNode u p.user s e).run t = .error (.err (.sponsorNotFound s)) t := by
  have h0 : Holds t ([] ++ p :: above) := h
  obtain ⟨i, hi, -, -, -⟩ := h0.node
  have hsponsor : t.arena.resolveSponsor s = .error (.err (.sponsorNotFound s)) := by
    rw [resolveSponsor, resolve, h.lookup_eq_none.mpr hs]
  have hc : t.checkAddNode u p.user s = .error (.err (.sponsorNotFound s)) := by
    simp [UnilevelTree.checkAddNode, checkUserId, stopIf, hu, h.lookup_eq_none.mpr hnew,
      resolve_eq_ok.mpr hi, hsponsor, bind, Except.bind]
  simp only [UnilevelTree.addNode, Call.run_bind, Call.run_reads, hc]

theorem Holds.sponsoredOf_bottom (h : Holds t (m :: above))
    (hi : t.arena.index.lookup m.user = some i) : t.arena.sponsoredOf i = [] := by
  refine eq_nil_iff_forall_not_mem.mpr fun j hj => ?_
  have hj := h.valid.recruited.mem_iff.mp hj
  obtain ⟨b, c, a, e, -, hseat⟩ := (lineup_eq_some h.stacked).mp (h.seat_of_live (h.valid.live_of_sponsor hj))
  have hspon : c.sponsor = some m.user := by
    have hup : (t.arena.seatAt (fun _ => none) j).sponsor = some m.user := by
      rw [seatAt, hj, map_some, userAt, (h.valid.index_iff.mp hi).2]
    exact (congrArg Seat.sponsor hseat).trans hup
  have hmem : m.user ∈ users a := (e ▸ h.stacked).drop.sponsor_mem hspon
  refine h.stacked.new ?_
  cases b with
  | nil =>
    obtain ⟨-, e⟩ := List.cons.inj e
    exact e ▸ hmem
  | cons x b =>
    obtain ⟨-, e⟩ := List.cons.inj e
    rw [e, append_eq, users_append]
    exact mem_append_right _ (mem_cons_of_mem _ hmem)

theorem Holds.removeNode (h : Holds t (m :: above)) :
    ∃ moved t', (UnilevelTree.removeNode m.user).run t = .ok moved t' ∧ Holds t' above := by
  have h0 : Holds t ([] ++ m :: above) := h
  obtain ⟨i, hi, hlive, -, -⟩ := h0.node
  have hleaf := h.childrenOf_bottom hi
  have hnone := h.sponsoredOf_bottom hi
  have hmov : t.arena.checkSponsoredRemovable [i] = .ok () := by
    refine (h.valid.checkSponsoredRemovable_eq_ok fun j hj => ?_).mpr fun j hj hrec => ?_
    · rw [mem_singleton.mp hj]
      exact hlive.lt
    · rw [mem_singleton.mp hj, recruitsLeft, hnone] at hrec
      exact absurd rfl hrec
  have hc : t.checkRemoveNode m.user = .ok () := by
    rw [UnilevelTree.checkRemoveNode, checkRemoveLeaf,
      bind_ok (resolve_eq_ok.mpr hi), bind_ok (node_ok hlive),
      show (t.arena.nodeAt i).children = [] from hleaf]
    exact hmov
  obtain ⟨i', t', mid, hi', hrun, hp, hm, hcl, hv⟩ := UnilevelTree.removeNode_spec h.valid hc
  cases hi.symm.trans hi'
  refine ⟨_, t', hrun, hv, h.stacked.tail, ?_, Nat.le_of_succ_le h.fits⟩
  have heff : Effect none True t.roster t'.roster (.removeNode m.user none) _ :=
    hp.removeLeaf h.valid hi hleaf hmov hm hcl fun _ _ _ => rfl
  have hresp : t.arena.responsored [i] = [] := by
    simp [responsored, recruitsLeft, hnone, moves, heir]
  have hafter : t'.roster = Outcome.applyTo ⟨[], [], [m.user]⟩ (lineup (m :: above)) := by
    rw [← h.seats, ← hresp]
    cases heff with
    | removeNode _ _ hseats => exact hseats
  rw [hafter]
  funext v
  by_cases hv : v = m.user
  · rw [Outcome.applyTo, if_pos (mem_singleton.mpr hv), hv, lineup_of_not_mem h.stacked.new]
  · rw [Outcome.applyTo, if_neg (mt mem_singleton.mp hv), lineup, update_of_ne hv]
    cases lineup above v <;> rfl

end Holds

end MlmForge.Streamline
