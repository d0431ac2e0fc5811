/-
  Subject:   The read-only walks over an arena, up the chains of parents and sponsors and down the
             placement, and what restoring an arena promises to all of them.

  * **`restored_arena_is_sound`** -- in an arena that the check accepts every walk from a live node
    returns, and meets live nodes only.

  A loop of the source that would not end runs out of its bound here (`Stop.loop`); a subtraction
  below zero is a panic.
-/
import MlmForge.Engine.Prune

namespace MlmForge.Engine

open Query List Option Arena Relation

namespace Arena

variable {ε : Type}

/-! ## 1. The walks -/

/-- The loop of a walk along the links `up`; no limit when `depth` is 0. -/
def uplineFrom (a : Arena) (up : Node → Option NodeIndex) (depth : Nat) :
    Nat → Nat → Option NodeIndex → Query ε (List Node)
  | _, _, none => .ok []
  | 0, _, some _ => .error .loop
  | fuel + 1, steps, some idx =>
    if 0 < depth ∧ depth ≤ steps then .ok []
    else do
      let n ← a.slot idx
      let rest ← uplineFrom a up depth fuel (steps + 1) (up n)
      .ok (n :: rest)

/-- Walks upward from a node toward the root; the node itself is not included. -/
def walkUpline (a : Arena) (startIdx : NodeIndex) (depth : Nat) : Query ε (List Node) := do
  let start ← a.slot startIdx
  a.uplineFrom Node.parent depth (a.nodes.length + 1) 0 start.parent

/-- Walks upward along sponsors; the node itself is not included. -/
def walkSponsorUpline (a : Arena) (startIdx : NodeIndex) (depth : Nat) : Query ε (List Node) := do
  let start ← a.slot startIdx
  a.uplineFrom Node.sponsor depth (a.nodes.length + 1) 0 start.sponsor

/-- The distributors that a user sponsors. -/
def getSponsored (a : Arena) (userId : Uuid) : Query TreeError (List Node) := do
  let idx ← a.resolve userId
  let n ← a.slot idx
  n.sponsored.mapM a.slot

/-- One round of a walk down to `depth` levels below the depth `startDepth`. -/
def visitDown {β : Type} (a : Arena) (startDepth depth : Nat) (emit : β → Node → β) (acc : β)
    (idx : NodeIndex) : Query ε (β × List NodeIndex) := do
  let n ← a.slot idx
  stopIf (n.depth < startDepth) (.panic "attempt to subtract with overflow")
  .ok (emit acc n, if depth = 0 ∨ n.depth - startDepth < depth then n.children else [])

/-- Walks downward in breadth-first order; the node itself is not included. -/
def bfsDownline (a : Arena) (startIdx : NodeIndex) (depth : Nat) : Query ε (List Node) := do
  let start ← a.slot startIdx
  bfsFold (a.visitDown start.depth depth fun acc n => acc ++ [n]) (a.nodes.length + 1)
    start.children []

def countDownline (a : Arena) (startIdx : NodeIndex) (depth : Nat) : Query ε Nat := do
  let start ← a.slot startIdx
  bfsFold (a.visitDown start.depth depth fun count _ => count + 1) (a.nodes.length + 1)
    start.children 0

/-- One round of a walk over a whole subtree. -/
def visitAll {β : Type} (read : NodeIndex → Query ε Node) (emit : β → Node → β) (acc : β)
    (idx : NodeIndex) : Query ε (β × List NodeIndex) := do
  let n ← read idx
  .ok (emit acc n, n.children)

/-- The child of a node at a position. -/
def branchRoot (a : Arena) (parentIdx : NodeIndex) (position : Nat) : Query TreeError NodeIndex := do
  let n ← a.slot parentIdx
  match n.children[position]? with
  | none => .error (.err (.positionOutOfRange n.userId position n.children.length))
  | some child => .ok child

/-- All nodes in the subtree under a child position. -/
def getBranch (a : Arena) (parentIdx : NodeIndex) (position : Nat) : Query TreeError (List Node) := do
  let root ← a.branchRoot parentIdx position
  bfsFold (visitAll a.slot fun acc n => acc ++ [n]) (a.nodes.length + 1) [root] []

/-- Counts nodes in the subtree under a child position. -/
def countBranch (a : Arena) (parentIdx : NodeIndex) (position : Nat) : Query TreeError Nat := do
  let root ← a.branchRoot parentIdx position
  bfsFold (visitAll a.slot fun count _ => count + 1) (a.nodes.length + 1) [root] 0

/-- Collects a node and all its descendants. -/
def collectSubtree (a : Arena) (rootIdx : NodeIndex) : Query ε (List Node) :=
  bfsFold (visitAll a.node fun acc n => acc ++ [n]) (a.nodes.length + 1) [rootIdx] []

/-- The loop of `isDescendantOf`. -/
def descendsFrom (a : Arena) (ancestorIdx : NodeIndex) : Nat → NodeIndex → Query ε Bool
  | 0, _ => .error .loop
  | fuel + 1, currentIdx => do
      let n ← a.slot currentIdx
      match n.parent with
      | none => .ok false
      | some parentIdx =>
        if parentIdx = ancestorIdx then .ok true else descendsFrom a ancestorIdx fuel parentIdx

/-- Checks whether a node is a descendant of another. -/
def isDescendantOf (a : Arena) (userIdx ancestorIdx : NodeIndex) : Query ε Bool :=
  if userIdx = ancestorIdx then .ok false
  else a.descendsFrom ancestorIdx (a.nodes.length + 1) userIdx

/-! ## 2. Upward -/

section Up

variable {a : Arena}

/-- The part of a walk that is within its limit; no limit when `depth` is 0. -/
def limited (depth steps : Nat) (l : List NodeIndex) : List NodeIndex :=
  if depth = 0 then l else l.take (depth - steps)

variable {depth : Nat} {i : NodeIndex}

theorem mem_of_mem_limited {steps : Nat} {l : List NodeIndex} (h : i ∈ limited depth steps l) : i ∈ l := by
  unfold limited at h
  split at h
  · exact h
  · exact mem_of_mem_take h

theorem uplineFrom_ok {up : Node → Option NodeIndex}
    (hlive : ∀ i j, up (a.nodeAt i) = some j → a.Live j) : ∀ {fuel steps : Nat} {i : NodeIndex},
    climb (fun i => up (a.nodeAt i)) fuel i = none →
    (a.uplineFrom up depth fuel steps (up (a.nodeAt i)) : Query ε _) =
      .ok ((limited depth steps (chainUp (fun i => up (a.nodeAt i)) fuel i)).map a.nodeAt) := by
  intro fuel
  induction fuel with
  | zero => intro steps i hi; cases hi
  | succ fuel ih =>
    intro steps i hi
    cases hu : up (a.nodeAt i) with
    | none => simp [uplineFrom, chainUp, hu, limited]
    | some j =>
      have hj : climb (fun i => up (a.nodeAt i)) fuel j = none := by
        rwa [climb_succ_some hu] at hi
      rw [uplineFrom]
      by_cases hstop : 0 < depth ∧ depth ≤ steps
      · rw [if_pos hstop, limited, if_neg (by omega), show depth - steps = 0 by omega]
        rfl
      · rw [if_neg hstop, bind_ok (slot_ok (hlive i j hu).lt), bind_ok (ih hj)]
        by_cases hd : depth = 0
        · simp [hd, chainUp, hu, limited]
        · have hleft : depth - steps = depth - (steps + 1) + 1 := by omega
          simp [hd, chainUp, hu, limited, hleft]

variable (h : a.Valid)
include h

theorem Valid.parent_climb (hi : i < a.nodes.length) : climb a.parentOf a.nodes.length i = none :=
  h.forest.ranked.climb_none _ (Finset.range a.nodes.length) i (by rw [Finset.card_range])
    fun _ hj => Finset.mem_range.mpr (h.above_lt hi hj)

theorem Valid.live_above {j : NodeIndex} (hij : StrictlyAbove a.parentOf i j) : a.Live j := by
  obtain ⟨k, -, hk⟩ := TransGen.tail'_iff.mp hij
  exact h.live_parent hk

theorem Valid.live_sponsor_above {j : NodeIndex} (hij : StrictlyAbove a.sponsorOf i j) : a.Live j := by
  obtain ⟨k, -, hk⟩ := TransGen.tail'_iff.mp hij
  exact h.live_sponsor hk

theorem Valid.walkUpline_eq (hi : a.Live i) (depth : Nat) : (a.walkUpline i depth : Query ε _) =
      .ok ((limited depth 0 (chainUp a.parentOf (a.nodes.length + 1) i)).map a.nodeAt) := by
  rw [walkUpline, bind_ok (slot_ok hi.lt)]
  exact uplineFrom_ok (fun _ _ => h.live_parent) (climb_none_succ (h.parent_climb hi.lt))

/-- **The upline is the parent chain, cut at the limit.** -/
theorem Valid.getElem?_upline (hi : a.Live i) (depth k : Nat) :
    (limited depth 0 (chainUp a.parentOf (a.nodes.length + 1) i))[k]? =
      if depth = 0 ∨ k < depth then climb a.parentOf (k + 1) i else none := by
  have hchain := getElem?_chainUp (climb_none_succ (h.parent_climb hi.lt)) k
  unfold limited
  by_cases hd : depth = 0
  · rw [if_pos hd, if_pos (.inl hd), hchain]
  · rw [if_neg hd, Nat.sub_zero, getElem?_take, hchain]
    simp [hd]

theorem Valid.walkUpline (hi : a.Live i) (depth : Nat) :
    ∃ l : List NodeIndex, (a.walkUpline i depth : Query ε _) = .ok (l.map a.nodeAt) ∧ ∀ j ∈ l, a.Live j :=
  ⟨_, h.walkUpline_eq hi depth, fun _ hj =>
    h.live_above (strictlyAbove_of_mem_chainUp (mem_of_mem_limited hj))⟩

theorem Valid.walkSponsorUpline (hi : a.Live i) (depth : Nat) :
    ∃ l : List NodeIndex, (a.walkSponsorUpline i depth : Query ε _) = .ok (l.map a.nodeAt) ∧
      ∀ j ∈ l, a.Live j := by
  refine ⟨limited depth 0 (chainUp a.sponsorOf (a.nodes.length + 1) i), ?_, fun j hj => ?_⟩
  · rw [Arena.walkSponsorUpline, bind_ok (slot_ok hi.lt)]
    exact uplineFrom_ok (fun _ _ => h.live_sponsor) (climb_none_succ (h.sponsor_climb hi.lt))
  · exact h.live_sponsor_above (strictlyAbove_of_mem_chainUp (mem_of_mem_limited hj))

/-- **A node is as many links below the root as its depth says.** -/
theorem Valid.climb_depth {r : NodeIndex} (hr : a.root = some r) : ∀ {n : Nat} {i : NodeIndex},
    a.Live i → (a.nodeAt i).depth = n → climb a.parentOf n i = some r := by
  intro n
  induction n with
  | zero =>
    intro i hi hd
    cases hp : a.parentOf i with
    | none =>
      have := h.top_root hi hp
      rw [hr] at this
      exact this.symm
    | some p =>
      have := h.depth_below hp
      omega
  | succ n ih =>
    intro i hi hd
    cases hp : a.parentOf i with
    | none =>
      have := h.depth_top hi hp
      omega
    | some p =>
      have := h.depth_below hp
      rw [climb_succ_some hp]
      exact ih (h.live_parent hp) (by omega)

theorem Valid.descendsFrom {anc : NodeIndex} : ∀ {fuel : Nat} {i : NodeIndex}, a.Live i →
    climb a.parentOf fuel i = none →
    ∃ b, (a.descendsFrom anc fuel i : Query ε _) = .ok b ∧ (b = true ↔ StrictlyAbove a.parentOf i anc)
    := by
  intro fuel
  induction fuel with
  | zero => intro i _ hc; cases hc
  | succ fuel ih =>
    intro i hi hc
    rw [Arena.descendsFrom, bind_ok (slot_ok hi.lt)]
    cases hp : (a.nodeAt i).parent with
    | none =>
      refine ⟨false, rfl, iff_of_false Bool.false_ne_true fun hab => ?_⟩
      obtain ⟨p, hp', -⟩ := TransGen.head'_iff.mp hab
      cases (show a.parentOf i = none from hp).symm.trans hp'
    | some p =>
      have hpar : a.parentOf i = some p := hp
      by_cases hanc : p = anc
      · subst hanc
        exact ⟨true, if_pos rfl, iff_of_true rfl (.single hpar)⟩
      · rw [climb_succ_some hpar] at hc
        obtain ⟨b, hb, hiff⟩ := ih (h.live_parent hpar) hc
        refine ⟨b, (if_neg hanc).trans hb, hiff.trans ⟨fun hab => .head hpar hab, fun hab => ?_⟩⟩
        obtain ⟨q, hq, hqa⟩ := TransGen.head'_iff.mp hab
        cases hpar.symm.trans hq
        rcases reflTransGen_iff_eq_or_transGen.mp hqa with e | hqa
        · exact absurd e.symm hanc
        · exact hqa

theorem Valid.isDescendantOf (hi : a.Live i) (anc : NodeIndex) :
    ∃ b, (a.isDescendantOf i anc : Query ε _) = .ok b ∧ (b = true ↔ StrictlyAbove a.parentOf i anc) := by
  unfold Arena.isDescendantOf
  by_cases hia : i = anc
  · subst hia
    exact ⟨false, if_pos rfl, iff_of_false Bool.false_ne_true (h.forest.ranked.irrefl i)⟩
  · rw [if_neg hia]
    exact h.descendsFrom hi (climb_none_succ (h.parent_climb hi.lt))

end Up

/-! ## 3. Downward -/

theorem foldl_emit {α β : Type} (f : α → β) (l : List α) (acc : List β) :
    l.foldl (fun acc x => acc ++ [f x]) acc = acc ++ l.map f := by
  induction l generalizing acc with
  | nil => simp
  | cons x l ih => simp [ih]

theorem foldl_count {α : Type} (l : List α) (n : Nat) :
    l.foldl (fun count _ => count + 1) n = n + l.length := by
  induction l generalizing n with
  | nil => rfl
  | cons x l ih =>
    rw [foldl_cons, ih, length_cons]
    omega

section Down

variable {a : Arena} (h : a.Valid)
include h

theorem Valid.depth_le {x q : NodeIndex} (hx : Above a.parentOf x q) :
    (a.nodeAt q).depth ≤ (a.nodeAt x).depth := by
  induction hx using ReflTransGen.head_induction_on with
  | refl => exact Nat.le_refl _
  | head hxy _ ih =>
    have := h.depth_below hxy
    omega

theorem Valid.depth_lt_of_strictlyAbove {x q : NodeIndex} (hx : StrictlyAbove a.parentOf x q) :
    (a.nodeAt q).depth < (a.nodeAt x).depth := by
  obtain ⟨p, hp, hpq⟩ := TransGen.head'_iff.mp hx
  have := h.depth_below hp
  have := h.depth_le hpq
  omega

section Limited

variable {i : NodeIndex} {depth : Nat}

/-- A walk with a limit goes on below a node that is above the limit. -/
def goesOn (a : Arena) (i : NodeIndex) (depth : Nat) (x : NodeIndex) : Prop :=
  depth = 0 ∨ (a.nodeAt x).depth - (a.nodeAt i).depth < depth

instance : DecidablePred (a.goesOn i depth) := fun _ =>
  inferInstanceAs (Decidable (_ ∨ _))

/-- Who can be reached from a child of `i` through nodes above the limit is within the limit. -/
theorem Valid.reached_iff {x : NodeIndex} :
    (∃ q ∈ a.childrenOf i, Above (fun c => (a.parentOf c).filter (a.goesOn i depth)) x q) ↔
      StrictlyAbove a.parentOf x i ∧ (depth = 0 ∨ (a.nodeAt x).depth - (a.nodeAt i).depth ≤ depth) := by
  have hsub : ∀ x y, (a.parentOf x).filter (a.goesOn i depth) = some y → a.parentOf x = some y :=
    fun x y hxy => (filter_eq_some_iff.mp hxy).1
  constructor
  · intro hx
    obtain ⟨q, hq, hxq⟩ := hx
    have hqi := h.placed.mem_iff.mp hq
    refine ⟨TransGen.tail' (ReflTransGen.mono hsub _ _ hxq) hqi, ?_⟩
    rcases ReflTransGen.cases_head hxq with rfl | ⟨p, hp, -⟩
    · have := h.depth_below hqi
      omega
    · obtain ⟨hxp, hkeep⟩ := filter_eq_some_iff.mp hp
      have := h.depth_below hxp
      rcases of_decide_eq_true hkeep with hd | hd <;> omega
  · intro hx
    obtain ⟨hxi, hle⟩ := hx
    obtain ⟨q, hxq, hqi⟩ := TransGen.tail'_iff.mp hxi
    refine ⟨q, h.placed.mem_iff.mpr hqi, ?_⟩
    induction hxq using ReflTransGen.head_induction_on with
    | refl => exact .refl
    | @head x p hxp hpq ih =>
      have hpi : StrictlyAbove a.parentOf p i := .tail' hpq hqi
      have := h.depth_below hxp
      have := h.depth_lt_of_strictlyAbove hpi
      refine .head (filter_eq_some_iff.mpr ⟨hxp, decide_eq_true ?_⟩) (ih hpi ?_)
      · rcases hle with hd | hd
        · exact .inl hd
        · exact .inr (by omega)
      · omega

theorem Valid.pairwise_idxOf (x : NodeIndex) : (a.childrenOf x).Pairwise fun c d =>
    ((a.parentOf c).elim 0 fun p => (a.childrenOf p).idxOf c) <
      ((a.parentOf d).elim 0 fun p => (a.childrenOf p).idxOf d) := by
  have hidx : (a.childrenOf x).Pairwise fun c d => (a.childrenOf x).idxOf c < (a.childrenOf x).idxOf d := by
    rw [pairwise_iff_getElem]
    intro m n hm hn hmn
    rw [(h.placed.nodup x).idxOf_getElem, (h.placed.nodup x).idxOf_getElem]
    exact hmn
  refine hidx.imp_of_mem fun {c d} hc hd hlt => ?_
  rw [h.placed.mem_iff.mp hc, h.placed.mem_iff.mp hd]
  exact hlt

end Limited

variable {i : NodeIndex}

/-- The order in which a walk goes through the nodes strictly below a live node, down to a limit of
    levels, whatever it collects on the way: each once, by depth. -/
theorem Valid.downOrder (hi : a.Live i) (depth : Nat) : ∃ order : List NodeIndex,
    (∀ {β : Type} (emit : β → Node → β) (b : β),
      (bfsFold (a.visitDown (a.nodeAt i).depth depth emit) (a.nodes.length + 1) (a.childrenOf i) b :
        Query ε β) = .ok (order.foldl (fun acc j => emit acc (a.nodeAt j)) b)) ∧
    order.Nodup ∧ (∀ x, x ∈ order ↔ StrictlyAbove a.parentOf x i ∧
      (depth = 0 ∨ (a.nodeAt x).depth - (a.nodeAt i).depth ≤ depth)) ∧
    order.Pairwise fun x y => (a.nodeAt x).depth ≤ (a.nodeAt y).depth := by
  have hsub : ∀ x y, (a.parentOf x).filter (a.goesOn i depth) = some y → a.parentOf x = some y :=
    fun x y hxy => (filter_eq_some_iff.mp hxy).1
  have hlt : ∀ x, StrictlyAbove a.parentOf x i → x < a.nodes.length := fun x hx =>
    (h.live_below hi hx.to_reflTransGen).lt
  have hF := h.forest.restrict (a.goesOn i depth)
  obtain ⟨order, ho, hnd, hmem, -⟩ := bfsOrder_forest hF (a.nodes.length + 1)
    (a.childrenOf i) (Finset.range a.nodes.length) (by simp)
    (fun x q hq hx => Finset.mem_range.mpr (hlt x (h.reached_iff.mp ⟨q, hq, hx⟩).1))
    ((h.antichain_children i).mono hsub)
  have hup : ∀ x, x ∈ order ↔ StrictlyAbove a.parentOf x i ∧
      (depth = 0 ∨ (a.nodeAt x).depth - (a.nodeAt i).depth ≤ depth) := fun x =>
    (hmem x).trans h.reached_iff
  refine ⟨order, fun {β} emit b => ?_, hnd, hup, ?_⟩
  · refine bfsFold_eq (fun acc x hx => ?_) ho
    have hxi := ((hup x).mp hx).1.to_reflTransGen
    rw [visitDown, bind_ok (slot_ok (h.live_below hi hxi).lt),
      bind_ok (a := ()) (stopIf_eq_ok.mpr (Nat.not_lt.mpr (h.depth_le hxi)))]
    rfl
  · -- the walk starts with the children of `i`, which is the queue `[i]` one step on
    have hstart : a.goesOn i depth i := by
      unfold goesOn
      omega
    have hplace : ∀ x, (if a.goesOn i depth x then a.childrenOf x else []).Pairwise fun c d =>
        ((a.parentOf c).elim 0 fun p => (a.childrenOf p).idxOf c) <
          ((a.parentOf d).elim 0 fun p => (a.childrenOf p).idxOf d) := by
      intro x
      split
      · exact h.pairwise_idxOf x
      · exact List.Pairwise.nil
    have hdepth : ∀ {c p}, (a.parentOf c).filter (a.goesOn i depth) = some p →
        (a.nodeAt c).depth = (a.nodeAt p).depth + 1 := fun hp => h.depth_below (hsub _ _ hp)
    have hqueue := (levelled_singleton i).pop hF hdepth hplace
    rw [nil_append, if_pos hstart] at hqueue
    exact (bfsOrder_levels hF hdepth hplace hqueue ho).2.imp fun hb => hb.depth_le hdepth

theorem Valid.bfsDownline (hi : a.Live i) (depth : Nat) :
    ∃ order : List NodeIndex, (a.bfsDownline i depth : Query ε _) = .ok (order.map a.nodeAt) ∧
      (a.countDownline i depth : Query ε _) = .ok order.length ∧ order.Nodup ∧
      (∀ x, x ∈ order ↔ StrictlyAbove a.parentOf x i ∧
        (depth = 0 ∨ (a.nodeAt x).depth - (a.nodeAt i).depth ≤ depth)) ∧
      order.Pairwise fun x y => (a.nodeAt x).depth ≤ (a.nodeAt y).depth := by
  obtain ⟨order, hfold, hrest⟩ := h.downOrder (ε := ε) hi depth
  refine ⟨order, ?_, ?_, hrest⟩
  · rw [Arena.bfsDownline, bind_ok (slot_ok hi.lt)]
    exact (hfold _ _).trans (by rw [foldl_emit, nil_append])
  · rw [countDownline, bind_ok (slot_ok hi.lt)]
    exact (hfold _ _).trans (by rw [foldl_count, Nat.zero_add])

theorem Valid.subtreeOrder (hi : a.Live i) (read : NodeIndex → Query ε Node)
    (hread : ∀ j, a.Live j → read j = .ok (a.nodeAt j)) : ∃ order : List NodeIndex,
    (∀ {β : Type} (emit : β → Node → β) (b : β),
      (bfsFold (visitAll read emit) (a.nodes.length + 1) [i] b : Query ε β) =
        .ok (order.foldl (fun acc j => emit acc (a.nodeAt j)) b)) ∧
    order.Nodup ∧ ∀ x, x ∈ order ↔ Above a.parentOf x i := by
  obtain ⟨order, ho, hnd, hmem, -⟩ := bfsOrder_single h.forest (Nat.le_succ _) fun x => h.below_lt hi.lt
  refine ⟨order, fun {β} emit b => ?_, hnd, hmem⟩
  refine bfsFold_eq (fun acc x hx => ?_) ho
  rw [visitAll, bind_ok (hread x (h.live_below hi ((hmem x).mp hx)))]

theorem Valid.collectSubtree (hi : a.Live i) :
    ∃ order : List NodeIndex, (a.collectSubtree i : Query ε _) = .ok (order.map a.nodeAt) ∧
      order.Nodup ∧ ∀ x, x ∈ order ↔ Above a.parentOf x i := by
  obtain ⟨order, hfold, hrest⟩ := h.subtreeOrder (ε := ε) hi a.node fun j hj => node_ok hj
  exact ⟨order, (hfold _ _).trans (by rw [foldl_emit, nil_append]), hrest⟩

variable {position : Nat}

theorem Valid.getBranch_some {c : NodeIndex} (hi : a.Live i) (hc : (a.childrenOf i)[position]? = some c) :
    ∃ order : List NodeIndex, a.getBranch i position = .ok (order.map a.nodeAt) ∧
      a.countBranch i position = .ok order.length ∧ order.Nodup ∧ ∀ x, x ∈ order ↔ Above a.parentOf x c := by
  have hroot : a.branchRoot i position = .ok c := by
    rw [branchRoot, bind_ok (slot_ok hi.lt)]
    simp only [show (a.nodeAt i).children[position]? = some c from hc]
  obtain ⟨order, hfold, hnd, hmem⟩ := h.subtreeOrder (ε := TreeError)
    (h.live_child (mem_of_getElem? hc)) a.slot fun j hj => slot_ok hj.lt
  refine ⟨order, ?_, ?_, hnd, hmem⟩
  · rw [getBranch, bind_ok hroot]
    exact (hfold _ _).trans (by rw [foldl_emit, nil_append])
  · rw [countBranch, bind_ok hroot]
    exact (hfold _ _).trans (by rw [foldl_count, Nat.zero_add])

omit h in
theorem getBranch_none (hi : a.Live i) (hc : (a.childrenOf i)[position]? = none) :
    a.getBranch i position = .error (.err (.positionOutOfRange (a.nodeAt i).userId position
      (a.childrenOf i).length)) ∧
    a.countBranch i position = .error (.err (.positionOutOfRange (a.nodeAt i).userId position
      (a.childrenOf i).length)) := by
  have hroot : a.branchRoot i position = .error (.err (.positionOutOfRange (a.nodeAt i).userId
      position (a.childrenOf i).length)) := by
    rw [branchRoot, bind_ok (slot_ok hi.lt)]
    simp only [show (a.nodeAt i).children[position]? = none from hc]
  constructor
  · rw [getBranch, hroot]
    rfl
  · rw [countBranch, hroot]
    rfl

end Down

/-! ## 4. The check of a restored arena -/

section Restored

variable {a : Arena}

theorem eachLive_safe {body : NodeIndex → Node → Check Unit}
    (hb : ∀ i, a.Live i → Query.Safe (body i (a.nodeAt i))) : Query.Safe (a.eachLive body) := by
  refine safe_forM fun i _ => ?_
  split
  · exact safe_ok ()
  · exact hb i (by assumption)

theorem checkEdge_safe (field : Field) (slot : NodeIndex) (target : Option NodeIndex) :
    Query.Safe (a.checkEdge field slot target) := by
  cases target with
  | none => exact safe_ok ()
  | some t =>
    unfold checkEdge
    dsimp only
    split
    · exact safe_err _
    · exact safe_stopIf _

theorem checkNode_safe (slot : NodeIndex) : Query.Safe (a.checkNode slot) := by
  unfold checkNode
  dsimp only
  split
  · split
    · exact safe_err _
    · exact safe_ok ()
  · exact (safe_stopIf _).bind fun _ _ => (checkEdge_safe _ _ _).bind fun _ _ =>
      (checkEdge_safe _ _ _).bind fun _ _ => (safe_forM fun _ _ => checkEdge_safe _ _ _).bind fun _ _ =>
          safe_forM fun _ _ => checkEdge_safe _ _ _

theorem checkFreeSlot_safe (idx : NodeIndex) : Query.Safe (a.checkFreeSlot idx) := by
  unfold checkFreeSlot
  split
  · exact safe_err _
  · exact safe_stopIf _

theorem checkRoot_safe : Query.Safe a.checkRoot := by
  unfold checkRoot
  split
  · exact safe_ok ()
  · split
    · exact safe_err _
    · refine (safe_stopIf _).bind fun _ _ => ?_
      split
      · exact safe_ok ()
      · exact safe_err _

theorem checkSingleRoot_safe : Query.Safe a.checkSingleRoot := by
  unfold checkSingleRoot
  dsimp only
  split
  · exact safe_stopIf _
  · exact eachLive_safe fun _ _ => safe_stopIf _

/-- What the pass over the edges has established: every link of a live node leads to a live node. -/
structure EdgesLive (a : Arena) : Prop where
  parent : ∀ {i p}, a.parentOf i = some p → a.Live p
  sponsor : ∀ {i s}, a.sponsorOf i = some s → a.Live s
  children : ∀ {i c}, c ∈ a.childrenOf i → a.Live c
  sponsored : ∀ {i s}, s ∈ a.sponsoredOf i → a.Live s

theorem edgesLive_of_checkNode (h : ∀ i, i < a.nodes.length → a.checkNode i = .ok ()) : a.EdgesLive := by
  have hnode : ∀ i, (¬ a.Live i → a.parentOf i = none ∧ a.sponsorOf i = none ∧
      a.childrenOf i = [] ∧ a.sponsoredOf i = []) ∧ (a.Live i → a.checkNode i = .ok ()) := by
    intro i
    by_cases hlt : i < a.nodes.length
    · exact ⟨(checkNode_eq_ok.mp (h i hlt)).1, fun _ => h i hlt⟩
    · refine ⟨fun _ => ?_, fun hl => absurd hl.lt hlt⟩
      simp only [parentOf, sponsorOf, childrenOf, sponsoredOf, nodeAt_of_le (Nat.le_of_not_lt hlt)]
      exact ⟨rfl, rfl, rfl, rfl⟩
  have hlive : ∀ i, (∀ t, a.parentOf i = some t → a.Live t) ∧ (∀ t, a.sponsorOf i = some t → a.Live t) ∧
      (∀ c ∈ a.childrenOf i, a.Live c) ∧ ∀ s ∈ a.sponsoredOf i, a.Live s := by
    intro i
    by_cases hi : a.Live i
    · exact ((checkNode_eq_ok.mp ((hnode i).2 hi)).2 hi).2
    · obtain ⟨h1, h2, h3, h4⟩ := (hnode i).1 hi
      simp only [h1, h2, h3, h4, not_mem_nil, reduceCtorEq, false_implies, implies_true, and_self]
  exact ⟨fun {i p} hp => (hlive i).1 p hp, fun {i s} hs => (hlive i).2.1 s hs,
    fun {i c} hc => (hlive i).2.2.1 c hc, fun {i s} hs => (hlive i).2.2.2 s hs⟩

theorem checkDepth_safe (h : a.EdgesLive) (i : NodeIndex) : Query.Safe (a.checkDepth i (a.nodeAt i)) := by
  unfold checkDepth
  split
  · exact safe_stopIf _
  · rename_i p hp
    rw [bind_ok (slot_ok (h.parent hp).lt)]
    exact safe_stopIf _

theorem checkReciprocal_safe {downField upField : Field} {down : Node → List NodeIndex}
    {up : Node → Option NodeIndex} (hdown : ∀ i, ∀ y ∈ down (a.nodeAt i), a.Live y) :
    Query.Safe (a.checkReciprocal downField upField down up) := by
  unfold checkReciprocal
  refine (forDistinct_safe fun x hx => ⟨safe_ok (), ?_⟩).bind fun _ _ => eachLive_safe fun i _ => ?_
  · obtain ⟨slot, target⟩ := x
    have hlive := hdown slot target (mem_edges.mp hx).2
    dsimp only
    rw [bind_ok (slot_ok hlive.lt)]
    exact safe_stopIf _
  · split
    · exact safe_ok ()
    · exact safe_stopIf _

/-- **The check ends, without a panic, on every arena there is.** -/
theorem validateRestored_safe (a : Arena) : Query.Safe a.validateRestored := by
  unfold validateRestored
  refine (lowestFault_safe (fun _ _ => safe_ok _) _ _).bind fun _ _ =>
    (safe_forM fun i _ => checkNode_safe i).bind fun _ hnode => ?_
  have hedges : a.EdgesLive := edgesLive_of_checkNode fun i hi => forM_eq_ok.mp hnode i (mem_range.mpr hi)
  refine (eachLive_safe fun i _ => checkDepth_safe hedges i).bind fun _ _ =>
    (forDistinct_safe fun i _ => ⟨checkFreeSlot_safe i, safe_ok ()⟩).bind fun _ _ =>
    checkRoot_safe.bind fun _ _ =>
    (checkReciprocal_safe fun i y hy => hedges.children hy).bind fun _ _ =>
    checkSingleRoot_safe.bind fun _ _ =>
    (checkReciprocal_safe fun i y hy => hedges.sponsored hy).bind fun _ _ => ?_
  exact chainsEnd_safe (fun _ _ _ hs => (hedges.sponsor hs).lt) _

end Restored

/-! ## 5. What an accepted arena promises -/

/-- **The shape of a tree**: one root from which the children lists lead to every live node once, each
    as far from the root as its depth says, with sponsor chains that end and no link to a dead slot. -/
structure Shaped (a : Arena) : Prop where
  empty : a.root = none → ∀ i, ¬ a.Live i
  reached : ∀ r, a.root = some r → ∃ order, bfsOrder a.childrenOf (a.nodes.length + 1) [r] = some order ∧
    order.Nodup ∧ ∀ i, i ∈ order ↔ a.Live i
  climbs : ∀ r i, a.root = some r → a.Live i →
    climb a.parentOf (a.nodeAt i).depth i = some r ∧ a.parentOf r = none
  ends : ∀ i, a.Live i → Ends a.sponsorOf i
  edges : a.EdgesLive

/-- **Every walk from a live node returns**, and meets live nodes only. -/
structure Walkable (a : Arena) : Prop where
  upline : ∀ i depth, a.Live i → ∃ l : List NodeIndex,
    (a.walkUpline i depth : Query TreeError _) = .ok (l.map a.nodeAt) ∧ ∀ j ∈ l, a.Live j
  sponsors : ∀ i depth, a.Live i → ∃ l : List NodeIndex,
    (a.walkSponsorUpline i depth : Query TreeError _) = .ok (l.map a.nodeAt) ∧ ∀ j ∈ l, a.Live j
  downline : ∀ i depth, a.Live i → ∃ l : List NodeIndex,
    (a.bfsDownline i depth : Query TreeError _) = .ok (l.map a.nodeAt) ∧
    (a.countDownline i depth : Query TreeError _) = .ok l.length ∧ ∀ j ∈ l, a.Live j
  branch : ∀ i position, a.Live i →
    (∃ l : List NodeIndex, a.getBranch i position = .ok (l.map a.nodeAt) ∧
      a.countBranch i position = .ok l.length ∧ ∀ j ∈ l, a.Live j) ∨
    ∃ e, a.getBranch i position = .error (.err e) ∧ a.countBranch i position = .error (.err e)
  subtree : ∀ i, a.Live i → ∃ l : List NodeIndex,
    (a.collectSubtree i : Query TreeError _) = .ok (l.map a.nodeAt) ∧ ∀ j ∈ l, a.Live j
  descendant : ∀ i j, a.Live i → ∃ b, (a.isDescendantOf i j : Query TreeError _) = .ok b

/-- **The arena's own mutations return**: recruits of live nodes are handed over, a slot is allocated
    and a live one is freed. -/
structure Mutable (a : Arena) : Prop where
  reparent : ∀ removed : List NodeIndex, (∀ i ∈ removed, a.Live i) →
    ∃ moved a', (reparentSponsored removed).run a = .ok moved a' ∧
      ∀ j, ¬ a.Live j → a'.nodeAt j = a.nodeAt j
  alloc : ∀ n : Node, ∃ k a', (allocSlot n : Call TreeError Arena NodeIndex).run a = .ok k a' ∧
    ¬ a.Live k ∧ a'.nodeAt k = n
  tombstone : ∀ i, a.Live i → ∃ a', (Arena.tombstone i : Call TreeError Arena Unit).run a = .ok () a' ∧
    ¬ a'.Live i

section Promises

variable {a : Arena}

theorem Valid.edgesLive (h : a.Valid) : a.EdgesLive where
  parent := h.live_parent
  sponsor := h.live_sponsor
  children := h.live_child
  sponsored hs := h.live_of_sponsor (h.recruited.mem_iff.mp hs)

theorem Valid.shaped (h : a.Valid) : a.Shaped where
  empty hr i hi := by
    obtain ⟨r, hroot, -⟩ := h.root_above hi
    cases hr.symm.trans hroot
  reached r hr := by
    have hlive := (h.root_live hr).1
    obtain ⟨order, ho, hnd, hmem, -⟩ := bfsOrder_single h.forest (Nat.le_succ _) fun x => h.below_lt hlive.lt
    refine ⟨order, ho, hnd, fun i => (hmem i).trans ⟨h.live_below hlive, fun hi => ?_⟩⟩
    obtain ⟨r', hr', hir⟩ := h.root_above hi
    cases hr.symm.trans hr'
    exact hir
  climbs r i hr hi := ⟨h.climb_depth hr hi rfl, h.root_parent hr⟩
  ends i _ := ranked_iff_ends.mp h.chains i
  edges := h.edgesLive

theorem Valid.walkable (h : a.Valid) : a.Walkable where
  upline i depth hi := h.walkUpline hi depth
  sponsors i depth hi := h.walkSponsorUpline hi depth
  downline i depth hi := by
    obtain ⟨l, hrun, hcount, -, hbelow, -⟩ := h.bfsDownline (ε := TreeError) hi depth
    exact ⟨l, hrun, hcount, fun j hj => h.live_below hi ((hbelow j).mp hj).1.to_reflTransGen⟩
  branch i position hi := by
    cases hc : (a.childrenOf i)[position]? with
    | none => exact .inr ⟨_, getBranch_none hi hc⟩
    | some c =>
      obtain ⟨l, hrun, hcount, -, hmem⟩ := h.getBranch_some hi hc
      have hcl := h.live_child (mem_of_getElem? hc)
      exact .inl ⟨l, hrun, hcount, fun j hj => h.live_below hcl ((hmem j).mp hj)⟩
  subtree i hi := by
    obtain ⟨l, hrun, -, hmem⟩ := h.collectSubtree (ε := TreeError) hi
    exact ⟨l, hrun, fun j hj => h.live_below hi ((hmem j).mp hj)⟩
  descendant i j hi := by
    obtain ⟨b, hb, -⟩ := h.isDescendantOf (ε := TreeError) hi j
    exact ⟨b, hb⟩

theorem Valid.reparentSponsored (h : a.Valid) {removed : List NodeIndex}
    (hl : ∀ i ∈ removed, a.Live i) : ∃ moved a', (reparentSponsored removed).run a = .ok moved a' ∧
      ∀ j, ¬ a.Live j → a'.nodeAt j = a.nodeAt j := by
  have hs := h.sponsorsOk
  have hmem : ∀ {i}, i ∈ firstSeen [] removed → a.Live i := fun hi => hl _ (mem_firstSeen.mp hi).1
  rw [reparentSponsored_firstSeen]
  obtain ⟨a', hrun, r⟩ := reparentSponsored_ok hs (nodup_firstSeen [] removed)
    (fun i hi => (hmem hi).lt) fun i _ j _ hj => h.recruited.mem_iff.mpr hj
  refine ⟨_, a', hrun, fun j hj => ?_⟩
  obtain ⟨-, hsp, -, hrc⟩ := h.cleared hj
  have hjg : j ∉ firstSeen [] removed := fun hi => hj (hmem hi)
  -- a dead slot has no sponsor to lose, and nobody is handed to it
  have hnone : movedTo a.sponsoredOf (a.survivor (firstSeen [] removed)) (firstSeen [] removed) j = [] :=
    flatMap_eq_nil_iff.mpr fun i _ => if_neg fun e => hj (h.live_sponsor_above (hs.contracts.above e))
  rw [r.nodeAt, if_neg hjg, if_neg hjg, hs.contracts.none hsp, hrc, hnone, ← hsp, append_nil, ← hrc]

theorem Valid.mutable (h : a.Valid) : a.Mutable where
  reparent removed hl := h.reparentSponsored hl
  alloc n := by
    obtain ⟨a', k, hrun, al⟩ := allocSlot_ok (ε := TreeError) h.free_freed h.free_nodup n
    exact ⟨k, a', hrun, al.fresh, by rw [al.nodeAt, if_pos rfl]⟩
  tombstone i hi := by
    have hfree : i ∉ a.freeList := fun hmem => (h.free_freed i hmem).2 hi
    refine ⟨a.buried i, tombstone_ok hi.lt hfree, fun hl => hl ?_⟩
    rw [nodeAt_buried hi.lt, if_pos rfl]
    rfl

end Promises

end Arena

/-- **Restoring an arena is sound.** The check ends without a panic on every arena whatsoever, and in one
    that it accepts the live nodes form one tree, every walk from a live node returns, and the arena's
    mutations do. -/
theorem restored_arena_is_sound (a : Arena) : Query.Safe a.validateRestored ∧
    (a.validateRestored = .ok () → a.Shaped ∧ a.Walkable ∧ a.Mutable) := by
  refine ⟨a.validateRestored_safe, fun h => ?_⟩
  have hv := validateRestored_iff.mp h
  exact ⟨hv.shaped, hv.walkable, hv.mutable⟩

/-- A root with one recruit below it. -/
def pairArena : Arena where
  nodes := [⟨1, none, [1], none, [1], 0, 0⟩, ⟨2, some 0, [], some 0, [], 1, 5⟩]
  index := (AList.singleton 2 1).insert 1 0
  freeList := []
  root := some 0

theorem restored_arena_is_sound_pair : pairArena.validateRestored = .ok () ∧
    (pairArena.Shaped ∧ pairArena.Walkable ∧ pairArena.Mutable) := by
  have h : pairArena.validateRestored = .ok () := by decide
  exact ⟨h, (restored_arena_is_sound pairArena).2 h⟩

end MlmForge.Engine
