/-
  Subject:   `recalculate_depths`: below a node whose own depth is set, every depth follows from the
             parent's.
-/
import MlmForge.Engine.MatrixWalk

namespace MlmForge.Engine

open Call List Arena

/-- `a'` is `a` up to depths. -/
structure Arena.Redepthed (a a' : Arena) : Prop where
  node : ∀ x, a'.nodeAt x = { a.nodeAt x with depth := (a'.nodeAt x).depth }
  index : a'.index = a.index
  free : a'.freeList = a.freeList
  root : a'.root = a.root
  length : a'.nodes.length = a.nodes.length

namespace Arena

variable {a b c : Arena}

theorem Redepthed.refl (a : Arena) : Redepthed a a :=
  ⟨fun _ => rfl, rfl, rfl, rfl, rfl⟩

theorem Redepthed.trans (h : Redepthed a b) (h' : Redepthed b c) : Redepthed a c where
  node x := by rw [h'.node, h.node]
  index := h'.index.trans h.index
  free := h'.free.trans h.free
  root := h'.root.trans h.root
  length := h'.length.trans h.length

theorem Redepthed.live_iff (h : Redepthed a b) {x : NodeIndex} : b.Live x ↔ a.Live x := by
  unfold Live
  rw [h.node]

theorem Redepthed.parentOf (h : Redepthed a b) : b.parentOf = a.parentOf :=
  funext fun x => by rw [Arena.parentOf, h.node, Arena.parentOf]

theorem Redepthed.childrenOf (h : Redepthed a b) : b.childrenOf = a.childrenOf :=
  funext fun x => by rw [Arena.childrenOf, h.node, Arena.childrenOf]

theorem Pruned.redepthed {gone : List NodeIndex} (p : Pruned a b gone) (h : Redepthed b c) :
    Pruned a c gone where
  live := p.live
  nodup := p.nodup
  userId j := by rw [h.node, p.userId]
  enrolledAt j hj := by rw [h.node, p.enrolledAt j hj]
  sponsorOf j := by rw [Arena.sponsorOf, h.node, ← p.sponsorOf, Arena.sponsorOf]
  sponsoredOf j := by rw [Arena.sponsoredOf, h.node, ← p.sponsoredOf, Arena.sponsoredOf]
  index u := by rw [h.index, p.index]
  free_sub i hi := p.free_sub i (h.free ▸ hi)
  free_nodup := h.free ▸ p.free_nodup
  length := h.length.trans p.length

theorem redepthed_upd {i : NodeIndex} (hi : i < a.nodes.length) (d : Nat) :
    Redepthed a (a.upd i fun n => { n with depth := d }) where
  node x := by
    rw [nodeAt_upd hi]
    split <;> rfl
  index := rfl
  free := rfl
  root := rfl
  length := length_upd _

end Arena

namespace MatrixTree

/-- The depth of every node. -/
def depths (t : MatrixTree) (x : NodeIndex) : Nat := (t.arena.nodeAt x).depth

/-- `s'` is `s` up to depths. -/
structure Redepthed (s s' : MatrixTree) : Prop where
  arena : Arena.Redepthed s.arena s'.arena
  rest : s' = { s with arena := s'.arena }

theorem Redepthed.refl (s : MatrixTree) : Redepthed s s := ⟨.refl _, rfl⟩

theorem Redepthed.trans {s s' s'' : MatrixTree} (h : Redepthed s s') (h' : Redepthed s' s'') :
    Redepthed s s'' where
  arena := h.arena.trans h'.arena
  rest := by rw [h'.rest, h.rest]

theorem setDepths_ok (d : Nat) : ∀ {kids : List NodeIndex} {s : MatrixTree}, (∀ c ∈ kids, s.arena.Live c) →
    ∃ s', (forM kids fun child => onArena (nodeMut child fun c => { c with depth := d })).run s =
        .ok () s' ∧ Redepthed s s' ∧
      ∀ x, s'.depths x = if x ∈ kids then d else s.depths x := by
  intro kids
  induction kids with
  | nil => exact fun _ => ⟨_, rfl, .refl _, fun _ => rfl⟩
  | cons c kids ih =>
    intro s hl
    have hc := hl c mem_cons_self
    have hstep := Arena.redepthed_upd hc.lt d
    let s1 : MatrixTree := { s with arena := s.arena.upd c fun n => { n with depth := d } }
    obtain ⟨s', hrun, hs', hd⟩ := @ih s1 fun x hx => hstep.live_iff.mpr (hl x (mem_cons_of_mem _ hx))
    refine ⟨s', ?_, Redepthed.trans ⟨hstep, rfl⟩ hs', fun x => ?_⟩
    · have hmut := nodeMut_ok (ε := TreeError) hc fun n => { n with depth := d }
      simp only [forM_cons, run_bind, onArena, run_zoom, hmut]
      exact hrun
    · rw [hd]
      by_cases hx : x ∈ kids
      · simp [hx]
      · by_cases hxc : x = c
        · subst hxc
          simp [hx, depths, s1, Arena.nodeAt_upd hc.lt]
        · simp [hx, hxc, depths, s1, Arena.nodeAt_upd hc.lt]

/-- The state after one step of `recalculateDepths` that finds a depth for the children. -/
def pushed (s : MatrixTree) (x : NodeIndex) : MatrixTree :=
  (forM (s.arena.childrenOf x) fun child =>
    onArena (nodeMut child fun c => { c with depth := s.depths x + 1 })).after s

section Push

variable {s : MatrixTree} {x : NodeIndex} (hl : ∀ c ∈ s.arena.childrenOf x, s.arena.Live c)

include hl

theorem pushed_ok : Redepthed s (s.pushed x) ∧
    ∀ j, (s.pushed x).depths j = if j ∈ s.arena.childrenOf x then s.depths x + 1 else s.depths j := by
  obtain ⟨s', hrun, hs'⟩ := setDepths_ok (s.depths x + 1) hl
  rw [pushed, Call.after, hrun]
  exact hs'

theorem pushDepth_ok [Build] (hx : s.arena.Live x)
    (hfit : ∀ c ∈ s.arena.childrenOf x, s.depths x + 1 < 2 ^ 32) :
    (pushDepth x).run s = .ok (s.arena.childrenOf x) (s.pushed x) := by
  obtain ⟨s', hrun, -⟩ := setDepths_ok (s.depths x + 1) hl
  have hloop : (forM (s.arena.childrenOf x) fun child => do
      let depth ← reads fun _ => deeper (s.depths x)
      onArena (nodeMut child fun c => { c with depth })).run s = .ok () s' := by
    rw [← hrun]
    cases hk : s.arena.childrenOf x with
    | nil => rfl
    | cons c _ =>
      simp only [deeper_ok (hfit c (hk ▸ mem_cons_self))]
      rfl
  rw [pushed, Call.after, hrun]
  unfold childrenOf depths at hloop
  simp only [pushDepth, run_bind, run_reads, node_ok hx, hloop, run_pure]

end Push

/-- The depths below `start` follow from that of its parent; nothing else has changed. -/
structure DepthsSet (s s' : MatrixTree) (start parent : NodeIndex) : Prop where
  redepthed : Redepthed s s'
  top : s'.depths start = s.depths parent + 1
  outside : ∀ x, ¬ Above s.arena.parentOf x start → s'.depths x = s.depths x
  below : ∀ x q, Above s.arena.parentOf q start → s.arena.parentOf x = some q →
    s'.depths x = s'.depths q + 1

/-- **`recalculateDepths` sets the depths below a node from the depth of its parent**, when they are
    all in range. -/
theorem recalculateDepths_ok [Build] {s : MatrixTree} {start parent : NodeIndex}
    (hF : Forest s.arena.childrenOf s.arena.parentOf) (hp : s.arena.parentOf start = some parent)
    (hl : ∀ x, Above s.arena.parentOf x start → s.arena.Live x) (hpl : s.arena.Live parent)
    (hfit : ∀ s', DepthsSet s s' start parent → ∀ x, Above s.arena.parentOf x start → s'.depths x < 2 ^ 32) :
    ∃ s', (recalculateDepths start).run s = .ok () s' ∧ DepthsSet s s' start parent := by
  have hstart := hl start .refl
  have hstep := Arena.redepthed_upd hstart.lt (s.depths parent + 1)
  let s1 : MatrixTree :=
    { s with arena := s.arena.upd start fun n => { n with depth := s.depths parent + 1 } }
  have h1 : Redepthed s s1 := ⟨hstep, rfl⟩
  have hd1 : ∀ x, s1.depths x = if x = start then s.depths parent + 1 else s.depths x := by
    intro x
    simp only [depths, s1, Arena.nodeAt_upd hstart.lt]
    split <;> rfl
  obtain ⟨order, ho, hnd, hbelow, hpair⟩ := bfsOrder_single hF (n := s1.arena.nodes.length + 1)
    (h1.arena.length ▸ Nat.le_succ _) fun x hx => (hl x hx).lt
  -- along the walk only depths change, so what it enqueues stays the same
  have hkids : ∀ m, ∀ x ∈ order, Redepthed s m → ∀ c ∈ m.arena.childrenOf x, m.arena.Live c := by
    intro m x hx hm c hc
    rw [hm.arena.childrenOf] at hc
    exact hm.arena.live_iff.mpr (hl c (.head (hF.mem_iff.mp hc) ((hbelow x).mp hx)))
  have hvisit : ∀ m, ∀ x ∈ order, Redepthed s m → Redepthed s (m.pushed x) ∧
      ∀ j, (m.pushed x).depths j = if s.arena.parentOf j = some x then m.depths x + 1 else m.depths j := by
    intro m x hx hm
    obtain ⟨hm', hd⟩ := pushed_ok (hkids m x hx hm)
    refine ⟨hm.trans hm', fun j => ?_⟩
    rw [hd, hm.arena.childrenOf]
    simp only [hF.mem_iff]
  have hself : ∀ x, s.arena.parentOf x ≠ some x := fun x hx => hF.ranked.ne hx rfl
  obtain ⟨hkeep, hpush⟩ := foldl_push depths (· + 1) hself h1 hnd hpair hvisit
  have hset : DepthsSet s (order.foldl pushed s1) start parent := by
    refine ⟨foldlRecOn order pushed h1 fun m hm x hx => (hvisit m x hx hm).1, ?_, fun x hx => ?_,
      fun x q hq hxq => hpush x q ((hbelow q).mpr hq) hxq⟩
    · rw [hkeep, hd1, if_pos rfl]
      intro x hx e
      rw [hp] at e
      cases e
      exact hF.ranked.irrefl start (.head' hp ((hbelow _).mp hx))
    · have hne : x ≠ start := fun e => hx (e ▸ .refl)
      rw [hkeep, hd1, if_neg hne]
      exact fun y hy hxy => hx (.head hxy ((hbelow y).mp hy))
  refine ⟨_, ?_, hset⟩
  have hrun := bfsEach_push depths (· + 1) hself pushDepth h1 hnd hpair hvisit
    (fun m x hx hm hlast => ?_) ho
  · have hup : (s.arena.nodeAt start).parent = some parent := hp
    have hdeep : deeper (ε := TreeError) (s.arena.nodeAt parent).depth = .ok (s.depths parent + 1) :=
      deeper_ok (hset.top ▸ hfit _ hset start .refl)
    simp only [recalculateDepths, run_bind, run_reads, node_ok hstart, hup,
      node_ok hpl, hdeep, onArena, run_zoom, nodeMut_ok hstart, run_get]
    exact hrun
  · have hx' := (hbelow x).mp hx
    rw [pushDepth_ok (hkids m x hx hm) (hm.arena.live_iff.mpr (hl x hx')) fun c hc => ?_,
      hm.arena.childrenOf]
    rw [hm.arena.childrenOf] at hc
    have hcx := hF.mem_iff.mp hc
    rw [hlast, ← hset.below c x hx' hcx]
    exact hfit _ hset c (.head hcx hx')

end MatrixTree

end MlmForge.Engine
