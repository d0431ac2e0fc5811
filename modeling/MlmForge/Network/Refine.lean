/-
  Subject:   The store refines the engine: what the engine reports of its changes, projected in order,
             keeps the active rows of a tree equal to its live nodes.

  * **`store_refines_engine`** -- it holds in every state that is reached.
-/
import MlmForge.Engine.Seating
import MlmForge.Network.Rows

namespace MlmForge.Network

open Engine MemoryTreeStore Call List Function Option Query Arena TreeInstance

/-! ## 1. Changes and runs -/

/-- What is asked of a tree. A matrix tree places by `placeAt`, or by spillover with `place`. -/
inductive Request where
  | addRoot (userId sponsorId : Uuid)
  | place (userId parentId sponsorId : Uuid) (position : Option Int)
  | placeAt (userId parentId sponsorId : Uuid) (position : Int)
  | remove (userId : Uuid) (pruningMode : Option PruningMode)
  deriving DecidableEq, Repr

/-- A request, the event that records it, and the clock when it is projected. -/
structure Change where
  eventId : Uuid
  request : Request
  enrolledAt : Time
  now : Time
  deriving DecidableEq, Repr

/-- Why a change is not projected. -/
inductive ProjectError where
  | parentNotFound (treeId userId : Uuid)
  | store (e : StoreError)
  deriving DecidableEq, Repr

namespace Change

/-- What the change asks of the engine. -/
def mutation (c : Change) : Mutation :=
  match c.request with
  | .addRoot u _ => .addRoot u c.enrolledAt.unix
  | .place u p s q => .addNode u p s q c.enrolledAt.unix
  | .placeAt u p s q => .addNodeAt u p s q c.enrolledAt.unix
  | .remove u mode => .removeNode u mode

/-- The row of a newcomer, one below the row of the parent that the engine gave them. -/
def placedRow (treeId : Uuid) (c : Change) (userId sponsorId : Uuid) (seat : Option Seat)
    (parent : TreeNodeRow) : TreeNodeRow where
  id := c.eventId
  treeId := treeId
  userId := userId
  parentId := seat.bind Seat.parent
  sponsorId := some sponsorId
  position := seat.bind Seat.position
  depth := parent.depth + 1
  enrolledAt := c.enrolledAt
  removedAt := none
  removedByEventId := none

def rootRow (treeId : Uuid) (c : Change) (userId sponsorId : Uuid) : TreeNodeRow where
  id := c.eventId
  treeId := treeId
  userId := userId
  parentId := none
  sponsorId := some sponsorId
  position := none
  depth := 0
  enrolledAt := c.enrolledAt
  removedAt := none
  removedByEventId := none

def projectPlacement (treeId : Uuid) (version : Nat) (c : Change) (userId sponsorId : Uuid)
    (seat : Option Seat) : Call ProjectError MemoryTreeStore Unit := do
  let parent ← reads fun s =>
    match (seat.bind Seat.parent).bind (s.getNode treeId) with
    | some row => .ok row
    | none => .error (.err (.parentNotFound treeId userId))
  Call.relay .store (projectInsert (c.placedRow treeId userId sponsorId seat parent) version)

/-- The projection of a change that led the engine to `t` and reported `out`. -/
def project (treeId : Uuid) (version : Nat) (c : Change) (t : TreeInstance) (out : Outcome) :
    Call ProjectError MemoryTreeStore Unit :=
  match c.request with
  | .addRoot u s => Call.relay .store (projectInsert (c.rootRow treeId u s) version)
  | .place u _ s _ => projectPlacement treeId version c u s (t.roster u)
  | .placeAt u _ s _ => projectPlacement treeId version c u s (t.roster u)
  | .remove _ _ => Call.relay .store
      (projectRemoval treeId (.of out) c.eventId version c.now)

end Change

/-- **A run**: changes that the engine accepts and the store projects, each with an event id of its
    own, at versions without a gap, while the slots can be counted. `ok` is what is known of every
    change, in the tree it meets. -/
inductive Reached (treeId : Uuid) (ok : TreeInstance → Change → Prop) :
    TreeInstance → MemoryTreeStore → Nat → Prop where
  | start {t : TreeInstance} (fresh : t.Fresh) : Reached treeId ok t newMemoryTreeStore 0
  | step {t t' : TreeInstance} {s s' : MemoryTreeStore} {n : Nat} {c : Change} {out : Outcome}
      (before : Reached treeId ok t s n) (room : t.arena.Roomy) (holds : ok t c)
      (accepted : (TreeInstance.mutate c.mutation).run t = .ok out t')
      (newId : ∀ row ∈ s.nodes, row.id ≠ c.eventId)
      (projected : (c.project treeId (n + 1) t' out).run s = .ok () s') :
      Reached treeId ok t' s' (n + 1)

/-- **Rows and nodes correspond**: every active row is a live node with the same seat, and every live
    node has one active row. -/
structure Corresponds (treeId : Uuid) (t : TreeInstance) (s : MemoryTreeStore) : Prop where
  unique : ((s.getByTree treeId).map TreeNodeRow.userId).Nodup
  row : ∀ n ∈ s.getByTree treeId, t.roster n.userId = some n.seat
  node : ∀ u seat, t.roster u = some seat → ∃ n ∈ s.getByTree treeId, n.userId = u ∧ n.seat = seat

/-- The state of a run, as its steps keep it. -/
structure Level (treeId : Uuid) (t : TreeInstance) (s : MemoryTreeStore) (n : Nat) : Prop where
  valid : t.Valid
  unique : (activeIn treeId).Unique s.nodes
  seats : s.seats treeId = t.roster
  version : (s.projectedVersion treeId).getD 0 = n

theorem Level.corresponds {treeId : Uuid} {t : TreeInstance} {s : MemoryTreeStore} {n : Nat}
    (h : Level treeId t s n) : Corresponds treeId t s where
  unique := by
    rw [getByTree, List.Nodup, pairwise_map, pairwise_filter]
    exact h.unique.imp fun hab ha hb => hab (by simpa using ha) (by simpa using hb)
  row n hn := by
    obtain ⟨hn, hl⟩ := mem_getByTree.mp hn
    rw [← h.seats]
    exact seats_of_mem h.unique hn hl
  node u seat hu := by
    rw [← h.seats] at hu
    obtain ⟨n, hn, hl, rfl, rfl⟩ := seats_eq_some hu
    exact ⟨n, mem_getByTree.mpr ⟨hn, hl⟩, rfl, rfl⟩

/-- **The one way a projection is refused**: a depth of the tree is out of the database's range. -/
def TooDeep (treeId : Uuid) (t : TreeInstance) (e : Stop ProjectError) : Prop :=
  ∃ op field u seat, t.roster u = some seat ∧ 2147483647 < seat.depth ∧
    e = .err (.store (.outsideInt4 op treeId field seat.depth))

/-! ## 2. One change -/

section Step

variable {treeId : Uuid} {t t' : TreeInstance} {s : MemoryTreeStore} {n : Nat}

theorem version_advance {st : MemoryTreeStore} (h : (st.projectedVersion treeId).getD 0 = n) :
    ((st.advance treeId (n + 1)).projectedVersion treeId).getD 0 = n + 1 := by
  rw [projectedVersion_advance (by omega)]
  rfl

variable {r : Roster} {u : Uuid} {seat : Seat}

theorem depth_nonneg {limit : Option Nat} (h : r.Sound limit) (hu : r u = some seat) : 0 ≤ seat.depth := by
  cases hp : seat.parent with
  | none => rw [(h.top hu hp).1]
  | some p =>
    obtain ⟨-, above, -, hd, h0⟩ := h.below hu hp
    omega

theorem position_fits (hv : t.Valid) (hu : t.roster u = some seat) {q : Int}
    (hq : seat.position = some q) : FitsInt4 q := by
  have hsound := hv.sound
  cases hl : t.limit with
  | none =>
    rw [hsound.unslotted hl hu] at hq
    cases hq
  | some m =>
    have hpar : seat.parent ≠ none := by
      intro e
      rw [(hsound.top hu e).2.1] at hq
      cases hq
    obtain ⟨k, hk, e⟩ := hsound.slotted hl hu hpar
    have := limit_lt hl
    rw [hq] at e
    cases e
    unfold FitsInt4
    omega

variable {node : TreeNodeRow}

theorem projectRow_spec (h : Level treeId t s n) (hv' : t'.Valid) (hfree : t.roster u = none)
    (hseats : t'.roster = update t.roster u (some seat)) (htree : node.treeId = treeId)
    (huser : node.userId = u) (hseat : node.seat = seat)
    (hroot : seat.depth = 0 → ∀ v, t.roster v = none) (hid : ∀ row ∈ s.nodes, row.id ≠ node.id) :
    (∃ s', (projectInsert node (n + 1)).run s = .ok () s' ∧ Level treeId t' s' (n + 1) ∧
      s'.nodes = s.nodes ++ [stored node] ∧ FitsInt4 seat.depth) ∨
    ∃ e, (projectInsert node (n + 1)).run s = .error e s ∧ TooDeep treeId t' (e.map .store) := by
  subst htree huser hseat
  have hsound := hv'.sound
  have hself : t'.roster node.userId = some node.seat := by simp [hseats]
  have hother : ∀ row ∈ s.nodes, (activeIn node.treeId).live row →
      row.userId ≠ node.userId ∧ t'.roster row.userId = some row.seat := by
    intro row hrow hl
    have hr : t.roster row.userId = some row.seat := by
      rw [← h.seats]
      exact seats_of_mem h.unique hrow hl
    have hne : row.userId ≠ node.userId := by
      intro e
      rw [e, hfree] at hr
      cases hr
    exact ⟨hne, by rw [hseats, update_of_ne hne, hr]⟩
  have hfreeRow : s.Free node := by
    intro row hrow hl
    obtain ⟨hne, hr⟩ := hother row hrow hl
    refine ⟨hne, fun hd => ?_, fun hs => ?_⟩
    · rw [hseats, update_of_ne hne, hroot hd.1] at hr
      cases hr
    · obtain ⟨hp, hq, hpn, hqn⟩ := hs
      obtain ⟨p, hp'⟩ := ne_none_iff_exists'.mp hpn
      obtain ⟨q, hq'⟩ := ne_none_iff_exists'.mp hqn
      exact hne (hsound.slot_unique hr hself (hp.trans hp') hp' (hq.trans hq') hq')
  have hver : (s.projectedVersion node.treeId).getD 0 ≤ n + 1 := by
    rw [h.version]
    omega
  by_cases hfit : ∀ f ∈ insertIntFields node, FitsInt4 f.2
  · refine .inl ⟨_, projectInsert_ok hver (by omega) hfit hid hfreeRow, ?_, nodes_advance _,
      hfit _ mem_cons_self⟩
    refine ⟨hv', ?_, ?_, version_advance h.version⟩
    · rw [nodes_advance]
      exact hfreeRow.unique h.unique
    · rw [seats_advance, hfreeRow.seats, hseats, h.seats]
  · obtain ⟨f, hf, hno, hrun⟩ := projectInsert_refused hver (by omega) hfit
    -- a position always fits, so it is the depth that does not
    have hdepth : f.2 = node.depth := by
      rcases mem_cons.mp hf with rfl | hf
      · rfl
      · obtain ⟨q, hq, rfl⟩ := mem_map.mp hf
        have hfits := position_fits hv' hself (mem_toList.mp hq)
        exact absurd hfits hno
    have h0 : 0 ≤ node.depth := depth_nonneg hsound hself
    refine .inr ⟨_, hrun, .projectInsert, f.1, node.userId, node.seat, hself, ?_, ?_⟩
    · show _ < node.depth
      rw [hdepth] at hno
      unfold FitsInt4 at hno
      omega
    · rw [hdepth]
      rfl

/-- A projection brings in no event id but its own. -/
def NewId (s s' : MemoryTreeStore) (eventId : Uuid) : Prop :=
  ∀ row ∈ s'.nodes, row.id = eventId ∨ ∃ old ∈ s.nodes, old.id = row.id

theorem newId_append {s' : MemoryTreeStore} {eventId : Uuid}
    (h : s'.nodes = s.nodes ++ [stored node]) (hid : node.id = eventId) : NewId s s' eventId := by
  intro row hrow
  rw [h] at hrow
  rcases mem_append.mp hrow with hrow | hrow
  · exact .inr ⟨row, hrow, rfl⟩
  · rw [mem_singleton.mp hrow]
    exact .inl hid

variable {c : Change}

theorem projectPlacement_spec (h : Level treeId t s n) (hv' : t'.Valid)
    (hseated : Seated t.roster t'.roster u seat) {sponsorId : Uuid}
    (hs : seat.sponsor = some sponsorId) (he : seat.enrolledAt = c.enrolledAt.unix)
    (hid : ∀ row ∈ s.nodes, row.id ≠ c.eventId) :
    (∃ s', (c.projectPlacement treeId (n + 1) u sponsorId (t'.roster u)).run s = .ok () s' ∧
      Level treeId t' s' (n + 1) ∧ NewId s s' c.eventId ∧ FitsInt4 seat.depth) ∨
    ∃ e, (c.projectPlacement treeId (n + 1) u sponsorId (t'.roster u)).run s = .error e s ∧
      TooDeep treeId t' e := by
  obtain ⟨p, above, hp, habove, hd⟩ := hseated.parent
  have hself : t'.roster u = some seat := by simp [hseated.seats]
  rw [← h.seats] at habove
  obtain ⟨parent, hget, rfl⟩ := map_eq_some_iff.mp habove
  have h0 : 0 ≤ parent.seat.depth := depth_nonneg h.valid.sound (h.seats ▸ habove)
  have hbind : ((t'.roster u).bind Seat.parent).bind (s.getNode treeId) = some parent := by
    rw [hself, bind_some, hp, bind_some, hget]
  have hrow : (c.placedRow treeId u sponsorId (t'.roster u) parent).seat = seat := by
    have hd : seat.depth = parent.depth + 1 := hd
    cases seat
    simp_all [TreeNodeRow.seat, Change.placedRow]
  have hzero : seat.depth = 0 → ∀ v, t.roster v = none := fun e => by omega
  rcases projectRow_spec h hv' hseated.free hseated.seats rfl rfl hrow hzero hid with
    ⟨s', hrun, hl, hnodes, hfit⟩ | ⟨e, hrun, hdeep⟩
  · exact .inl ⟨s', by simp only [Change.projectPlacement, run_bind, run_reads, hbind,
      run_relay, hrun], hl, newId_append hnodes rfl, hfit⟩
  · exact .inr ⟨_, by simp only [Change.projectPlacement, run_bind, run_reads, hbind, run_relay, hrun], hdeep⟩

theorem Change.seat_rootRow (treeId : Uuid) (c : Change) (u sponsorId : Uuid) :
    (c.rootRow treeId u sponsorId).seat = ⟨none, none, 0, none, c.enrolledAt.unix⟩ := rfl

variable {out : Outcome}

theorem depth_of_relocated (hrep : Report r out) {m : Relocation}
    (hm : m ∈ out.relocated) : ∃ seat, out.applyTo r m.userId = some seat ∧ seat.depth = m.depth := by
  obtain ⟨hstay, seat, hseat, -⟩ := hrep.relocated_mem m hm
  have hfind : out.relocated.find? (·.userId = m.userId) = some m := by
    obtain ⟨m', hm'⟩ : ∃ m', out.relocated.find? (·.userId = m.userId) = some m' :=
      isSome_iff_exists.mp (find?_isSome.mpr ⟨m, hm, decide_eq_true rfl⟩)
    have hu : m'.userId = m.userId := by simpa using find?_some hm'
    rw [hm', inj_on_of_nodup_map hrep.relocated_nodup (mem_of_find?_eq_some hm') hm hu]
  refine ⟨_, by rw [Outcome.applyTo, if_neg hstay, hseat, map_some], ?_⟩
  simp [Outcome.reseat, hfind]

theorem projectRemoval_spec (h : Level treeId t s n) (hv' : t'.Valid)
    (hrep : Report t.roster out) (hseats : t'.roster = out.applyTo t.roster) (eventId : Uuid) (now : Time) :
    (∃ s', (projectRemoval treeId (.of out) eventId (n + 1) now).run s = .ok () s' ∧
      Level treeId t' s' (n + 1) ∧ s'.nodes = s.nodes.map (afterRemoval treeId eventId now out)) ∨
    ∃ e, (projectRemoval treeId (.of out) eventId (n + 1) now).run s = .error e s ∧
      TooDeep treeId t' (e.map .store) := by
  have hver : (s.projectedVersion treeId).getD 0 ≤ n + 1 := by
    rw [h.version]
    omega
  rw [← h.seats] at hrep hseats
  by_cases hfit : ∀ f ∈ relocationIntFields (.of out), FitsInt4 f.2
  · have hsound : Roster.Sound t'.limit (out.applyTo (s.seats treeId)) := hseats ▸ hv'.sound
    refine .inl ⟨_, projectRemoval_ok h.unique hrep hsound.slot_unique hver (by omega) hfit eventId
      now, ?_, nodes_advance _⟩
    refine ⟨hv', ?_, ?_, version_advance h.version⟩
    · rw [nodes_advance]
      exact unique_afterRemoval h.unique eventId now out
    · rw [seats_advance, seats_afterRemoval h.unique hrep, hseats]
  · obtain ⟨f, hf, hno, hrun⟩ := projectRemoval_refused hrep.removed_ne hver (by omega) hfit eventId now
    obtain ⟨m, hm, hf⟩ := mem_flatMap.mp hf
    -- a position always fits, so it is the depth that does not
    have hdepth : f.2 = m.depth := by
      have hlt := m.position.toNat_lt
      simp only [mem_cons, not_mem_nil, or_false] at hf
      rcases hf with rfl | rfl
      · unfold FitsInt4 at hno
        omega
      · rfl
    obtain ⟨seat, hseat, hd⟩ := depth_of_relocated hrep hm
    refine .inr ⟨_, hrun, .projectRemoval, f.1, m.userId, seat, hseats ▸ hseat, ?_, ?_⟩
    · rw [hdepth] at hno
      unfold FitsInt4 at hno
      omega
    · rw [hd, ← hdepth]
      rfl

/-- **The projection of one change keeps rows and nodes level**, unless a depth is out of range. -/
theorem Change.project_spec (h : Level treeId t s n) (hroom : t.arena.Roomy)
    (hrun : (mutate c.mutation).run t = .ok out t') (hid : ∀ row ∈ s.nodes, row.id ≠ c.eventId) :
    (∃ s', (c.project treeId (n + 1) t' out).run s = .ok () s' ∧ Level treeId t' s' (n + 1) ∧
      NewId s s' c.eventId) ∨
    ∃ e, (c.project treeId (n + 1) t' out).run s = .error e s ∧ TooDeep treeId t' e := by
  obtain ⟨hv', -, heff⟩ := mutate_effect h.valid hroom hrun
  have drop : ∀ {P Q R S : MemoryTreeStore → Prop}, (∃ s', P s' ∧ Q s' ∧ R s' ∧ S s') →
      ∃ s', P s' ∧ Q s' ∧ R s' := fun h => by
    obtain ⟨s', hp, hq, hr, -⟩ := h
    exact ⟨s', hp, hq, hr⟩
  obtain ⟨eventId, request, enrolledAt, now⟩ := c
  cases request with
  | addRoot u sponsorId =>
    cases heff with
    | addRoot hu hempty hseats =>
      rcases projectRow_spec h hv' (hempty u) hseats rfl rfl
        (Change.seat_rootRow treeId ⟨eventId, .addRoot u sponsorId, enrolledAt, now⟩ u sponsorId)
        (fun _ => hempty) hid with
        ⟨s', hrun, hl, hnodes, -⟩ | ⟨e, hrun, hdeep⟩
      · exact .inl ⟨s', by simp only [Change.project, run_relay, hrun], hl, newId_append hnodes rfl⟩
      · exact .inr ⟨_, by simp only [Change.project, run_relay, hrun], hdeep⟩
  | place u p sponsorId q =>
    cases heff with
    | addNode hseated hs he _ =>
      exact (projectPlacement_spec h hv' hseated hs he hid).imp_left drop
  | placeAt u p sponsorId q =>
    cases heff with
    | addNodeAt hseated hs he _ _ =>
      exact (projectPlacement_spec h hv' hseated hs he hid).imp_left drop
  | remove u mode =>
    cases heff with
    | removeNode hrep hmem hseats =>
      rcases projectRemoval_spec h hv' hrep hseats eventId now with
        ⟨s', hrun, hl, hnodes⟩ | ⟨e, hrun, hdeep⟩
      · refine .inl ⟨s', by simp only [Change.project, run_relay, hrun], hl, fun row hrow => ?_⟩
        rw [hnodes] at hrow
        obtain ⟨old, hold, rfl⟩ := mem_map.mp hrow
        exact .inr ⟨old, hold, (id_afterRemoval treeId eventId now out old).symm⟩
      · exact .inr ⟨_, by simp only [Change.project, run_relay, hrun], hdeep⟩

end Step

/-! ## 3. Runs -/

section Run

variable {treeId : Uuid} {ok : TreeInstance → Change → Prop} {t : TreeInstance} {s : MemoryTreeStore}
  {n : Nat}

theorem level_start (h : t.Fresh) : Level treeId t newMemoryTreeStore 0 where
  valid := h.valid
  unique := List.Pairwise.nil
  seats := funext fun u => (h.roster u).symm
  version := rfl

/-- **Rows and nodes are level in every state that is reached.** -/
theorem Reached.level (h : Reached treeId ok t s n) : Level treeId t s n := by
  induction h with
  | start hfresh => exact level_start hfresh
  | step _ hroom _ haccepted hid hprojected ih =>
    rcases Change.project_spec ih hroom haccepted hid with ⟨s', hrun, hl, -⟩ | ⟨e, hrun, -⟩
    · cases hrun.symm.trans hprojected
      exact hl
    · cases hrun.symm.trans hprojected

end Run

/-- The states that a history goes through. -/
abbrev RunState := TreeInstance × MemoryTreeStore × Nat

/-- One change, when it is accepted and projected. -/
def runChange (treeId : Uuid) (c : Change) (x : RunState) : Option RunState :=
  if x.1.arena.Roomy ∧ ∀ row ∈ x.2.1.nodes, row.id ≠ c.eventId then
    match (TreeInstance.mutate c.mutation).run x.1 with
    | .error _ _ => none
    | .ok out t' =>
      match (c.project treeId (x.2.2 + 1) t' out).run x.2.1 with
      | .error _ _ => none
      | .ok _ s' => some (t', s', x.2.2 + 1)
  else none

def runChanges (treeId : Uuid) (cs : List Change) (x : RunState) : Option RunState :=
  cs.foldlM (fun x c => runChange treeId c x) x

section History

variable {treeId : Uuid} {ok : TreeInstance → Change → Prop} {x x' : RunState}

theorem runChange_eq_some {c : Change} (hrun : runChange treeId c x = some x') :
    x.1.arena.Roomy ∧ (∀ row ∈ x.2.1.nodes, row.id ≠ c.eventId) ∧
      ∃ out, (TreeInstance.mutate c.mutation).run x.1 = .ok out x'.1 ∧
        (c.project treeId (x.2.2 + 1) x'.1 out).run x.2.1 = .ok () x'.2.1 ∧ x'.2.2 = x.2.2 + 1 := by
  unfold runChange at hrun
  split at hrun
  · rename_i hid
    split at hrun
    · cases hrun
    · rename_i out t' haccepted
      split at hrun
      · cases hrun
      · rename_i s' hprojected
        cases hrun
        exact ⟨hid.1, hid.2, out, haccepted, hprojected, rfl⟩
  · cases hrun

theorem Reached.runChange {c : Change} (h : Reached treeId ok x.1 x.2.1 x.2.2) (hok : ok x.1 c)
    (hrun : runChange treeId c x = some x') : Reached treeId ok x'.1 x'.2.1 x'.2.2 := by
  obtain ⟨hroom, hid, out, haccepted, hprojected, hn⟩ := runChange_eq_some hrun
  rw [hn]
  exact .step h hroom hok haccepted hid hprojected

theorem Reached.runChanges {cs : List Change} (hok : ∀ c ∈ cs, ∀ t s n, Reached treeId ok t s n → ok t c)
    (h : Reached treeId ok x.1 x.2.1 x.2.2) (hrun : runChanges treeId cs x = some x') :
    Reached treeId ok x'.1 x'.2.1 x'.2.2 := by
  induction cs generalizing x with
  | nil =>
    cases hrun
    exact h
  | cons c cs ih =>
    obtain ⟨y, hy, hrun⟩ := bind_eq_some_iff.mp hrun
    have hnext := h.runChange (hok c mem_cons_self _ _ _ h) hy
    exact ih (fun c' hc' => hok c' (mem_cons_of_mem c hc')) hnext hrun

end History

def emptyMatrix : TreeInstance := .matrix ⟨Arena.new, 2, .breadthFirst, ∅, []⟩

theorem emptyMatrix_fresh : emptyMatrix.Fresh := ⟨2, .breadthFirst, rfl⟩

section Run

variable {treeId : Uuid} {t : TreeInstance} {s : MemoryTreeStore} {n : Nat}

/-- **The store refines the engine.** In every state that accepted changes lead to, the active rows are
    the live nodes; and the next change that the engine accepts is projected and keeps them so, unless a
    depth of the tree has grown out of the range of the database's integers, which the store refuses. -/
theorem store_refines_engine (h : Reached treeId (fun _ _ => True) t s n) : Corresponds treeId t s ∧
    ∀ (c : Change) (out : Outcome) (t' : TreeInstance), t.arena.Roomy → (mutate c.mutation).run t = .ok out t' →
      (∀ row ∈ s.nodes, row.id ≠ c.eventId) →
      (∃ s', (c.project treeId (n + 1) t' out).run s = .ok () s' ∧ Corresponds treeId t' s') ∨
      ∃ e, (c.project treeId (n + 1) t' out).run s = .error e s ∧ TooDeep treeId t' e := by
  refine ⟨h.level.corresponds, fun c out t' hroom hrun hid => ?_⟩
  rcases Change.project_spec h.level hroom hrun hid with ⟨s', hproj, hl, -⟩ | hdeep
  · exact .inl ⟨s', hproj, hl.corresponds⟩
  · exact .inr hdeep

/-- The second member holds the third and the fourth, whom the third recruited. When the second leaves,
    the third is promoted, and the fourth moves below it. -/
def siblings : List Change :=
  [⟨101, .addRoot 1 1, 0, 0⟩, ⟨102, .placeAt 2 1 1 0, 0, 0⟩, ⟨103, .placeAt 3 2 1 0, 0, 0⟩,
    ⟨104, .placeAt 4 2 3 1, 10000000000, 0⟩]

def siblingLeave : Change := ⟨105, .remove 2 (some .promoteEarliest), 0, 0⟩

def siblingNext : Change := ⟨106, .placeAt 5 4 1 0, 20, 0⟩

/-- After the promotion the store has moved the row of the fourth, and a fifth is placed below it. -/
theorem store_refines_engine_promotion : ∃ t s n t' s', Reached 7 (fun _ _ => True) t s n ∧
    t.roster 2 = none ∧ (s.getNode 7 4).map (fun row => (row.parentId, row.depth)) = some (some 3, 2) ∧
    Corresponds 7 t s ∧ (mutate siblingNext.mutation).run t = .ok .quiet t' ∧
    (siblingNext.project 7 (n + 1) t' .quiet).run s = .ok () s' ∧
    Corresponds 7 t' s' := by
  have hfacts : ((runChanges 7 (siblings ++ [siblingLeave]) (emptyMatrix, newMemoryTreeStore, 0)).bind fun x =>
      (runChange 7 siblingNext x).map fun _ => (x.1.roster 2,
        (x.2.1.getNode 7 4).map fun row => (row.parentId, row.depth))) = some (none, some (some 3, 2)) := by
    decide +kernel
  obtain ⟨x, hrun, hfacts⟩ := bind_eq_some_iff.mp hfacts
  obtain ⟨y, hnext, hfacts⟩ := map_eq_some_iff.mp hfacts
  obtain ⟨hgone, hrow⟩ := Prod.mk.inj hfacts
  have hreached : Reached 7 (fun _ _ => True) x.1 x.2.1 x.2.2 :=
    Reached.runChanges (fun _ _ _ _ _ _ => trivial) (.start emptyMatrix_fresh) hrun
  obtain ⟨hroom, hid, out, haccepted, hprojected, -⟩ := runChange_eq_some hnext
  obtain ⟨hcorr, hstep⟩ := store_refines_engine hreached
  obtain ⟨-, -, heff⟩ := mutate_effect hreached.level.valid hroom haccepted
  obtain rfl : out = .quiet := by
    generalize hmu : siblingNext.mutation = mu at heff
    cases heff <;> first | rfl | cases hmu
  rcases hstep _ _ _ hroom haccepted hid with ⟨s', hproj, hcorr'⟩ | ⟨e, hproj, -⟩
  · exact ⟨_, _, _, _, s', hreached, hgone, hrow, hcorr, haccepted, hproj, hcorr'⟩
  · cases hprojected.symm.trans hproj

end Run

/-! ## 4. A tree that grows too deep -/

section Chain

/-- The change that lengthens the line. -/
def lineChange (k : Nat) : Change :=
  ⟨lineUser k, if k = 0 then .addRoot (lineUser 0) (lineUser 0)
    else .place (lineUser k) (lineUser (k - 1)) (lineUser 0) none, 0, 0⟩

/-- Everybody but the first is placed below the one before, and sponsored by the first. -/
structure Strung (d : Nat) (r : Roster) : Prop where
  placed : ∀ k < d, ∃ seat, r (lineUser (k + 1)) = some seat ∧ seat.parent = some (lineUser k) ∧
    seat.sponsor = some (lineUser 0)
  only : ∀ u seat, r u = some seat → seat.sponsor = none ∨ ∃ k < d, u = lineUser (k + 1)

/-- A run that has placed a line of `d + 1` users. -/
structure Line (d : Nat) (t : UnilevelTree) (s : MemoryTreeStore) : Prop where
  reached : Reached 7 (fun _ _ => True) (.unilevel t) s (d + 1)
  lined : ∃ p, Lined d t.arena p
  strung : Strung d t.roster
  ids : ∀ row ∈ s.nodes, ∃ k < d + 1, row.id = lineUser k

variable {d : Nat} {t t' : UnilevelTree} {s : MemoryTreeStore}

theorem lineChange_new (hids : ∀ row ∈ s.nodes, ∃ k < d, row.id = lineUser k) (hd : d ≤ 2 ^ 32) :
    ∀ row ∈ s.nodes, row.id ≠ (lineChange d).eventId := by
  intro row hrow e
  obtain ⟨k, hk, hrk⟩ := hids row hrow
  have := lineUser_inj (by omega) hd (hrk.symm.trans e)
  omega

theorem reached_line (h : Reached 7 (fun _ _ => True) (.unilevel t) s d) (hroom : t.arena.Roomy)
    (hids : ∀ row ∈ s.nodes, ∃ k < d, row.id = lineUser k)
    (hrun : (mutate (lineChange d).mutation).run (.unilevel t) = .ok .quiet (.unilevel t'))
    (hl : ∃ p, Lined d t'.arena p) (hd : d ≤ 2147483647) :
    ∃ s', Reached 7 (fun _ _ => True) (.unilevel t') s' (d + 1) ∧
      ∀ row ∈ s'.nodes, ∃ k < d + 1, row.id = lineUser k := by
  have hid := lineChange_new hids (by omega)
  rcases Change.project_spec h.level hroom hrun hid with ⟨s', hproj, -, hnew⟩ | ⟨e, -, hdeep⟩
  · refine ⟨s', .step h hroom trivial hrun hid hproj, fun row hrow => ?_⟩
    rcases hnew row hrow with e | ⟨old, hold, e⟩
    · exact ⟨d, Nat.lt_succ_self d, e⟩
    · obtain ⟨k, hk, hrk⟩ := hids old hold
      exact ⟨k, by omega, e.symm.trans hrk⟩
  · obtain ⟨p, hl⟩ := hl
    obtain ⟨op, field, u, seat, hu, hdeep, -⟩ := hdeep
    obtain ⟨i, hi, -, rfl⟩ := hl.valid.roster_eq_some.mp hu
    have hlt : (t'.arena.nodeAt i).depth < d + 1 := Nat.lt_of_lt_of_le (hl.valid.depth_lt hi) hl.slots
    have hdeep : (2147483647 : Int) < (t'.arena.nodeAt i).depth := hdeep
    omega

theorem exists_line_zero : ∃ t s, Line 0 t s := by
  have hv : UnilevelTree.new.arena.Valid := new_valid
  have hc : UnilevelTree.new.checkAddRoot (lineUser 0) = .ok () :=
    checkAddRoot_eq_ok.mpr ⟨lineUser_ne_nil (Nat.zero_le _), rfl, rfl⟩
  obtain ⟨k, t, hrun, g, hv'⟩ := UnilevelTree.addRoot_spec hv hc (0 : Time).unix
  have hl := lined_root g hv'
  have hrun' : (mutate (lineChange 0).mutation).run (.unilevel .new) = .ok .quiet (.unilevel t) :=
    within_ok (run_served hrun fun _ => .quiet)
  obtain ⟨s, hreached, hids⟩ := reached_line (.start (t := unilevel .new) rfl) (by decide)
    (fun _ hrow => absurd hrow not_mem_nil) hrun' ⟨k, hl⟩ (Nat.zero_le _)
  refine ⟨t, s, hreached, ⟨k, hl⟩, ⟨fun k hk => absurd hk k.not_lt_zero, fun u seat hu => .inl ?_⟩, hids⟩
  obtain ⟨i, hi, -, rfl⟩ := hv'.roster_eq_some.mp hu
  have hik : i = k := by
    by_contra hne
    rw [Live, g.userId, if_neg hne] at hi
    exact hi rfl
  simp [seatAt, g.sponsorOf, hik, Node.leaf]

theorem Line.accepts (h : Line d t s) (hd : d + 1 < 2 ^ 32) : ∃ t' seat,
    (mutate (lineChange (d + 1)).mutation).run (.unilevel t) = .ok .quiet (.unilevel t') ∧
      (∃ p, Lined (d + 1) t'.arena p) ∧ t.arena.Roomy ∧
      Seated t.roster t'.roster (lineUser (d + 1)) seat ∧ seat.depth = d + 1 ∧
      seat.parent = some (lineUser d) ∧ seat.sponsor = some (lineUser 0) ∧
      seat.enrolledAt = (0 : Time).unix := by
  obtain ⟨p, hl⟩ := h.lined
  have hnew := hl.rest (d + 1) (Nat.lt_succ_self d) hd.le
  have hu := lineUser_ne_nil hd.le
  have hroom : t.arena.Roomy := Nat.lt_of_le_of_lt hl.slots hd
  obtain ⟨k, t', p', r', hp, hr', hrun, g, hv⟩ := UnilevelTree.addNode_spec hl.valid
    (hl.check (by omega)) (fun _ hp => hl.valid.depth_succ_lt hroom (hl.valid.live_of_lookup hp)) (0 : Time).unix
  cases hl.last.symm.trans hp
  exact ⟨t', _, within_ok (run_served hrun _), ⟨k, hl.grown (by omega) g hv⟩, hroom,
    g.seated hl.valid hu hnew hp hr' fun _ _ => rfl, by simp [hl.depth], rfl, rfl, rfl⟩

/-- A line whose next place is in range is lengthened. -/
theorem Line.extend (h : Line d t s) (hd : d + 1 ≤ 2147483647) : ∃ t' s', Line (d + 1) t' s' := by
  obtain ⟨t', seat, hrun, hl, hroom, hseated, -, hparent, hs, -⟩ := h.accepts (by omega)
  obtain ⟨s', hreached, hids⟩ := reached_line h.reached hroom h.ids hrun hl hd
  refine ⟨t', s', hreached, hl, ⟨fun k hk => ?_, fun u seat' hu => ?_⟩, hids⟩
  · rw [hseated.seats]
    rcases Nat.lt_succ_iff_lt_or_eq.mp hk with hlt | rfl
    · obtain ⟨seat', hseat', hup⟩ := h.strung.placed k hlt
      refine ⟨seat', ?_, hup⟩
      rw [update_of_ne, hseat']
      intro e
      have := lineUser_inj (by omega) (by omega) e
      omega
    · exact ⟨seat, update_self _ _ _, hparent, hs⟩
  · rw [hseated.seats, update_apply] at hu
    split at hu
    · rename_i e
      exact .inr ⟨d, Nat.lt_succ_self d, e⟩
    · exact (h.strung.only u seat' hu).imp_right fun ⟨k, hk, e⟩ => ⟨k, by omega, e⟩

theorem exists_line (d : Nat) (hd : d ≤ 2147483647) : ∃ t s, Line d t s := by
  induction d with
  | zero => exact exists_line_zero
  | succ d ih =>
    obtain ⟨t, s, h⟩ := ih (by omega)
    exact h.extend hd

/-- **A line of 2^31 users**: the engine places one more, and the store refuses the depth of the row. -/
theorem too_deep_to_project : ∃ (t t' : TreeInstance) (s : MemoryTreeStore) (n : Nat) (c : Change)
    (out : Outcome), Reached 7 (fun _ _ => True) t s n ∧ t.arena.Roomy ∧
      (mutate c.mutation).run t = .ok out t' ∧
      (∀ row ∈ s.nodes, row.id ≠ c.eventId) ∧ ∃ e, (c.project 7 (n + 1) t' out).run s = .error e s := by
  obtain ⟨t, s, h⟩ := exists_line 2147483647 (le_refl _)
  obtain ⟨t', seat, hrun, ⟨p, hl⟩, hroom, hseated, hdepth, -, hs, he⟩ := h.accepts (by omega)
  have hid := lineChange_new h.ids (by omega)
  refine ⟨_, _, s, _, _, _, h.reached, hroom, hrun, hid, ?_⟩
  have hv' : (unilevel t').Valid := hl.valid
  rcases projectPlacement_spec h.reached.level hv' hseated hs he hid with
    ⟨s', -, -, -, hfit⟩ | ⟨e, hrun, -⟩
  · unfold FitsInt4 at hfit
    omega
  · exact ⟨e, hrun⟩

end Chain

end MlmForge.Network
