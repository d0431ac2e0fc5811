/-
  Subject:   What the writes of the store do to the seats that its active rows describe.

  * **`projectInsert_ok`** -- an insert that meets no other row adds one seat;
  * **`projectRemoval_ok`** -- the projection of a report that fits the seats is accepted, and
    changes them as the report says.
-/
import MlmForge.Network.Store

namespace MlmForge.Network

open Engine Call List Query Keying Function Option

/-! ## 1. Seats -/

/-- The seat of a row. The root's row names a sponsor that the engine does not have. -/
def TreeNodeRow.seat (n : TreeNodeRow) : Seat where
  parent := n.parentId
  position := n.position
  depth := n.depth
  sponsor := if n.parentId = none then none else n.sponsorId
  enrolledAt := n.enrolledAt.unix

namespace MemoryTreeStore

/-- The seats of a tree, as the store has them. -/
def seats (s : MemoryTreeStore) (treeId : Uuid) : Roster := fun u =>
  (s.getNode treeId u).map TreeNodeRow.seat

section Reads

variable {s : MemoryTreeStore} {treeId u : Uuid} {n : TreeNodeRow}

theorem live_iff : (activeIn treeId).live n = true ↔ n.treeId = treeId ∧ n.removedAt = none := by
  simp [activeIn]

theorem mem_getByTree : n ∈ s.getByTree treeId ↔ n ∈ s.nodes ∧ (activeIn treeId).live n := by
  simp [getByTree]

theorem seats_of_mem (hu : (activeIn treeId).Unique s.nodes) (hn : n ∈ s.nodes)
    (hl : (activeIn treeId).live n) : s.seats treeId n.userId = some n.seat := by
  rw [seats, getNode, show n.userId = (activeIn treeId).key n from rfl, hu.find_of_mem hn hl]
  rfl

theorem seats_eq_some {seat : Seat} (h : s.seats treeId u = some seat) :
    ∃ n ∈ s.nodes, (activeIn treeId).live n ∧ n.userId = u ∧ n.seat = seat := by
  obtain ⟨n, hn, rfl⟩ := map_eq_some_iff.mp h
  obtain ⟨hm, hl, hk⟩ := mem_of_find hn
  exact ⟨n, hm, hl, hk, rfl⟩

theorem seats_eq_none : s.seats treeId u = none ↔ ∀ n ∈ s.nodes, (activeIn treeId).live n → n.userId ≠ u := by
  rw [seats, map_eq_none_iff]
  exact find_eq_none

@[simp] theorem seats_advance (v : Nat) : (s.advance treeId v).seats treeId = s.seats treeId := by
  unfold advance
  split <;> rfl

@[simp] theorem nodes_advance (v : Nat) : (s.advance treeId v).nodes = s.nodes := by
  unfold advance
  split <;> rfl

theorem projectedVersion_advance {v : Nat} (h : (s.projectedVersion treeId).getD 0 < v) :
    (s.advance treeId v).projectedVersion treeId = some v := by
  rw [advance, if_pos h]
  exact AList.lookup_insert _

theorem refuseBelow_eq_ok {v : Nat} : s.refuseBelow treeId v = .ok () ↔
    1 ≤ v ∧ (s.projectedVersion treeId).getD 0 ≤ v := by
  simp [refuseBelow, checkEventVersion, seq_eq_ok]
  omega

end Reads

/-! ## 2. Inserts -/

/-- A row as the store keeps it. -/
def stored (node : TreeNodeRow) : TreeNodeRow :=
  { node with removedAt := none, removedByEventId := none, enrolledAt := node.enrolledAt.truncate }

/-- No active row of the tree stands in the way of a new one. -/
def Free (s : MemoryTreeStore) (node : TreeNodeRow) : Prop :=
  ∀ n ∈ s.nodes, (activeIn node.treeId).live n → n.userId ≠ node.userId ∧
    ¬ (node.depth = 0 ∧ n.depth = 0) ∧
    ¬ (n.parentId = node.parentId ∧ n.position = node.position ∧ node.parentId ≠ none ∧
      node.position ≠ none)

theorem conflict_eq_none {node n : TreeNodeRow} (h : (activeIn node.treeId).live n → n.userId ≠ node.userId ∧
      ¬ (node.depth = 0 ∧ n.depth = 0) ∧
      ¬ (n.parentId = node.parentId ∧ n.position = node.position ∧ node.parentId ≠ none ∧
        node.position ≠ none)) : conflict node n = none := by
  unfold conflict
  by_cases hl : (activeIn node.treeId).live n
  · obtain ⟨hu, hd, hs⟩ := h hl
    obtain ⟨ht, hr⟩ := live_iff.mp hl
    rw [if_neg (by simp [ht, hr]), if_neg hu, if_neg hd]
    split
    · rename_i p q hp hq
      refine if_neg fun hn => hs ⟨hn.1.trans hp.symm, hn.2.trans hq.symm, ?_, ?_⟩
      · rw [hp]; nofun
      · rw [hq]; nofun
    · rfl
  · rw [if_pos]
    by_contra hne
    exact hl (live_iff.mpr (by simpa [and_comm] using hne))

section Insert

variable {s : MemoryTreeStore} {node : TreeNodeRow} {v : Nat}

variable {treeId : Uuid} {fields : List (IntField × Int)}

theorem refuseNonInt4_eq_ok {op : StoreOp} :
    refuseNonInt4 op treeId fields = .ok () ↔ ∀ f ∈ fields, FitsInt4 f.2 := by
  simp [refuseNonInt4, forM_eq_ok]

theorem refuseNonInt4_error (op : StoreOp) (treeId : Uuid)
    (h : ¬ ∀ f ∈ fields, FitsInt4 f.2) : ∃ f ∈ fields, ¬ FitsInt4 f.2 ∧
      refuseNonInt4 op treeId fields = .error (.err (.outsideInt4 op treeId f.1 f.2)) := by
  cases hc : refuseNonInt4 op treeId fields with
  | ok _ => exact absurd (refuseNonInt4_eq_ok.mp hc) h
  | error e =>
    obtain ⟨f, hf, he⟩ := exists_of_forM_error hc
    obtain ⟨hno, rfl⟩ := stopIf_eq_error.mp he
    exact ⟨f, hf, hno, rfl⟩

theorem checkEventVersion_eq_ok {v : Nat} (h : 1 ≤ v) : checkEventVersion treeId v = .ok () := by
  rw [checkEventVersion, stopIf_eq_ok]
  omega

/-- **An insert that meets no other row appends it.** -/
theorem projectInsert_ok (hver : (s.projectedVersion node.treeId).getD 0 ≤ v) (hpos : 1 ≤ v)
    (hfit : ∀ f ∈ insertIntFields node, FitsInt4 f.2) (hid : ∀ n ∈ s.nodes, n.id ≠ node.id)
    (hfree : s.Free node) : (projectInsert node v).run s =
      .ok () (({ s with nodes := s.nodes ++ [stored node] } : MemoryTreeStore).advance node.treeId v) := by
  have h1 : checkEventVersion node.treeId v = .ok () := checkEventVersion_eq_ok hpos
  have h2 := refuseBelow_eq_ok.mpr ⟨hpos, hver⟩
  have h3 : refuseNonInt4 .projectInsert node.treeId (insertIntFields node) = .ok () :=
    refuseNonInt4_eq_ok.mpr hfit
  have h4 : ¬ ∃ n ∈ s.nodes, n.id = node.id := by
    push Not
    exact hid
  have h5 : s.nodes.findSome? (conflict (stored node)) = none :=
    findSome?_eq_none_iff.mpr fun n hn => conflict_eq_none (hfree n hn)
  unfold stored at h5
  simp only [projectInsert, insertNodeAt, run_bind, run_reads, h1, h2, h3, h5,
    stopIf, h4, if_false, run_modify]
  rfl

theorem projectInsert_refused (hver : (s.projectedVersion node.treeId).getD 0 ≤ v) (hpos : 1 ≤ v)
    (hfit : ¬ ∀ f ∈ insertIntFields node, FitsInt4 f.2) :
    ∃ f ∈ insertIntFields node, ¬ FitsInt4 f.2 ∧ (projectInsert node v).run s =
      .error (.err (.outsideInt4 .projectInsert node.treeId f.1 f.2)) s := by
  obtain ⟨f, hf, hno, h3⟩ := refuseNonInt4_error .projectInsert node.treeId hfit
  refine ⟨f, hf, hno, ?_⟩
  simp only [projectInsert, run_bind, run_reads, checkEventVersion_eq_ok hpos,
    refuseBelow_eq_ok.mpr ⟨hpos, hver⟩, h3]

theorem seat_stored : (stored node).seat = node.seat := by
  unfold stored TreeNodeRow.seat
  rw [Time.unix_truncate]

theorem Free.unique (hu : (activeIn node.treeId).Unique s.nodes) (hfree : s.Free node) :
    (activeIn node.treeId).Unique (s.nodes ++ [stored node]) := by
  refine pairwise_append.mpr ⟨hu, pairwise_singleton _ _, fun a ha b hb hla _ => ?_⟩
  rw [mem_singleton.mp hb]
  exact (hfree a ha hla).1

theorem Free.seats (hfree : s.Free node) :
    ({ s with nodes := s.nodes ++ [stored node] } : MemoryTreeStore).seats node.treeId =
      update (s.seats node.treeId) node.userId (some node.seat) := by
  funext u
  rw [update_apply]
  unfold MemoryTreeStore.seats getNode Keying.find
  rw [find?_append]
  by_cases hu : u = node.userId
  · have hnone : s.nodes.find? ((activeIn node.treeId).has u) = none := by
      rw [find?_eq_none]
      intro n hn hk
      obtain ⟨hl, e⟩ := has_eq_true.mp hk
      exact (hfree n hn hl).1 (Eq.trans e hu)
    have hself : (activeIn node.treeId).has u (stored node) = true :=
      has_eq_true.mpr ⟨live_iff.mpr ⟨rfl, rfl⟩, hu.symm⟩
    rw [if_pos hu, hnone, find?_cons, hself]
    simp [seat_stored]
  · have hself : (activeIn node.treeId).has u (stored node) = false := by
      rw [Bool.eq_false_iff]
      intro hk
      exact hu (has_eq_true.mp hk).2.symm
    rw [if_neg hu, find?_cons, hself, find?_nil, or_none]

end Insert

/-! ## 3. Removals -/

section Slots

variable {treeId : Uuid}

theorem checkActiveSlots_ok {rows : List TreeNodeRow} {held : List ((Uuid × Int) × Uuid)}
    (hrows : rows.Pairwise fun a b => (activeIn treeId).live a → (activeIn treeId).live b →
      ∀ {p q}, a.parentId = some p → a.position = some q → b.parentId = some p → b.position ≠ some q)
    (hheld : ∀ n ∈ rows, (activeIn treeId).live n → ∀ {p q}, n.parentId = some p →
      n.position = some q → held.lookup (p, q) = none) : checkActiveSlots treeId rows held = .ok () := by
  induction rows generalizing held with
  | nil => rfl
  | cons n rows ih =>
    obtain ⟨hn, hrows⟩ := pairwise_cons.mp hrows
    unfold checkActiveSlots
    split
    · rename_i p q hl hp hq
      rw [hheld n mem_cons_self hl hp hq]
      refine ih hrows fun b hb hlb {p' q'} hp' hq' => ?_
      rw [lookup_cons]
      have hne : ((p', q') == (p, q)) = false := by
        rw [beq_eq_false_iff_ne]
        intro e
        cases e
        exact hn b hb hl hlb hp hq hp' hq'
      rw [hne]
      exact hheld b (mem_cons_of_mem _ hb) hlb hp' hq'
    · exact ih hrows fun b hb => hheld b (mem_cons_of_mem _ hb)

end Slots

section Removal

variable {s : MemoryTreeStore} {treeId eventId : Uuid} {out : Outcome} {now : Time}
  {n : TreeNodeRow}

/-- The row of a user who leaves. -/
def leave (treeId eventId : Uuid) (now : Time) (users : List Uuid) (n : TreeNodeRow) : TreeNodeRow :=
  (activeIn treeId).patched id (fun _ => tombstone now eventId) users n

variable {users : List Uuid}

theorem leave_of_not_mem (h : n.userId ∉ users) : leave treeId eventId now users n = n := by
  refine patched_eq_self fun m hm e => h ?_
  have e : m = n.userId := e
  exact e ▸ hm

theorem live_leave : (activeIn treeId).live (leave treeId eventId now users n) ↔
      (activeIn treeId).live n ∧ n.userId ∉ users := by
  by_cases hu : n.userId ∈ users
  · by_cases hl : (activeIn treeId).live n
    · obtain ⟨m, hm⟩ : ∃ m, (users.find? fun m => id m = (activeIn treeId).key n) = some m :=
        isSome_iff_exists.mp (find?_isSome.mpr ⟨n.userId, hu, decide_eq_true rfl⟩)
      have e : leave treeId eventId now users n = tombstone now eventId n := patched_eq_edit hl hm
      rw [e, live_iff]
      simp [tombstone, hu]
    · simp [leave, Keying.patched, hl]
  · rw [leave_of_not_mem hu]
    simp [hu]

/-- The row of a recruit whose sponsor leaves. -/
def inherit (treeId : Uuid) (responsored : List Responsored) (n : TreeNodeRow) : TreeNodeRow :=
  (activeIn treeId).patched Responsored.userId responsor responsored n

/-- The row of a user who moves. -/
def move (treeId : Uuid) (relocated : List Relocation) (n : TreeNodeRow) : TreeNodeRow :=
  (activeIn treeId).patched Relocation.userId relocate relocated n

theorem live_inherit (responsored : List Responsored) (n : TreeNodeRow) :
    (activeIn treeId).live (inherit treeId responsored n) = (activeIn treeId).live n :=
  patched_field _ (by intros; rfl) responsored n

theorem live_move (relocated : List Relocation) (n : TreeNodeRow) :
    (activeIn treeId).live (move treeId relocated n) = (activeIn treeId).live n :=
  patched_field _ (by intros; rfl) relocated n

theorem userId_inherit (responsored : List Responsored) (n : TreeNodeRow) :
    (inherit treeId responsored n).userId = n.userId :=
  patched_field TreeNodeRow.userId (by intros; rfl) responsored n

theorem userId_move (relocated : List Relocation) (n : TreeNodeRow) :
    (move treeId relocated n).userId = n.userId :=
  patched_field TreeNodeRow.userId (by intros; rfl) relocated n

theorem userId_leave (users : List Uuid) (n : TreeNodeRow) :
    (leave treeId eventId now users n).userId = n.userId :=
  patched_field TreeNodeRow.userId (by intros; rfl) users n

theorem seat_inherit {responsored : List Responsored} (hl : (activeIn treeId).live n)
    (hp : ∀ m ∈ responsored, m.userId = n.userId → n.parentId ≠ none) :
    (inherit treeId responsored n).seat = (responsored.find? (·.userId = n.userId)).elim n.seat
      fun m => { n.seat with sponsor := some m.newSponsorId } :=
  patched_reads TreeNodeRow.seat hl fun m hm hu => by simp [responsor, TreeNodeRow.seat, hp m hm hu]

theorem seat_move {relocated : List Relocation} (hl : (activeIn treeId).live n)
    (hp : ∀ m ∈ relocated, m.userId = n.userId → n.parentId ≠ none) :
    (move treeId relocated n).seat = (relocated.find? (·.userId = n.userId)).elim n.seat fun m =>
      { n.seat with parent := some m.parentId, position := some m.position.toNat, depth := m.depth } :=
  patched_reads TreeNodeRow.seat hl fun m hm hu => by simp [relocate, TreeNodeRow.seat, hp m hm hu]

theorem inherit_place (responsored : List Responsored) (n : TreeNodeRow) :
    (inherit treeId responsored n).parentId = n.parentId ∧
      (inherit treeId responsored n).position = n.position := by
  unfold inherit Keying.patched
  split
  · cases responsored.find? fun m => m.userId = (activeIn treeId).key n <;> exact ⟨rfl, rfl⟩
  · exact ⟨rfl, rfl⟩

def afterRemoval (treeId eventId : Uuid) (now : Time) (out : Outcome) (n : TreeNodeRow) :
    TreeNodeRow :=
  move treeId out.relocated (inherit treeId out.responsored (leave treeId eventId now out.removed n))

theorem live_afterRemoval : (activeIn treeId).live (afterRemoval treeId eventId now out n) ↔
    (activeIn treeId).live n ∧ n.userId ∉ out.removed := by
  rw [afterRemoval, live_move, live_inherit, live_leave]

theorem userId_afterRemoval (treeId eventId : Uuid) (now : Time) (out : Outcome) (n : TreeNodeRow) :
    (afterRemoval treeId eventId now out n).userId = n.userId := by
  rw [afterRemoval, userId_move, userId_inherit, userId_leave]

theorem id_afterRemoval (treeId eventId : Uuid) (now : Time) (out : Outcome) (n : TreeNodeRow) :
    (afterRemoval treeId eventId now out n).id = n.id := by
  unfold afterRemoval move inherit leave
  rw [patched_field TreeNodeRow.id (by intros; rfl), patched_field TreeNodeRow.id (by intros; rfl),
    patched_field TreeNodeRow.id (by intros; rfl)]

section UniqueRows

variable (hu : (activeIn treeId).Unique s.nodes)
include hu

theorem unique_afterRemoval (eventId : Uuid) (now : Time)
    (out : Outcome) : (activeIn treeId).Unique (s.nodes.map (afterRemoval treeId eventId now out)) :=
  hu.map (fun n _ => userId_afterRemoval treeId eventId now out n) fun _ _ hl => (live_afterRemoval.mp hl).1

theorem seat_afterRemoval (hn : n ∈ s.nodes)
    (hl : (activeIn treeId).live n) (hrep : Report (s.seats treeId) out) (hstay : n.userId ∉ out.removed) :
    (afterRemoval treeId eventId now out n).seat = out.reseat n.userId n.seat := by
  have hseat := seats_of_mem hu hn hl
  have hpar : ∀ {m : Uuid}, (∃ seat, s.seats treeId m = some seat ∧ seat.parent ≠ none) →
      m = n.userId → n.parentId ≠ none := by
    intro m h e
    obtain ⟨seat, h1, h2⟩ := h
    rw [e, hseat] at h1
    cases h1
    exact h2
  rw [afterRemoval, leave_of_not_mem hstay]
  have hl' : (activeIn treeId).live (inherit treeId out.responsored n) := by
    rw [live_inherit]
    exact hl
  rw [seat_move hl', seat_inherit hl fun m hm => hpar (hrep.responsored_mem m hm).2, userId_inherit]
  · rfl
  · intro m hm e
    rw [(inherit_place _ _).1]
    exact hpar (hrep.relocated_mem m hm).2 (e.trans (userId_inherit _ _))

/-- **The rows after a removal describe the seats that its report does.** -/
theorem seats_afterRemoval (hrep : Report (s.seats treeId) out) (eventId : Uuid) (now : Time) :
    ({ s with nodes := s.nodes.map (afterRemoval treeId eventId now out) } : MemoryTreeStore).seats
      treeId = out.applyTo (s.seats treeId) := by
  funext u
  have hgone : (s.seats treeId u = none ∨ u ∈ out.removed) →
      ({ s with nodes := s.nodes.map (afterRemoval treeId eventId now out) } :
        MemoryTreeStore).seats treeId u = none := by
    intro h
    refine seats_eq_none.mpr fun n' hn' hl' e => ?_
    obtain ⟨n, hn, rfl⟩ := mem_map.mp hn'
    obtain ⟨hl, hstay⟩ := live_afterRemoval.mp hl'
    rw [userId_afterRemoval] at e
    rcases h with h | h
    · exact seats_eq_none.mp h n hn hl e
    · exact hstay (e ▸ h)
  unfold Outcome.applyTo
  by_cases hrem : u ∈ out.removed
  · rw [if_pos hrem]
    exact hgone (.inr hrem)
  · rw [if_neg hrem]
    cases hs : s.seats treeId u with
    | none => exact hgone (.inl hs)
    | some seat =>
      obtain ⟨n, hn, hl, rfl, rfl⟩ := seats_eq_some hs
      rw [map_some, ← seat_afterRemoval hu hn hl hrep hrem,
        ← userId_afterRemoval treeId eventId now out n]
      exact seats_of_mem (unique_afterRemoval hu eventId now out) (mem_map_of_mem hn)
        (live_afterRemoval.mpr ⟨hl, hrem⟩)

theorem checkRelocationTargets_ok (hrep : Report (s.seats treeId) out) (eventId : Uuid) (now : Time) :
    checkRelocationTargets ((s.nodes.map (leave treeId eventId now out.removed)).map
      (inherit treeId out.responsored)) treeId out.relocated = .ok () := by
  unfold checkRelocationTargets
  refine forM_eq_ok.mpr fun m hm => ?_
  split
  · rfl
  · split
    · rename_i user hh
      rw [stopIf_eq_ok, not_not]
      obtain ⟨n2, hlast, rfl⟩ := map_eq_some_iff.mp hh
      have hn2 := mem_of_getLast? hlast
      obtain ⟨hmem, hcond⟩ := mem_filter.mp hn2
      obtain ⟨hlive, hpar, hpos⟩ := of_decide_eq_true hcond
      obtain ⟨n1, hn1, rfl⟩ := mem_map.mp hmem
      obtain ⟨n, hn, rfl⟩ := mem_map.mp hn1
      rw [live_inherit] at hlive
      obtain ⟨hl, hstay⟩ := live_leave.mp hlive
      rw [(inherit_place _ _).1, leave_of_not_mem hstay] at hpar
      rw [(inherit_place _ _).2, leave_of_not_mem hstay] at hpos
      rw [userId_inherit, userId_leave]
      exact hrep.target_free m hm n.userId n.seat (seats_of_mem hu hn hl) hstay hpar hpos
    · rfl

end UniqueRows

section Passes

variable {rows : List TreeNodeRow}

theorem pass_leave (hu : (activeIn treeId).Unique rows) {users : List Uuid} (hnd : users.Nodup)
    (hall : ∀ u ∈ users, ∃ n ∈ rows, (activeIn treeId).has u n) (eventId : Uuid) (now : Time) :
    ∃ touched, users.foldl ((activeIn treeId).rewrite id fun _ => tombstone now eventId) (rows, []) =
      (rows.map (leave treeId eventId now users), touched) ∧ touched.length = users.length :=
  rewriteAll (by intros; rfl) (fun m n h => by simp [activeIn, tombstone] at h) hu (by simpa using hnd) hall

theorem pass_inherit (hu : (activeIn treeId).Unique rows) {ms : List Responsored}
    (hnd : (ms.map Responsored.userId).Nodup)
    (hall : ∀ m ∈ ms, ∃ n ∈ rows, (activeIn treeId).has m.userId n) :
    ∃ touched, ms.foldl ((activeIn treeId).rewrite Responsored.userId responsor) (rows, []) =
      (rows.map (inherit treeId ms), touched) ∧ touched.length = ms.length :=
  rewriteAll (by intros; rfl) (by intro _ _ h; exact h) hu hnd hall

theorem pass_move (hu : (activeIn treeId).Unique rows) {ms : List Relocation}
    (hnd : (ms.map Relocation.userId).Nodup) (hall : ∀ m ∈ ms, ∃ n ∈ rows, (activeIn treeId).has m.userId n) :
    ∃ touched, ms.foldl ((activeIn treeId).rewrite Relocation.userId relocate) (rows, []) =
      (rows.map (move treeId ms), touched) ∧ touched.length = ms.length :=
  rewriteAll (by intros; rfl) (by intro _ _ h; exact h) hu hnd hall

end Passes

variable (hu : (activeIn treeId).Unique s.nodes) (hrep : Report (s.seats treeId) out)
  (hslots : ∀ {u v a b p q}, out.applyTo (s.seats treeId) u = some a →
    out.applyTo (s.seats treeId) v = some b → a.parent = some p → b.parent = some p →
    a.position = some q → b.position = some q → u = v)

include hu hrep hslots

/-- After a removal every slot is held once, when it is so in the seats that the report leads to. -/
theorem checkActiveSlots_afterRemoval (eventId : Uuid) (now : Time) :
    checkActiveSlots treeId (s.nodes.map (afterRemoval treeId eventId now out)) [] = .ok () := by
  have hu' := unique_afterRemoval hu eventId now out
  refine checkActiveSlots_ok (hu'.imp_of_mem fun {a b} ha hb hab hla hlb {p q} h1 h2 h3 h4 => ?_)
    fun n _ _ {p q} _ _ => rfl
  refine hab hla hlb (hslots (a := a.seat) (b := b.seat) ?_ ?_ h1 h3 h2 h4) <;>
    rw [← seats_afterRemoval hu hrep eventId now]
  · exact seats_of_mem hu' ha hla
  · exact seats_of_mem hu' hb hlb

theorem stageRemoval_ok (eventId : Uuid) (now : Time) : s.stageRemoval treeId (.of out) eventId now =
      .ok (s.nodes.map (afterRemoval treeId eventId now out)) := by
  -- the row of a user who stays is still there after the first two passes
  have hstays : ∀ {u : Uuid}, u ∉ out.removed → (∃ seat, s.seats treeId u = some seat ∧
      seat.parent ≠ none) → ∃ n ∈ s.nodes.map (leave treeId eventId now out.removed),
        (activeIn treeId).has u n := by
    intro u hrem h
    obtain ⟨seat, h, -⟩ := h
    obtain ⟨n, hn, hl, rfl, -⟩ := seats_eq_some h
    exact ⟨n, mem_map.mpr ⟨n, hn, leave_of_not_mem hrem⟩, has_eq_true.mpr ⟨hl, rfl⟩⟩
  have hu1 : (activeIn treeId).Unique (s.nodes.map (leave treeId eventId now out.removed)) :=
    hu.map (fun n _ => userId_leave _ n) fun n _ hl => (live_leave.mp hl).1
  have hu2 : (activeIn treeId).Unique ((s.nodes.map (leave treeId eventId now out.removed)).map
      (inherit treeId out.responsored)) :=
    hu1.map (fun n _ => userId_inherit _ n) fun n _ hl => live_inherit out.responsored n ▸ hl
  have hu3 : ∀ m ∈ out.relocated, ∃ n ∈ (s.nodes.map (leave treeId eventId now out.removed)).map
      (inherit treeId out.responsored), (activeIn treeId).has m.userId n := by
    intro m hm
    obtain ⟨n, hn, hk⟩ := hstays (hrep.relocated_mem m hm).1 (hrep.relocated_mem m hm).2
    obtain ⟨hl, e⟩ := has_eq_true.mp hk
    refine ⟨_, mem_map_of_mem hn, has_eq_true.mpr ⟨?_, ?_⟩⟩
    · rw [live_inherit]
      exact hl
    · exact (userId_inherit _ n).trans e
  obtain ⟨touched1, e1, l1⟩ := pass_leave hu hrep.removed_nodup (fun u hmem => by
    obtain ⟨seat, h⟩ := Option.ne_none_iff_exists'.mp (hrep.removed_mem u hmem)
    obtain ⟨n, hn, hl, rfl, -⟩ := seats_eq_some h
    exact ⟨n, hn, has_eq_true.mpr ⟨hl, rfl⟩⟩) eventId now
  obtain ⟨touched2, e2, l2⟩ := pass_inherit hu1 hrep.responsored_nodup fun m hm =>
    hstays (hrep.responsored_mem m hm).1 (hrep.responsored_mem m hm).2
  obtain ⟨touched3, e3, l3⟩ := pass_move hu2 hrep.relocated_nodup hu3
  have h4 := checkRelocationTargets_ok hu hrep eventId now
  have h5 := checkActiveSlots_afterRemoval hu hrep hslots eventId now
  have hrows : ((s.nodes.map (leave treeId eventId now out.removed)).map
      (inherit treeId out.responsored)).map (move treeId out.relocated) =
      s.nodes.map (afterRemoval treeId eventId now out) := by
    simp only [List.map_map]
    rfl
  rw [hrows] at e3
  unfold stageRemoval RemovalProjection.of
  dsimp only
  rw [e1]
  dsimp only
  rw [e2]
  dsimp only
  rw [e3]
  dsimp only
  rw [h4, h5, l1, l2, l3]
  simp [stopIf]
  rfl

/-- **The projection of a report that fits the seats is accepted.** -/
theorem projectRemoval_ok {v : Nat} (hver : (s.projectedVersion treeId).getD 0 ≤ v) (hpos : 1 ≤ v)
    (hfit : ∀ f ∈ relocationIntFields (.of out), FitsInt4 f.2) (eventId : Uuid) (now : Time) :
    (projectRemoval treeId (.of out) eventId v now).run s = .ok ()
      (({ s with nodes := s.nodes.map (afterRemoval treeId eventId now out) } :
        MemoryTreeStore).advance treeId v) := by
  have h0 : ¬ (RemovalProjection.of out).users.length = 0 := fun e =>
    hrep.removed_ne (length_eq_zero_iff.mp e)
  have h1 : checkEventVersion treeId v = .ok () := checkEventVersion_eq_ok hpos
  have h2 := refuseBelow_eq_ok.mpr ⟨hpos, hver⟩
  have h3 : refuseNonInt4 .projectRemoval treeId (relocationIntFields (.of out)) = .ok () :=
    refuseNonInt4_eq_ok.mpr hfit
  simp only [projectRemoval, run_bind, run_reads, stopIf, h0, if_false, h1, h2, h3,
    stageRemoval_ok hu hrep hslots eventId now, run_modify]

omit hu hrep hslots

theorem projectRemoval_refused {v : Nat} (hne : out.removed ≠ [])
    (hver : (s.projectedVersion treeId).getD 0 ≤ v) (hpos : 1 ≤ v)
    (hfit : ¬ ∀ f ∈ relocationIntFields (.of out), FitsInt4 f.2) (eventId : Uuid) (now : Time) :
    ∃ f ∈ relocationIntFields (.of out), ¬ FitsInt4 f.2 ∧
      (projectRemoval treeId (.of out) eventId v now).run s =
        .error (.err (.outsideInt4 .projectRemoval treeId f.1 f.2)) s := by
  have h0 : ¬ (RemovalProjection.of out).users.length = 0 := fun e => hne (length_eq_zero_iff.mp e)
  obtain ⟨f, hf, hno, h3⟩ := refuseNonInt4_error .projectRemoval treeId hfit
  refine ⟨f, hf, hno, ?_⟩
  simp only [projectRemoval, run_bind, run_reads, stopIf, h0, if_false,
    checkEventVersion_eq_ok hpos, refuseBelow_eq_ok.mpr ⟨hpos, hver⟩, h3]

end Removal

end MemoryTreeStore

end MlmForge.Network
