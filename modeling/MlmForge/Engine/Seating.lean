/-
  Subject:   What a mutation does to the roster of a tree, whatever its type.

  * **`TreeInstance.mutate_spec`** -- a mutation whose check passes returns with that effect.
-/
import MlmForge.Engine.Instance

namespace MlmForge.Engine

open Call List AList Query Arena Function Option

/-! ## 1. Slots in rows -/

namespace Arena

/-- The slot of a node in its parent's row. -/
def slotIn (a : Arena) (rows : NodeIndex → Option (List (Option NodeIndex))) (i : NodeIndex) :
    Option Nat :=
  (a.parentOf i).bind fun p => (rows p).bind fun row => takenBy row i

/-- Every live node has a row, with its children in it. -/
def RowsAgree (a : Arena) (rows : NodeIndex → Option (List (Option NodeIndex))) : Prop :=
  ∀ p, a.Live p → ∃ row, rows p = some row ∧ row.reduceOption = a.childrenOf p

section Rows

variable {a a' : Arena} {rows rows' : NodeIndex → Option (List (Option NodeIndex))} {i : NodeIndex}

theorem slotIn_top (hp : a.parentOf i = none) : a.slotIn rows i = none := by
  rw [slotIn, hp]
  rfl

variable {row : List (Option NodeIndex)}

theorem slotIn_of {p : NodeIndex} (hp : a.parentOf i = some p)
    (hrow : rows p = some row) : a.slotIn rows i = takenBy row i := by
  rw [slotIn, hp, bind_some, hrow, bind_some]

/-- A node with a parent has a slot, and it is in it. -/
theorem RowsAgree.slot (hr : RowsAgree a rows) (h : a.Valid) {p : NodeIndex}
    (hp : a.parentOf i = some p) : ∃ row q, rows p = some row ∧ a.slotIn rows i = some q ∧
      row[q]? = some (some i) := by
  obtain ⟨row, hrow, hocc⟩ := hr p (h.live_parent hp)
  obtain ⟨q, hq⟩ := exists_takenBy (l := row) (k := i) (hocc ▸ h.placed.mem_iff.mpr hp)
  exact ⟨row, q, hrow, (slotIn_of hp hrow).trans hq, takenBy_eq_some hq⟩

variable {j : NodeIndex} {q : Nat}

/-- Two nodes in one slot are one. -/
theorem RowsAgree.inj (hr : RowsAgree a rows) (h : a.Valid) {p : NodeIndex}
    (hi : a.parentOf i = some p) (hj : a.parentOf j = some p) (hqi : a.slotIn rows i = some q)
    (hqj : a.slotIn rows j = some q) : i = j := by
  obtain ⟨row, q1, hrow, e1, h1⟩ := hr.slot h hi
  obtain ⟨row', q2, hrow', e2, h2⟩ := hr.slot h hj
  rw [hrow] at hrow'
  cases hrow'
  rw [hqi] at e1
  rw [hqj] at e2
  cases e1
  cases e2
  rw [h1] at h2
  exact some.inj (some.inj h2)

/-- The roster of a tree with rows of one length is sound. -/
theorem RowsAgree.sound (hr : RowsAgree a rows) (h : a.Valid) {n : Nat}
    (hlen : ∀ p row, a.Live p → rows p = some row → row.length = n) :
    Roster.Sound (some n) (a.roster (a.slotIn rows)) := by
  refine h.sound (fun i => slotIn_top) nofun (fun {m} hn {i p} hp => ?_) fun hi hj => hr.inj h hi hj
  cases hn
  obtain ⟨row, q, hrow, e, hq⟩ := hr.slot h hp
  refine ⟨q, ?_, e⟩
  rw [← hlen p row (h.live_parent hp) hrow]
  exact (List.getElem?_eq_some_iff.mp hq).1

variable {k : NodeIndex} {leaf : Node} {kids : List NodeIndex}

/-- A placement in an empty slot moves nobody else. -/
theorem Grown.slotIn {p : NodeIndex}
    (g : Grown a a' k leaf kids) (h : a.Valid) (hr : RowsAgree a rows) (hl : Leaf a leaf)
    (hp : leaf.parent = some p) (hrow : rows p = some row) (hq : row[q]? = some none)
    (hrows : ∀ j, j ≠ k → rows' j = if j = p then some (row.set q (some k)) else rows j) :
    (∀ j, a.Live j → a'.slotIn rows' j = a.slotIn rows j) ∧ a'.slotIn rows' k = some q := by
  have hpl := (hl.parent hp).1
  have hocc : row.reduceOption = a.childrenOf p := by
    obtain ⟨row', hrow', hocc⟩ := hr p hpl
    rw [hrow] at hrow'
    cases hrow'
    exact hocc
  refine ⟨fun j hj => ?_, ?_⟩
  · have hup : a'.parentOf j = a.parentOf j := by rw [g.parentOf, if_neg (g.ne hj)]
    cases hpj : a.parentOf j with
    | none => rw [slotIn_top hpj, slotIn_top (hup.trans hpj)]
    | some p' =>
      obtain ⟨row', hrow', -⟩ := hr p' (h.live_parent hpj)
      have hnew := hrows p' (g.ne (h.live_parent hpj))
      rw [slotIn_of hpj hrow']
      by_cases e : p' = p
      · subst e
        rw [hrow] at hrow'
        cases hrow'
        rw [if_pos rfl] at hnew
        rw [slotIn_of (hup.trans hpj) hnew, takenBy_fill hq (g.ne hj)]
      · rw [if_neg e, hrow'] at hnew
        rw [slotIn_of (hup.trans hpj) hnew]
  · have hup : a'.parentOf k = some p := by rw [g.parentOf, if_pos rfl, hp]
    have hnew := hrows p (g.ne hpl)
    rw [if_pos rfl] at hnew
    have hk : k ∉ row.reduceOption := fun hm => g.fresh (h.live_child (hocc ▸ hm))
    rw [slotIn_of hup hnew]
    refine takenBy_of_getElem? ?_ (nodup_fill hq hk (hocc ▸ h.placed.nodup p))
    simp [(List.getElem?_eq_some_iff.mp hq).1]

theorem Grown.slotIn_root (g : Grown a a' k leaf kids) (h : a.Valid) (hrows : ∀ j, j ≠ k → rows' j = rows j)
    (hj : a.Live j) : a'.slotIn rows' j = a.slotIn rows j := by
  have hup : a'.parentOf j = a.parentOf j := by rw [g.parentOf, if_neg (g.ne hj)]
  rw [Arena.slotIn, Arena.slotIn, hup]
  refine bind_congr fun p hp => ?_
  rw [hrows p (g.ne (h.live_parent hp))]

end Rows

end Arena

/-! ## 2. The seats of the three trees -/

namespace UnilevelTree

/-- A unilevel tree has no slots. -/
def roster (t : UnilevelTree) : Roster := t.arena.roster fun _ => none

theorem sound {t : UnilevelTree} (h : t.arena.Valid) : Roster.Sound none t.roster :=
  h.sound (fun _ _ => rfl) (fun _ _ => rfl) nofun nofun

end UnilevelTree

namespace BinaryTree

/-- The rows of a binary tree, as lists. -/
def rows (t : BinaryTree) (p : NodeIndex) : Option (List (Option NodeIndex)) :=
  (t.slots.lookup p).map Vector.toList

def roster (t : BinaryTree) : Roster := t.arena.roster (t.arena.slotIn t.rows)

variable {t : BinaryTree}

theorem Valid.rowsAgree (h : t.Valid) : t.arena.RowsAgree t.rows := by
  intro p hp
  obtain ⟨row, hrow⟩ := h.agree.exists_row hp
  exact ⟨row.toList, by rw [rows, hrow]; rfl, h.agree.children hrow⟩

theorem Valid.sound (h : t.Valid) : Roster.Sound (some 2) t.roster := by
  refine h.rowsAgree.sound h.arena fun p row _ hrow => ?_
  obtain ⟨v, -, rfl⟩ := map_eq_some_iff.mp hrow
  exact v.length_toList

end BinaryTree

namespace MatrixTree

def roster (t : MatrixTree) : Roster := t.arena.roster (t.arena.slotIn t.slots.lookup)

variable {t : MatrixTree}

theorem Valid.rowsAgree (h : t.Valid) : t.arena.RowsAgree t.slots.lookup := by
  intro p hp
  obtain ⟨row, hrow, hocc, -⟩ := h.exists_row hp
  exact ⟨row, hrow, hocc⟩

theorem Valid.sound (h : t.Valid) : Roster.Sound (some t.width.toNat) t.roster :=
  h.rowsAgree.sound h.arena fun p row _ hrow => h.rows p row hrow

/-- The slot of a node with a parent is its place. -/
theorem Valid.slotIn (h : t.Valid) {x p : NodeIndex} (hp : t.arena.parentOf x = some p) :
    t.arena.slotIn t.slots.lookup x = some (t.positionIn x) ∧ t.positionIn x < 256 := by
  obtain ⟨row, q, hrow, hq, hx, e⟩ := h.place hp
  rw [slotIn_of hp hrow, hq, e]
  refine ⟨rfl, ?_⟩
  have hlt : q < row.length := (List.getElem?_eq_some_iff.mp hx).1
  rw [h.rows p row hrow] at hlt
  exact hlt.trans t.width.toNat_lt

end MatrixTree

namespace TreeInstance

/-- The number of slots below a node, where the tree has slots. -/
def limit : TreeInstance → Option Nat
  | unilevel _ => none
  | binary _ => some 2
  | matrix t => some t.width.toNat

def roster : TreeInstance → Roster
  | unilevel t => t.roster
  | binary t => t.roster
  | matrix t => t.roster

variable {t : TreeInstance}

/-- **The seats of a valid tree are in order.** -/
theorem Valid.sound (h : t.Valid) : Roster.Sound t.limit t.roster := by
  cases t with
  | unilevel t => exact UnilevelTree.sound h
  | binary t => exact BinaryTree.Valid.sound h
  | matrix t => exact MatrixTree.Valid.sound h

theorem limit_lt {n : Nat} (h : t.limit = some n) : n < 256 := by
  cases t with
  | unilevel t => cases h
  | binary t =>
    cases h
    decide
  | matrix t =>
    cases h
    exact t.width.toNat_lt

/-- A tree as it is created. -/
def Fresh : TreeInstance → Prop
  | unilevel t => t = UnilevelTree.new
  | binary t => t = BinaryTree.new
  | matrix t => ∃ width spillover, MatrixTree.new width spillover = .ok t

theorem Fresh.valid (h : t.Fresh) : t.Valid := by
  cases t with
  | unilevel t =>
    cases h
    exact Arena.new_valid
  | binary t =>
    cases h
    exact BinaryTree.new_valid
  | matrix t =>
    obtain ⟨width, spillover, hnew⟩ := h
    exact MatrixTree.new_valid hnew

theorem Fresh.roster (h : t.Fresh) (u : Uuid) : t.roster u = none := by
  cases t with
  | unilevel t =>
    cases h
    rfl
  | binary t =>
    cases h
    rfl
  | matrix t =>
    obtain ⟨width, spillover, hnew⟩ := h
    simp only [MatrixTree.new, seq_eq_ok, stopIf_eq_ok, Except.ok.injEq] at hnew
    obtain ⟨-, -, rfl⟩ := hnew
    rfl

end TreeInstance

/-! ## 3. What a mutation does -/

/-- A newcomer was seated below someone, and nobody else moved. -/
structure Seated (r r' : Roster) (u : Uuid) (seat : Seat) : Prop where
  free : r u = none
  parent : ∃ p above, seat.parent = some p ∧ r p = some above ∧ seat.depth = above.depth + 1
  sponsor : ∃ s, seat.sponsor = some s ∧ r s ≠ none
  seats : r' = update r u (some seat)

/-- The effect of a mutation that returned, on the seats of a tree with rows of `limit` slots. A
    `directed` request names the place; spillover finds one. -/
inductive Effect (limit : Option Nat) (directed : Prop) (r r' : Roster) :
    Mutation → Outcome → Prop where
  | addRoot {u : Uuid} {e : Int} (user : u ≠ Uuid.nil) (empty : ∀ v, r v = none)
      (seats : r' = update r u (some ⟨none, none, 0, none, e⟩)) :
      Effect limit directed r r' (.addRoot u e) .quiet
  | addNode {u p s : Uuid} {q : Option Int} {e : Int} {seat : Seat} (seated : Seated r r' u seat)
      (sponsor : seat.sponsor = some s) (enrolledAt : seat.enrolledAt = e)
      (asked : directed → seat.parent = some p ∧ seat.position = limit.bind fun _ => q) :
      Effect limit directed r r' (.addNode u p s q e) .quiet
  | addNodeAt {u p s : Uuid} {q : Int} {e : Int} {seat : Seat} (seated : Seated r r' u seat)
      (sponsor : seat.sponsor = some s) (enrolledAt : seat.enrolledAt = e)
      (parent : seat.parent = some p) (position : seat.position = some q) :
      Effect limit directed r r' (.addNodeAt u p s q e) .quiet
  | removeNode {u : Uuid} {mode : Option PruningMode} {out : Outcome} (report : Report r out)
      (mem : u ∈ out.removed) (seats : r' = out.applyTo r) :
      Effect limit directed r r' (.removeNode u mode) out

theorem Effect.of_directed {limit : Option Nat} {directed : Prop} {r r' : Roster} {mu : Mutation}
    {out : Outcome} (h : Effect limit True r r' mu out) : Effect limit directed r r' mu out := by
  cases h with
  | addRoot hu hempty hseats => exact .addRoot hu hempty hseats
  | addNode hseated hs he hasked => exact .addNode hseated hs he fun _ => hasked trivial
  | addNodeAt hseated hs he hp hq => exact .addNodeAt hseated hs he hp hq
  | removeNode hrep hmem hseats => exact .removeNode hrep hmem hseats

section Arena

variable {a m a' : Arena} {place place' : NodeIndex → Option Nat} {limit : Option Nat}
  {directed : Prop} {u : Uuid}

variable {parentId sponsorId : Uuid}

theorem Arena.leaf_of_lookup (hu : u ≠ Uuid.nil) (hn : a.index.lookup u = none) (h : a.Valid)
    {p s : NodeIndex} (hp : a.index.lookup parentId = some p)
    (hs : a.index.lookup sponsorId = some s) (e : Int) :
    Arena.Leaf a (Node.leaf u (some p) (some s) ((a.nodeAt p).depth + 1) e) :=
  leaf_node hu hn (h.live_of_lookup hp) fun _ e => some.inj e ▸ h.live_of_lookup hs

variable {k : NodeIndex} {e : Int}

theorem Arena.Grown.addRoot (g : Arena.Grown a a' k (Node.leaf u none none 0 e) []) (h : a.Valid)
    (hc : a.checkAddRoot u = .ok ()) (hk : place' k = none) (hplace : ∀ j, a.Live j → place' j = place j) :
    Effect limit directed (a.roster place) (a'.roster place') (.addRoot u e) .quiet := by
  refine .addRoot (Arena.checkAddRoot_eq_ok.mp hc).1 (fun v => ?_) ?_
  · -- an arena without a root has no nodes
    by_contra hne
    obtain ⟨seat, hseat⟩ := ne_none_iff_exists'.mp hne
    obtain ⟨i, hi, -, -⟩ := h.roster_eq_some.mp hseat
    obtain ⟨r, hr, -⟩ := h.root_above hi
    rw [(Arena.checkAddRoot_eq_ok.mp hc).2.1] at hr
    cases hr
  · rw [g.roster h (leaf_root hc) hplace]
    simp [newSeat, Node.leaf, hk]

/-- The seat that a placement below `p` gives. -/
theorem Arena.Grown.seated {p s : NodeIndex} {kids : List NodeIndex}
    (g : Arena.Grown a a' k (Node.leaf u (some p) (some s) ((a.nodeAt p).depth + 1) e) kids)
    (h : a.Valid) (hu : u ≠ Uuid.nil) (hn : a.index.lookup u = none)
    (hp : a.index.lookup parentId = some p) (hs : a.index.lookup sponsorId = some s)
    (hplace : ∀ j, a.Live j → place' j = place j) : Seated (a.roster place) (a'.roster place') u
      ⟨some parentId, (place' k).map Int.ofNat, (a.nodeAt p).depth + 1, some sponsorId, e⟩ := by
  have hl := leaf_of_lookup hu hn h hp hs e
  have hpl := (hl.parent rfl).1
  have hroster := g.roster h hl hplace
  obtain ⟨-, rfl⟩ := h.index_iff.mp hp
  obtain ⟨-, rfl⟩ := h.index_iff.mp hs
  refine ⟨?_, ⟨_, _, rfl, h.roster_userAt hpl, rfl⟩, ⟨_, rfl, ?_⟩, hroster⟩
  · rw [Arena.roster, hn]
    rfl
  · rw [Arena.roster, hs]
    exact some_ne_none _

/-- **The effect of removing a leaf.** -/
theorem Arena.Pruned.removeLeaf {i : NodeIndex} {mode : Option PruningMode}
    (p : Arena.Pruned a a' [i]) (h : a.Valid) (hi : a.index.lookup u = some i)
    (hleaf : a.childrenOf i = []) (hmov : a.checkSponsoredRemovable [i] = .ok ())
    (hm : Arena.Unlisted a m i) (hcl : Arena.Cleared m a' i)
    (hplace : ∀ x, a.Live x → x ≠ i → place' x = place x) :
    Effect limit directed (a.roster place) (a'.roster place') (.removeNode u mode)
      ⟨a.responsored [i], [], [u]⟩ := by
  have hiu : a.userAt i = u := (h.index_iff.mp hi).2
  have hnames : a.Names [i] [u] := fun v => by simp [hiu, eq_comm]
  have hreloc : a.Relocates a' place place' [i] [] := by
    refine ⟨nodup_nil, fun m hm => absurd hm not_mem_nil, fun x hx hxg _ => ?_⟩
    have hxi : x ≠ i := by simpa using hxg
    have hup : a'.parentOf x = a.parentOf x := by
      rw [hcl.parentOf, if_neg hxi, hm.parentOf]
    refine ⟨?_, hplace x hx hxi, by rw [hcl.depth x hxi, hm.depth]⟩
    rw [hup]
    refine map_congr fun q hq => p.userAt ?_
    -- the removed node is a leaf, so it is nobody's parent
    intro hqi
    rw [mem_singleton.mp hqi] at hq
    have := h.placed.mem_iff.mpr hq
    rw [hleaf] at this
    exact not_mem_nil this
  refine .removeNode ?_ (mem_singleton.mpr rfl) (p.roster h hmov rfl hnames hreloc)
  exact p.report h (cons_ne_nil _ _) (nodup_singleton u) rfl hnames hreloc fun m hm => absurd hm not_mem_nil

end Arena

/-! ## 4. What the trees do -/

theorem run_served {σ α : Type} {op : Call TreeError σ α} {s s' : σ} {x : α}
    (h : op.run s = .ok x s') (f : α → Outcome) :
    (f <$> Call.relay EngineError.tree op).run s = .ok (f x) s' := by
  simp only [run_map, run_relay, h]

namespace UnilevelTree

theorem mutate_spec {t : UnilevelTree} {mu : Mutation} (h : t.arena.Valid) (hroom : t.arena.Roomy)
    (hc : t.checkMutation mu = .ok ()) : ∃ out t', (mutate mu).run t = .ok out t' ∧
      t'.arena.Valid ∧ Effect none True t.roster t'.roster mu out := by
  cases mu with
  | addRoot u e =>
    have hc := relay_eq_ok.mp hc
    obtain ⟨k, t', hrun, g, hv⟩ := addRoot_spec h hc e
    exact ⟨_, t', run_served hrun _, hv, g.addRoot h hc rfl fun _ _ => rfl⟩
  | addNode u parentId sponsorId q e =>
    have hc := relay_eq_ok.mp hc
    obtain ⟨k, t', p, s, hp, hs, hrun, g, hv⟩ := addNode_spec h hc
      (fun _ hp => h.depth_succ_lt hroom (h.live_of_lookup hp)) e
    obtain ⟨hu, hn, -⟩ := checkAddNode_eq_ok hc
    exact ⟨_, t', run_served hrun _, hv,
      .addNode (g.seated h hu hn hp hs fun _ _ => rfl) rfl rfl fun _ => ⟨rfl, rfl⟩⟩
  | addNodeAt u p s q e => cases hc
  | removeNode u mode =>
    have hc := relay_eq_ok.mp hc
    obtain ⟨i, t', m, hi, hrun, p, hm, hcl, hv⟩ := removeNode_spec h hc
    obtain ⟨j, hj, hleaf, hmov⟩ := h.checkRemoveLeaf_eq_ok hc
    cases hi.symm.trans hj
    exact ⟨_, t', run_served hrun _, hv, p.removeLeaf h hi hleaf hmov hm hcl fun _ _ _ => rfl⟩

end UnilevelTree

namespace BinaryTree

theorem mutate_spec {t : BinaryTree} {mu : Mutation} (h : t.Valid) (hroom : t.arena.Roomy)
    (hc : t.checkMutation mu = .ok ()) : ∃ out t', (mutate mu).run t = .ok out t' ∧
      t'.Valid ∧ Effect (some 2) True t.roster t'.roster mu out := by
  cases mu with
  | addRoot u e =>
    have hc := relay_eq_ok.mp hc
    obtain ⟨k, t', hrun, g, hslots, hv⟩ := addRoot_spec h hc e
    have hrows : ∀ j, j ≠ k → t'.rows j = t.rows j := fun j hj => by
      rw [rows, hslots, lookup_insert_ne hj, rows]
    refine ⟨_, t', run_served hrun _, hv, g.addRoot h.arena hc (slotIn_top ?_)
      fun _ => g.slotIn_root h.arena hrows⟩
    rw [g.parentOf, if_pos rfl]
    rfl
  | addNode u parentId sponsorId q e =>
    obtain ⟨n, hn, hc⟩ := bind_eq_ok.mp hc
    cases wirePosition_eq_ok.mp hn
    have hc := relay_eq_ok.mp hc
    obtain ⟨k, t', p, s, row, hp, hs, hrow, hrun, g, hslots, hv⟩ := addNode_spec h hc hroom e
    obtain ⟨hu, hnew, -, p', s', row', hp', -, hrow', hempty⟩ := checkAddNode_eq_ok hc h
    cases hp.symm.trans hp'
    cases hrow.symm.trans hrow'
    have hrows : ∀ j, j ≠ k → t'.rows j = if j = p then some (row.toList.set n (some k)) else t.rows j := by
      intro j hj
      rw [rows, hslots]
      by_cases e : j = p
      · subst e
        rw [AList.lookup_insert, if_pos rfl]
        simp
      · rw [lookup_insert_ne e, lookup_insert_ne hj, if_neg e, rows]
    obtain ⟨hold, hk⟩ := g.slotIn h.arena h.rowsAgree
      (leaf_of_lookup hu hnew h.arena hp hs e) rfl (by rw [rows, hrow]; rfl) hempty hrows
    refine ⟨_, t', ?_, hv, .addNode (g.seated h.arena hu hnew hp hs hold) rfl rfl fun _ => ⟨rfl, ?_⟩⟩
    · simp only [mutate, readParam, run_bind, run_reads, hn, run_served hrun]
    · rw [hk]
      rfl
  | addNodeAt u p s q e => cases hc
  | removeNode u mode =>
    have hc := relay_eq_ok.mp hc
    obtain ⟨i, t', m, hi, hrun, p, hm, hcl, hslots, hv⟩ := removeNode_spec h hc
    obtain ⟨j, hj, hleaf, hmov⟩ := h.arena.checkRemoveLeaf_eq_ok hc
    cases hi.symm.trans hj
    refine ⟨_, t', run_served hrun _, hv, p.removeLeaf h.arena hi hleaf hmov hm hcl fun x hx hxi => ?_⟩
    have hup : t'.arena.parentOf x = t.arena.parentOf x := by
      rw [hcl.parentOf, if_neg hxi, hm.parentOf]
    rw [Arena.slotIn, Arena.slotIn, hup]
    refine bind_congr fun q hq => ?_
    have hqi : q ≠ i := by
      rintro rfl
      have := h.arena.placed.mem_iff.mpr hq
      rw [hleaf] at this
      exact not_mem_nil this
    rw [rows, hslots, if_neg hqi, rows, Option.map_map, Option.bind_map, Option.bind_map]
    refine bind_congr fun row _ => ?_
    show takenBy (cleared i row).toList x = takenBy row.toList x
    rw [toList_cleared, takenBy_clearAll hxi]

end BinaryTree

namespace MatrixTree

section Specs

variable {t t' : MatrixTree}

/-- A placement puts one node in its slot, and moves nobody. -/
theorem Placed.slotIn {k p : NodeIndex} {leaf : Node} {q : Nat} {row : MatrixSlots}
    (pl : Placed t t' k leaf p q row) (h : t.Valid) (hl : Arena.Leaf t.arena leaf)
    (hp : leaf.parent = some p) (hrow : t.slots.lookup p = some row) (hq : row[q]? = some none) :
    (∀ j, t.arena.Live j → t'.arena.slotIn t'.slots.lookup j = t.arena.slotIn t.slots.lookup j) ∧
    t'.arena.slotIn t'.slots.lookup k = some q := by
  refine pl.grown.slotIn h.arena h.rowsAgree hl hp hrow hq fun j hj => ?_
  rw [pl.slots]
  by_cases e : j = p
  · subst e
    rw [AList.lookup_insert, if_pos rfl]
  · rw [lookup_insert_ne e, lookup_insert_ne hj, if_neg e]

namespace Removed

variable {mode : PruningMode} {idx : NodeIndex} {gone moved : List NodeIndex}
  {result : RemovalResult}

variable (hr : Removed t t' mode idx gone moved result)
include hr

theorem parentOf_eq_none (h : t.Valid) {x : NodeIndex} (hx : t.arena.Live x) (hxg : x ∉ gone) :
    t'.arena.parentOf x = none ↔ t.arena.parentOf x = none := by
  have hx' : t'.arena.Live x := hr.pruned.live_iff.mpr ⟨hxg, hx⟩
  constructor
  · intro e
    exact h.arena.root_parent (hr.root ▸ hr.valid.arena.top_root hx' e)
  · intro e
    exact hr.valid.arena.root_parent (hr.root.symm ▸ h.arena.top_root hx e)

theorem relocation {x p : NodeIndex}
    (hp : t'.arena.parentOf x = some p) : (t'.relocation x).userId = t.arena.userAt x ∧
      (t'.relocation x).parentId = t.arena.userAt p ∧
      t'.arena.slotIn t'.slots.lookup x = some (t'.relocation x).position.toNat := by
  obtain ⟨hslot, hlt⟩ := hr.valid.slotIn hp
  have hxg := (hr.pruned.live_iff.mp (hr.valid.arena.live_of_parent hp)).1
  have hpg := (hr.pruned.live_iff.mp (hr.valid.arena.live_parent hp)).1
  refine ⟨hr.pruned.userAt hxg, ?_, ?_⟩
  · have : (t'.relocation x).parentId = t'.arena.userAt p := by
      simp [MatrixTree.relocation, placement, hp, Arena.userAt]
    rw [this, hr.pruned.userAt hpg]
  · rw [hslot]
    show _ = some (UInt8.ofNat (t'.positionIn x)).toNat
    rw [UInt8.toNat_ofNat', Nat.mod_eq_of_lt hlt]

theorem relocates (h : t.Valid) :
    t.arena.Relocates t'.arena (t.arena.slotIn t.slots.lookup) (t'.arena.slotIn t'.slots.lookup)
      gone result.relocated := by
  have hup : ∀ x ∈ moved, ∃ p, t'.arena.parentOf x = some p := fun x hx =>
    isSome_iff_exists.mp (hr.moved_up x hx)
  rw [hr.relocated]
  refine ⟨?_, fun m hm => ?_, fun x hx hxg hno => ?_⟩
  · rw [List.map_map]
    refine hr.nodup.map_on fun x hx y _ e => ?_
    obtain ⟨p, hp⟩ := hup x hx
    exact hr.valid.arena.userAt_inj (hr.valid.arena.live_of_parent hp) e
  · obtain ⟨x, hx, rfl⟩ := mem_map.mp hm
    obtain ⟨p, hp⟩ := hup x hx
    obtain ⟨hxg, hxl⟩ := hr.pruned.live_iff.mp (hr.valid.arena.live_of_parent hp)
    obtain ⟨hu, hpar, hslot⟩ := hr.relocation hp
    refine ⟨x, hxl, hxg, hu, fun e => ?_, ?_, hslot, rfl⟩
    · rw [(hr.parentOf_eq_none h hxl hxg).mpr e] at hp
      cases hp
    · rw [hp, map_some, hpar, hr.pruned.userAt]
      exact (hr.pruned.live_iff.mp (hr.valid.arena.live_parent hp)).1
  · have hxm : x ∉ moved := fun hm => hno _ (mem_map_of_mem hm) (hr.pruned.userAt hxg)
    have hkept := hr.kept x hxg hxm
    refine ⟨?_, ?_, congrArg Placement.depth hkept⟩
    · cases hp : t.arena.parentOf x with
      | none => rw [(hr.parentOf_eq_none h hx hxg).mpr hp]; rfl
      | some p =>
        obtain ⟨p', hp'⟩ := ne_none_iff_exists'.mp fun e => by
          rw [(hr.parentOf_eq_none h hx hxg).mp e] at hp
          cases hp
        have := congrArg Placement.parentId hkept
        simpa [placement, hp, hp', Arena.userAt] using this
    · cases hp : t.arena.parentOf x with
      | none =>
        rw [slotIn_top hp, slotIn_top ((hr.parentOf_eq_none h hx hxg).mpr hp)]
      | some p =>
        obtain ⟨p', hp'⟩ := ne_none_iff_exists'.mp fun e => by
          rw [(hr.parentOf_eq_none h hx hxg).mp e] at hp
          cases hp
        obtain ⟨e1, h1⟩ := h.slotIn hp
        obtain ⟨e2, h2⟩ := hr.valid.slotIn hp'
        have := congrArg (fun m => m.position.toNat) hkept
        simp only [placement, UInt8.toNat_ofNat', Nat.mod_eq_of_lt h1, Nat.mod_eq_of_lt h2] at this
        rw [e1, e2, this]

/-- **The effect of a removal from a matrix tree.** -/
theorem effect {u : Uuid} {directed : Prop} (h : t.Valid) (hi : t.arena.index.lookup u = some idx)
    (hmov : t.arena.checkSponsoredRemovable gone = .ok ()) :
    Effect (some t.width.toNat) directed t.roster t'.roster (.removeNode u (some mode))
      (matrixOutcome u mode result) := by
  have hu : t.arena.userAt idx = u := (h.arena.index_iff.mp hi).2
  have hleave : (matrixOutcome u mode result).removed = leavers result mode := by
    cases mode with
    | promoteEarliest => exact congrArg (fun v => [v]) (hu.symm.trans hr.removed.symm)
    | holdingTank => rfl
  have hnames : t.arena.Names gone (matrixOutcome u mode result).removed := by
    rw [hleave]
    exact hr.leavers_iff
  have hmem : u ∈ (matrixOutcome u mode result).removed := (hnames u).mpr ⟨idx, hr.mem, hu⟩
  refine .removeNode (hr.pruned.report h.arena (ne_nil_of_mem hmem) (hleave ▸ hr.leavers_nodup)
    hr.responsored hnames (hr.relocates h) fun m hm y hy hyg hpar hpos => ?_) hmem
    (hr.pruned.roster h.arena hmov hr.responsored hnames (hr.relocates h))
  -- a survivor in the slot that a move is to is the one who moves
  have hm : m ∈ moved.map t'.relocation := hr.relocated ▸ hm
  obtain ⟨x, hx, rfl⟩ := mem_map.mp hm
  obtain ⟨p, hp⟩ := isSome_iff_exists.mp (hr.moved_up x hx)
  obtain ⟨hxu, hpu, hslot⟩ := hr.relocation hp
  obtain ⟨p', hp', e⟩ := map_eq_some_iff.mp hpar
  cases h.arena.userAt_inj (h.arena.live_parent hp') (e.trans hpu)
  obtain ⟨row, q, hrow, hq, hat⟩ := h.rowsAgree.slot h.arena hp'
  rw [hpos] at hq
  cases hq
  have hpos' : (t'.relocation x).position.toNat = t'.positionIn x := by
    rw [(hr.valid.slotIn hp).1] at hslot
    exact (some.inj hslot).symm
  rw [hr.target_free x hx hp hrow (hpos' ▸ hat) hyg, hxu]

end Removed

theorem mutate_spec {mu : Mutation} (h : t.Valid) (hroom : t.arena.Roomy)
    (hc : t.checkMutation mu = .ok ()) :
    ∃ out t', (mutate mu).run t = .ok out t' ∧ t'.Valid ∧ t'.width = t.width ∧
      Effect (some t.width.toNat) True t.roster t'.roster mu out := by
  cases mu with
  | addRoot u e =>
    have hc := relay_eq_ok.mp hc
    obtain ⟨k, t', hrun, g, hslots, hw, -, hv⟩ := addRoot_spec h hc e
    have hrows : ∀ j, j ≠ k → t'.slots.lookup j = t.slots.lookup j := fun j hj => by
      rw [hslots, lookup_insert_ne hj]
    refine ⟨_, t', run_served hrun _, hv, hw, g.addRoot h.arena (checkAddRoot_eq_ok.mp hc).1
      (slotIn_top ?_) fun _ => g.slotIn_root h.arena hrows⟩
    rw [g.parentOf, if_pos rfl]
    rfl
  | addNode u p s q e => cases hc
  | addNodeAt u parentId sponsorId position e =>
    obtain ⟨q, hq, hc⟩ := bind_eq_ok.mp hc
    have hc := relay_eq_ok.mp hc
    obtain ⟨k, t', p, s, row, hp, hs, hrun, pl, hrow, hempty, hv⟩ := addNodeAt_spec h hroom hc e
    obtain ⟨hu, hn, -⟩ := checkAddNodeAt_eq_ok hc
    obtain ⟨hold, hk⟩ := pl.slotIn h (leaf_of_lookup hu hn h.arena hp hs e) rfl hrow hempty
    refine ⟨_, t', ?_, hv, pl.width, .addNodeAt (pl.grown.seated h.arena hu hn hp hs hold) rfl rfl rfl ?_⟩
    · simp only [mutate, readParam, run_bind, run_reads, hq, run_served hrun]
    · rw [hk, wireSlot_eq_ok hq]
      rfl
  | removeNode u mode =>
    cases mode with
    | none => cases hc
    | some mode =>
      have hc := relay_eq_ok.mp hc
      obtain ⟨i, p, gone, moved, result, t', hi, hp, hgone, hmov, hrun, hr, -⟩ :=
        removeNode_spec h hc fun _ => hroom
      exact ⟨_, t', run_served hrun _, hr.valid, hr.width, hr.effect h hi hmov⟩

theorem spillover_spec {u p s : Uuid} {q : Option Int} {e : Int} {out : Outcome} (h : t.Valid)
    (hroom : t.arena.Roomy) (hrun : (mutate (.addNode u p s q e)).run t = .ok out t') : t'.Valid ∧ t'.width = t.width ∧
      Effect (some t.width.toNat) False t.roster t'.roster (.addNode u p s q e) out := by
  cases hc : t.checkAddNode u s with
  | error e' =>
    have hstop : (addNode u s e).run t = .error e' t := by
      simp only [addNode, run_bind, run_reads, hc]
    simp only [mutate, run_map, run_relay, hstop] at hrun
    cases hrun
  | ok si =>
    obtain ⟨hu, -, hn, -, hs⟩ := checkAddNode_eq_ok.mp hc
    obtain ⟨k, t1, pi, n, row, hrun', pl, hab, hrow, hfirst, hv⟩ := addNode_spec h hroom hc e
    cases (run_served hrun' fun _ => Outcome.quiet).symm.trans hrun
    have hp := h.arena.lookup_of_live (h.agree.live_of_row hrow)
    obtain ⟨hold, -⟩ := pl.slotIn h (leaf_of_lookup hu hn h.arena hp hs e) rfl hrow
      (firstEmpty_eq_some hfirst)
    exact ⟨hv, pl.width, .addNode (pl.grown.seated h.arena hu hn hp hs hold) rfl rfl False.elim⟩

end Specs

end MatrixTree

namespace TreeInstance

variable {t : TreeInstance} {mu : Mutation}

/-- **A mutation whose check passes returns, with its effect on the seats.** -/
theorem mutate_spec (h : t.Valid) (hroom : t.arena.Roomy)
    (hc : t.checkMutation mu = .ok ()) : ∃ out t', (mutate mu).run t = .ok out t' ∧ t'.Valid ∧
      t'.limit = t.limit ∧ Effect t.limit True t.roster t'.roster mu out := by
  cases t with
  | unilevel t =>
    obtain ⟨out, t', hrun, hv, he⟩ := UnilevelTree.mutate_spec h hroom hc
    exact ⟨out, unilevel t', within_ok hrun, hv, rfl, he⟩
  | binary t =>
    obtain ⟨out, t', hrun, hv, he⟩ := BinaryTree.mutate_spec h hroom hc
    exact ⟨out, binary t', within_ok hrun, hv, rfl, he⟩
  | matrix t =>
    obtain ⟨out, t', hrun, hv, hw, he⟩ := MatrixTree.mutate_spec h hroom hc
    exact ⟨out, matrix t', within_ok hrun, hv, by simp [limit, hw], he⟩

/-- **What a mutation that returned has done**, checked or not. -/
theorem mutate_effect {t' : TreeInstance} {out : Outcome} (h : t.Valid) (hroom : t.arena.Roomy)
    (hrun : (mutate mu).run t = .ok out t') :
    t'.Valid ∧ t'.limit = t.limit ∧ Effect t.limit (mu.checked t) t.roster t'.roster mu out := by
  by_cases hmu : mu.checked t
  · obtain ⟨out', t'', hrun', hv, hl, he⟩ :=
      mutate_spec h hroom ((decides h hroom hmu).ok_iff.mpr ⟨out, t', hrun⟩)
    cases hrun'.symm.trans hrun
    exact ⟨hv, hl, he.of_directed⟩
  · cases t with
    | unilevel t => cases mu <;> exact absurd trivial hmu
    | binary t => cases mu <;> exact absurd trivial hmu
    | matrix t =>
      cases mu with
      | addNode u p s q e =>
        obtain ⟨t1, hm, rfl⟩ := of_within_ok hrun
        obtain ⟨hv, hw, he⟩ := MatrixTree.spillover_spec h hroom hm
        exact ⟨hv, by simp [limit, hw], he⟩
      | addRoot | addNodeAt | removeNode => exact absurd trivial hmu

end TreeInstance

end MlmForge.Engine
