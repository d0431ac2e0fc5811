/-
  Subject:   The placements of a matrix tree, and that they keep it valid.

  * `addRoot_spec`, `addNodeAt_spec`, `addNode_spec`, `placeFromTank_spec` -- on a valid tree each
    placement either is refused, with the tree unchanged, or succeeds with a valid tree.
-/
import MlmForge.Engine.MatrixValid

namespace MlmForge.Engine

open Query Call List AList Option Arena

namespace MatrixTree

/-! ## 1. Slots -/

section Slots

variable {t : MatrixTree} {i : NodeIndex} {row : MatrixSlots}

theorem slotsOf_ok (h : t.slots.lookup i = some row) : t.slotsOf i = .ok row := by
  unfold slotsOf
  rw [h]

theorem setSlot_ok (h : t.slots.lookup i = some row) {q : Nat} (hq : q < row.length)
    (place : Option NodeIndex) : (setSlot i q place).run t = .ok () (t.insertSlots i (row.set q place)) := by
  simp only [setSlot, run_bind, run_reads, slotsOf_ok h, placeAt, getElem?_eq_getElem hq, run_modify]

theorem rebuildChildren_ok (h : t.slots.lookup i = some row) (hi : t.arena.Live i) :
    (rebuildChildren i).run t = .ok () { t with
      arena := t.arena.upd i fun n => { n with children := row.reduceOption } } := by
  simp only [rebuildChildren, run_bind, run_reads, slotsOf_ok h, onArena, run_zoom, nodeMut_ok hi]

theorem Valid.exists_row (h : t.Valid) (hi : t.arena.Live i) :
    ∃ row, t.slots.lookup i = some row ∧ row.reduceOption = t.arena.childrenOf i ∧
      row.length = t.width.toNat := by
  obtain ⟨row, hrow⟩ := h.agree.exists_row hi
  exact ⟨row, hrow, h.agree.children hrow, h.rows i row hrow⟩

theorem Valid.occupants (h : t.Valid) (i : NodeIndex) :
    ((t.slots.lookup i).getD []).reduceOption = t.arena.childrenOf i := by
  by_cases hi : t.arena.Live i
  · obtain ⟨row, hrow, hocc, -⟩ := h.exists_row hi
    rw [hrow]
    exact hocc
  · have hrow : t.slots.lookup i = none := by
      by_contra hne
      exact hi ((h.agree.live i).mp hne)
    rw [hrow, (h.arena.cleared hi).2.2.1]
    rfl

theorem Valid.width_pos (h : t.Valid) : 2 ≤ t.width.toNat :=
  UInt8.le_iff_toNat_le.mp (UInt8.not_lt.mp h.width)

end Slots

/-! ## 2. The search for an open slot -/

section Spillover

variable {t : MatrixTree} {start : NodeIndex}

/-- The open slot of a node. -/
def openSlot (t : MatrixTree) (x : NodeIndex) : Option (NodeIndex × Nat) :=
  (t.slots.lookup x).bind fun row => (firstEmpty row).map fun q => (x, q)

variable {down : NodeIndex → List NodeIndex} {up : NodeIndex → Option NodeIndex}

section OpenSlot

variable (hF : Forest down up)
  (hrow : ∀ x, Above up x start → ∃ row, t.slots.lookup x = some row ∧ row.reduceOption = down x ∧ 0 < row.length)
include hF hrow

theorem exists_openSlot {order : List NodeIndex} (hmem : ∀ x, x ∈ order ↔ Above up x start)
    (hpair : order.Pairwise fun x y => up x ≠ some y) : order.findSome? t.openSlot ≠ none := by
  intro hnone
  rw [findSome?_eq_none_iff] at hnone
  have hstart : start ∈ order := (hmem start).mpr .refl
  rcases eq_nil_or_concat' order with rfl | ⟨init, z, rfl⟩
  · exact absurd hstart not_mem_nil
  have hz : z ∈ init ++ [z] := mem_append_right _ (mem_singleton.mpr rfl)
  have hzq := (hmem z).mp hz
  obtain ⟨row, hlook, hocc, hlen⟩ := hrow z hzq
  -- the last node is full, so it has a child, and that child comes before it
  have hfull : firstEmpty row = none := by
    have := hnone z hz
    simpa [openSlot, hlook] using this
  have hpos : 0 < (down z).length := by
    rw [← hocc, length_of_full hfull]
    exact hlen
  obtain ⟨c, hc⟩ := exists_mem_of_length_pos hpos
  have hup := hF.mem_iff.mp hc
  have hcm : c ∈ init ++ [z] := (hmem c).mpr (.head hup hzq)
  rcases mem_append.mp hcm with hcm | hcm
  · exact (pairwise_append.mp hpair).2.2 c hcm z (mem_singleton.mpr rfl) hup
  · exact hF.ranked.ne hup (mem_singleton.mp hcm)

theorem findSpilloverSlot_eq (hlt : ∀ x, Above up x start → x < t.arena.nodes.length) :
    ∃ order, bfsOrder down (t.arena.nodes.length + 1) [start] = some order ∧
      (∀ x, x ∈ order ↔ Above up x start) ∧ t.findSpilloverSlot start = .ok (order.findSome? t.openSlot) ∧
      order.findSome? t.openSlot ≠ none := by
  obtain ⟨order, horder, -, hmem, hpair⟩ := bfsOrder_single hF (Nat.le_succ _) hlt
  refine ⟨order, horder, hmem, bfsFirst_eq (fun x hx => ?_) horder, exists_openSlot hF hrow hmem hpair⟩
  obtain ⟨row, hlook, hocc, -⟩ := hrow x ((hmem x).mp hx)
  rw [bind_ok (slotsOf_ok hlook)]
  simp only [openSlot, hlook, bind_some]
  cases firstEmpty row with
  | none => simp [hocc]
  | some q => rfl

end OpenSlot

theorem openSlot_eq_some {x p : NodeIndex} {q : Nat} (h : t.openSlot x = some (p, q)) :
    x = p ∧ ∃ row, t.slots.lookup x = some row ∧ firstEmpty row = some q := by
  obtain ⟨row, hlook, hrest⟩ := bind_eq_some_iff.mp h
  obtain ⟨q', hq', e⟩ := map_eq_some_iff.mp hrest
  cases e
  exact ⟨rfl, row, hlook, hq'⟩

/-- **The search finds an open slot below its start**, whenever what the slots hold is a forest. -/
theorem findSpilloverSlot_ok
    (hF : Forest down up) (hrow : ∀ x, Above up x start → ∃ row, t.slots.lookup x = some row ∧
      row.reduceOption = down x ∧ 0 < row.length) (hlt : ∀ x, Above up x start → x < t.arena.nodes.length) :
    ∃ p q row, t.findSpilloverSlot start = .ok (some (p, q)) ∧ Above up p start ∧
      t.slots.lookup p = some row ∧ firstEmpty row = some q := by
  obtain ⟨order, -, hmem, hrun, hsome⟩ := findSpilloverSlot_eq hF hrow hlt
  obtain ⟨⟨p, q⟩, hpq⟩ := ne_none_iff_exists'.mp hsome
  obtain ⟨x, hx, hopen⟩ := exists_of_findSome?_eq_some hpq
  obtain ⟨rfl, row, hlook, hq⟩ := openSlot_eq_some hopen
  exact ⟨x, q, row, by rw [hrun, hpq], (hmem x).mp hx, hlook, hq⟩

section Below

variable (h : t.Valid) (hs : t.arena.Live start)
include h hs

theorem Valid.row_below_start {x : NodeIndex} (hx : Above t.arena.parentOf x start) :
    ∃ row, t.slots.lookup x = some row ∧ row.reduceOption = t.arena.childrenOf x ∧ 0 < row.length := by
  obtain ⟨row, h1, h2, h3⟩ := h.exists_row (h.arena.live_below hs hx)
  exact ⟨row, h1, h2, by have := h.width_pos; omega⟩

theorem Valid.findSpilloverSlot : ∃ p q row, t.findSpilloverSlot start = .ok (some (p, q)) ∧ t.arena.Live p ∧
      Above t.arena.parentOf p start ∧ t.slots.lookup p = some row ∧ firstEmpty row = some q := by
  obtain ⟨p, q, row, hrun, hp, hrow, hq⟩ := findSpilloverSlot_ok h.arena.forest
    (fun _ hx => h.row_below_start hs hx) (fun _ hx => (h.arena.live_below hs hx).lt)
  exact ⟨p, q, row, hrun, h.arena.live_below hs hp, hp, hrow, hq⟩

end Below

end Spillover

/-! ## 3. The writes of a placement -/

section Place

variable {t : MatrixTree}

/-- What the writes of a placement leave behind: the leaf in slot `k`, in place `q` of the row that
    its parent `p` had. -/
structure Placed (t t' : MatrixTree) (k : NodeIndex) (leaf : Node) (p : NodeIndex) (q : Nat)
    (row : MatrixSlots) : Prop where
  grown : Arena.Grown t.arena t'.arena k leaf (row.set q (some k)).reduceOption
  slots : t'.slots = (t.slots.insert k t.emptySlots).insert p (row.set q (some k))
  width : t'.width = t.width
  spillover : t'.spillover = t.spillover
  tank : t'.holdingTank = t.holdingTank

variable {leaf : Node} {p : NodeIndex} {row : MatrixSlots} {q : Nat}

theorem placeNode_ok (h : t.arena.Valid) (hp : leaf.parent = some p) (hpl : t.arena.Live p)
    (hsl : ∀ {s}, leaf.sponsor = some s → t.arena.Live s) (hrow : t.slots.lookup p = some row) (hq : row[q]? = some none) :
    ∃ k t', (placeNode leaf p q).run t = .ok k t' ∧ Placed t t' k leaf p q row := by
  obtain ⟨a, k, hrun, al⟩ := allocSlot_ok (ε := TreeError) h.free_freed h.free_nodup leaf
  have hpk : p ≠ k := fun e => al.fresh (e ▸ hpl)
  have hql : q < row.length := (List.getElem?_eq_some_iff.mp hq).1
  have g := grown_node al hp hpl hsl fun _ => (row.set q (some k)).reduceOption
  let t1 : MatrixTree :=
    { t with arena := a.indexInsert leaf.userId k, slots := t.slots.insert k t.emptySlots }
  let base : Arena := (a.indexInsert leaf.userId k).upd p fun n =>
    { n with children := (row.set q (some k)).reduceOption }
  let t' : MatrixTree := { t with
    arena := leaf.sponsor.elim base fun s => base.upd s fun n => { n with sponsored := n.sponsored ++ [k] }
    slots := (t.slots.insert k t.emptySlots).insert p (row.set q (some k)) }
  have hlook : t1.slots.lookup p = some row := (lookup_insert_ne hpk).trans hrow
  have hpl' : (a.indexInsert leaf.userId k).Live p := al.live hpl
  have r1 : (setSlot p q (some k)).run t1 = .ok () (t1.insertSlots p (row.set q (some k))) :=
    setSlot_ok hlook hql _
  have r2 : (rebuildChildren p).run (t1.insertSlots p (row.set q (some k))) =
      .ok () { t1.insertSlots p (row.set q (some k)) with arena := base } :=
    rebuildChildren_ok (lookup_insert _) hpl'
  have r3 : (joinSponsor leaf.sponsor k).run
      { t1.insertSlots p (row.set q (some k)) with arena := base } = .ok () t' := by
    cases hs : leaf.sponsor with
    | none => simp only [joinSponsor, run_pure, t', hs]; rfl
    | some s =>
      have hsl' : base.Live s := by
        show (nodeAt _ s).userId ≠ _
        rw [nodeAt_upd hpl'.lt]
        split <;> exact al.live (hsl hs)
      simp only [joinSponsor, onArena, run_zoom, nodeMut_ok hsl', t', hs]
      rfl
  refine ⟨k, t', ?_, ⟨g, rfl, rfl, rfl, rfl⟩⟩
  have e1 : MatrixTree.insertSlots { t with arena := a.indexInsert leaf.userId k } k
    (MatrixTree.emptySlots { t with arena := a.indexInsert leaf.userId k }) = t1 := rfl
  simp only [placeNode, run_bind, onArena, run_zoom, hrun, run_modify, e1, r1, r2, r3, run_pure]

variable {k : NodeIndex} {tank : List HoldingTankEntry}

/-- A placement keeps the arena, the slots and the widths in order. -/
theorem Placed.valid {t' : MatrixTree} (pl : Placed t t' k leaf p q row) (h : t.Valid)
    (hl : Leaf t.arena leaf) (hp : leaf.parent = some p)
    (hrow : t.slots.lookup p = some row) (hq : row[q]? = some none)
    (htank : TankOk t'.arena tank) (ht : t'.holdingTank = tank) : t'.Valid := by
  have hocc : row.reduceOption = t.arena.childrenOf p := h.agree.children hrow
  have hk : k ∉ row.reduceOption := by
    rw [hocc]
    exact fun hmem => pl.grown.fresh (h.arena.live_child hmem)
  refine
    { width := pl.width ▸ h.width
      spillover := pl.spillover ▸ h.spillover
      arena := pl.grown.valid h.arena hl (fun p' hp' y => ?_) fun _ => ?_
      agree := ?_
      rows := fun i c hc => ?_
      tank := ht ▸ htank }
  · rw [hp] at hp'
    cases hp'
    rw [mem_fill hq, hocc]
  · exact nodup_fill hq hk (hocc ▸ h.arena.placed.nodup p)
  · rw [pl.slots]
    exact h.agree.insert_node pl.grown hl hp (by simp [emptySlots])
  · rw [pl.slots] at hc
    rw [pl.width]
    by_cases hip : i = p
    · subst hip
      rw [lookup_insert] at hc
      cases hc
      rw [length_set]
      exact h.rows i row hrow
    · rw [lookup_insert_ne hip] at hc
      by_cases hik : i = k
      · subst hik
        rw [lookup_insert] at hc
        cases hc
        simp [emptySlots]
      · rw [lookup_insert_ne hik] at hc
        exact h.rows i c hc

/-- The tank stays sound when a user who is not in it is placed. -/
theorem TankOk.grown {a a' : Arena} (h : TankOk a tank)
    {kids : List NodeIndex} (g : Grown a a' k leaf kids)
    (hnot : ∀ e ∈ tank, e.userId ≠ leaf.userId) : TankOk a' tank where
  user := h.user
  sponsor := h.sponsor
  absent e he := by
    rw [g.index, lookup_insert_ne (hnot e he)]
    exact h.absent e he
  nodup := h.nodup
  chains := h.chains

theorem inTank_eq_false {u : Uuid} : t.inTank u = false ↔ ∀ e ∈ t.holdingTank, e.userId ≠ u := by
  simp [inTank]

end Place

/-! ## 4. What the placements do -/

section Specs

variable {t : MatrixTree} {u : Uuid}

theorem checkAddRoot_eq_ok : t.checkAddRoot u = .ok () ↔
    t.arena.checkAddRoot u = .ok () ∧ ∀ e ∈ t.holdingTank, e.userId ≠ u := by
  simp only [checkAddRoot, seq_eq_ok, stopIf_eq_ok, Bool.not_eq_true, inTank_eq_false]

theorem checkAddRoot_safe : Query.Safe (t.checkAddRoot u) :=
  (Arena.checkAddRoot_safe _ _).bind fun _ _ => safe_stopIf _

theorem addRoot_spec (h : t.Valid) (hc : t.checkAddRoot u = .ok ()) (e : Int) :
    ∃ k t', (addRoot u e).run t = .ok k t' ∧ Grown t.arena t'.arena k (Node.leaf u none none 0 e) [] ∧
      t'.slots = t.slots.insert k t.emptySlots ∧ t'.width = t.width ∧
      t'.holdingTank = t.holdingTank ∧ t'.Valid := by
  obtain ⟨hc', htank⟩ := checkAddRoot_eq_ok.mp hc
  obtain ⟨a, k, hrun, g, hv⟩ := h.arena.addRoot hc' e
  let t' : MatrixTree := { t with
    arena := { a.indexInsert u k with root := some k }
    slots := t.slots.insert k t.emptySlots }
  refine ⟨k, t', ?_, g, rfl, rfl, rfl, h.width, h.spillover, hv,
    h.agree.insert_root g (leaf_root hc') rfl (by simp [emptySlots]), fun i row hrow => ?_, h.tank.grown g htank⟩
  · simp only [addRoot, run_bind, run_reads, hc, onArena, run_zoom, hrun, run_modify, run_pure]
    rfl
  · by_cases hi : i = k
    · subst hi
      rw [lookup_insert] at hrow
      cases hrow
      exact length_replicate
    · rw [lookup_insert_ne hi] at hrow
      exact h.rows i row hrow

variable {row : MatrixSlots} {q : Nat}

theorem placeAt_eq_ok {place : Option NodeIndex} : placeAt row q = .ok place ↔ row[q]? = some place := by
  unfold placeAt
  split <;> simp_all

variable {p : NodeIndex} {position : UInt8}

theorem Valid.placeAt_safe (h : t.Valid) (hp : t.arena.Live p)
    (hpos : ¬ t.width ≤ position) {β : Type} {f : Option NodeIndex → Query TreeError β}
    (hf : ∀ place, Query.Safe (f place)) :
    Query.Safe (t.slotsOf p >>= fun row => placeAt row position.toNat >>= f) := by
  obtain ⟨row, hrow, -, hlen⟩ := h.exists_row hp
  have hlt : position.toNat < row.length := by
    rw [hlen]
    exact UInt8.lt_iff_toNat_lt.mp (UInt8.not_le.mp hpos)
  rw [bind_ok (slotsOf_ok hrow), bind_ok (placeAt_eq_ok.mpr (getElem?_eq_getElem hlt))]
  exact hf _

variable {sponsorId parentId : Uuid}

theorem checkAddNodeAt_eq_ok (hc : t.checkAddNodeAt u sponsorId parentId position = .ok ()) :
    u ≠ Uuid.nil ∧ t.arena.index.lookup u = none ∧ (∀ e ∈ t.holdingTank, e.userId ≠ u) ∧
      ∃ p s row, t.arena.index.lookup parentId = some p ∧ t.arena.index.lookup sponsorId = some s ∧
        t.slots.lookup p = some row ∧ row[position.toNat]? = some none := by
  simp only [checkAddNodeAt, checkUserId, bind_eq_ok, stopIf_eq_ok,
    resolve_eq_ok, resolveSponsor_eq_ok, placeAt_eq_ok, Bool.not_eq_true, inTank_eq_false] at hc
  obtain ⟨_, hu, _, -, _, -, _, hn, _, ht, p, hp, s, hs, row, hrow, place, hplace, hnone⟩ := hc
  refine ⟨hu, by simpa using hn, ht, p, s, row, hp, hs, ?_, ?_⟩
  · unfold slotsOf at hrow
    split at hrow
    · cases hrow
      assumption
    · cases hrow
  · rw [hplace]
    simpa using hnone

theorem Valid.checkAddNodeAt_safe (h : t.Valid) (sponsorId parentId : Uuid) (position : UInt8) :
    Query.Safe (t.checkAddNodeAt u sponsorId parentId position) := by
  refine (safe_stopIf _).bind fun _ _ => (safe_stopIf _).bind fun _ _ =>
    (safe_stopIf _).bind fun _ hpos => (safe_stopIf _).bind fun _ _ =>
      (safe_stopIf _).bind fun _ _ => (resolve_safe _).bind fun p hp =>
        (resolveSponsor_safe _).bind fun _ _ => ?_
  exact h.placeAt_safe (h.arena.live_of_lookup (resolve_eq_ok.mp hp))
    (stopIf_eq_ok.mp hpos) fun _ => safe_stopIf _

theorem addNodeAt_run [Build] (h : t.arena.Valid)
    (hc : t.checkAddNodeAt u sponsorId parentId position = .ok ()) {p s : NodeIndex}
    (hp : t.arena.index.lookup parentId = some p) (hs : t.arena.index.lookup sponsorId = some s)
    (hrow : t.slots.lookup p = some row) (hq : row[position.toNat]? = some none) {d : Nat}
    (hd : deeper (ε := TreeError) (t.arena.nodeAt p).depth = .ok d) (e : Int) :
    ∃ k t', (addNodeAt u sponsorId parentId position e).run t = .ok k t' ∧
      Placed t t' k (Node.leaf u (some p) (some s) d e) p position.toNat row := by
  have hpl := h.live_of_lookup hp
  have hparent : (Node.leaf u (some p) (some s) d e).parent = some p := rfl
  obtain ⟨k, t', hrun, pl⟩ := placeNode_ok h hparent hpl
    (fun e => some.inj e ▸ h.live_of_lookup hs) hrow hq
  refine ⟨k, t', ?_, pl⟩
  simp only [addNodeAt, run_bind, run_reads, hc, resolve_eq_ok.mpr hp, resolve_eq_ok.mpr hs, node_ok hpl, hd, hrun]

theorem addNodeAt_spec [Build] (h : t.Valid) (hroom : t.arena.Roomy)
    (hc : t.checkAddNodeAt u sponsorId parentId position = .ok ()) (e : Int) :
    ∃ k t' p s row, t.arena.index.lookup parentId = some p ∧ t.arena.index.lookup sponsorId = some s ∧
      (addNodeAt u sponsorId parentId position e).run t = .ok k t' ∧
      Placed t t' k (Node.leaf u (some p) (some s) ((t.arena.nodeAt p).depth + 1) e) p
        position.toNat row ∧ t.slots.lookup p = some row ∧ row[position.toNat]? = some none ∧ t'.Valid := by
  obtain ⟨hu, hn, htank, p, s, row, hp, hs, hrow, hq⟩ := checkAddNodeAt_eq_ok hc
  have hpl := h.arena.live_of_lookup hp
  have hl : Leaf t.arena (Node.leaf u (some p) (some s) ((t.arena.nodeAt p).depth + 1) e) :=
    leaf_node hu hn hpl fun _ e => some.inj e ▸ h.arena.live_of_lookup hs
  obtain ⟨k, t', hrun, pl⟩ := addNodeAt_run h.arena hc hp hs hrow hq (h.arena.deeper_ok hroom hpl) e
  exact ⟨k, t', p, s, row, hp, hs, hrun, pl, hrow, hq,
    pl.valid h hl rfl hrow hq (h.tank.grown pl.grown htank) pl.tank⟩

variable {s : NodeIndex}

theorem checkAddNode_eq_ok : t.checkAddNode u sponsorId = .ok s ↔ u ≠ Uuid.nil ∧ t.arena.root ≠ none ∧
      t.arena.index.lookup u = none ∧ (∀ e ∈ t.holdingTank, e.userId ≠ u) ∧
      t.arena.index.lookup sponsorId = some s := by
  simp [checkAddNode, checkUserId, seq_eq_ok, resolveSponsor_eq_ok, inTank_eq_false]

theorem checkAddNode_safe (sponsorId : Uuid) : Query.Safe (t.checkAddNode u sponsorId) :=
  (safe_stopIf _).bind fun _ _ => (safe_stopIf _).bind fun _ _ =>
    (safe_stopIf _).bind fun _ _ => (safe_stopIf _).bind fun _ _ => resolveSponsor_safe _

theorem addNode_at [Build] (h : t.Valid) (hroom : t.arena.Roomy)
    (hc : t.checkAddNode u sponsorId = .ok s) (hfind : t.findSpilloverSlot s = .ok (some (p, q)))
    (hpl : t.arena.Live p) (hrow : t.slots.lookup p = some row) (hq : firstEmpty row = some q)
    (e : Int) : ∃ k t', (addNode u sponsorId e).run t = .ok k t' ∧
      Placed t t' k (Node.leaf u (some p) (some s) ((t.arena.nodeAt p).depth + 1) e) p q row ∧ t'.Valid := by
  obtain ⟨hu, -, hn, htank, hs⟩ := checkAddNode_eq_ok.mp hc
  have hsl := h.arena.live_of_lookup hs
  have hempty := firstEmpty_eq_some hq
  have hl : Leaf t.arena (Node.leaf u (some p) (some s) ((t.arena.nodeAt p).depth + 1) e) :=
    leaf_node hu hn hpl fun _ e => some.inj e ▸ hsl
  obtain ⟨k, t', hrun, pl⟩ := placeNode_ok h.arena rfl hpl hl.sponsor hrow hempty
  refine ⟨k, t', ?_, pl, pl.valid h hl rfl hrow hempty (h.tank.grown pl.grown htank) pl.tank⟩
  simp only [addNode, run_bind, run_reads, hc, hfind, node_ok hpl, h.arena.deeper_ok hroom hpl, hrun]

theorem addNode_spec [Build] (h : t.Valid) (hroom : t.arena.Roomy) (hc : t.checkAddNode u sponsorId = .ok s)
    (e : Int) :
    ∃ k t' p q row, (addNode u sponsorId e).run t = .ok k t' ∧
      Placed t t' k (Node.leaf u (some p) (some s) ((t.arena.nodeAt p).depth + 1) e) p q row ∧
      Above t.arena.parentOf p s ∧ t.slots.lookup p = some row ∧ firstEmpty row = some q ∧ t'.Valid := by
  have hsl := h.arena.live_of_lookup (checkAddNode_eq_ok.mp hc).2.2.2.2
  obtain ⟨p, q, row, hfind, hpl, hab, hrow, hq⟩ := h.findSpilloverSlot hsl
  obtain ⟨k, t', hrun, pl, hv⟩ := addNode_at h hroom hc hfind hpl hrow hq e
  exact ⟨k, t', p, q, row, hrun, pl, hab, hrow, hq, hv⟩

variable {a : Arena} {tank : List HoldingTankEntry}

theorem TankOk.sublist {tank' : List HoldingTankEntry} (h : TankOk a tank)
    (hsub : tank'.Sublist tank) : TankOk a tank' where
  user e hm := h.user e (hsub.mem hm)
  sponsor e hm := h.sponsor e (hsub.mem hm)
  absent e hm := h.absent e (hsub.mem hm)
  nodup := h.nodup.sublist (hsub.map _)
  chains := h.chains.mono fun x y hxy => by
    obtain ⟨e, hm, rfl, hs⟩ := tankLink_eq_some hxy
    rw [tankLink_of_mem h.nodup (hsub.mem hm), hs]

variable {pos : Nat} {entry : HoldingTankEntry}

theorem TankOk.eraseIdx_ne (h : TankOk a tank) (he : tank[pos]? = some entry) :
    ∀ e ∈ tank.eraseIdx pos, e.userId ≠ entry.userId := by
  intro e hmem hue
  obtain ⟨hpos, hget⟩ := List.getElem?_eq_some_iff.mp he
  have hperm : (entry :: tank.eraseIdx pos).Perm tank := by
    rw [← hget]
    exact getElem_cons_eraseIdx_perm hpos
  have hnd := (hperm.map HoldingTankEntry.userId).nodup_iff.mpr h.nodup
  rw [map_cons, nodup_cons] at hnd
  exact hnd.1 (hue ▸ mem_map_of_mem hmem)

theorem checkPlaceFromTank_eq_ok (hc : t.checkPlaceFromTank u parentId position = .ok (p, pos, entry)) :
    u ≠ Uuid.nil ∧ t.arena.index.lookup parentId = some p ∧
      (∃ row, t.slots.lookup p = some row ∧ row[position.toNat]? = some none) ∧
      t.holdingTank[pos]? = some entry ∧ entry.userId = u ∧
      ∀ s, entry.sponsorUserId = some s → ∀ e ∈ t.holdingTank, e.userId ≠ s := by
  simp only [checkPlaceFromTank, checkUserId, bind_eq_ok, stopIf_eq_ok,
    resolve_eq_ok, placeAt_eq_ok] at hc
  obtain ⟨_, hu, _, -, p', hp, row, hrow, place, hplace, _, hnone, hrest⟩ := hc
  have hrow : t.slots.lookup p' = some row := by
    unfold slotsOf at hrow
    split at hrow
    · cases hrow
      assumption
    · cases hrow
  have hempty : row[position.toNat]? = some none := by
    rw [hplace]
    simpa using hnone
  split at hrest
  · cases hrest
  · rename_i tankPos htp
    obtain ⟨hlt, huser, -⟩ := findIdx?_eq_some_iff_getElem.mp htp
    split at hrest
    · cases hrest
    · rename_i entry' hent
      obtain ⟨hs, hok⟩ := seq_eq_ok.mp hrest
      cases hok
      have hue : entry.userId = u := by
        rw [getElem?_eq_getElem hlt] at hent
        cases hent
        simpa using huser
      refine ⟨hu, hp, ⟨row, hrow, hempty⟩, hent, hue, fun s hs' => ?_⟩
      simpa [checkTankSponsor, hs', inTank_eq_false] using hs

theorem Valid.checkPlaceFromTank_safe (h : t.Valid) (parentId : Uuid) (position : UInt8) :
    Query.Safe (t.checkPlaceFromTank u parentId position) := by
  refine (safe_stopIf _).bind fun _ _ => (safe_stopIf _).bind fun _ hpos =>
    (resolve_safe _).bind fun p hp => ?_
  refine h.placeAt_safe (h.arena.live_of_lookup (resolve_eq_ok.mp hp))
    (stopIf_eq_ok.mp hpos) fun _ => (safe_stopIf _).bind fun _ _ => ?_
  cases hf : t.holdingTank.findIdx? fun e => e.userId = u with
  | none => exact safe_err _
  | some pos =>
    obtain ⟨hlt, -⟩ := findIdx?_eq_some_iff_getElem.mp hf
    simp only [getElem?_eq_getElem hlt]
    refine Query.Safe.bind ?_ fun _ _ => safe_ok _
    unfold checkTankSponsor
    split
    · exact safe_ok _
    · exact safe_stopIf _

theorem placeFromTank_spec [Build] (h : t.Valid) (hroom : t.arena.Roomy)
    (hc : t.checkPlaceFromTank u parentId position = .ok (p, pos, entry)) :
    ∃ k t' row, (placeFromTank u parentId position).run t = .ok () t' ∧
      Placed { t with holdingTank := t.holdingTank.eraseIdx pos } t' k
        (Node.leaf u (some p) (entry.sponsorUserId.bind t.arena.index.lookup)
          ((t.arena.nodeAt p).depth + 1) entry.enrolledAt) p position.toNat row ∧
      t.slots.lookup p = some row ∧ row[position.toNat]? = some none ∧ t'.Valid := by
  obtain ⟨hu, hp, ⟨row, hrow, hq⟩, hent, hue, -⟩ := checkPlaceFromTank_eq_ok hc
  have hpl := h.arena.live_of_lookup hp
  have hmem := mem_of_getElem? hent
  have hn : t.arena.index.lookup u = none := hue ▸ h.tank.absent entry hmem
  let t1 : MatrixTree := { t with holdingTank := t.holdingTank.eraseIdx pos }
  have hl : Leaf t1.arena (Node.leaf u (some p)
      (entry.sponsorUserId.bind t.arena.index.lookup) ((t.arena.nodeAt p).depth + 1)
      entry.enrolledAt) := by
    refine leaf_node hu hn hpl fun s hs => ?_
    obtain ⟨v, _, hv⟩ := bind_eq_some_iff.mp hs
    exact h.arena.live_of_lookup hv
  obtain ⟨k, t', hrun, pl⟩ := placeNode_ok (t := t1) h.arena rfl hpl hl.sponsor hrow hq
  refine ⟨k, t', row, ?_, pl, hrow, hq, ?_⟩
  · simp only [placeFromTank, run_bind, run_reads, hc, run_modify, run_get, node_ok hpl,
      h.arena.deeper_ok hroom hpl]
    rw [hrun]
    rfl
  · have htank := h.tank.sublist (eraseIdx_sublist t.holdingTank pos)
    have h1 : t1.Valid := ⟨h.width, h.spillover, h.arena, h.agree, h.rows, htank⟩
    have hne : ∀ e ∈ t.holdingTank.eraseIdx pos, e.userId ≠ u := hue ▸ h.tank.eraseIdx_ne hent
    exact pl.valid h1 hl rfl hrow hq (htank.grown pl.grown hne) pl.tank

end Specs

end MatrixTree

end MlmForge.Engine
