/-
  Subject:   What a split keeps of the tree of a full board.

  A split walks the subtree of every child of the top, and seats the members it meets in that order.
  The order is the numbering of a smaller complete tree:

  * **`subtreeIndices_eq`** -- the walk over a child's subtree lists the origins in turn, and has the
    size of a complete tree that is one level lower;
  * **`split_preserves_structure`** -- every member but the top is seated once, from the front, under the
    parent they had and at the same rank.
-/
import MlmForge.BoardPlan.Runs

namespace MlmForge.BoardPlan

open Engine List Call AList

/-! ## 1. The size of a complete tree -/

theorem sumLevels_scale (w : Nat) : ∀ levels a total levelSize,
    sumLevels w levels (a + w * total) (w * levelSize) = a + w * sumLevels w levels total levelSize
  | 0, _, _, _ => rfl
  | levels + 1, a, total, levelSize => by
      rw [sumLevels, sumLevels, ← sumLevels_scale w levels a (total + levelSize) (levelSize * w),
        Nat.mul_add, Nat.add_assoc, Nat.mul_assoc]

theorem totalPositions_succ (w h : Nat) : totalPositions w (h + 1) = w * totalPositions w h + 1 := by
  have hscale := sumLevels_scale w (h + 1) 1 0 1
  rw [Nat.mul_zero, Nat.mul_one, Nat.add_zero] at hscale
  rw [totalPositions, sumLevels, Nat.zero_add, Nat.one_mul, hscale, Nat.add_comm]
  rfl

theorem totalPositions_pos (w h : Nat) : 0 < totalPositions w h := by
  cases h with
  | zero => exact Nat.one_pos
  | succ h =>
    rw [totalPositions_succ]
    exact Nat.succ_pos _

/-! ## 2. The walk over a child's subtree -/

/-- The old position that position `index` of the board of child `c` comes from. -/
def origin (w c : Nat) : Nat → Nat
  | 0 => c
  | index + 1 => w * origin w c (index / w) + 1 + index % w
  termination_by index => index
  decreasing_by exact Nat.lt_succ_of_le (Nat.div_le_self _ _)

section Walk

variable {w c h : Nat} {index r : Nat}

theorem origin_child (hr : r < w) : origin w c (w * index + 1 + r) = w * origin w c index + 1 + r := by
  have hform : w * index + 1 + r = (r + w * index) + 1 := by omega
  rw [hform, origin, Nat.add_mul_div_left _ _ (by omega), Nat.add_mul_mod_self_left,
    Nat.div_eq_of_lt hr, Nat.mod_eq_of_lt hr, Nat.zero_add]

theorem map_origin_children :
    (childIndices index w).map (origin w c) = childIndices (origin w c index) w := by
  refine ext_getElem (by simp [childIndices]) fun r hr _ => ?_
  have hrw : r < w := by simpa [childIndices] using hr
  simp only [childIndices, getElem_map, getElem_range', Nat.one_mul]
  exact origin_child hrw

theorem origin_pos (hc : 1 ≤ c) (index : Nat) : 1 ≤ origin w c index := by
  cases index with
  | zero =>
    rw [origin]
    exact hc
  | succ index =>
    rw [origin]
    omega

/-- **The origins that the old board has are those of the positions of a tree one level lower.** -/
theorem origin_le_iff (hc : 1 ≤ c ∧ c ≤ w) : ∀ (h index : Nat),
    origin w c index ≤ w * totalPositions w h ↔ index < totalPositions w h := by
  intro h
  induction h with
  | zero =>
    intro index
    have hone : totalPositions w 0 = 1 := rfl
    rw [hone, Nat.mul_one]
    cases index with
    | zero =>
      rw [origin]
      exact iff_of_true hc.2 Nat.one_pos
    | succ index =>
      have hle := Nat.mul_le_mul_left w (origin_pos (w := w) hc.1 (index / w))
      rw [origin]
      exact iff_of_false (by omega) (by omega)
  | succ h ih =>
    intro index
    rw [totalPositions_succ]
    cases index with
    | zero =>
      rw [origin, Nat.mul_add, Nat.mul_one]
      exact iff_of_true (by omega) (Nat.succ_pos _)
    | succ index =>
      have hmod := Nat.mod_lt index (show 0 < w by omega)
      calc origin w c (index + 1) ≤ w * (w * totalPositions w h + 1)
          ↔ origin w c (index / w) ≤ w * totalPositions w h := by
            rw [origin, Nat.mul_add w (w * totalPositions w h), Nat.mul_one]
            constructor
            · intro hle
              by_contra hlt
              have := Nat.mul_le_mul_left w (Nat.not_le.mp hlt)
              rw [Nat.mul_succ] at this
              omega
            · intro hle
              have := Nat.mul_le_mul_left w hle
              omega
        _ ↔ index / w < totalPositions w h := ih (index / w)
        _ ↔ index < w * totalPositions w h := by
            rw [Nat.div_lt_iff_lt_mul (by omega), Nat.mul_comm]
        _ ↔ index + 1 < w * totalPositions w h + 1 := Nat.add_lt_add_iff_right.symm

theorem filter_lt_range' {start len bound : Nat} :
    (range' start len).filter (· < bound) = range' start (min len (bound - start)) := by
  induction len generalizing start with
  | zero => simp
  | succ len ih =>
    rw [range'_succ, filter_cons, ih]
    by_cases hlt : start < bound
    · have hmin : min (len + 1) (bound - start) = min len (bound - (start + 1)) + 1 := by omega
      rw [if_pos (by simpa using hlt), hmin, range'_succ]
    · have hmin : min len (bound - (start + 1)) = 0 := by omega
      have hmin' : min (len + 1) (bound - start) = 0 := by omega
      rw [if_neg (by simpa using hlt), hmin, hmin']
      rfl

theorem childrenUpTo_origin (hc : 1 ≤ c ∧ c ≤ w) (index : Nat) :
    childrenUpTo w (w * totalPositions w h) (origin w c index) =
      (range' (w * index + 1) (min w (totalPositions w h - (w * index + 1)))).map (origin w c) := by
  rw [childrenUpTo, ← map_origin_children, filter_map, ← filter_lt_range']
  congr 1
  refine filter_congr fun j _ => ?_
  exact decide_eq_decide.mpr (origin_le_iff hc h j)

/-- The walk from the moment that it has met `index` positions: the queue holds the origins from there
    to the last child of those it has met. -/
theorem bfsOrder_origin (hc : 1 ≤ c ∧ c ≤ w) : ∀ (n index : Nat),
    index ≤ totalPositions w h → totalPositions w h ≤ index + n →
    bfsOrder (childrenUpTo w (w * totalPositions w h)) n
        ((range' index (min (w * index + 1) (totalPositions w h) - index)).map (origin w c)) =
      some ((range' index (totalPositions w h - index)).map (origin w c)) := by
  intro n
  induction n with
  | zero =>
    intro index hle hn
    have hindex : index = totalPositions w h := by omega
    subst hindex
    have hzero : min (w * totalPositions w h + 1) (totalPositions w h) - totalPositions w h = 0 := by
      omega
    rw [hzero, Nat.sub_self]
    rfl
  | succ n ih =>
    intro index hle hn
    by_cases hlast : index = totalPositions w h
    · subst hlast
      have hzero : min (w * totalPositions w h + 1) (totalPositions w h) - totalPositions w h = 0 := by
        omega
      rw [hzero, Nat.sub_self]
      rfl
    · have hwi : index ≤ w * index := Nat.le_mul_of_pos_left _ (by omega)
      -- the queue is not empty, and behind its head are the next ones up to the last child of the head
      obtain ⟨k, hk⟩ : ∃ k, min (w * index + 1) (totalPositions w h) - index = k + 1 :=
        ⟨min (w * index + 1) (totalPositions w h) - index - 1, by omega⟩
      obtain ⟨m, hm⟩ : ∃ m, totalPositions w h - index = m + 1 := ⟨totalPositions w h - index - 1, by omega⟩
      have hrest : (range' (index + 1) k).map (origin w c) ++
            childrenUpTo w (w * totalPositions w h) (origin w c index) =
          (range' (index + 1)
            (min (w * (index + 1) + 1) (totalPositions w h) - (index + 1))).map (origin w c) := by
        rw [childrenUpTo_origin hc, ← map_append]
        congr 1
        rw [Nat.mul_succ]
        by_cases hfull : w * index + 1 ≤ totalPositions w h
        · have hstart : w * index + 1 = index + 1 + 1 * k := by omega
          rw [hstart, range'_append]
          congr 1
          omega
        · have hnone : min w (totalPositions w h - (w * index + 1)) = 0 := by omega
          rw [hnone, range'_zero, append_nil]
          congr 1
          omega
      rw [hk, hm, range'_succ, map_cons, bfsOrder, hrest, ih (index + 1) (by omega) (by omega),
        range'_succ, map_cons]
      have hm' : totalPositions w h - (index + 1) = m := by omega
      rw [hm']
      rfl

/-- **The walk over the subtree of a child of the top** lists the origins of a complete tree that is one
    level lower. -/
theorem subtreeIndices_eq (hc : 1 ≤ c ∧ c ≤ w) : subtreeIndices c w (totalPositions w (h + 1) - 1) =
      some ((range (totalPositions w h)).map (origin w c)) := by
  have hpos := totalPositions_pos w h
  have hle : totalPositions w h ≤ w * totalPositions w h := Nat.le_mul_of_pos_left _ (by omega)
  have hroot : c ≤ w * totalPositions w h := by
    have := Nat.mul_le_mul_left w hpos
    omega
  have hwalk := bfsOrder_origin (h := h) hc (w * totalPositions w h + 1) 0 (Nat.zero_le _) (by omega)
  have hone : min (w * 0 + 1) (totalPositions w h) - 0 = 1 := by omega
  rw [hone, Nat.sub_zero, range'_one, map_singleton, origin] at hwalk
  rw [totalPositions_succ, Nat.add_sub_cancel, subtreeIndices, if_neg (Nat.not_lt.mpr hroot), hwalk,
    range_eq_range']

theorem getElem?_origins {total j i : Nat} :
    ((range total).map (origin w c))[j]? = some i ↔ j < total ∧ origin w c j = i := by
  rw [getElem?_map, Option.map_eq_some_iff]
  constructor
  · intro hx
    obtain ⟨k, hk, horigin⟩ := hx
    obtain ⟨hlt, rfl⟩ := List.getElem?_eq_some_iff.mp hk
    rw [getElem_range] at horigin
    exact ⟨by simpa using hlt, horigin⟩
  · intro hx
    exact ⟨j, by rw [getElem?_range hx.1], hx.2⟩

theorem getElem?_childIndices {x : Nat} :
    (childIndices index w)[r]? = some x ↔ r < w ∧ w * index + 1 + r = x := by
  rw [childIndices, List.getElem?_eq_some_iff]
  simp only [length_range', getElem_range', Nat.one_mul, exists_prop]

/-- **A position whose parent is not the top keeps it, and its rank below it.** -/
theorem origin_parent (hc : 1 ≤ c ∧ c ≤ w) {total j i p : Nat}
    (hj : ((range total).map (origin w c))[j]? = some i) (hp : parentIndex i w = some p) (htop : p ≠ 0) :
    ∃ a, parentIndex j w = some a ∧ ((range total).map (origin w c))[a]? = some p ∧
      ∀ r : Nat, (childIndices p w)[r]? = some i ↔ (childIndices a w)[r]? = some j := by
  obtain ⟨hlt, rfl⟩ := getElem?_origins.mp hj
  cases j with
  | zero =>
    -- a child of the top has the top for a parent
    rw [origin, parentIndex, if_neg (by omega), Nat.div_eq_of_lt (by omega)] at hp
    exact absurd (Option.some.inj hp).symm htop
  | succ k =>
    have hmod := Nat.mod_lt k (show 0 < w by omega)
    have hdiv := Nat.div_add_mod k w
    have hle := Nat.div_le_self k w
    rw [origin, parentIndex, if_neg (by omega)] at hp
    have hparent : w * origin w c (k / w) + 1 + k % w - 1 = k % w + w * origin w c (k / w) := by omega
    rw [hparent, Nat.add_mul_div_left _ _ (by omega), Nat.div_eq_of_lt hmod, Nat.zero_add] at hp
    cases hp
    refine ⟨k / w, by rw [parentIndex, if_neg (by omega), Nat.add_sub_cancel],
      getElem?_origins.mpr ⟨by omega, rfl⟩, fun r => ?_⟩
    rw [getElem?_childIndices, getElem?_childIndices, origin]
    omega

end Walk

/-! ## 3. The subtrees of all children -/

/-- The walks over the subtrees of the children of the top: each ends, all have the same size, and
    together they meet every position below the top once. -/
structure Subtrees (w total : Nat) (orders : List (List Nat)) : Prop where
  walks : List.Forall₂ (fun c order => subtreeIndices c w (total - 1) = some order)
    (range' 1 w) orders
  size : ∀ order ∈ orders, order.length = (total - 1) / w
  parted : orders.flatten.Perm (range' 1 (total - 1))

/-- The walks over the subtrees of the children. -/
def childOrders (w h : Nat) : List (List Nat) :=
  (range' 1 w).map fun c => (range (totalPositions w h)).map (origin w c)

theorem mem_childOrders {w h : Nat} {order : List Nat} (ho : order ∈ childOrders w h) :
    ∃ c, (1 ≤ c ∧ c ≤ w) ∧ order = (range (totalPositions w h)).map (origin w c) := by
  obtain ⟨c, hc, rfl⟩ := mem_map.mp ho
  have hrange := mem_range'_1.mp hc
  exact ⟨c, by omega, rfl⟩

/-- **The subtrees of the children divide the positions below the top evenly.** -/
theorem subtrees_childOrders {w : Nat} (hw : 0 < w) (h : Nat) :
    Subtrees w (totalPositions w (h + 1)) (childOrders w h) := by
  have hspec : ∀ c, 1 ≤ c ∧ c ≤ w → ((range (totalPositions w h)).map (origin w c)).Nodup ∧
      ∀ i, i ∈ (range (totalPositions w h)).map (origin w c) ↔
        Above (parentUpTo w (totalPositions w (h + 1) - 1)) i c := by
    intro c hc
    have hwt : w < totalPositions w (h + 1) := width_lt_totalPositions (by omega)
    obtain ⟨order, horder, hnd, hmem⟩ :=
      subtreeIndices_spec (w := w) (r := c) (m := totalPositions w (h + 1) - 1) hw (by omega)
    rw [subtreeIndices_eq hc] at horder
    cases horder
    exact ⟨hnd, hmem⟩
  have hwt : w < totalPositions w (h + 1) := width_lt_totalPositions (by omega)
  refine ⟨?_, fun order ho => ?_, ?_⟩
  · rw [childOrders, forall₂_map_right_iff, forall₂_same]
    intro c hc
    have hrange := mem_range'_1.mp hc
    exact subtreeIndices_eq (by omega)
  · obtain ⟨c, -, rfl⟩ := mem_childOrders ho
    rw [totalPositions_succ, Nat.add_sub_cancel, Nat.mul_div_cancel_left _ hw, length_map, length_range]
  · refine (perm_ext_iff_of_nodup ?_ nodup_range').mpr fun i => ?_
    · rw [childOrders, nodup_flatten, pairwise_map]
      constructor
      · intro order ho
        obtain ⟨c, hc, rfl⟩ := mem_childOrders ho
        exact (hspec c hc).1
      · refine List.Pairwise.imp_of_mem (fun {c d} hc hd hne => ?_) (nodup_range' : (range' 1 w).Nodup)
        have hcr := mem_range'_1.mp hc
        have hdr := mem_range'_1.mp hd
        intro i hi hj
        exact hne (subtree_unique (by omega) (by omega) (by omega)
          (((hspec c (by omega)).2 i).mp hi) (((hspec d (by omega)).2 i).mp hj))
    · rw [mem_flatten, mem_range'_1]
      constructor
      · intro hi
        obtain ⟨order, ho, hi⟩ := hi
        obtain ⟨c, hc, rfl⟩ := mem_childOrders ho
        have habove := ((hspec c hc).2 i).mp hi
        have hle := le_of_above (by omega) habove
        have hne : i ≠ 0 := fun h0 => by
          subst h0
          have := above_zero habove
          omega
        omega
      · intro hi
        obtain ⟨c, hc, habove⟩ := exists_subtree (m := totalPositions w (h + 1) - 1) hw (i := i)
          (by omega) (by omega)
        exact ⟨_, mem_map.mpr ⟨c, mem_range'_1.mpr (by omega), rfl⟩, ((hspec c hc).2 i).mpr habove⟩

/-! ## 4. The split -/

namespace BoardPlanEngine

variable {board : Board} {l : List Uuid}

theorem map_some_pick {positions : List Nat} (h : ∀ i ∈ positions, i < l.length) :
    (pick l positions).map some = positions.map (l[·]?) := by
  rw [pick, map_filterMap]
  refine filterMap_eq_map_iff_forall_eq_some.mpr fun i hi => ?_
  rw [getElem?_eq_getElem (h i hi)]
  rfl

theorem pick_tail : pick l (range' 1 (l.length - 1)) = l.tail := by
  refine map_injective_iff.mpr (Option.some_injective Uuid) ?_
  rw [map_some_pick fun i hi => by have := mem_range'_1.mp hi; omega]
  refine ext_getElem (by simp) fun j hj _ => ?_
  have hlt : j < l.length - 1 := by simpa using hj
  simp only [getElem_map, getElem_range', Nat.one_mul, getElem_tail]
  rw [getElem?_eq_getElem (by omega)]
  simp only [Nat.add_comm 1 j]

/-- A walk that the split can follow: its positions are on the board, and no more than a board holds. -/
def Follows (e : BoardPlanEngine) (l : List Uuid) (c : Nat) (order : List Nat) : Prop :=
  subtreeIndices c e.width (e.totalPositions - 1) = some order ∧ (∀ i ∈ order, i < l.length) ∧
    order.length ≤ e.totalPositions

/-- **The boards of a split, when the counter has room for them.** -/
theorem splitInto_ok (ids : BoardIds) (timestamp : Int) (hrow : board.positions = l.map some) :
    ∀ {children : List Nat} {orders : List (List Nat)} {e : BoardPlanEngine},
      List.Forall₂ (Follows e l) children orders → e.nextBoardSeq + children.length < seqLimit →
      ∃ new boards e', (splitInto ids board timestamp children).run e = .ok new e' ∧
        List.Forall₂ (fun id b => e'.boards.lookup id = some b) new boards ∧
        List.Forall₂ (fun order b => b.positions = packed e.totalPositions (pick l order)) orders boards ∧
        ∀ i, (∀ n, e.nextBoardSeq ≤ n → n < seqLimit → i ≠ ids.draw n) →
          e'.boards.lookup i = e.boards.lookup i := by
  intro children
  induction children with
  | nil =>
    intro orders e hf _
    cases hf
    exact ⟨[], [], e, rfl, .nil, .nil, fun _ _ => rfl⟩
  | cons c children ih =>
    intro orders e hf hroom
    cases hf with
    | @cons _ order _ rest hc hrest =>
      rw [length_cons] at hroom
      obtain ⟨horder, hlt, hlen⟩ := hc
      obtain ⟨new, boards, e', hrun, hlook, hpos, hother⟩ :=
        ih (e := e.withBoard (childBoard ids e board timestamp l order)) hrest (by
          show e.nextBoardSeq + 1 + children.length < seqLimit
          omega)
      refine ⟨ids.draw e.nextBoardSeq :: new, childBoard ids e board timestamp l order :: boards, e',
        ?_, .cons ?_ hlook, .cons rfl hpos, fun i hi => ?_⟩
      · rw [splitInto_cons hrow horder hlt hlen, if_pos (by omega), run_map, hrun]
      · -- the later boards draw other identifiers
        rw [hother _ fun n hn hlim heq => ?_]
        · exact lookup_insert _
        · have hn' : e.nextBoardSeq + 1 ≤ n := hn
          have := ids.distinct (by omega) hlim heq
          omega
      · rw [hother i fun n hn hlim => hi n (Nat.le_of_succ_le hn) hlim]
        exact lookup_insert_ne (hi _ (Nat.le_refl _) (by omega))

/-- **A counter without room for the boards of a split ends it.** -/
theorem splitInto_exhausted (ids : BoardIds) (timestamp : Int) (hrow : board.positions = l.map some) :
    ∀ {children : List Nat} {orders : List (List Nat)} {e : BoardPlanEngine},
      List.Forall₂ (Follows e l) children orders → children ≠ [] →
      seqLimit ≤ e.nextBoardSeq + children.length → ∃ e', (splitInto ids board timestamp children).run e =
        .error (.panic "attempt to add with overflow") e' := by
  intro children
  induction children with
  | nil => exact fun _ hne => absurd rfl hne
  | cons c children ih =>
    intro orders e hf _ hroom
    cases hf with
    | @cons _ order _ rest hc hrest =>
      rw [length_cons] at hroom
      obtain ⟨horder, hlt, hlen⟩ := hc
      rw [splitInto_cons hrow horder hlt hlen]
      by_cases hlimit : e.nextBoardSeq + 1 < seqLimit
      · obtain ⟨e', hrun⟩ := ih (e := e.withBoard (childBoard ids e board timestamp l order)) hrest
          (fun hnil => by
            rw [hnil, length_nil] at hroom
            omega)
          (by
            show seqLimit ≤ e.nextBoardSeq + 1 + children.length
            omega)
        exact ⟨e', by rw [if_pos hlimit, run_map, hrun]⟩
      · exact ⟨e, by rw [if_neg hlimit]⟩

/-- What the board of a child carries over from the old board; `order` is the walk over the subtree of
    the child. -/
structure Carries (w total : Nat) (board : Board) (order : List Nat) (b : Board) : Prop where
  contiguous : b.positions = packed total b.members
  share : b.members.length = (total - 1) / w
  seat : ∀ {j i : Nat}, order[j]? = some i → b.positions[j]? = board.positions[i]?
  parent : ∀ {j i p : Nat}, order[j]? = some i → parentIndex i w = some p → p ≠ 0 →
    ∃ a, parentIndex j w = some a ∧ b.positions[a]? = board.positions[p]? ∧
      ∀ r : Nat, (childIndices p w)[r]? = some i ↔ (childIndices a w)[r]? = some j

variable {total : Nat} {b : Board}

theorem members_of_packed (hb : b.positions = packed total l) : b.members = l := by
  rw [Board.members, hb, reduceOption_packed]

variable {order : List Nat}

theorem seat_of_packed (hrow : board.positions = l.map some)
    (hlt : ∀ i ∈ order, i < l.length) (hb : b.positions = packed total (pick l order))
    {j i : Nat} (hj : order[j]? = some i) : b.positions[j]? = board.positions[i]? := by
  have hi := hlt i (mem_of_getElem? hj)
  have hin : ((pick l order).map some)[j]? = some (some l[i]) := by
    rw [map_some_pick hlt, getElem?_map, hj, Option.map_some, getElem?_eq_getElem hi]
  rw [hb, packed, getElem?_append_left (List.getElem?_eq_some_iff.mp hin).1, hin, hrow,
    getElem?_map, getElem?_eq_getElem hi]
  rfl

/-- **The board of a child carries its subtree over.** -/
theorem carries_childOrder {w h c : Nat} (hc : 1 ≤ c ∧ c ≤ w) (hrow : board.positions = l.map some)
    (horder : order = (range (BoardPlan.totalPositions w h)).map (origin w c))
    (hlt : ∀ i ∈ order, i < l.length)
    (hb : b.positions = packed (BoardPlan.totalPositions w (h + 1)) (pick l order)) :
    Carries w (BoardPlan.totalPositions w (h + 1)) board order b := by
  have hmembers : b.members = pick l order := members_of_packed hb
  refine ⟨by rw [hmembers]; exact hb, ?_, seat_of_packed hrow hlt hb, fun {j i p} hj hp htop => ?_⟩
  · have hlen := congrArg length (map_some_pick hlt)
    rw [length_map, length_map] at hlen
    rw [hmembers, hlen, horder, length_map, length_range, totalPositions_succ,
      Nat.add_sub_cancel, Nat.mul_div_cancel_left _ (by omega)]
  · have hj' := hj
    rw [horder] at hj'
    obtain ⟨a, ha, hap, hrank⟩ := origin_parent hc hj' hp htop
    rw [← horder] at hap
    exact ⟨a, ha, seat_of_packed hrow hlt hb hap, hrank⟩

/-- **Splitting a board preserves its structure.** For a full board of any width from 2 and any height
    from 1, the walks over the subtrees of the children of the top divide the positions below it; the
    split seats every member but the top once, on boards that are filled from the front, each with the
    same number of members, and under the parent and at the rank they had, unless that parent was the top.
    Only a `seq` counter without room for the new boards ends it before. -/
theorem split_preserves_structure (ids : BoardIds) (e : BoardPlanEngine) (hw : 2 ≤ e.width)
    (hh : 1 ≤ e.height) (htotal : e.totalPositions = BoardPlan.totalPositions e.width e.height) (board : Board)
    (hlen : board.positions.length = e.totalPositions) (hfull : board.isFull = true) (timestamp : Int) :
    ∃ orders, Subtrees e.width e.totalPositions orders ∧ if e.nextBoardSeq + e.width < seqLimit then
        ∃ new boards e', (splitBoard ids board timestamp).run e = .ok new e' ∧
          List.Forall₂ (fun id b => e'.boards.lookup id = some b) new boards ∧
          List.Forall₂ (Carries e.width e.totalPositions board) orders boards ∧
          (boards.flatMap Board.members).Perm board.members.tail
      else
        ∃ e', (splitBoard ids board timestamp).run e = .error (.panic "attempt to add with overflow") e' := by
  obtain ⟨h, hheight⟩ : ∃ h, e.height = h + 1 := ⟨e.height - 1, by omega⟩
  rw [hheight] at htotal
  have hrow : board.positions = board.members.map some :=
    (map_some_reduceOption (isSome_of_firstEmpty (Board.isFull_eq_true.mp hfull))).symm
  have hcount : board.members.length = e.totalPositions := by
    rw [← hlen, hrow, length_map]
  have hsub : Subtrees e.width e.totalPositions (childOrders e.width h) :=
    htotal ▸ subtrees_childOrders (by omega) h
  have hlt : ∀ order ∈ childOrders e.width h, ∀ i ∈ order, i < board.members.length := by
    intro order ho i hi
    have hmem := (hsub.parted.mem_iff (a := i)).mp (mem_flatten.mpr ⟨order, ho, hi⟩)
    have := mem_range'_1.mp hmem
    omega
  have hfollows : List.Forall₂ (Follows e board.members) (range' 1 e.width) (childOrders e.width h) := by
    rw [childOrders, forall₂_map_right_iff, forall₂_same]
    intro c hc
    have hrange := mem_range'_1.mp hc
    refine ⟨htotal ▸ subtreeIndices_eq (by omega), hlt _ (mem_map.mpr ⟨c, hc, rfl⟩), ?_⟩
    have hle : BoardPlan.totalPositions e.width h ≤ e.width * BoardPlan.totalPositions e.width h :=
      Nat.le_mul_of_pos_left _ (by omega)
    rw [length_map, length_range, htotal, totalPositions_succ]
    omega
  have hrun : (splitBoard ids board timestamp).run e =
      (splitInto ids board timestamp (range' 1 e.width)).run e := by
    have hpos := totalPositions_pos e.width (h + 1)
    simp only [splitBoard, run_bind, run_get]
    rw [if_neg (by omega)]
  refine ⟨childOrders e.width h, hsub, ?_⟩
  rw [hrun]
  split
  · rename_i hroom
    obtain ⟨new, boards, e', hok, hlook, hpositions, -⟩ :=
      splitInto_ok ids timestamp hrow hfollows (by rwa [length_range'])
    refine ⟨new, boards, e', hok, hlook, ?_, ?_⟩
    · refine List.Forall₂.imp (fun order b hb => ?_)
        ((forall₂_and_left (p := fun order => order ∈ childOrders e.width h) _ _).mpr
          ⟨fun _ ho => ho, hpositions⟩)
      obtain ⟨c, hc, horder⟩ := mem_childOrders hb.1
      rw [htotal] at hb ⊢
      exact carries_childOrder hc hrow horder (hlt order hb.1) hb.2
    · have hmembers : boards.map Board.members = (childOrders e.width h).map (pick board.members) := by
        rw [eq_comm, ← forall₂_eq_eq_eq, forall₂_map_left_iff, forall₂_map_right_iff]
        exact hpositions.imp fun order b hb => (members_of_packed hb).symm
      rw [flatMap_def, hmembers, ← pick_tail, hcount]
      unfold pick
      rw [← filterMap_flatten]
      exact hsub.parted.filterMap _
  · rename_i hroom
    refine splitInto_exhausted ids timestamp hrow hfollows (fun hnil => ?_) (by rw [length_range']; omega)
    have := congrArg length hnil
    rw [length_range', length_nil] at this
    omega

/-- An engine for boards of seven positions. -/
def sevenEngine : BoardPlanEngine := { smallEngine with height := 2, totalPositions := 7 }

def sevenBoard : Board := ⟨1, [some 1, some 2, some 3, some 4, some 5, some 6, some 7], 0, 0, 0, none⟩

theorem split_preserves_structure_seven : ∃ orders, Subtrees 2 7 orders ∧
      ∃ new boards e', (splitBoard countedIds sevenBoard 5).run sevenEngine = .ok new e' ∧
        List.Forall₂ (fun id b => e'.boards.lookup id = some b) new boards ∧
        List.Forall₂ (Carries 2 7 sevenBoard) orders boards ∧
        (boards.flatMap Board.members).Perm [2, 3, 4, 5, 6, 7] := by
  obtain ⟨orders, hsub, hsplit⟩ := split_preserves_structure countedIds sevenEngine (by decide) (by decide)
    (by decide) sevenBoard (by decide) (by decide) 5
  rw [if_pos (by decide)] at hsplit
  exact ⟨orders, hsub, hsplit⟩

end BoardPlanEngine

end MlmForge.BoardPlan
