/-
  Subject:   A board of the board plan, and the index arithmetic of its complete tree.

  The positions of a board are a flat array in breadth-first order: the children of position `i` are
  `w * i + 1` to `w * i + w`.

  * **`subtreeIndices_spec`** -- it meets the positions below its root, once each;
  * **`exists_subtree`**, `subtree_unique` -- every position but the top is below exactly one child of
    the top.
-/
import Mathlib.Data.List.Range
import MlmForge.Basis.Bfs
import MlmForge.Basis.Packed
import MlmForge.Engine.Node

namespace MlmForge.BoardPlan

open Engine List Option

/-! ## 1. Boards -/

/-- A single board. -/
structure Board where
  id : Uuid
  positions : List (Option Uuid)
  createdAt : Int
  seq : Nat
  lastActivityAt : Int
  parentBoardId : Option Uuid
  deriving DecidableEq, Repr

namespace Board

/-- A new empty board; `id` is the identifier that was drawn for it. -/
def new (id : Uuid) (totalPositions : Nat) (timestamp : Int) (parentBoardId : Option Uuid)
    (seq : Nat) : Board :=
  ⟨id, replicate totalPositions none, timestamp, seq, timestamp, parentBoardId⟩

def isFull (b : Board) : Bool := b.positions.all isSome

def filledCount (b : Board) : Nat := (b.positions.filter isSome).length

def firstOpenPosition (b : Board) : Option Nat := firstEmpty b.positions

/-- Everybody on the board, in breadth-first order. -/
def members (b : Board) : List Uuid := b.positions.reduceOption

end Board

/-! ## 2. Index arithmetic -/

/-- The sum of `levels` more levels, the first of them of size `levelSize`. -/
def sumLevels (w : Nat) : Nat → Nat → Nat → Nat
  | 0, total, _ => total
  | levels + 1, total, levelSize => sumLevels w levels (total + levelSize) (levelSize * w)

/-- The number of positions of a complete tree. -/
def totalPositions (width height : Nat) : Nat := sumLevels width (height + 1) 0 1

def parentIndex (index width : Nat) : Option Nat :=
  if index = 0 then none else some ((index - 1) / width)

def childIndices (index width : Nat) : List Nat := range' (width * index + 1) width

/-- The children of a position that the board has. -/
def childrenUpTo (width maxIndex : Nat) (index : Nat) : List Nat :=
  (childIndices index width).filter (· ≤ maxIndex)

/-- The positions of the subtree at a root, breadth first; `none` when the walk outlives its bound.
    Only the root can be past the last position: a child that is past it is not enqueued. -/
def subtreeIndices (rootIndex width maxIndex : Nat) : Option (List Nat) :=
  if maxIndex < rootIndex then some []
  else bfsOrder (childrenUpTo width maxIndex) (maxIndex + 1) [rootIndex]

theorem le_sumLevels (w : Nat) : ∀ levels total levelSize, total ≤ sumLevels w levels total levelSize
  | 0, _, _ => Nat.le_refl _
  | levels + 1, total, levelSize =>
    Nat.le_trans (Nat.le_add_right _ _) (le_sumLevels w levels (total + levelSize) (levelSize * w))

theorem width_lt_totalPositions {w h : Nat} (hh : 1 ≤ h) : w < totalPositions w h := by
  obtain ⟨k, rfl⟩ : ∃ k, h = k + 1 := ⟨h - 1, by omega⟩
  have hle := le_sumLevels w k (0 + 1 + 1 * w) (1 * w * w)
  have heq : totalPositions w (k + 1) = sumLevels w k (0 + 1 + 1 * w) (1 * w * w) := rfl
  omega

/-! ## 3. The tree of positions -/

section Tree

variable {w m : Nat}

/-- The parent of a position that the board has. -/
def parentUpTo (width maxIndex : Nat) (index : Nat) : Option Nat :=
  if index ≤ maxIndex then parentIndex index width else none

theorem parentUpTo_eq_some {i x : Nat} : parentUpTo w m i = some x ↔ i ≤ m ∧ i ≠ 0 ∧ (i - 1) / w = x := by
  unfold parentUpTo parentIndex
  by_cases hi : i ≤ m
  · by_cases h0 : i = 0 <;> simp [hi, h0]
  · simp [hi]

/-- **The positions of a board are a forest.** -/
theorem positions_forest (hw : 0 < w) : Forest (childrenUpTo w m) (parentUpTo w m) where
  mem_iff {x i} := by
    rw [parentUpTo_eq_some, childrenUpTo, mem_filter, decide_eq_true_iff, childIndices, mem_range'_1]
    constructor
    · intro h
      obtain ⟨⟨hlo, hhi⟩, hmax⟩ := h
      refine ⟨hmax, by omega, ?_⟩
      rw [Nat.div_eq_iff hw]
      rw [Nat.mul_comm] at hlo hhi
      omega
    · intro h
      obtain ⟨hmax, h0, hdiv⟩ := h
      rw [Nat.div_eq_iff hw] at hdiv
      rw [Nat.mul_comm w x]
      omega
  nodup x := (nodup_range').filter _
  ranked := by
    refine ⟨fun i => i, fun i x h => ?_⟩
    obtain ⟨-, h0, rfl⟩ := parentUpTo_eq_some.mp h
    have hle := Nat.div_le_self (i - 1) w
    show (i - 1) / w < i
    omega

theorem le_of_above {i r : Nat} (hr : r ≤ m) (h : Above (parentUpTo w m) i r) : i ≤ m := by
  rcases Relation.ReflTransGen.cases_head h with rfl | ⟨x, hx, -⟩
  · exact hr
  · exact (parentUpTo_eq_some.mp hx).1

/-- **The walk over a subtree ends, and meets the positions below its root once each.** -/
theorem subtreeIndices_spec (hw : 0 < w) {r : Nat} (hr : r ≤ m) :
    ∃ order, subtreeIndices r w m = some order ∧ order.Nodup ∧
      ∀ i, i ∈ order ↔ Above (parentUpTo w m) i r := by
  have hF : Forest (childrenUpTo w m) (parentUpTo w m) := positions_forest hw
  obtain ⟨order, horder, hnd, hmem, -⟩ := bfsOrder_single hF (Nat.le_refl (m + 1)) fun x h =>
    Nat.lt_succ_of_le (le_of_above hr h)
  refine ⟨order, ?_, hnd, hmem⟩
  rw [subtreeIndices, if_neg (Nat.not_lt.mpr hr)]
  exact horder

theorem above_zero {r : Nat} (h : Above (parentUpTo w m) 0 r) : r = 0 := by
  rcases Relation.ReflTransGen.cases_head h with h0 | ⟨x, hx, -⟩
  · exact h0.symm
  · exact absurd rfl (parentUpTo_eq_some.mp hx).2.1

theorem parentUpTo_child {c : Nat} (hc : 1 ≤ c ∧ c ≤ w) (hmax : w ≤ m) : parentUpTo w m c = some 0 := by
  rw [parentUpTo_eq_some]
  exact ⟨by omega, by omega, Nat.div_eq_of_lt (by omega)⟩

/-- **Every position but the top is below a child of the top.** -/
theorem exists_subtree (hw : 0 < w) : ∀ {i : Nat}, 1 ≤ i → i ≤ m →
    ∃ c, (1 ≤ c ∧ c ≤ w) ∧ Above (parentUpTo w m) i c := by
  intro i
  induction i using Nat.strong_induction_on with
  | _ i ih =>
    intro h1 hmax
    by_cases hi : i ≤ w
    · exact ⟨i, ⟨h1, hi⟩, .refl⟩
    · have hle := Nat.div_le_self (i - 1) w
      have hpos : 1 ≤ (i - 1) / w := (Nat.one_le_div_iff hw).mpr (by omega)
      obtain ⟨c, hc, habove⟩ := ih ((i - 1) / w) (by omega) hpos (by omega)
      exact ⟨c, hc, habove.head (parentUpTo_eq_some.mpr ⟨hmax, by omega, rfl⟩)⟩

theorem subtree_unique (hmax : w ≤ m) {i c c' : Nat} (hc : 1 ≤ c ∧ c ≤ w)
    (hc' : 1 ≤ c' ∧ c' ≤ w) (h : Above (parentUpTo w m) i c) (h' : Above (parentUpTo w m) i c') : c = c' := by
  have hup : ∀ {a b : Nat}, 1 ≤ a ∧ a ≤ w → 1 ≤ b ∧ b ≤ w → Above (parentUpTo w m) a b → a = b := by
    intro a b ha hb hab
    rcases Relation.ReflTransGen.cases_head hab with rfl | ⟨x, hx, hxb⟩
    · rfl
    · rw [parentUpTo_child ha hmax] at hx
      cases hx
      have h0 := above_zero hxb
      omega
  rcases h.total h' with hab | hab
  · exact hup hc hc' hab
  · exact (hup hc' hc hab).symm

/-- **The subtree of a child leaves out the top and the other children.** -/
theorem subtree_short (hw : 2 ≤ w) (hmax : w ≤ m) {c : Nat} (hc : 1 ≤ c ∧ c ≤ w)
    {order : List Nat} (hnd : order.Nodup)
    (hmem : ∀ i, i ∈ order ↔ Above (parentUpTo w m) i c) : order.length + 2 ≤ m + 1 := by
  obtain ⟨c', hc', hne⟩ : ∃ c', (1 ≤ c' ∧ c' ≤ w) ∧ c' ≠ c := by
    by_cases h1 : c = 1
    · exact ⟨2, by omega, by omega⟩
    · exact ⟨1, by omega, by omega⟩
  have h0 : 0 ∉ order := fun h => by
    have := above_zero ((hmem 0).mp h)
    omega
  have hother : c' ∉ order := fun h => hne (subtree_unique hmax hc' hc .refl ((hmem c').mp h))
  have hall : (0 :: c' :: order).Nodup := by
    rw [nodup_cons, nodup_cons, mem_cons, not_or]
    exact ⟨⟨by omega, h0⟩, hother, hnd⟩
  have hsub : (0 :: c' :: order).toFinset ⊆ Finset.range (m + 1) := by
    intro i hi
    rw [List.mem_toFinset, mem_cons, mem_cons] at hi
    rw [Finset.mem_range]
    rcases hi with rfl | rfl | hi
    · omega
    · omega
    · have := le_of_above (by omega) ((hmem i).mp hi)
      omega
  have hcard := Finset.card_le_card hsub
  rw [toFinset_card_of_nodup hall, Finset.card_range, length_cons, length_cons] at hcard
  omega

end Tree

example : (subtreeIndices 1 2 6, subtreeIndices 2 2 6) = (some [1, 3, 4], some [2, 5, 6]) := by decide

end MlmForge.BoardPlan
