/-
  Subject:   What lies in the subtrees of a forest.

  Items stand at the nodes of a forest, each with a weight. What a subtree weighs is what stands in it.

  * **`Forest.subtreeWeight_eq`** -- it is the weight at the node and that of its children's subtrees.
-/
import Mathlib.Algebra.BigOperators.Group.List.Basic
import MlmForge.Basis.Bfs

namespace MlmForge

open Classical List

variable {α M : Type} [AddCommMonoid M]

/-- The weight of the items that meet a condition. -/
noncomputable def weightWhere (p : α → Prop) (items : List (α × M)) : M :=
  ((items.filter fun item => p item.1).map Prod.snd).sum

/-- The weight of the items at a node and below it. -/
noncomputable def subtreeWeight (parent : α → Option α) (items : List (α × M)) (x : α) : M :=
  weightWhere (fun y => Above parent y x) items

theorem weightWhere_nil (p : α → Prop) : weightWhere p ([] : List (α × M)) = 0 := rfl

theorem weightWhere_cons (p : α → Prop) (item : α × M) (items : List (α × M)) :
    weightWhere p (item :: items) = (if p item.1 then item.2 else 0) + weightWhere p items := by
  unfold weightWhere
  by_cases h : p item.1
  · simp [h]
  · simp [h]

theorem weightWhere_append (p : α → Prop) (items items' : List (α × M)) :
    weightWhere p (items ++ items') = weightWhere p items + weightWhere p items' := by
  unfold weightWhere
  rw [filter_append, map_append, sum_append]

variable {children : α → List α} {parent : α → Option α}

theorem Forest.child_unique (hF : Forest children parent) {x y c c' : α} (hc : c ∈ children x)
    (hc' : c' ∈ children x) (hy : Above parent y c) (hy' : Above parent y c') : c = c' := by
  have hside : ∀ {a b : α}, a ∈ children x → b ∈ children x → Above parent a b → a = b := by
    intro a b ha hb hab
    rcases Relation.ReflTransGen.cases_head hab with rfl | ⟨p, hp, hpb⟩
    · rfl
    · rw [hF.mem_iff.mp ha] at hp
      cases hp
      exact absurd hpb (hF.not_above_child hb)
  rcases hy.total hy' with h | h
  · exact hside hc hc' h
  · exact (hside hc' hc h).symm

theorem sum_ite_children (l : List α) (hl : l.Nodup) (p : α → Prop) (hp : ∀ c ∈ l, ∀ c' ∈ l, p c → p c' → c = c')
    (w : M) : (l.map fun c => if p c then w else 0).sum = if ∃ c ∈ l, p c then w else 0 := by
  induction l with
  | nil => simp
  | cons c l ih =>
    obtain ⟨hnot, hl⟩ := nodup_cons.mp hl
    have ih := ih hl fun a ha b hb => hp a (mem_cons_of_mem _ ha) b (mem_cons_of_mem _ hb)
    rw [map_cons, sum_cons, ih]
    by_cases hc : p c
    · have hrest : ¬ ∃ c' ∈ l, p c' := by
        intro h
        obtain ⟨c', hc', hpc'⟩ := h
        have heq := hp c mem_cons_self c' (mem_cons_of_mem _ hc') hc hpc'
        exact hnot (heq ▸ hc')
      simp [hc, hrest]
    · simp [hc]

/-- **A subtree weighs what stands at its top and in the subtrees of the children.** -/
theorem Forest.subtreeWeight_eq (hF : Forest children parent) (items : List (α × M)) (x : α) :
    subtreeWeight parent items x = weightWhere (· = x) items +
      ((children x).map fun c => subtreeWeight parent items c).sum := by
  unfold subtreeWeight
  induction items with
  | nil => simp [weightWhere_nil]
  | cons item items ih =>
    simp only [weightWhere_cons]
    rw [ih, sum_map_add, sum_ite_children (children x) (hF.nodup x) (fun c => Above parent item.1 c)
      fun c hc c' hc' h h' => hF.child_unique hc hc' h h']
    have hsplit : (if Above parent item.1 x then item.2 else (0 : M)) = (if item.1 = x then item.2 else 0) +
          if ∃ c ∈ children x, Above parent item.1 c then item.2 else 0 := by
      by_cases htop : item.1 = x
      · have hnone : ¬ ∃ c ∈ children x, Above parent item.1 c := by
          intro h
          obtain ⟨c, hc, habove⟩ := h
          exact hF.not_above_child hc (htop ▸ habove)
        rw [if_pos (hF.above_iff.mpr (.inl htop)), if_pos htop, if_neg hnone, add_zero]
      · simp only [hF.above_iff (x := x) (y := item.1), htop, false_or, if_false, zero_add]
    rw [hsplit]
    exact add_add_add_comm _ _ _ _

end MlmForge
