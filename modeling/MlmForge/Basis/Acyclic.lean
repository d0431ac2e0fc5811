/-
  Subject:   Dependencies without cycles, and what may be added to them.

  * **`Grounded.union`** -- new dependencies keep it so, when from where they lead the old ones do not
    lead back to them for ever.
-/
import Mathlib.Logic.Relation

namespace MlmForge

open Relation

variable {α : Type} {r r' e : α → α → Prop}

/-- Following `r` ends: nobody depends on others without end. -/
def Grounded (r : α → α → Prop) : Prop := WellFounded fun y x => r x y

theorem Grounded.mono (h : Grounded r) (hsub : ∀ x y, r' x y → r x y) : Grounded r' :=
  Subrelation.wf (fun {y x} hxy => hsub x y hxy) h

theorem Grounded.transGen (h : Grounded r) : Grounded (TransGen r) := by
  have hswap : (fun y x => TransGen r x y) = TransGen fun y x => r x y := by
    funext y x
    exact propext transGen_swap.symm
  unfold Grounded
  rw [hswap]
  exact WellFounded.transGen h

theorem Grounded.of_leaf (h : Grounded r) {k : α} (hnew : ∀ x, r' x k → x = k) (hk : ¬ r' k k)
    (hold : ∀ x y, x ≠ k → r' x y → r x y) : Grounded r' := by
  have hacc : ∀ x, x ≠ k → Acc (fun y x => r' x y) x := by
    intro x
    induction x using h.induction with
    | _ x ih =>
      intro hx
      refine ⟨x, fun y hxy => ih y (hold x y hx hxy) ?_⟩
      rintro rfl
      exact hx (hnew x hxy)
  refine ⟨fun x => ?_⟩
  by_cases hx : x = k
  · subst hx
    refine ⟨x, fun y hxy => hacc y ?_⟩
    rintro rfl
    exact hk hxy
  · exact hacc x hx

/-- One new dependency leads, over old ones, to where another starts. -/
def LeadsTo (r e : α → α → Prop) (x z : α) : Prop :=
  (∃ y, e x y ∧ ReflTransGen r y z) ∧ ∃ w, e z w

/-- **New dependencies keep the old ones grounded** when they do not lead to each other without end. -/
theorem Grounded.union (hr : Grounded r) (he : Grounded (LeadsTo r e)) :
    Grounded fun x y => r x y ∨ e x y := by
  -- accessible is who reaches, over old dependencies, only new ones that lead to the accessible
  have hfrom : ∀ y, (∀ z w, ReflTransGen r y z → e z w → Acc (fun y x => r x y ∨ e x y) w) →
      Acc (fun y x => r x y ∨ e x y) y := by
    intro y
    induction y using hr.induction with
    | _ y ih =>
      intro hy
      refine ⟨y, fun z hz => ?_⟩
      rcases hz with hz | hz
      · exact ih z hz fun w v hw => hy w v (.head hz hw)
      · exact hy y z .refl hz
  have hnew : ∀ x y, e x y → Acc (fun y x => r x y ∨ e x y) y := by
    intro x
    induction x using he.induction with
    | _ x ih =>
      intro y hxy
      exact hfrom y fun z w hz hw => ih z ⟨⟨y, hxy, hz⟩, w, hw⟩ w hw
  exact ⟨fun y => hfrom y fun z w _ hw => hnew z w hw⟩

end MlmForge
