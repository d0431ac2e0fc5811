/-
  Subject:   Chains of a partial function: when following `f` from anywhere comes to an end.

  `f : α → Option α` reads as "the one node above": a parent link, a sponsor link.

  * `Ranked.shortcut` -- links that only skip ahead along old chains keep the ranking;
    `Ranked.redirect` -- so does moving one node below a node that is not below it;
    `Ranked.attach` -- and so does hanging a node that nobody points to somewhere.
-/
import Mathlib.Logic.Relation
import Mathlib.Logic.Function.Basic
import Mathlib.Data.Nat.Find

namespace MlmForge

open Option List Function Relation

variable {α : Type}

/-- A measure drops along every link of `f`. -/
def Ranked (f : α → Option α) : Prop :=
  ∃ rank : α → Nat, ∀ a b, f a = some b → rank b < rank a

/-- The node `n` links above `a`. -/
def climb (f : α → Option α) : Nat → α → Option α
  | 0, a => some a
  | n + 1, a => (f a).bind (climb f n)

/-- Following `f` from `a` comes to an end. -/
def Ends (f : α → Option α) (a : α) : Prop := ∃ n, climb f n a = none

/-- `b` is `a`, or lies above it. -/
def Above (f : α → Option α) : α → α → Prop :=
  Relation.ReflTransGen fun x y => f x = some y

/-- `b` lies strictly above `a`. -/
def StrictlyAbove (f : α → Option α) : α → α → Prop :=
  Relation.TransGen fun x y => f x = some y

variable {f : α → Option α} {a b : α}

theorem climb_succ_some (h : f a = some b) (n : Nat) : climb f (n + 1) a = climb f n b := by
  show (f a).bind (climb f n) = _
  rw [h]
  rfl

theorem above_iff_climb : Above f a b ↔ ∃ n, climb f n a = some b := by
  constructor
  · intro h
    induction h using ReflTransGen.head_induction_on with
    | refl => exact ⟨0, rfl⟩
    | head hac _ ih =>
      obtain ⟨n, hn⟩ := ih
      exact ⟨n + 1, (climb_succ_some hac n).trans hn⟩
  · intro h
    obtain ⟨n, hn⟩ := h
    induction n generalizing a with
    | zero =>
      cases hn
      exact .refl
    | succ n ih =>
      obtain ⟨c, hc, hcb⟩ := bind_eq_some_iff.mp hn
      exact .head hc (ih hcb)

theorem strictlyAbove_iff_climb : StrictlyAbove f a b ↔ ∃ n, climb f (n + 1) a = some b := by
  constructor
  · intro h
    obtain ⟨c, hac, hcb⟩ := TransGen.head'_iff.mp h
    obtain ⟨n, hn⟩ := above_iff_climb.mp hcb
    exact ⟨n, (climb_succ_some hac n).trans hn⟩
  · intro h
    obtain ⟨n, hn⟩ := h
    obtain ⟨c, hc, hcb⟩ := bind_eq_some_iff.mp hn
    exact .head' hc (above_iff_climb.mpr ⟨n, hcb⟩)

/-- The nodes above a node, nearest first, at most `n` of them. -/
def chainUp (f : α → Option α) : Nat → α → List α
  | 0, _ => []
  | n + 1, a =>
    match f a with
    | none => []
    | some b => b :: chainUp f n b

/-- The nodes above a node are those its links lead to, one after another. -/
theorem getElem?_chainUp : ∀ {n : Nat} {a : α}, climb f n a = none →
    ∀ k : Nat, (chainUp f n a)[k]? = climb f (k + 1) a := by
  intro n
  induction n with
  | zero => intro a h; cases h
  | succ n ih =>
    intro a h k
    cases hf : f a with
    | none => simp [chainUp, climb, hf]
    | some b =>
      rw [climb_succ_some hf] at h ⊢
      cases k with
      | zero => simp [chainUp, climb, hf]
      | succ k => simp [chainUp, hf, ih h k]

theorem strictlyAbove_of_mem_chainUp {x : α} :
    ∀ {n : Nat} {a : α}, x ∈ chainUp f n a → StrictlyAbove f a x := by
  intro n
  induction n with
  | zero => intro a h; exact absurd h not_mem_nil
  | succ n ih =>
    intro a h
    unfold chainUp at h
    cases hf : f a with
    | none =>
      rw [hf] at h
      exact absurd h not_mem_nil
    | some b =>
      rw [hf] at h
      rcases mem_cons.mp h with rfl | h
      · exact .single hf
      · exact .head hf (ih h)

theorem ends_of_none (h : f a = none) : Ends f a := by
  refine ⟨1, ?_⟩
  show (f a).bind (climb f 0) = none
  rw [h]
  rfl

theorem ends_of_step (h : f a = some b) (hb : Ends f b) : Ends f a := by
  obtain ⟨n, hn⟩ := hb
  exact ⟨n + 1, by rw [climb_succ_some h, hn]⟩

theorem Ranked.ends (h : Ranked f) (a : α) : Ends f a := by
  obtain ⟨rank, hr⟩ := h
  induction hn : rank a using Nat.strong_induction_on generalizing a with
  | _ n ih =>
    cases hf : f a with
    | none => exact ends_of_none hf
    | some b => exact ends_of_step hf (ih (rank b) (hn ▸ hr a b hf) b rfl)

/-- **A graph of links is ranked exactly when every chain ends**: the number of links a chain has
    left is the measure. -/
theorem ranked_iff_ends : Ranked f ↔ ∀ a, Ends f a := by
  classical
  refine ⟨Ranked.ends, fun h => ⟨fun a => Nat.find (h a), fun a b hab => ?_⟩⟩
  have ha := Nat.find_spec (h a)
  cases hk : Nat.find (h a) with
  | zero => rw [hk] at ha; cases ha
  | succ n =>
    rw [hk, climb_succ_some hab] at ha
    show Nat.find (h b) < Nat.find (h a)
    rw [hk]
    exact Nat.lt_succ_of_le (Nat.find_min' (h b) ha)

variable {g : α → Option α}

/-- **Two measures, one for a part that no chain leaves and one outside it**, make a ranking. -/
theorem ranked_of_part {p : α → Prop} (rank : α → Nat)
    (hin : ∀ a b, p a → f a = some b → p b ∧ rank b < rank a) (hg : Ranked g)
    (hout : ∀ a b, ¬ p a → f a = some b → g a = some b) : Ranked f := by
  have hp : ∀ a, p a → Ends f a := by
    intro a ha
    induction hn : rank a using Nat.strong_induction_on generalizing a with
    | _ n ih =>
      cases hf : f a with
      | none => exact ends_of_none hf
      | some b =>
        obtain ⟨hb, hlt⟩ := hin a b ha hf
        exact ends_of_step hf (ih (rank b) (hn ▸ hlt) b hb rfl)
  obtain ⟨rank', hr⟩ := hg
  refine ranked_iff_ends.mpr fun a => ?_
  induction hn : rank' a using Nat.strong_induction_on generalizing a with
  | _ n ih =>
    by_cases ha : p a
    · exact hp a ha
    · cases hf : f a with
      | none => exact ends_of_none hf
      | some b => exact ends_of_step hf (ih (rank' b) (hn ▸ hr a b (hout a b ha hf)) b rfl)

/-! ## Nodes above nodes -/

theorem StrictlyAbove.rank_lt {rank : α → Nat}
    (hr : ∀ a b, f a = some b → rank b < rank a) (h : StrictlyAbove f a b) : rank b < rank a := by
  induction h with
  | single h => exact hr _ _ h
  | tail _ h ih => exact Nat.lt_trans (hr _ _ h) ih

theorem Ranked.irrefl (h : Ranked f) (a : α) : ¬ StrictlyAbove f a a := by
  obtain ⟨rank, hr⟩ := h
  exact fun hs => Nat.lt_irrefl _ (hs.rank_lt hr)

theorem Ranked.ne (h : Ranked f) (hab : f a = some b) : a ≠ b := by
  rintro rfl
  exact h.irrefl a (.single hab)

variable {c : α}

/-- The chain from `a` is a line: of two nodes above `a`, one is above the other. -/
theorem Above.total (hb : Above f a b) (hc : Above f a c) : Above f b c ∨ Above f c b := by
  induction hb with
  | refl => exact .inl hc
  | tail _ h ih =>
    rcases ih with h' | h'
    · rcases ReflTransGen.cases_head h' with rfl | ⟨d, hd, hdc⟩
      · exact .inr (.single h)
      · rw [h] at hd
        cases hd
        exact .inl hdc
    · exact .inr (h'.tail h)

/-- A chain that leaves the set of nodes below `c` does so through `c`. -/
theorem above_of_link_above (h : f a = some b) (hb : Above f b c) : Above f a c :=
  ReflTransGen.head h hb

/-- A chain that does not need the link of `c` is still there when that link changes. -/
theorem Above.update [DecidableEq α] (h : Above f a b)
    (hc : ¬ Above f c b) (v : Option α) : Above (Function.update f c v) a b := by
  induction h using ReflTransGen.head_induction_on with
  | refl => exact .refl
  | head hxy hyb ih =>
    refine .head ?_ ih
    rw [update_of_ne]
    · exact hxy
    · rintro rfl
      exact hc (.head hxy hyb)

/-- A chain that uses the new link of `c` could have gone on from `c` the old way. -/
theorem Above.of_update [DecidableEq α] {v : Option α}
    (h : Above (Function.update f c v) a b) (hc : Above f c b) : Above f a b := by
  induction h using ReflTransGen.head_induction_on with
  | refl => exact .refl
  | head hxy _ ih =>
    rw [update_apply] at hxy
    split at hxy
    · rename_i e
      exact e ▸ hc
    · exact .head hxy ih

/-- Links that skip ahead along old chains lead where the old chains lead. -/
theorem Above.of_shortcut (hg : ∀ a b, g a = some b → StrictlyAbove f a b)
    (h : Above g a b) : Above f a b := by
  induction h with
  | refl => exact .refl
  | tail _ hxy ih => exact ih.trans (hg _ _ hxy).to_reflTransGen

/-! ## Changes that keep a graph of links ranked -/

/-- **Links that skip ahead along old chains keep the ranking.** -/
theorem Ranked.shortcut (h : Ranked f) (hg : ∀ a b, g a = some b → StrictlyAbove f a b) : Ranked g := by
  obtain ⟨rank, hr⟩ := h
  exact ⟨rank, fun a b hab => (hg a b hab).rank_lt hr⟩

/-- Dropping links keeps the ranking. -/
theorem Ranked.mono (h : Ranked f) (hg : ∀ a b, g a = some b → f a = some b) : Ranked g :=
  h.shortcut fun a b hab => .single (hg a b hab)

/-- **Moving `c` below `t` keeps the ranking when `t` is not below `c`**: everything below `c`
    moves up in rank by more than the rank of `t`. -/
theorem Ranked.redirect [DecidableEq α] (h : Ranked f) {t : α}
    (ht : ¬ Above f t c) : Ranked (Function.update f c (some t)) := by
  classical
  obtain ⟨rank, hr⟩ := h
  refine ⟨fun x => if Above f x c then rank x + rank t + 1 else rank x, fun a b hab => ?_⟩
  by_cases hac : a = c
  · subst hac
    rw [update_self] at hab
    cases hab
    simp only [ht, if_false, show Above f a a from .refl, if_true]
    omega
  · rw [update_of_ne hac] at hab
    have hlt := hr a b hab
    by_cases hb : Above f b c
    · simp only [hb, above_of_link_above hab hb, if_true]
      omega
    · by_cases ha : Above f a c
      · rcases ReflTransGen.cases_head ha with rfl | ⟨d, hd, hdc⟩
        · exact absurd rfl hac
        · rw [hab] at hd
          cases hd
          exact absurd hdc hb
      · simp only [ha, hb, if_false]
        exact hlt

/-- **Hanging a node nobody points to below another node keeps the ranking.** -/
theorem Ranked.attach [DecidableEq α] (h : Ranked f) {t : α} (hct : t ≠ c)
    (hc : ∀ a, f a ≠ some c) : Ranked (Function.update f c (some t)) := by
  refine h.redirect fun hab => ?_
  rcases ReflTransGen.cases_tail hab with rfl | ⟨d, _, hd⟩
  · exact hct rfl
  · exact hc d hd

end MlmForge
