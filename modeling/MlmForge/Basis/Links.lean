/-
  Subject:   Links kept at both ends: a link upward at every node, a list of what is below at every
             node, and what keeps the two in agreement.

  * `Linked.contract`, `Ranked.contract` -- taking a set of nodes out of the graph and linking what
    is left to its nearest survivor keeps the agreement and the ranking.
-/
import Mathlib.Data.Finset.Card
import MlmForge.Basis.Chain

namespace MlmForge

open List Option Finset

variable {α : Type}

/-- What is listed below and what links upward agree, and no list has repeats. -/
structure Linked (down : α → List α) (up : α → Option α) : Prop where
  mem_iff : ∀ {x y}, y ∈ down x ↔ up y = some x
  nodup : ∀ x, (down x).Nodup

/-! ## 1. One node at a time -/

section One

variable {down down' : α → List α} {up up' : α → Option α} {c : α}

theorem Linked.no_link_to (h : Linked down up) (hc : down c = []) (a : α) : up a ≠ some c := by
  intro ha
  have := h.mem_iff.mpr ha
  rw [hc] at this
  exact not_mem_nil this

variable [DecidableEq α] {t : α}

/-- Hanging `c`, which has no link, below `t`. -/
theorem Linked.attach (h : Linked down up) (hc : up c = none)
    (hup : ∀ y, up' y = if y = c then some t else up y)
    (ht : ∀ y, y ∈ down' t ↔ y = c ∨ y ∈ down t) (hnd : (down' t).Nodup)
    (hother : ∀ x, x ≠ t → down' x = down x) : Linked down' up' where
  mem_iff {x y} := by
    rw [hup]
    by_cases hx : x = t
    · subst hx
      rw [ht, h.mem_iff]
      by_cases hy : y = c <;> simp [hy]
    · rw [hother x hx, h.mem_iff]
      by_cases hy : y = c
      · subst hy
        simp [hc, Ne.symm hx]
      · simp [hy]
  nodup x := by
    by_cases hx : x = t
    · exact hx ▸ hnd
    · exact hother x hx ▸ h.nodup x

/-- Taking `c` off the node it links to. -/
theorem Linked.detach (h : Linked down up) (hc : up c = some t)
    (hup : ∀ y, up' y = if y = c then none else up y)
    (ht : down' t = (down t).filter (· ≠ c)) (hother : ∀ x, x ≠ t → down' x = down x) :
    Linked down' up' where
  mem_iff {x y} := by
    rw [hup]
    by_cases hx : x = t
    · subst hx
      rw [ht, mem_filter, h.mem_iff]
      by_cases hy : y = c <;> simp [hy]
    · rw [hother x hx, h.mem_iff]
      by_cases hy : y = c
      · subst hy
        simp [hc, Ne.symm hx]
      · simp [hy]
  nodup x := by
    by_cases hx : x = t
    · rw [hx, ht]
      exact (h.nodup t).filter _
    · exact hother x hx ▸ h.nodup x

end One

/-! ## 2. Taking nodes out -/

/-- The nearest node above `a` that is not removed, looking at most `n` links up. -/
def nearest (f : α → Option α) (removed : α → Prop) [DecidablePred removed] : Nat → α → Option α
  | 0, _ => none
  | n + 1, a =>
    match f a with
    | none => none
    | some b => if removed b then nearest f removed n b else some b

/-- `g` leads from every node to the nearest node above it that is not removed. -/
structure Contracts (f : α → Option α) (removed : α → Prop) (g : α → Option α) : Prop where
  none : ∀ {a}, f a = none → g a = none
  skip : ∀ {a b}, f a = some b → removed b → g a = g b
  stop : ∀ {a b}, f a = some b → ¬ removed b → g a = some b
  survives : ∀ {a b}, g a = some b → ¬ removed b
  above : ∀ {a b}, g a = some b → StrictlyAbove f a b

section Nearest

variable {f : α → Option α} {removed : α → Prop} [DecidablePred removed]

theorem nearest_spec : ∀ (n : Nat) {a b : α}, nearest f removed n a = some b →
    ¬ removed b ∧ StrictlyAbove f a b := by
  intro n
  induction n with
  | zero => intro a b h; cases h
  | succ n ih =>
    intro a b h
    unfold nearest at h
    cases hf : f a with
    | none => rw [hf] at h; cases h
    | some c =>
      simp only [hf] at h
      split at h
      · obtain ⟨h1, h2⟩ := ih h
        exact ⟨h1, .head hf h2⟩
      · cases h
        exact ⟨by assumption, .single hf⟩

theorem climb_none_succ : ∀ {n : Nat} {a : α}, climb f n a = none → climb f (n + 1) a = none := by
  intro n
  induction n with
  | zero => intro a h; cases h
  | succ n ih =>
    intro a h
    cases hf : f a with
    | none =>
      show (f a).bind _ = none
      rw [hf]
      rfl
    | some b =>
      rw [climb_succ_some hf] at h ⊢
      exact ih h

theorem nearest_succ : ∀ {n : Nat} {a : α}, climb f n a = none →
    nearest f removed (n + 1) a = nearest f removed n a := by
  intro n
  induction n with
  | zero => intro a h; cases h
  | succ n ih =>
    intro a h
    rw [nearest, nearest]
    cases hf : f a with
    | none => rfl
    | some b =>
      rw [climb_succ_some hf] at h
      simp only [ih h]

theorem nearest_contracts {n : Nat} (h : ∀ a, climb f n a = none) :
    Contracts f removed (nearest f removed n) where
  none {a} ha := by
    cases n with
    | zero => cases h a
    | succ n => rw [nearest, ha]
  skip {a b} ha hb := by
    rw [← nearest_succ (h a), nearest, ha]
    simp only [hb, if_true]
  stop {a b} ha hb := by
    rw [← nearest_succ (h a), nearest, ha]
    simp only [hb, if_false]
  survives hab := (nearest_spec n hab).1
  above hab := (nearest_spec n hab).2

/-- `b` is the first node on the way up from `a` that is not removed. -/
inductive FirstKept (f : α → Option α) (removed : α → Prop) : α → α → Prop
  | stop {a b : α} : f a = some b → ¬ removed b → FirstKept f removed a b
  | skip {a b c : α} : f a = some b → removed b → FirstKept f removed b c → FirstKept f removed a c

omit [DecidablePred removed] in
variable {g : α → Option α} {a b : α}

theorem Contracts.firstKept (hg : Contracts f removed g) (h : g a = some b) : FirstKept f removed a b := by
  have hb := hg.survives h
  have hab := hg.above h
  induction hab using Relation.TransGen.head_induction_on with
  | single hab => exact .stop hab hb
  | @head a c hac _ ih =>
    by_cases hc : removed c
    · exact .skip hac hc (ih (hg.skip hac hc ▸ h))
    · rw [hg.stop hac hc] at h
      cases h
      exact .stop hac hb

omit [DecidablePred removed] in
theorem Contracts.eq_none_iff (hg : Contracts f removed g) :
    g a = Option.none ↔ ∀ b, StrictlyAbove f a b → removed b := by
  constructor
  · intro h b hab
    induction hab using Relation.TransGen.head_induction_on with
    | single hab =>
      refine Classical.byContradiction fun hb => ?_
      rw [hg.stop hab hb] at h
      cases h
    | @head a c hac _ ih =>
      by_cases hc : removed c
      · exact ih (hg.skip hac hc ▸ h)
      · rw [hg.stop hac hc] at h
        cases h
  · intro h
    cases hb : g a with
    | none => rfl
    | some b => exact absurd (h b (hg.above hb)) (hg.survives hb)

omit [DecidablePred removed] in
theorem FirstKept.kept (h : FirstKept f removed a b) : ¬ removed b := by
  induction h with
  | stop _ hb => exact hb
  | skip _ _ _ ih => exact ih

omit [DecidablePred removed] in
/-- Only one node is the first. -/
theorem FirstKept.unique {c : α} (h : FirstKept f removed a b) (h' : FirstKept f removed a c) : b = c := by
  induction h with
  | stop hab hb =>
    cases h' with
    | stop hac _ => exact some.inj (hab.symm.trans hac)
    | skip hac hc _ => exact absurd (some.inj (hab.symm.trans hac) ▸ hc) hb
  | skip hab hb _ ih =>
    cases h' with
    | stop hac hc => exact absurd hb (some.inj (hab.symm.trans hac) ▸ hc)
    | skip hac _ h' => exact ih (some.inj (hab.symm.trans hac) ▸ h')

omit [DecidablePred removed] in
/-- A way up keeps its first kept node under another name of the nodes. -/
theorem FirstKept.map {β : Type} {f' : β → Option β} {removed' : β → Prop} {name : α → β}
    (hf : ∀ {a b}, f a = some b → f' (name a) = some (name b))
    (hr : ∀ {a b}, f a = some b → (removed' (name b) ↔ removed b))
    (h : FirstKept f removed a b) : FirstKept f' removed' (name a) (name b) := by
  induction h with
  | stop hab hb => exact .stop (hf hab) (mt (hr hab).mp hb)
  | skip hab hb _ ih => exact .skip (hf hab) ((hr hab).mpr hb) ih

/-- **A chain among finitely many nodes ends within their number.** -/
theorem Ranked.climb_none [DecidableEq α] (h : Ranked f) :
    ∀ (n : Nat) (s : Finset α) (a : α), s.card ≤ n → (∀ b, Above f a b → b ∈ s) → climb f n a = none := by
  intro n
  induction n with
  | zero =>
    intro s a hs ha
    rw [card_eq_zero.mp (Nat.le_zero.mp hs)] at ha
    exact absurd (ha a .refl) (notMem_empty a)
  | succ n ih =>
    intro s a hs ha
    cases hf : f a with
    | none =>
      show (f a).bind _ = none
      rw [hf]
      rfl
    | some b =>
      rw [climb_succ_some hf]
      refine ih (s.erase a) b ?_ fun c hc => ?_
      · rw [card_erase_of_mem (ha a .refl)]
        omega
      · refine mem_erase.mpr ⟨?_, ha c (.head hf hc)⟩
        rintro rfl
        exact h.irrefl c (.head' hf hc)

end Nearest

section Contract

variable [DecidableEq α] {down : α → List α} {up g : α → Option α} {gone : List α}

/-- What moves to `x` when the nodes of `gone` go: of each that leads to `x`, what survives it. -/
def movedTo (down : α → List α) (g : α → Option α) (gone : List α) (x : α) : List α :=
  gone.flatMap fun i => if g i = some x then (down i).filter (· ∉ gone) else []

theorem mem_movedTo {x y : α} :
    y ∈ movedTo down g gone x ↔ ∃ i ∈ gone, g i = some x ∧ y ∈ down i ∧ y ∉ gone := by
  unfold movedTo
  rw [mem_flatMap]
  refine exists_congr fun i => and_congr_right fun _ => ?_
  split
  · simp [*]
  · simp [*]

variable {down' : α → List α}

theorem movedTo_congr (h : ∀ i ∈ gone, down i = down' i) (x : α) :
    movedTo down g gone x = movedTo down' g gone x := by
  refine flatMap_congr fun i hi => ?_
  rw [h i hi]

theorem Linked.nodup_movedTo (h : Linked down up) (hg : gone.Nodup) (x : α) :
    (movedTo down g gone x).Nodup := by
  refine nodup_flatMap.mpr ⟨fun i _ => ?_, hg.imp fun {i j} hij => ?_⟩
  · split
    · exact (h.nodup i).filter _
    · exact nodup_nil
  · intro y hi hj
    dsimp only at hi hj
    split at hi
    · split at hj
      · have e := (h.mem_iff.mp (mem_of_mem_filter hi)).symm.trans (h.mem_iff.mp (mem_of_mem_filter hj))
        exact hij (some.inj e)
      · exact not_mem_nil hj
    · exact not_mem_nil hi

variable {up' : α → Option α}

/-- **Taking nodes out keeps the agreement**, when each node left behind is linked to its nearest
    survivor and listed there. -/
theorem Linked.contract (h : Linked down up) (hg : Contracts up (· ∈ gone) g) (hnd : gone.Nodup)
    (hup : ∀ y, up' y = if y ∈ gone then none else g y)
    (hdown : ∀ x, down' x = if x ∈ gone then [] else
      (down x).filter (· ∉ gone) ++ movedTo down g gone x) : Linked down' up' where
  mem_iff {x y} := by
    rw [hup, hdown]
    by_cases hx : x ∈ gone
    · simp only [hx, if_true, not_mem_nil, false_iff]
      split
      · simp
      · exact fun hy => hg.survives hy hx
    · simp only [hx, if_false, mem_append, mem_filter, decide_eq_true_eq, mem_movedTo]
      by_cases hy : y ∈ gone
      · simp [hy]
      · simp only [hy, not_false_eq_true, and_true, if_false, h.mem_iff]
        cases hu : up y with
        | none => simp [hg.none hu]
        | some b =>
          by_cases hb : b ∈ gone
          · rw [hg.skip hu hb]
            constructor
            · rintro (e | ⟨i, _, hi, e⟩)
              · exact absurd (some.inj e ▸ hb) hx
              · exact some.inj e ▸ hi
            · exact fun hgb => .inr ⟨b, hb, hgb, rfl⟩
          · rw [hg.stop hu hb]
            refine ⟨fun e => ?_, .inl⟩
            rcases e with e | ⟨i, hi, _, e⟩
            · exact e
            · exact absurd (some.inj e ▸ hi) hb
  nodup x := by
    rw [hdown]
    split
    · exact nodup_nil
    · rename_i hx
      refine nodup_append.mpr ⟨(h.nodup x).filter _, h.nodup_movedTo hnd x, ?_⟩
      rintro y hy _ hm rfl
      obtain ⟨i, hi, _, hyi, _⟩ := mem_movedTo.mp hm
      have e := (h.mem_iff.mp (mem_of_mem_filter hy)).symm.trans (h.mem_iff.mp hyi)
      exact hx (some.inj e ▸ hi)

/-- **Taking nodes out keeps the ranking**: the new links skip ahead along old chains. -/
theorem Ranked.contract (h : Ranked up) (hg : Contracts up (· ∈ gone) g)
    (hup : ∀ y, up' y = if y ∈ gone then none else g y) : Ranked up' := by
  refine h.shortcut fun a b hab => ?_
  rw [hup] at hab
  split at hab
  · cases hab
  · exact hg.above hab

end Contract

end MlmForge
