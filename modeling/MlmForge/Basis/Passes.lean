/-
  Subject:   Loops that check the elements of a collection, and what it means that one passed.

  * `foremost` -- the element that a pass keeps because no other goes ahead of it.
-/
import Mathlib.Data.List.Nodup
import MlmForge.Basis.Outcome

namespace MlmForge

open Query List Option

variable {ε : Type}

/-! ## 1. The lowest fault -/

section Lowest

variable {κ β : Type} [LT κ] [DecidableLT κ]

/-- Of the fault held so far and a new one, the one with the lower key. -/
def keepLowest (held : Option (κ × ε)) (key : κ) (e : ε) : Option (κ × ε) :=
  match held with
  | none => some (key, e)
  | some (k, e') => if key < k then some (key, e) else some (k, e')

/-- Checks every entry and reports the fault with the lowest key. -/
def lowestFault (check : κ → β → Query ε (Option ε)) :
    Option (κ × ε) → List (Sigma fun _ : κ => β) → Query ε Unit
  | none, [] => .ok ()
  | some (_, e), [] => .error (.err e)
  | held, ⟨key, b⟩ :: rest => do
      match ← check key b with
      | none => lowestFault check held rest
      | some e => lowestFault check (keepLowest held key e) rest

theorem keepLowest_ne_none (held : Option (κ × ε)) (key : κ) (e : ε) : keepLowest held key e ≠ none := by
  unfold keepLowest
  split
  · simp
  · split <;> simp

variable {check : κ → β → Query ε (Option ε)}

/-- **The pass returns exactly when no entry has a fault.** -/
theorem lowestFault_eq_ok {held : Option (κ × ε)}
    {entries : List (Sigma fun _ : κ => β)} : lowestFault check held entries = .ok () ↔
      held = none ∧ ∀ x ∈ entries, check x.1 x.2 = .ok none := by
  induction entries generalizing held with
  | nil => cases held <;> simp [lowestFault]
  | cons x rest ih =>
    obtain ⟨key, b⟩ := x
    rw [lowestFault, bind_eq_ok]
    constructor
    · rintro ⟨found, hf, h⟩
      cases found with
      | none =>
        obtain ⟨h0, hrest⟩ := ih.mp h
        refine ⟨h0, fun y hy => ?_⟩
        rcases mem_cons.mp hy with rfl | hy
        · exact hf
        · exact hrest y hy
      | some e => exact absurd (ih.mp h).1 (keepLowest_ne_none held key e)
    · rintro ⟨h0, h⟩
      exact ⟨none, h _ mem_cons_self, ih.mpr ⟨h0, fun y hy => h y (mem_cons_of_mem _ hy)⟩⟩

theorem lowestFault_safe (hc : ∀ k b, Query.Safe (check k b)) :
    ∀ (entries : List (Sigma fun _ : κ => β)) (held : Option (κ × ε)),
      Query.Safe (lowestFault check held entries) := by
  intro entries
  induction entries with
  | nil =>
    intro held
    cases held with
    | none => exact safe_ok ()
    | some x => exact safe_err x.2
  | cons x rest ih =>
    intro held
    obtain ⟨key, b⟩ := x
    rw [lowestFault]
    refine (hc key b).bind fun found _ => ?_
    cases found with
    | none => exact ih held
    | some e => exact ih _

end Lowest

/-! ## 2. Repeats -/

section Repeats

variable {α : Type} [DecidableEq α]

/-- Checks every element, and that none was met before; `seen` is what was. -/
def forDistinct (before : α → Query ε Unit) (repeated : α → ε) (after : α → Query ε Unit) :
    List α → List α → Query ε Unit
  | _, [] => .ok ()
  | seen, x :: rest => do
      before x
      stopIf (x ∈ seen) (.err (repeated x))
      after x
      forDistinct before repeated after (x :: seen) rest

variable {repeated : α → ε}

/-- **The pass returns exactly when every element passes and none is met twice.** -/
theorem forDistinct_eq_ok {before after : α → Query ε Unit} {seen l : List α} :
    forDistinct before repeated after seen l = .ok () ↔
      (∀ x ∈ l, before x = .ok () ∧ after x = .ok ()) ∧ l.Nodup ∧ ∀ x ∈ l, x ∉ seen := by
  induction l generalizing seen with
  | nil => simp [forDistinct]
  | cons x rest ih =>
    rw [forall_mem_cons, forall_mem_cons, nodup_cons]
    simp only [forDistinct, bind_eq_ok, stopIf_eq_ok, ih, mem_cons, not_or]
    constructor
    · rintro ⟨_, hb, _, hx, _, ha, hrest, hnd, hseen⟩
      exact ⟨⟨⟨hb, ha⟩, hrest⟩, ⟨fun h => (hseen x h).1 rfl, hnd⟩, hx, fun y hy => (hseen y hy).2⟩
    · rintro ⟨⟨⟨hb, ha⟩, hrest⟩, ⟨hmem, hnd⟩, hx, hseen⟩
      exact ⟨(), hb, (), hx, (), ha, hrest, hnd, fun y hy => ⟨fun e => hmem (e ▸ hy), hseen y hy⟩⟩

theorem forDistinct_safe {before after : α → Query ε Unit} :
    ∀ {l seen : List α}, (∀ x ∈ l, Query.Safe (before x) ∧ Query.Safe (after x)) →
      Query.Safe (forDistinct before repeated after seen l) := by
  intro l
  induction l with
  | nil => exact fun _ => safe_ok ()
  | cons x rest ih =>
    intro seen h
    obtain ⟨hb, ha⟩ := h x mem_cons_self
    exact hb.bind fun _ _ => (safe_stopIf _).bind fun _ _ => ha.bind fun _ _ =>
      ih fun y hy => h y (mem_cons_of_mem _ hy)

/-- The first occurrence of each element, as a set that has met `seen` lets it through. -/
def firstSeen (seen : List α) : List α → List α
  | [] => []
  | x :: l => if x ∈ seen then firstSeen seen l else x :: firstSeen (x :: seen) l

theorem mem_firstSeen {x : α} {l seen : List α} : x ∈ firstSeen seen l ↔ x ∈ l ∧ x ∉ seen := by
  induction l generalizing seen with
  | nil => simp [firstSeen]
  | cons y l ih =>
    unfold firstSeen
    split
    · rename_i hy
      rw [ih, mem_cons]
      refine ⟨fun h => ⟨.inr h.1, h.2⟩, fun h => ⟨h.1.resolve_left ?_, h.2⟩⟩
      rintro rfl
      exact h.2 hy
    · rename_i hy
      by_cases e : x = y
      · subst e
        simp [hy]
      · simp [ih, e]

theorem nodup_firstSeen (seen l : List α) : (firstSeen seen l).Nodup := by
  induction l generalizing seen with
  | nil => exact nodup_nil
  | cons y l ih =>
    unfold firstSeen
    split
    · exact ih seen
    · refine nodup_cons.mpr ⟨fun h => ?_, ih _⟩
      exact (mem_firstSeen.mp h).2 mem_cons_self

theorem firstSeen_eq_self {seen l : List α} (h : l.Nodup) (hs : ∀ x ∈ l, x ∉ seen) :
    firstSeen seen l = l := by
  induction l generalizing seen with
  | nil => rfl
  | cons x l ih =>
    obtain ⟨hx, hl⟩ := nodup_cons.mp h
    rw [firstSeen, if_neg (hs x mem_cons_self), ih hl]
    intro y hy
    rw [mem_cons, not_or]
    exact ⟨fun e => hx (e ▸ hy), hs y (mem_cons_of_mem _ hy)⟩

end Repeats

/-! ## 3. The foremost element -/

section Foremost

variable {ρ : Type} {ahead : ρ → ρ → Bool} {l : List ρ} {n : ρ}

/-- Of the element held so far and a new one, the new one if it is ahead. -/
def keepForemost (ahead : ρ → ρ → Bool) (held : Option ρ) (n : ρ) : Option ρ :=
  if held.all (ahead n) then some n else held

/-- The element that is left at the end. -/
def foremost (ahead : ρ → ρ → Bool) (l : List ρ) : Option ρ := l.foldl (keepForemost ahead) none

variable {held : Option ρ}

theorem keepForemost_mem {a : ρ} (h : keepForemost ahead held a = some n) : n = a ∨ held = some n := by
  unfold keepForemost at h
  split at h
  · exact .inl (some.inj h).symm
  · exact .inr h

theorem keepForemost_ne_none (held : Option ρ) (a : ρ) : keepForemost ahead held a ≠ none := by
  unfold keepForemost
  cases held with
  | none => exact some_ne_none a
  | some b => split <;> exact some_ne_none _

theorem foldl_keepForemost_mem (h : l.foldl (keepForemost ahead) held = some n) : n ∈ l ∨ held = some n := by
  induction l generalizing held with
  | nil => exact .inr h
  | cons a l ih =>
    rcases ih h with hn | hn
    · exact .inl (mem_cons_of_mem _ hn)
    · rcases keepForemost_mem hn with rfl | hn
      · exact .inl mem_cons_self
      · exact .inr hn

theorem foremost_mem (h : foremost ahead l = some n) : n ∈ l := by
  rcases foldl_keepForemost_mem h with hn | hn
  · exact hn
  · cases hn

theorem foldl_keepForemost_ne_none (h : held ≠ none) : l.foldl (keepForemost ahead) held ≠ none := by
  induction l generalizing held with
  | nil => exact h
  | cons a l ih => exact ih (keepForemost_ne_none held a)

theorem foremost_eq_none : foremost ahead l = none ↔ l = [] := by
  constructor
  · intro h
    cases l with
    | nil => rfl
    | cons a l =>
      rw [foremost, foldl_cons] at h
      exact absurd h (foldl_keepForemost_ne_none (keepForemost_ne_none none a))
  · rintro rfl
    rfl

end Foremost

end MlmForge
