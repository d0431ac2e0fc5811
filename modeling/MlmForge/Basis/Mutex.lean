/-
  Subject:   Calls on one state behind a lock, made at the same time.

  A call looks at its arguments first. Then it answers, or it waits for the lock, works on the state step
  by step and answers when it is done, which gives the lock back. Calls take their steps in any order; only
  the lock keeps two of them from working at the same time.

  * **`Guarded.serializes`** -- whatever the order of the steps, the calls that have answered did what they
    do one after the other in some order, and as long as nobody is inside that is all that was done.
-/
import Mathlib.Logic.Relation
import Mathlib.Data.List.Nodup

namespace MlmForge

open List Function

/-- What calls `ι` do to a state `σ`: what is decided before the lock is taken, and one step of the work
    under it. -/
structure Guarded (σ ι ω ρ : Type) where
  prepare : ι → ω ⊕ ρ
  step : ω → σ → σ × (ω ⊕ ρ)

/-- How far a call is. -/
inductive Progress (ω ρ : Type) where
  | waiting
  | inside (w : ω)
  | answered (r : ρ)

/-- A state and the calls on it, by name. -/
structure System (σ κ ω ρ : Type) where
  state : σ
  progress : κ → Progress ω ρ

namespace System

variable {σ κ ω ρ : Type}

/-- Nobody has the lock. -/
def Free (s : System σ κ ω ρ) : Prop := ∀ k w, s.progress k ≠ .inside w

/-- A state on which all calls are still to be made. -/
def start (s : σ) : System σ κ ω ρ := ⟨s, fun _ => .waiting⟩

end System

namespace Guarded

variable {σ ι ω ρ κ : Type} (G : Guarded σ ι ω ρ) (call : κ → ι)

/-- **One step of one call**; the others stay where they are. -/
inductive Step [DecidableEq κ] : System σ κ ω ρ → System σ κ ω ρ → Prop where
  | refuse {s : System σ κ ω ρ} {k : κ} {r : ρ} (waits : s.progress k = .waiting)
      (prepare : G.prepare (call k) = .inr r) :
      Step s ⟨s.state, update s.progress k (.answered r)⟩
  | enter {s : System σ κ ω ρ} {k : κ} {w : ω} (waits : s.progress k = .waiting)
      (prepare : G.prepare (call k) = .inl w) (free : s.Free) :
      Step s ⟨s.state, update s.progress k (.inside w)⟩
  | work {s : System σ κ ω ρ} {k : κ} {w w' : ω} {s' : σ} (inside : s.progress k = .inside w)
      (step : G.step w s.state = (s', .inl w')) :
      Step s ⟨s', update s.progress k (.inside w')⟩
  | leave {s : System σ κ ω ρ} {k : κ} {w : ω} {r : ρ} {s' : σ} (inside : s.progress k = .inside w)
      (step : G.step w s.state = (s', .inr r)) :
      Step s ⟨s', update s.progress k (.answered r)⟩

/-- What calls made at the same time can lead to. -/
def Reaches [DecidableEq κ] : System σ κ ω ρ → System σ κ ω ρ → Prop :=
  Relation.ReflTransGen (G.Step call)

/-- Some of the work of a call, undisturbed. -/
inductive Works : ω → σ → ω → σ → Prop where
  | none (w : ω) (s : σ) : Works w s w s
  | more {w w1 w2 : ω} {s s1 s2 : σ} (first : Works w s w1 s1) (step : G.step w1 s1 = (s2, .inl w2)) :
      Works w s w2 s2

/-- A whole call, undisturbed. -/
inductive Runs : ι → σ → ρ → σ → Prop where
  | refused {c : ι} {s : σ} {r : ρ} (prepare : G.prepare c = .inr r) : Runs c s r s
  | done {c : ι} {s s1 s2 : σ} {w w1 : ω} {r : ρ} (prepare : G.prepare c = .inl w)
      (works : G.Works w s w1 s1) (step : G.step w1 s1 = (s2, .inr r)) : Runs c s r s2

/-- Calls made one after the other, with their answers. -/
inductive Serial : σ → List (κ × ρ) → σ → Prop where
  | none (s : σ) : Serial s [] s
  | next {s s1 s2 : σ} {log : List (κ × ρ)} {k : κ} {r : ρ} (before : Serial s log s1)
      (runs : G.Runs (call k) s1 r s2) : Serial s (log ++ [(k, r)]) s2

/-- **What holds at every step**: there is a log of the calls that have answered, each once; if nobody is
    inside, the state is what they leave; and whoever is inside is alone and has worked on what they
    leave. -/
structure Explains (s0 : σ) (log : List (κ × ρ)) (last : σ) (s : System σ κ ω ρ) : Prop where
  serial : G.Serial call s0 log last
  once : (log.map Prod.fst).Nodup
  answers : ∀ k r, s.progress k = .answered r ↔ (k, r) ∈ log
  free : s.Free → s.state = last
  inside : ∀ k w, s.progress k = .inside w → (∀ j w', s.progress j = .inside w' → j = k) ∧
    ∃ w0, G.prepare (call k) = .inl w0 ∧ G.Works w0 last w s.state

variable {G call} {s0 last : σ} {log : List (κ × ρ)} {s s' : System σ κ ω ρ}

theorem explains_start (s0 : σ) : G.Explains call s0 [] s0 (System.start s0) where
  serial := .none s0
  once := nodup_nil
  answers k r := ⟨nofun, nofun⟩
  free _ := rfl
  inside k w h := by cases h

theorem Explains.not_mem (h : G.Explains call s0 log last s) {k : κ}
    (hk : ∀ r, s.progress k ≠ .answered r) : k ∉ log.map Prod.fst := by
  intro hmem
  obtain ⟨⟨j, r⟩, hjr, rfl⟩ := mem_map.mp hmem
  exact hk r ((h.answers j r).mpr hjr)

theorem Explains.nodup_snoc (h : G.Explains call s0 log last s) {k : κ} (r : ρ)
    (hk : ∀ r, s.progress k ≠ .answered r) : ((log ++ [(k, r)]).map Prod.fst).Nodup := by
  have hnot := h.not_mem hk
  rw [map_append]
  refine nodup_append.mpr ⟨h.once, by simp, fun a ha b hb => ?_⟩
  rw [map_cons, map_nil, mem_singleton] at hb
  subst hb
  exact fun heq => hnot (heq ▸ ha)

variable [DecidableEq κ] {p : κ → Progress ω ρ} {k j : κ} {w w' : ω}

theorem inside_of_inside (h : update p k (.inside w) j = .inside w') :
    (j = k ∧ w' = w) ∨ (j ≠ k ∧ p j = .inside w') := by
  rw [update_apply] at h
  split at h
  · rename_i heq
    cases h
    exact .inl ⟨heq, rfl⟩
  · rename_i hne
    exact .inr ⟨hne, h⟩

theorem inside_of_answered {r : ρ} (h : update p k (.answered r) j = .inside w) :
    j ≠ k ∧ p j = .inside w := by
  rw [update_apply] at h
  split at h
  · cases h
  · rename_i hne
    exact ⟨hne, h⟩

theorem Explains.answers_update (h : G.Explains call s0 log last s) {r : ρ}
    (hk : ∀ r, s.progress k ≠ .answered r) (j : κ) (r' : ρ) :
    update s.progress k (.answered r) j = .answered r' ↔ (j, r') ∈ log ++ [(k, r)] := by
  rw [update_apply, mem_append, mem_singleton, Prod.mk.injEq]
  split
  · rename_i hj
    subst hj
    constructor
    · intro heq
      cases heq
      exact .inr ⟨rfl, rfl⟩
    · intro hmem
      rcases hmem with hmem | ⟨-, rfl⟩
      · exact absurd (mem_map_of_mem hmem) (h.not_mem hk)
      · rfl
  · rename_i hj
    rw [h.answers]
    exact ⟨.inl, fun hmem => hmem.resolve_right fun heq => hj heq.1⟩

theorem Explains.answers_inside (h : G.Explains call s0 log last s)
    (hk : ∀ r, s.progress k ≠ .answered r) (j : κ) (r' : ρ) :
    update s.progress k (.inside w) j = .answered r' ↔ (j, r') ∈ log := by
  rw [update_apply]
  split
  · rename_i hj
    subst hj
    refine ⟨nofun, fun hmem => absurd ((h.answers j r').mpr hmem) (hk r')⟩
  · exact h.answers j r'

/-- **A step of one call is explained** by the same log, or by the log with the call that answered. -/
theorem Explains.step (h : G.Explains call s0 log last s) (hs : G.Step call s s') :
    ∃ log' last', G.Explains call s0 log' last' s' := by
  cases hs with
  | @refuse k r waits prepare =>
    have hk : ∀ r, s.progress k ≠ .answered r := fun r hr => by
      rw [waits] at hr
      cases hr
    refine ⟨log ++ [(k, r)], last, .next h.serial (.refused prepare), h.nodup_snoc r hk,
      h.answers_update hk, fun hfree => h.free fun j w hj => ?_, fun j w hj => ?_⟩
    · have hne : j ≠ k := by
        rintro rfl
        rw [waits] at hj
        cases hj
      exact hfree j w ((update_of_ne hne _ _).trans hj)
    · obtain ⟨halone, hwork⟩ := h.inside j w (inside_of_answered hj).2
      exact ⟨fun i w' hi => halone i w' (inside_of_answered hi).2, hwork⟩
  | @enter k w waits prepare free =>
    have hk : ∀ r, s.progress k ≠ .answered r := fun r hr => by
      rw [waits] at hr
      cases hr
    have honly : ∀ {j w'}, update s.progress k (.inside w) j = .inside w' → j = k ∧ w' = w := fun hj =>
      (inside_of_inside hj).resolve_right fun hne => free _ _ hne.2
    refine ⟨log, last, h.serial, h.once, h.answers_inside hk, fun hfree => ?_, fun j w' hj => ?_⟩
    · exact absurd (update_self k _ s.progress) (hfree k w)
    · obtain ⟨rfl, rfl⟩ := honly hj
      refine ⟨fun i v hi => (honly hi).1, w', prepare, ?_⟩
      rw [h.free free]
      exact .none _ _
  | @work k w w' state' inside step =>
    have hk : ∀ r, s.progress k ≠ .answered r := fun r hr => by
      rw [inside] at hr
      cases hr
    obtain ⟨halone, w0, hprepare, hworks⟩ := h.inside k w inside
    have honly : ∀ {j v}, update s.progress k (.inside w') j = .inside v → j = k ∧ v = w' := fun hj =>
      (inside_of_inside hj).resolve_right fun hne => hne.1 (halone _ _ hne.2)
    refine ⟨log, last, h.serial, h.once, h.answers_inside hk, fun hfree => ?_, fun j v hj => ?_⟩
    · exact absurd (update_self k _ s.progress) (hfree k w')
    · obtain ⟨rfl, rfl⟩ := honly hj
      exact ⟨fun i v' hi => (honly hi).1, w0, hprepare, .more hworks step⟩
  | @leave k w r state' inside step =>
    have hk : ∀ r, s.progress k ≠ .answered r := fun r hr => by
      rw [inside] at hr
      cases hr
    obtain ⟨halone, w0, hprepare, hworks⟩ := h.inside k w inside
    refine ⟨log ++ [(k, r)], state', .next h.serial (.done hprepare hworks step), h.nodup_snoc r hk,
      h.answers_update hk, fun _ => rfl, fun j w' hj => ?_⟩
    -- whoever was inside besides would not have been alone
    obtain ⟨hne, hj⟩ := inside_of_answered hj
    exact absurd (halone j w' hj) hne

/-- **Calls made at the same time are made one after the other.** -/
theorem serializes (h : G.Reaches call (System.start s0) s) : ∃ log last, G.Explains call s0 log last s := by
  induction h with
  | refl => exact ⟨[], s0, explains_start s0⟩
  | tail _ hstep ih =>
    obtain ⟨log, last, hexp⟩ := ih
    exact hexp.step hstep

end Guarded

end MlmForge
