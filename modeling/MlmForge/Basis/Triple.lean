/-
  Subject:   Pre- and postconditions of calls on mutable state.

  `Does m s post halt` says how the call `m` ends from the state `s`: with a value and a state that meet
  `post`, or stopped in a state that meets `halt`. A call is one or the other, so a triple whose `halt`
  is never met says that the call returns.

  * `Does.mono` -- weakening.
-/
import MlmForge.Basis.Outcome

namespace MlmForge.Call

variable {ε σ α β : Type}

/-- How a call ends from a state. -/
def Does (m : Call ε σ α) (s : σ) (post : α → σ → Prop) (halt : Stop ε → σ → Prop) : Prop :=
  match m.run s with
  | .ok a s' => post a s'
  | .error stop s' => halt stop s'

section Rules

variable {m : Call ε σ α} {f : α → Call ε σ β} {s s' : σ} {post : α → σ → Prop}
  {after : β → σ → Prop} {halt : Stop ε → σ → Prop}

variable {a : α}

theorem Does.ok (h : Does m s post halt) (hrun : m.run s = .ok a s') : post a s' := by
  unfold Does at h
  rw [hrun] at h
  exact h

variable {stop : Stop ε}

theorem Does.error (h : Does m s post halt) (hrun : m.run s = .error stop s') : halt stop s' := by
  unfold Does at h
  rw [hrun] at h
  exact h

theorem Does.mono {post' : α → σ → Prop} {halt' : Stop ε → σ → Prop} (h : Does m s post halt)
    (hpost : ∀ a s', post a s' → post' a s') (hhalt : ∀ stop s', halt stop s' → halt' stop s') :
    Does m s post' halt' := by
  unfold Does at h ⊢
  split at h
  · exact hpost _ _ h
  · exact hhalt _ _ h

theorem Does.imp {post' : α → σ → Prop} (h : Does m s post halt) (hpost : ∀ a s', post a s' → post' a s') :
    Does m s post' halt := h.mono hpost fun _ _ hstop => hstop

/-- **A sequence does what its parts do in turn.** -/
theorem Does.bind (h : Does m s post halt) (hf : ∀ a s', post a s' → Does (f a) s' after halt) :
    Does (m >>= f) s after halt := by
  unfold Does
  rw [run_bind]
  cases hrun : m.run s with
  | ok a s' => exact hf a s' (h.ok hrun)
  | error stop s' => exact h.error hrun

theorem Does.andThen (h : Does m s post fun _ _ => False)
    (hf : ∀ a s', post a s' → Does (f a) s' after halt) : Does (m >>= f) s after halt :=
  (h.mono (fun _ _ hpost => hpost) fun _ _ hfalse => hfalse.elim).bind hf

theorem does_of_run (hrun : m.run s = .ok a s') (h : post a s') : Does m s post halt := by
  unfold Does
  rw [hrun]
  exact h

theorem does_of_error {stop : Stop ε} (hrun : m.run s = .error stop s') (h : halt stop s') :
    Does m s post halt := by
  unfold Does
  rw [hrun]
  exact h

theorem does_run_bind (hrun : m.run s = .ok a s') (h : Does (f a) s' after halt) :
    Does (m >>= f) s after halt := by
  unfold Does
  rw [run_bind, hrun]
  exact h

theorem does_pure (h : post a s) : Does (pure a) s post halt := h

theorem does_throw (h : halt stop s) : Does (throw stop : Call ε σ α) s post halt := h

theorem does_get {g : σ → Call ε σ β} (h : Does (g s) s after halt) : Does (get >>= g) s after halt := by
  unfold Does at h ⊢
  rw [run_bind, run_get]
  exact h

variable {change : σ → σ}

theorem does_modify {g : PUnit → Call ε σ β} (h : Does (g ⟨⟩) (change s) after halt) :
    Does (modify change >>= g) s after halt := by
  unfold Does at h ⊢
  rw [run_bind, run_modify]
  exact h

theorem does_modify_last {post : PUnit → σ → Prop} (h : post ⟨⟩ (change s)) :
    Does (modify change : Call ε σ PUnit) s post halt := h

variable {q : σ → Query ε α}

theorem does_reads (hok : ∀ a, q s = .ok a → post a s)
    (herr : ∀ stop, q s = .error stop → halt stop s) : Does (reads q) s post halt := by
  unfold Does
  rw [run_reads]
  cases hq : q s with
  | ok a => exact hok a hq
  | error stop => exact herr stop hq

theorem does_reads_bind (herr : ∀ stop, q s = .error stop → halt stop s)
    (hok : ∀ a, q s = .ok a → Does (f a) s after halt) : Does (reads q >>= f) s after halt := by
  cases hq : q s with
  | ok a => exact does_run_bind (by rw [run_reads, hq]) (hok a hq)
  | error stop =>
    unfold Does
    rw [run_bind, run_reads, hq]
    exact herr stop hq

/-- A call on a part of the state. -/
theorem Does.zoom {τ : Type} {part : σ → τ} {put : σ → τ → σ} {n : Call ε τ α}
    (h : Does n (part s) (fun a t => post a (put s t)) fun stop t => halt stop (put s t)) :
    Does (Call.zoom part put n) s post halt := by
  unfold Does
  rw [run_zoom]
  cases hrun : n.run (part s) with
  | ok a t => exact h.ok hrun
  | error stop t => exact h.error hrun

theorem Does.map {g : α → β} (h : Does m s (fun a s' => after (g a) s') halt) :
    Does (g <$> m) s after halt := by
  unfold Does
  rw [run_map]
  cases hrun : m.run s with
  | ok a s' => exact h.ok hrun
  | error stop s' => exact h.error hrun

theorem does_checked (hsafe : (q s).Safe) (herr : ∀ x, halt (.err x) s)
    (hok : ∀ a, q s = .ok a → Does (reads q >>= f) s after halt) : Does (reads q >>= f) s after halt := by
  cases hq : q s with
  | ok a => exact hok a hq
  | error stop =>
    obtain ⟨x, rfl⟩ := hsafe stop hq
    unfold Does
    rw [run_bind, run_reads, hq]
    exact herr x

variable {ε' : Type} {halt' : Stop ε' → σ → Prop} (h : Does m s post halt)
include h

theorem Does.relay {wrap : ε → ε'} (herr : ∀ stop s', halt stop s' → halt' (stop.map wrap) s') :
    Does (Call.relay wrap m) s post halt' := by
  unfold Does
  rw [run_relay]
  cases hrun : m.run s with
  | ok a s' => exact h.ok hrun
  | error stop s' => exact herr stop s' (h.error hrun)

theorem Does.expect {msg : String} (herr : ∀ stop s', halt stop s' → halt' (stop.expect msg) s') :
    Does (Call.expect msg m) s post halt' := by
  unfold Does
  rw [run_expect]
  cases hrun : m.run s with
  | ok a s' => exact h.ok hrun
  | error stop s' => exact herr stop s' (h.error hrun)

end Rules

end MlmForge.Call
