/-
  Subject:   The lock on a tree, under every interleaving of its callers.

  A tree's lock is a channel with room for one token. A call of `Lock` makes the channel if need be, then
  waits until it can send the token or its context ends; the function it returns takes the token back, once.

  * **`tree_lock_is_exclusive`** -- so at any time one call at most holds a tree.
-/
import Mathlib.Logic.Function.Basic
import MlmForge.Basis.Outcome
import MlmForge.Engine.Node

namespace MlmForge.Network

open Engine Function

/-- Where a call stands. -/
inductive LockPhase where
  | waiting (treeId : Uuid)
  | held (treeId : Uuid)
  | released (treeId : Uuid)
  | ended

inductive LockError where
  | contextEnded
  | alreadyReleased (treeId : Uuid)

/-- `MemoryTreeLocker.slots`, and the calls made so far. -/
structure Locking where
  slots : Uuid → Option Bool
  calls : Nat → Option LockPhase

def Locking.start : Locking := ⟨fun _ => none, fun _ => none⟩

inductive LockAct where
  /-- `Lock`, up to the wait. -/
  | lock (treeId : Uuid) (ended : Bool)
  | send
  /-- The context ends. -/
  | done
  | unlock

/-- Lets a call move, unless it is not there or blocks. -/
def Locking.step (s : Locking) (c : Nat) (act : LockAct) : Option (Locking × Query LockError Unit) :=
  match act, s.calls c with
  | .lock _ true, none => some ({ s with calls := update s.calls c (some .ended) }, .error (.err .contextEnded))
  | .lock t false, none =>
    let slots := if s.slots t = none then update s.slots t (some false) else s.slots
    some (⟨slots, update s.calls c (some (.waiting t))⟩, .ok ())
  | .send, some (.waiting t) =>
    if s.slots t = some false then
      some (⟨update s.slots t (some true), update s.calls c (some (.held t))⟩, .ok ())
    else none
  | .done, some (.waiting _) =>
    some ({ s with calls := update s.calls c (some .ended) }, .error (.err .contextEnded))
  | .unlock, some (.held t) =>
    if s.slots t = some true then
      some (⟨update s.slots t (some false), update s.calls c (some (.released t))⟩, .ok ())
    else none
  | .unlock, some (.released t) => some (s, .error (.err (.alreadyReleased t)))
  | _, _ => none

/-- **The channels say who holds which tree**: a channel is full exactly while its tree is held. -/
structure Locking.Held (s : Locking) (holder : Uuid → Option Nat) : Prop where
  calls : ∀ c t, s.calls c = some (.held t) ↔ holder t = some c
  full : ∀ t, s.slots t = some true ↔ holder t ≠ none
  made : ∀ c t, s.calls c = some (.waiting t) → s.slots t ≠ none

theorem Locking.Held.step {s s' : Locking} {holder : Uuid → Option Nat} (h : s.Held holder) {c : Nat}
    {act : LockAct} {r : Query LockError Unit} (hstep : s.step c act = some (s', r)) :
    ∃ holder', s'.Held holder' := by
  obtain ⟨calls, full, made⟩ := h
  unfold Locking.step at hstep
  -- only a send and the first unlock change who holds a tree
  split at hstep
  · cases hstep
    exact ⟨holder, by constructor <;> grind [update_apply]⟩
  · cases hstep
    exact ⟨holder, by constructor <;> grind [update_apply]⟩
  · rename_i t _
    split at hstep
    · cases hstep
      exact ⟨update holder t (some c), by constructor <;> grind [update_apply]⟩
    · cases hstep
  · cases hstep
    exact ⟨holder, by constructor <;> grind [update_apply]⟩
  · rename_i t _
    split at hstep
    · cases hstep
      exact ⟨update holder t none, by constructor <;> grind [update_apply]⟩
    · cases hstep
  · cases hstep
    exact ⟨holder, calls, full, made⟩
  · cases hstep

/-- The calls move in some order, one at a time. -/
def Locking.run (s : Locking) (moves : List (Nat × LockAct)) : Option Locking :=
  moves.foldlM (fun s m => (s.step m.1 m.2).map Prod.fst) s

theorem Locking.Held.run {s s' : Locking} {moves : List (Nat × LockAct)} (h : ∃ holder, s.Held holder)
    (hrun : s.run moves = some s') : ∃ holder, s'.Held holder := by
  induction moves generalizing s with
  | nil =>
    cases hrun
    exact h
  | cons m moves ih =>
    obtain ⟨next, hnext, hrun⟩ := Option.bind_eq_some_iff.mp hrun
    obtain ⟨⟨next, r⟩, hstep, rfl⟩ := Option.map_eq_some_iff.mp hnext
    exact ih (h.choose_spec.step hstep) hrun

/-- **The lock on a tree is exclusive**: in whatever order the calls move, one at most holds a tree. One that
    waits can have it exactly when nobody does; one that holds it can give it up, then nobody does; and giving
    it up again is refused and takes it from nobody. -/
theorem tree_lock_is_exclusive {moves : List (Nat × LockAct)} {s : Locking}
    (h : Locking.start.run moves = some s) (t : Uuid) :
    (∀ c d, s.calls c = some (.held t) → s.calls d = some (.held t) → c = d) ∧
    (∀ c, s.calls c = some (.waiting t) →
      ((s.step c .send).isSome ↔ ∀ d, s.calls d ≠ some (.held t))) ∧
    (∀ c, s.calls c = some (.held t) →
      ∃ s', s.step c .unlock = some (s', .ok ()) ∧ ∀ d, s'.calls d ≠ some (.held t)) ∧
    ∀ c, s.calls c = some (.released t) → s.step c .unlock = some (s, .error (.err (.alreadyReleased t))) := by
  have hstart : Locking.start.Held fun _ => none := by constructor <;> simp [Locking.start]
  obtain ⟨holder, calls, full, made⟩ := Locking.Held.run ⟨_, hstart⟩ h
  refine ⟨fun c d hc hd => ?_, fun c hc => ?_, fun c hc => ?_, fun c hc => ?_⟩
  · grind
  · have hfree : s.slots t = some false ↔ ∀ d, s.calls d ≠ some (.held t) := by
      simp only [ne_eq, calls, ← Option.eq_none_iff_forall_ne_some]
      have hmade := made c t hc
      have hfull := full t
      rcases hslot : s.slots t with _ | _ | _ <;> grind
    simp only [Locking.step, hc, ← hfree]
    split <;> simp_all
  · have hslot : s.slots t = some true := by grind
    simp only [Locking.step, hc, hslot, if_true]
    exact ⟨_, rfl, fun d hd => by grind [update_apply]⟩
  · simp only [Locking.step, hc]

/-- Two calls for tree 7; the first gives it up twice. -/
def handOver : List (Nat × LockAct) :=
  [(0, .lock 7 false), (1, .lock 7 false), (0, .send), (0, .unlock), (1, .send), (0, .unlock)]

theorem tree_lock_is_exclusive_handOver : ∃ s, Locking.start.run handOver = some s ∧
    ∀ c, s.calls c = some (.held 7) → c = 1 := by
  have hrun : Locking.start.run handOver = some _ := rfl
  exact ⟨_, hrun, fun c hc => (tree_lock_is_exclusive hrun 7).1 c 1 hc rfl⟩

end MlmForge.Network
