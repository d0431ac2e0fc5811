/-
  Subject:   The three-colour walk that decides whether every chain of a finite graph of links ends.

  `chainsEnd` walks up from every start, marking what the current walk has met (`onWalk`) and what
  an earlier walk has settled (`done`); meeting a marked node of the current walk is a revisit.

  * `ends_of_chainsEnd_ok` -- when every walk passes, every chain that was walked ends.
-/
import MlmForge.Basis.Outcome
import MlmForge.Basis.Chain

namespace MlmForge

open List Query

/-- What the walks know of a node. -/
inductive Visit where
  | unseen
  | onWalk
  | done
  deriving DecidableEq, Repr

section Walk

variable {ε : Type} (next : Nat → Option Nat) (revisits : Nat → Nat → ε)

/-- One walk from `start`, up to a settled node or the end of the chain. `walked` collects what it
    met, and every step marks an unseen node, which `fuel` bounds. -/
def walkChain (start : Nat) : Nat → List Visit → List Nat → Option Nat →
    Query ε (List Visit × List Nat)
  | _, visits, walked, none => .ok (visits, walked)
  | 0, _, _, some _ => .error .loop
  | fuel + 1, visits, walked, some idx =>
    match visits[idx]? with
    | none => .error (.panic "index out of bounds")
    | some .done => .ok (visits, walked)
    | some .onWalk => .error (.err (revisits start idx))
    | some .unseen => walkChain start fuel (visits.set idx .onWalk) (walked ++ [idx]) (next idx)

/-- The walks from a list of starts, one after the other. -/
def chainsEndFrom (skip : Nat → Bool) : List Nat → List Visit → Query ε Unit
  | [], _ => .ok ()
  | start :: rest, visits =>
    if skip start || visits[start]? == some .done then
      chainsEndFrom skip rest visits
    else
      match walkChain next revisits start (visits.length + 1) visits [] (some start) with
      | .error e => .error e
      | .ok (visits, walked) =>
        chainsEndFrom skip rest (walked.foldl (fun v slot => v.set slot .done) visits)

/-- Every chain that starts below `n`, other than at a skipped node, comes to an end. -/
def chainsEnd (skip : Nat → Bool) (n : Nat) : Query ε Unit :=
  chainsEndFrom next revisits skip (range n) (replicate n .unseen)

end Walk

/-! ## 1. Marking -/

theorem getElem?_markDone (walked : List Nat) (visits : List Visit) (i : Nat) :
    (walked.foldl (fun v slot => v.set slot Visit.done) visits)[i]? =
      if i ∈ walked ∧ i < visits.length then some .done else visits[i]? := by
  induction walked generalizing visits with
  | nil => simp
  | cons w walked ih =>
    rw [foldl_cons, ih, length_set]
    by_cases hi : i < visits.length
    · by_cases hw : i = w
      · subst hw
        simp [hi]
      · rw [getElem?_set_ne (Ne.symm hw)]
        simp [hw]
    · simp [hi]

theorem length_markDone (walked : List Nat) (visits : List Visit) :
    (walked.foldl (fun v slot => v.set slot Visit.done) visits).length = visits.length := by
  induction walked generalizing visits with
  | nil => rfl
  | cons w walked ih => rw [foldl_cons, ih, length_set]

theorem count_unseen_set {visits : List Visit} {idx : Nat} (h : visits[idx]? = some .unseen) :
    (visits.set idx .onWalk).count .unseen + 1 = visits.count .unseen := by
  induction visits generalizing idx with
  | nil => cases h
  | cons v visits ih =>
    cases idx with
    | zero =>
      cases h
      simp
    | succ idx =>
      have h' : visits[idx]? = some .unseen := h
      have := ih h'
      rw [set_cons_succ, count_cons, count_cons]
      omega

/-! ## 2. The check itself ends -/

section Ends

variable {ε : Type} {next : Nat → Option Nat} {n : Nat}

section Cases

variable (revisits : Nat → Nat → ε) (hn : ∀ a b, a < n → next a = some b → b < n)
include revisits hn

/-- A walk marks one more node at every step, so it comes to an end on any graph: it returns, and what it
    leaves marked is what it walked, or it has met a node of its own, and then the links run in a circle. -/
theorem walkChain_cases (start : Nat) :
    ∀ (fuel : Nat) (visits : List Visit) (walked : List Nat) (cur : Option Nat),
      visits.length = n → visits.count .unseen < fuel → (∀ c, cur = some c → c < n) →
      (∀ i : Nat, visits[i]? = some .onWalk ↔ i ∈ walked) →
      (∀ c, cur = some c → ∀ i ∈ walked, StrictlyAbove next i c) →
      (∃ v w, walkChain next revisits start fuel visits walked cur = .ok (v, w) ∧ v.length = n ∧
          ∀ i : Nat, v[i]? = some .onWalk ↔ i ∈ w) ∨
        ∃ x i, walkChain next revisits start fuel visits walked cur = .error (.err x) ∧ StrictlyAbove next i i := by
  intro fuel
  induction fuel with
  | zero => intro visits walked cur _ hf; omega
  | succ fuel ih =>
    intro visits walked cur hlen hf hcur hon hbelow
    cases cur with
    | none => exact .inl ⟨visits, walked, rfl, hlen, hon⟩
    | some idx =>
      have hidx : idx < n := hcur idx rfl
      unfold walkChain
      cases hv : visits[idx]? with
      | none =>
        rw [List.getElem?_eq_none_iff] at hv
        omega
      | some vis =>
        cases vis with
        | done => exact .inl ⟨visits, walked, rfl, hlen, hon⟩
        | onWalk => exact .inr ⟨_, idx, rfl, hbelow idx rfl idx ((hon idx).mp hv)⟩
        | unseen =>
          have hcount := count_unseen_set hv
          refine ih _ _ _ (by rw [length_set]; exact hlen) (by omega)
            (fun c hc => hn idx c hidx hc) (fun i => ?_) (fun c hc i hi => ?_)
          · by_cases he : i = idx
            · subst he
              simp [hlen, hidx]
            · rw [getElem?_set_ne (Ne.symm he), hon]
              simp [he]
          · rcases mem_append.mp hi with hi | hi
            · exact (hbelow idx rfl i hi).tail hc
            · rw [mem_singleton.mp hi]
              exact .single hc

theorem chainsEndFrom_cases
    (skip : Nat → Bool) : ∀ (starts : List Nat) (visits : List Visit), (∀ s ∈ starts, s < n) →
      visits.length = n → (∀ i : Nat, visits[i]? ≠ some .onWalk) →
      chainsEndFrom next revisits skip starts visits = .ok () ∨
        ∃ x i, chainsEndFrom next revisits skip starts visits = .error (.err x) ∧ StrictlyAbove next i i := by
  intro starts
  induction starts with
  | nil => exact fun _ _ _ _ => .inl rfl
  | cons s starts ih =>
    intro visits hs hlen hon
    have hrest : ∀ x ∈ starts, x < n := fun x hx => hs x (mem_cons_of_mem _ hx)
    have hcount : visits.count .unseen < visits.length + 1 := Nat.lt_succ_of_le count_le_length
    unfold chainsEndFrom
    split
    · exact ih _ hrest hlen hon
    · rcases walkChain_cases revisits hn s _ visits [] (some s) hlen hcount
        (fun c hc => by cases hc; exact hs s mem_cons_self)
        (fun i => by simp [hon i]) (fun _ _ i hi => absurd hi not_mem_nil) with
        ⟨v, w, hw, hvl, hvw⟩ | ⟨x, i, hw, hcircle⟩
      · rw [hw]
        refine ih _ hrest (by rw [length_markDone, hvl]) fun i => ?_
        rw [getElem?_markDone]
        split
        · simp
        · rename_i hnot
          intro hi
          have hlt : i < v.length := (List.getElem?_eq_some_iff.mp hi).1
          exact hnot ⟨(hvw i).mp hi, hlt⟩
      · rw [hw]
        exact .inr ⟨x, i, rfl, hcircle⟩

/-- On a graph whose links stay in range, the check passes or has found a circle. -/
theorem chainsEnd_cases (skip : Nat → Bool) : chainsEnd next revisits skip n = .ok () ∨
      ∃ x i, chainsEnd next revisits skip n = .error (.err x) ∧ StrictlyAbove next i i := by
  refine chainsEndFrom_cases revisits hn skip _ _ (fun s hs => mem_range.mp hs) (by simp) fun i => ?_
  rw [getElem?_replicate]
  split <;> simp

end Cases

variable {revisits : Nat → Nat → ε}

/-- **The check ends without a panic** when no link leads out of range. -/
theorem chainsEnd_safe (hn : ∀ a b, a < n → next a = some b → b < n)
    (skip : Nat → Bool) : Query.Safe (chainsEnd next revisits skip n) := by
  rcases chainsEnd_cases revisits hn skip with hok | ⟨x, i, herr, -⟩
  · rw [hok]
    exact safe_ok ()
  · rw [herr]
    exact safe_err x

/-- **A ranked graph of links passes the check.** -/
theorem chainsEnd_ok_of_ranked (h : Ranked next)
    (hn : ∀ a b, next a = some b → b < n) (skip : Nat → Bool) : chainsEnd next revisits skip n = .ok () := by
  rcases chainsEnd_cases revisits (fun a b _ hab => hn a b hab) skip with hok | ⟨x, i, -, hcircle⟩
  · exact hok
  · exact absurd hcircle (h.irrefl i)

end Ends

/-! ## 3. What passes ends -/

section Sound

variable {ε : Type} {next : Nat → Option Nat} {revisits : Nat → Nat → ε}

theorem ends_of_walkChain_ok {start : Nat} :
    ∀ {fuel : Nat} {visits v : List Visit} {walked w : List Nat} {cur : Option Nat},
      walkChain next revisits start fuel visits walked cur = .ok (v, w) →
      (∀ i : Nat, visits[i]? = some .done → Ends next i) →
      (∀ c, cur = some c → Ends next c) ∧ (∀ i ∈ w, i ∈ walked ∨ Ends next i) ∧
        ∀ i : Nat, v[i]? = some .done → visits[i]? = some .done := by
  intro fuel
  induction fuel with
  | zero =>
    intro visits v walked w cur h _
    cases cur with
    | some c => cases h
    | none =>
      cases h
      exact ⟨fun c hc => (by cases hc), fun i hi => .inl hi, fun i hi => hi⟩
  | succ fuel ih =>
    intro visits v walked w cur h hdone
    cases cur with
    | none =>
      cases h
      exact ⟨fun c hc => (by cases hc), fun i hi => .inl hi, fun i hi => hi⟩
    | some idx =>
      unfold walkChain at h
      cases hv : visits[idx]? with
      | none => rw [hv] at h; cases h
      | some vis =>
        rw [hv] at h
        cases vis with
        | onWalk => cases h
        | done =>
          cases h
          exact ⟨fun c hc => (by cases hc; exact hdone idx hv), fun i hi => .inl hi, fun i hi => hi⟩
        | unseen =>
          -- marking a node `onWalk` settles nothing
          have hset : ∀ i : Nat, (visits.set idx .onWalk)[i]? = some .done → visits[i]? = some .done := by
            intro i hi
            rw [getElem?_set] at hi
            split at hi
            · split at hi <;> cases hi
            · exact hi
          obtain ⟨h1, h2, h3⟩ := ih h fun i hi => hdone i (hset i hi)
          have hidx : Ends next idx := by
            cases hnx : next idx with
            | none => exact ends_of_none hnx
            | some j => exact ends_of_step hnx (h1 j hnx)
          refine ⟨fun c hc => (by cases hc; exact hidx), fun i hi => ?_, fun i hi => hset i (h3 i hi)⟩
          rcases h2 i hi with h | h
          · rcases mem_append.mp h with h | h
            · exact .inl h
            · exact .inr (mem_singleton.mp h ▸ hidx)
          · exact .inr h

variable {skip : Nat → Bool}

theorem ends_of_chainsEndFrom_ok : ∀ {starts : List Nat} {visits : List Visit},
      chainsEndFrom next revisits skip starts visits = .ok () →
      (∀ i : Nat, visits[i]? = some .done → Ends next i) → ∀ s ∈ starts, skip s = false → Ends next s := by
  intro starts
  induction starts with
  | nil => intro _ _ _ s hs; exact absurd hs not_mem_nil
  | cons x starts ih =>
    intro visits h hdone s hs hskip
    unfold chainsEndFrom at h
    split at h
    · rename_i hx
      rcases mem_cons.mp hs with rfl | hs
      · rw [hskip, Bool.false_or, beq_iff_eq] at hx
        exact hdone _ hx
      · exact ih h hdone s hs hskip
    · split at h
      · cases h
      · rename_i v w hw
        obtain ⟨h1, h2, h3⟩ := ends_of_walkChain_ok hw hdone
        rcases mem_cons.mp hs with rfl | hs
        · exact h1 _ rfl
        · refine ih h (fun i hi => ?_) s hs hskip
          rw [getElem?_markDone] at hi
          split at hi
          · rename_i hmem
            rcases h2 i hmem.1 with hn | he
            · exact absurd hn not_mem_nil
            · exact he
          · exact hdone i (h3 i hi)

/-- **When the check passes, every chain it walked ends.** -/
theorem ends_of_chainsEnd_ok {n : Nat}
    (h : chainsEnd next revisits skip n = .ok ()) {s : Nat} (hs : s < n) (hskip : skip s = false) :
    Ends next s := by
  refine ends_of_chainsEndFrom_ok h (fun i hi => ?_) s (mem_range.mpr hs) hskip
  rw [getElem?_replicate] at hi
  split at hi <;> cases hi

end Sound

end MlmForge
