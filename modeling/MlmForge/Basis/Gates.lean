/-
  Subject:   Sequences of yes-or-no queries, and how two runs of one sequence compare.

  A gate is a query for a truth value. Gates are passed one after the other until one is shut
  (`allOf`), tried until one is open (`anyOf`), or counted (`countOf`); a gate that stops, stops the
  sequence.

  * `Avoids e m` -- the query is never stopped by `e`; sequences keep that as well.
-/
import MlmForge.Basis.Outcome

namespace MlmForge.Query

open List

variable {ε ε' α β : Type}

/-! ## 1. Sequences of gates -/

/-- The second gate when the first is open. -/
def andThen (p rest : Query ε Bool) : Query ε Bool := do
  if ← p then rest else .ok false

/-- Whether all gates are open; a shut one ends the sequence. -/
def allOf (f : α → Query ε Bool) : List α → Query ε Bool
  | [] => .ok true
  | x :: l => andThen (f x) (allOf f l)

/-- Whether a gate is open; an open one ends the sequence. -/
def anyOf (f : α → Query ε Bool) : List α → Query ε Bool
  | [] => .ok false
  | x :: l => do
      if ← f x then .ok true else anyOf f l

/-- How many gates are open. -/
def countOf (f : α → Query ε Bool) : List α → Query ε Nat
  | [] => .ok 0
  | x :: l => do
      let b ← f x
      let n ← countOf f l
      .ok (if b then n + 1 else n)

theorem andThen_eq_ok {p rest : Query ε Bool} {y : Bool} : andThen p rest = .ok y ↔
    (p = .ok true ∧ rest = .ok y) ∨ (p = .ok false ∧ y = false) := by
  unfold andThen
  cases p with
  | error e => exact ⟨nofun, fun h => by rcases h with ⟨h, -⟩ | ⟨h, -⟩ <;> cases h⟩
  | ok b =>
    cases b with
    | true => exact ⟨fun h => .inl ⟨rfl, h⟩, fun h => by
        rcases h with ⟨-, h⟩ | ⟨h, -⟩
        · exact h
        · cases h⟩
    | false => exact ⟨fun h => .inr ⟨rfl, by cases h; rfl⟩, fun h => by
        rcases h with ⟨h, -⟩ | ⟨-, rfl⟩
        · cases h
        · rfl⟩

variable {f : α → Query ε Bool} {l : List α}

theorem allOf_eq_true : allOf f l = .ok true ↔ ∀ x ∈ l, f x = .ok true := by
  induction l with
  | nil => exact ⟨fun _ x hx => absurd hx not_mem_nil, fun _ => rfl⟩
  | cons x l ih =>
    rw [allOf, andThen_eq_ok, forall_mem_cons, ih]
    exact ⟨fun h => h.resolve_right fun hr => Bool.false_ne_true hr.2.symm, .inl⟩

theorem anyOf_ok {p : α → Bool} (h : ∀ x ∈ l, f x = .ok (p x)) : anyOf f l = .ok (l.any p) := by
  induction l with
  | nil => rfl
  | cons x l ih =>
    rw [anyOf, bind_ok (h x mem_cons_self), ih fun y hy => h y (mem_cons_of_mem _ hy), any_cons]
    cases p x <;> rfl

theorem exists_of_anyOf (h : anyOf f l = .ok true) : ∃ x ∈ l, f x = .ok true := by
  induction l with
  | nil => cases h
  | cons x l ih =>
    obtain ⟨b, hb, h⟩ := bind_eq_ok.mp h
    cases b with
    | true => exact ⟨x, mem_cons_self, hb⟩
    | false =>
      obtain ⟨y, hy, hopen⟩ := ih h
      exact ⟨y, mem_cons_of_mem _ hy, hopen⟩

theorem anyOf_eq_false (h : anyOf f l = .ok false) : ∀ x ∈ l, f x = .ok false := by
  induction l with
  | nil => exact fun x hx => absurd hx not_mem_nil
  | cons x l ih =>
    obtain ⟨b, hb, h⟩ := bind_eq_ok.mp h
    cases b with
    | true => cases h
    | false => exact forall_mem_cons.mpr ⟨hb, ih h⟩

theorem countOf_cons {x : α} {n : Nat} : countOf f (x :: l) = .ok n ↔
      ∃ b k, f x = .ok b ∧ countOf f l = .ok k ∧ n = if b then k + 1 else k := by
  rw [countOf, bind_eq_ok]
  constructor
  · intro h
    obtain ⟨b, hb, h⟩ := h
    obtain ⟨k, hk, h⟩ := bind_eq_ok.mp h
    exact ⟨b, k, hb, hk, by cases h; rfl⟩
  · intro h
    obtain ⟨b, k, hb, hk, rfl⟩ := h
    exact ⟨b, hb, bind_eq_ok.mpr ⟨k, hk, rfl⟩⟩

/-! ## 2. Outcomes under outcomes -/

/-- **One gate under another**: where both return, the first is open only if the second is; and with
    `s` the first returns wherever the second does. -/
def Under (s : Prop) (p q : Query ε Bool) : Prop :=
  ∀ y, q = .ok y → (s → ∃ x, p = .ok x) ∧ (p = .ok true → y = true)

variable {s : Prop} {p q p' q' : Query ε Bool}

theorem under_ok {x y : Bool} (h : x = true → y = true) : Under s (.ok x : Query ε Bool) (.ok y) := by
  intro z hz
  cases hz
  exact ⟨fun _ => ⟨x, rfl⟩, fun hx => h (by cases hx; rfl)⟩

theorem under_shut (q : Query ε Bool) : Under s (.ok false) q :=
  fun _ _ => ⟨fun _ => ⟨false, rfl⟩, nofun⟩

theorem under_refl (p : Query ε Bool) : Under s p p :=
  fun y hy => ⟨fun _ => ⟨y, hy⟩, fun h => by rw [h] at hy; cases hy; rfl⟩

theorem Under.andThen (h : Under s p q) (h' : Under s p' q') : Under s (andThen p p') (andThen q q') := by
  intro y hy
  rcases andThen_eq_ok.mp hy with ⟨hq, hq'⟩ | ⟨hq, rfl⟩
  · obtain ⟨hret, -⟩ := h true hq
    obtain ⟨hret', hopen'⟩ := h' y hq'
    refine ⟨fun hs => ?_, fun ho => ?_⟩
    · obtain ⟨x, hx⟩ := hret hs
      obtain ⟨x', hx'⟩ := hret' hs
      cases x with
      | true => exact ⟨x', andThen_eq_ok.mpr (.inl ⟨hx, hx'⟩)⟩
      | false => exact ⟨false, andThen_eq_ok.mpr (.inr ⟨hx, rfl⟩)⟩
    · rcases andThen_eq_ok.mp ho with ⟨-, ho⟩ | ⟨-, ho⟩
      · exact hopen' ho
      · cases ho
  -- the second sequence ends at a shut gate, so the first ends there at the latest
  · obtain ⟨hret, hopen⟩ := h false hq
    refine ⟨fun hs => ?_, fun ho => ?_⟩
    · obtain ⟨x, hx⟩ := hret hs
      cases x with
      | true => exact absurd (hopen hx) Bool.false_ne_true
      | false => exact ⟨false, andThen_eq_ok.mpr (.inr ⟨hx, rfl⟩)⟩
    · rcases andThen_eq_ok.mp ho with ⟨ho, -⟩ | ⟨-, ho⟩
      · exact hopen ho
      · cases ho

theorem under_allOf {g : α → Query ε Bool} (h : ∀ x ∈ l, Under s (f x) (g x)) :
    Under s (allOf f l) (allOf g l) := by
  induction l with
  | nil => exact under_refl _
  | cons x l ih =>
    exact (h x mem_cons_self).andThen (ih fun y hy => h y (mem_cons_of_mem _ hy))

variable {m : Query ε α}

theorem under_bind {g : α → Query ε Bool}
    (h : ∀ a, m = .ok a → Under s (f a) (g a)) : Under s (m >>= f) (m >>= g) := by
  intro y hy
  obtain ⟨a, ha, hg⟩ := bind_eq_ok.mp hy
  rw [bind_ok ha]
  exact h a ha y hg

/-- Two sequences that begin with queries of which the first returns where the second does. -/
theorem under_bind_of {m' : Query ε α} {g : α → Query ε Bool} (hret : s → ∀ a', m' = .ok a' → ∃ a, m = .ok a)
    (h : ∀ a a', m = .ok a → m' = .ok a' → Under s (f a) (g a')) : Under s (m >>= f) (m' >>= g) := by
  intro y hy
  obtain ⟨a', ha', hg⟩ := bind_eq_ok.mp hy
  refine ⟨fun hs => ?_, fun ho => ?_⟩
  · obtain ⟨a, ha⟩ := hret hs a' ha'
    obtain ⟨x, hx⟩ := (h a a' ha ha' y hg).1 hs
    exact ⟨x, bind_eq_ok.mpr ⟨a, ha, hx⟩⟩
  · obtain ⟨a, ha, hf⟩ := bind_eq_ok.mp ho
    exact (h a a' ha ha' y hg).2 hf

theorem Under.relay (h : Under s p q) (f : ε → ε') : Under s (relay f p) (relay f q) := by
  intro y hy
  obtain ⟨hret, hopen⟩ := h y (relay_eq_ok.mp hy)
  refine ⟨fun hs => ?_, fun ho => hopen (relay_eq_ok.mp ho)⟩
  obtain ⟨x, hx⟩ := hret hs
  exact ⟨x, relay_eq_ok.mpr hx⟩

theorem countOf_under {g : α → Query ε Bool} {n' : Nat}
    (h : ∀ x ∈ l, Under s (f x) (g x)) (hg : countOf g l = .ok n') :
    (s → ∃ n, countOf f l = .ok n) ∧ ∀ n, countOf f l = .ok n → n ≤ n' := by
  induction l generalizing n' with
  | nil =>
    cases hg
    exact ⟨fun _ => ⟨0, rfl⟩, fun n hn => by cases hn; exact Nat.le_refl _⟩
  | cons x l ih =>
    obtain ⟨b', k', hb', hk', rfl⟩ := countOf_cons.mp hg
    obtain ⟨hret, hopen⟩ := h x mem_cons_self b' hb'
    obtain ⟨hrest, hle⟩ := ih (fun y hy => h y (mem_cons_of_mem _ hy)) hk'
    refine ⟨fun hs => ?_, fun n hn => ?_⟩
    · obtain ⟨b, hb⟩ := hret hs
      obtain ⟨k, hk⟩ := hrest hs
      exact ⟨_, countOf_cons.mpr ⟨b, k, hb, hk, rfl⟩⟩
    · obtain ⟨b, k, hb, hk, rfl⟩ := countOf_cons.mp hn
      have hkk := hle k hk
      cases b with
      | false =>
        refine Nat.le_trans hkk ?_
        split <;> omega
      | true =>
        rw [if_pos rfl, if_pos (hopen hb)]
        omega

/-- **Enough open gates below are enough above.** -/
theorem under_countOf {g : α → Query ε Bool} (count : Nat) (h : ∀ x ∈ l, Under s (f x) (g x)) :
    Under s (countOf f l >>= fun n => .ok (decide (count ≤ n)))
      (countOf g l >>= fun n => .ok (decide (count ≤ n))) := by
  refine under_bind_of (fun hs n' hn' => (countOf_under h hn').1 hs) fun n n' hn hn' => ?_
  refine under_ok fun hc => ?_
  exact decide_eq_true (Nat.le_trans (of_decide_eq_true hc) ((countOf_under h hn').2 n hn))

/-! ## 3. Stops that do not occur -/

/-- The query is not stopped by `e`. -/
def Avoids (e : Stop ε) (m : Query ε α) : Prop := m ≠ .error e

variable {e : Stop ε}

theorem avoids_ok (a : α) : Avoids e (.ok a : Query ε α) := nofun

theorem avoids_err {x : ε} (h : Stop.err x ≠ e) : Avoids e (.error (.err x) : Query ε α) :=
  fun heq => h (Except.error.inj heq)

theorem Avoids.bind {f : α → Query ε β} (hm : Avoids e m)
    (hf : ∀ a, Avoids e (f a)) : Avoids e (m >>= f) := by
  intro heq
  rcases bind_eq_error.mp heq with h | ⟨a, -, h⟩
  · exact hm h
  · exact hf a h

theorem Avoids.andThen (hp : Avoids e p) (hq : Avoids e q) : Avoids e (andThen p q) := by
  refine hp.bind fun b => ?_
  cases b with
  | true => exact hq
  | false => exact avoids_ok _

theorem avoids_allOf (h : ∀ x ∈ l, Avoids e (f x)) : Avoids e (allOf f l) := by
  induction l with
  | nil => exact avoids_ok _
  | cons x l ih =>
    exact (h x mem_cons_self).andThen (ih fun y hy => h y (mem_cons_of_mem _ hy))

theorem avoids_foldlM {f : β → α → Query ε β} (h : ∀ b x, Avoids e (f b x)) (b : β) :
    Avoids e (l.foldlM f b) := by
  induction l generalizing b with
  | nil => exact avoids_ok _
  | cons x l ih =>
    rw [foldlM_cons]
    exact (h b x).bind ih

/-- An error that the caller never passes on does not come from a relayed query. -/
theorem avoids_relay {m : Query ε' α} {f : ε' → ε} {x : ε} (h : ∀ y, f y ≠ x) :
    Avoids (.err x) (relay f m) := by
  intro heq
  cases m with
  | ok a => cases heq
  | error y =>
    cases y with
    | err y => exact h y (Stop.err.inj (Except.error.inj heq))
    | panic msg => cases heq
    | loop => cases heq

end MlmForge.Query
