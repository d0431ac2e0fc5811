/-
  Subject:   Rounds of in-place updates of a map, repeated until a round changes nothing.

  A round (`sweep`) goes through a list of keys, computes a value for each from the map as it is,
  and writes it there at once: later keys of the round read it. `settle` repeats the round. Nothing
  is assumed about the list of keys: in any order, the same key more than once.

  * `Climbs.settles` -- **the rounds end**: there are at most as many that change something as
    there are keys and values to rise through;
  * `Climbs.settle_least`, `Climbs.settle_any_order` -- **the result is the least fixed map**, and
    the same for every list of the same keys.
-/
import Mathlib.Algebra.Group.Action.Defs
import Mathlib.Algebra.Order.BigOperators.Group.List
import Mathlib.Algebra.Order.Ring.Nat
import MlmForge.Basis.Gates
import MlmForge.Basis.Maps

namespace MlmForge.Climb

open List Query Maps

variable {κ β ε : Type} [DecidableEq κ]

/-! ## 1. Maps under maps -/

/-- How high an entry stands; a missing one is lowest. -/
def height (level : β → Nat) : Option β → Nat
  | none => 0
  | some b => level b + 1

@[simp] theorem height_none (level : β → Nat) : height level none = 0 := rfl

@[simp] theorem height_some (level : β → Nat) (b : β) : height level (some b) = level b + 1 := rfl

/-- No entry stands higher in the first map than in the second. -/
def Below (level : β → Nat) (m m' : AList fun _ : κ => β) : Prop :=
  ∀ k, height level (m.lookup k) ≤ height level (m'.lookup k)

variable {level : β → Nat} {m m' f : AList fun _ : κ => β}

theorem below_empty (m : AList fun _ : κ => β) : Below level ∅ m := fun k => by simp

variable {k : κ} {b : β}

theorem below_insert (h : height level (m.lookup k) ≤ level b + 1) : Below level m (m.insert k b) := by
  intro i
  rw [lookup_insert]
  split
  · rename_i hi
    rw [hi]
    exact h
  · exact le_rfl

/-- A map with an entry written stays under what bounds the entry. -/
theorem Below.insert (h : Below level m f)
    (hb : level b + 1 ≤ height level (f.lookup k)) : Below level (m.insert k b) f := by
  intro i
  rw [lookup_insert]
  split
  · rename_i hi
    rw [hi]
    exact hb
  · exact h i

variable {step : κ → AList (fun _ : κ => β) → Query ε β} {keys : List κ}

/-- Every key of the list holds the value computed for it. -/
def Fixed (step : κ → AList (fun _ : κ => β) → Query ε β) (keys : List κ)
    (f : AList fun _ : κ => β) : Prop :=
  ∀ k ∈ keys, ∃ b, step k f = .ok b ∧ f.lookup k = some b

/-- `f` bounds what is computed for the keys of the list from any map under it. -/
def Bounds (level : β → Nat) (step : κ → AList (fun _ : κ => β) → Query ε β) (keys : List κ)
    (f : AList fun _ : κ => β) : Prop :=
  ∀ k ∈ keys, ∀ m b, Below level m f → step k m = .ok b → level b + 1 ≤ height level (f.lookup k)

/-! ## 2. Rounds -/

section Rounds

variable [DecidableEq β]

/-- One round over `keys`; the flag tells whether anything has changed so far. -/
def sweep (step : κ → AList (fun _ : κ => β) → Query ε β) :
    List κ → Bool → AList (fun _ : κ => β) → Query ε (AList (fun _ : κ => β) × Bool)
  | [], changed, m => .ok (m, changed)
  | k :: keys, changed, m => do
      let b ← step k m
      if m.lookup k = some b then sweep step keys changed m
      else sweep step keys true (m.insert k b)

/-- Rounds until one changes nothing; none when `rounds` of them were not enough. -/
def settle (step : κ → AList (fun _ : κ => β) → Query ε β) (keys : List κ) :
    Nat → AList (fun _ : κ => β) → Query ε (Option (AList fun _ : κ => β))
  | 0, _ => .ok none
  | rounds + 1, m => do
      let (m', changed) ← sweep step keys false m
      if changed then settle step keys rounds m' else .ok (some m')

variable {k : κ} {changed c : Bool}

theorem sweep_cons : sweep step (k :: keys) changed m = .ok (m', c) ↔ ∃ b, step k m = .ok b ∧
      ((m.lookup k = some b ∧ sweep step keys changed m = .ok (m', c)) ∨
        (m.lookup k ≠ some b ∧ sweep step keys true (m.insert k b) = .ok (m', c))) := by
  rw [sweep, bind_eq_ok]
  refine exists_congr fun b => and_congr_right fun _ => ?_
  by_cases h : m.lookup k = some b
  · rw [if_pos h]
    exact ⟨fun hs => .inl ⟨h, hs⟩, fun hs => (hs.resolve_right fun hr => hr.1 h).2⟩
  · rw [if_neg h]
    exact ⟨fun hs => .inr ⟨h, hs⟩, fun hs => (hs.resolve_left fun hl => h hl.1).2⟩

theorem sweep_true (h : sweep step keys true m = .ok (m', c)) : c = true := by
  induction keys generalizing m with
  | nil =>
    cases h
    rfl
  | cons k keys ih =>
    obtain ⟨b, -, ⟨-, h⟩ | ⟨-, h⟩⟩ := sweep_cons.mp h
    · exact ih h
    · exact ih h

theorem sweep_unchanged (h : sweep step keys false m = .ok (m', false)) : m' = m ∧ Fixed step keys m := by
  induction keys with
  | nil =>
    cases h
    exact ⟨rfl, fun k hk => absurd hk not_mem_nil⟩
  | cons k keys ih =>
    obtain ⟨b, hb, ⟨hk, h⟩ | ⟨-, h⟩⟩ := sweep_cons.mp h
    · obtain ⟨rfl, hfixed⟩ := ih h
      refine ⟨rfl, fun j hj => ?_⟩
      rcases mem_cons.mp hj with rfl | hj
      · exact ⟨b, hb, hk⟩
      · exact hfixed j hj
    · exact absurd (sweep_true h) Bool.false_ne_true

variable {rounds : Nat}

theorem settle_succ {r : Option (AList fun _ : κ => β)} :
    settle step keys (rounds + 1) m = .ok r ↔ ∃ m' changed, sweep step keys false m = .ok (m', changed) ∧
        ((changed = true ∧ settle step keys rounds m' = .ok r) ∨ (changed = false ∧ r = some m')) := by
  rw [settle, bind_eq_ok]
  constructor
  · intro h
    obtain ⟨⟨m', changed⟩, hs, h⟩ := h
    refine ⟨m', changed, hs, ?_⟩
    cases changed with
    | true => exact .inl ⟨rfl, h⟩
    | false =>
      cases h
      exact .inr ⟨rfl, rfl⟩
  · intro h
    obtain ⟨m', changed, hs, h⟩ := h
    refine ⟨(m', changed), hs, ?_⟩
    rcases h with ⟨rfl, h⟩ | ⟨rfl, rfl⟩
    · exact h
    · rfl

/-- **What the rounds end with is fixed.** -/
theorem settle_fixed (h : settle step keys rounds m = .ok (some f)) : Fixed step keys f := by
  induction rounds generalizing m with
  | zero => cases h
  | succ rounds ih =>
    obtain ⟨m', changed, hs, ⟨-, h⟩ | ⟨rfl, hf⟩⟩ := settle_succ.mp h
    · exact ih h
    · cases hf
      obtain ⟨rfl, hfixed⟩ := sweep_unchanged hs
      exact hfixed

theorem sweep_outside (hk : k ∉ keys)
    (h : sweep step keys changed m = .ok (m', c)) : m'.lookup k = m.lookup k := by
  induction keys generalizing m changed with
  | nil =>
    cases h
    rfl
  | cons j keys ih =>
    have hne : k ≠ j := fun e => hk (e ▸ mem_cons_self)
    have hk' : k ∉ keys := fun h => hk (mem_cons_of_mem _ h)
    obtain ⟨b, -, ⟨-, h⟩ | ⟨-, h⟩⟩ := sweep_cons.mp h
    · exact ih hk' h
    · rw [ih hk' h, lookup_insert, if_neg hne]

theorem settle_outside (hk : k ∉ keys)
    (h : settle step keys rounds m = .ok (some m')) : m'.lookup k = m.lookup k := by
  induction rounds generalizing m with
  | zero => cases h
  | succ rounds ih =>
    obtain ⟨m'', changed, hs, ⟨-, h⟩ | ⟨-, hr⟩⟩ := settle_succ.mp h
    · rw [ih h, sweep_outside hk hs]
    · cases hr
      exact sweep_outside hk hs

variable {e : Stop ε}

theorem sweep_avoids (hstep : ∀ k m, (step k m).Avoids e) (changed : Bool) :
    Query.Avoids e (sweep step keys changed m) := by
  induction keys generalizing m changed with
  | nil => exact avoids_ok _
  | cons k keys ih =>
    refine (hstep k m).bind fun b => ?_
    split
    · exact ih changed
    · exact ih true

theorem settle_avoids (hstep : ∀ k m, (step k m).Avoids e) (rounds : Nat) :
    Query.Avoids e (settle step keys rounds m) := by
  induction rounds generalizing m with
  | zero => exact avoids_ok _
  | succ rounds ih =>
    refine (sweep_avoids hstep false).bind fun x => ?_
    obtain ⟨m', changed⟩ := x
    cases changed with
    | true => exact ih
    | false => exact avoids_ok _

/-- **A round stays under what bounds its steps.** -/
theorem sweep_below (hf : Bounds level step keys f) (hm : Below level m f)
    (h : sweep step keys changed m = .ok (m', c)) : Below level m' f := by
  induction keys generalizing m changed with
  | nil =>
    cases h
    exact hm
  | cons k keys ih =>
    have hrest : Bounds level step keys f := fun j hj => hf j (mem_cons_of_mem _ hj)
    obtain ⟨b, hb, ⟨-, h⟩ | ⟨-, h⟩⟩ := sweep_cons.mp h
    · exact ih hrest hm h
    · exact ih hrest (hm.insert (hf k mem_cons_self m b hm hb)) h

/-- **So does a run.** -/
theorem settle_below (hf : Bounds level step keys f) (hm : Below level m f)
    (h : settle step keys rounds m = .ok (some m')) : Below level m' f := by
  induction rounds generalizing m with
  | zero => cases h
  | succ rounds ih =>
    obtain ⟨m'', changed, hs, ⟨-, h⟩ | ⟨-, hr⟩⟩ := settle_succ.mp h
    · exact ih (sweep_below hf hm hs) h
    · cases hr
      exact sweep_below hf hm hs

end Rounds

/-! ## 3. Values that rise with the map -/

/-- What is computed from a map rises with it: whatever can be computed above can be computed below,
    no higher. The values are among `values`, and one level is one value. -/
structure Climbs (level : β → Nat) (values : List β)
    (step : κ → AList (fun _ : κ => β) → Query ε β) : Prop where
  mem : ∀ k m b, step k m = .ok b → b ∈ values
  rises : ∀ k m m' b', Below level m m' → step k m' = .ok b' →
    ∃ b, step k m = .ok b ∧ level b ≤ level b'
  sharp : ∀ a ∈ values, ∀ b ∈ values, level a = level b → a = b

/-- No entry stands higher than what would be computed for it. -/
def Rising (level : β → Nat) (step : κ → AList (fun _ : κ => β) → Query ε β)
    (m : AList fun _ : κ => β) : Prop :=
  ∀ k b, step k m = .ok b → height level (m.lookup k) ≤ level b + 1

theorem rising_empty : Rising level step ∅ := fun k b _ => by simp

namespace Climbs

variable {values : List β} (h : Climbs level values step)

include h

variable {k : κ} {b : β}

theorem rising_insert (hm : Rising level step m) (hb : step k m = .ok b) :
    Rising level step (m.insert k b) := by
  intro i b' hb'
  obtain ⟨c, hc, hle⟩ := h.rises i m _ b' (below_insert (hm k b hb)) hb'
  rw [lookup_insert]
  split
  · rename_i hi
    subst hi
    rw [hb] at hc
    cases hc
    exact Nat.succ_le_succ hle
  · exact (hm i c hc).trans (Nat.succ_le_succ hle)

theorem bounds_of_fixed (hf : Fixed step keys f) : Bounds level step keys f := by
  intro k hk m b hm hb
  obtain ⟨b', hb', hlook⟩ := hf k hk
  obtain ⟨c, hc, hle⟩ := h.rises k m f b' hm hb'
  rw [hb] at hc
  cases hc
  rw [hlook]
  exact Nat.succ_le_succ hle

theorem eq_of_below (hm : Fixed step keys m) (hf : Fixed step keys f) (hk : k ∈ keys)
    (hle : Below level m f) (hge : Below level f m) : m.lookup k = f.lookup k := by
  obtain ⟨a, ha, hma⟩ := hm k hk
  obtain ⟨b, hb, hfb⟩ := hf k hk
  have hup := hle k
  have hdown := hge k
  rw [hma, hfb] at hup hdown
  rw [hma, hfb]
  exact congrArg some (h.sharp a (h.mem k m a ha) b (h.mem k f b hb) (Nat.succ.inj (le_antisymm hup hdown)))

/-! ### The rounds end -/

/-- How many values an entry has risen through. -/
def risen (level : β → Nat) (values : List β) (o : Option β) : Nat :=
  (values.filter fun b => level b < height level o).length

/-- How far the entries of all keys have risen. -/
def total (level : β → Nat) (values : List β) (keys : List κ) (m : AList fun _ : κ => β) : Nat :=
  (keys.map fun k => risen level values (m.lookup k)).sum

omit h [DecidableEq κ] in
theorem risen_mono {o o' : Option β} (hle : height level o ≤ height level o') :
    risen level values o ≤ risen level values o' :=
  (monotone_filter_right values fun _ hb =>
    decide_eq_true (lt_of_lt_of_le (of_decide_eq_true hb) hle)).length_le

omit h [DecidableEq κ] in
theorem risen_lt {o : Option β} (hb : b ∈ values) (hlt : height level o < level b + 1) :
    risen level values o < risen level values (some b) := by
  refine lt_of_le_of_ne (risen_mono hlt.le) fun heq => ?_
  have hsub : (values.filter fun x => level x < height level o).Sublist
      (values.filter fun x => level x < height level (some b)) :=
    monotone_filter_right values fun x hx => decide_eq_true (lt_of_lt_of_le (of_decide_eq_true hx) hlt.le)
  have hmem : b ∈ values.filter fun x => level x < height level (some b) :=
    mem_filter.mpr ⟨hb, decide_eq_true (Nat.lt_succ_self _)⟩
  rw [← hsub.eq_of_length heq] at hmem
  have hlow := of_decide_eq_true (mem_filter.mp hmem).2
  omega

omit h in
theorem total_le (m : AList fun _ : κ => β) : total level values keys m ≤ keys.length * values.length := by
  have hle := sum_le_card_nsmul (keys.map fun k => risen level values (m.lookup k))
    values.length fun x hx => by
      obtain ⟨k, -, rfl⟩ := mem_map.mp hx
      exact length_filter_le _ _
  rwa [length_map, smul_eq_mul] at hle

omit h in
/-- An update that raises the entry of a key of the list raises the total. -/
theorem total_lt (hk : k ∈ keys) (hb : b ∈ values) (hlt : height level (m.lookup k) < level b + 1) :
    total level values keys m < total level values keys (m.insert k b) := by
  refine sum_lt_sum _ _ (fun i _ => risen_mono (below_insert hlt.le i)) ⟨k, hk, ?_⟩
  rw [lookup_insert, if_pos rfl]
  exact risen_lt hb hlt

/-- A change raises an entry. -/
theorem raises (hm : Rising level step m) (hvalues : ∀ c, m.lookup k = some c →
    c ∈ values) (hb : step k m = .ok b) (hne : m.lookup k ≠ some b) :
    height level (m.lookup k) < level b + 1 := by
  refine lt_of_le_of_ne (hm k b hb) fun heq => ?_
  cases hlook : m.lookup k with
  | none => simp [hlook] at heq
  | some c =>
    rw [hlook, height_some] at heq
    exact hne (hlook.trans (congrArg some
      (h.sharp c (hvalues c hlook) b (h.mem k m b hb) (Nat.succ.inj heq))))

variable [DecidableEq β] {l : List κ}

/-- **A round keeps the map rising, and a round that changes something raises the total.** -/
theorem sweep_rises {changed c : Bool} (hl : ∀ k ∈ l, k ∈ keys)
    (hm : Rising level step m) (hvalues : ∀ k c, m.lookup k = some c → c ∈ values)
    (hs : sweep step l changed m = .ok (m', c)) :
    Rising level step m' ∧ (∀ k c, m'.lookup k = some c → c ∈ values) ∧
      total level values keys m ≤ total level values keys m' ∧
      (c = true → changed = false → total level values keys m < total level values keys m') := by
  induction l generalizing m changed with
  | nil =>
    cases hs
    exact ⟨hm, hvalues, le_rfl, fun hc hf => absurd (hc.symm.trans hf) Bool.false_ne_true.symm⟩
  | cons k l ih =>
    have hl' : ∀ j ∈ l, j ∈ keys := fun j hj => hl j (mem_cons_of_mem _ hj)
    obtain ⟨b, hb, ⟨-, hs⟩ | ⟨hne, hs⟩⟩ := sweep_cons.mp hs
    · exact ih hl' hm hvalues hs
    · have hlt : total level values keys m < total level values keys (m.insert k b) :=
        total_lt (hl k mem_cons_self) (h.mem k m b hb) (h.raises hm (hvalues k) hb hne)
      have hvalues' : ∀ j c, (m.insert k b).lookup j = some c → c ∈ values := by
        intro j c hj
        rw [lookup_insert] at hj
        split at hj
        · cases hj
          exact h.mem k m b hb
        · exact hvalues j c hj
      obtain ⟨hrising, hin, hle, -⟩ := ih hl' (h.rising_insert hm hb) hvalues' hs
      exact ⟨hrising, hin, hlt.le.trans hle, fun _ _ => lt_of_lt_of_le hlt hle⟩

variable {rounds : Nat}

theorem settle_none (hm : Rising level step m)
    (hvalues : ∀ k c, m.lookup k = some c → c ∈ values) (hs : settle step keys rounds m = .ok none) :
    total level values keys m + rounds ≤ keys.length * values.length := by
  induction rounds generalizing m with
  | zero => exact total_le m
  | succ rounds ih =>
    obtain ⟨m', changed, hsweep, ⟨rfl, hs⟩ | ⟨-, hr⟩⟩ := settle_succ.mp hs
    · obtain ⟨hm', hvalues', -, hlt⟩ := h.sweep_rises (fun _ hk => hk) hm hvalues hsweep
      have hrest := ih hm' hvalues' hs
      have hstep := hlt rfl rfl
      omega
    · cases hr

/-- **The rounds end**: more rounds than there are keys and values to rise through are enough. -/
theorem settles (hrounds : keys.length * values.length < rounds) : settle step keys rounds ∅ ≠ .ok none := by
  intro hs
  have hle := h.settle_none rising_empty (fun k c hk => by simp at hk) hs
  omega

/-! ### The least fixed map -/

theorem sweep_returns (changed : Bool) (hf : Fixed step keys f)
    (hl : ∀ k ∈ l, k ∈ keys) (hm : Below level m f) :
    ∃ m' c, sweep step l changed m = .ok (m', c) ∧ Below level m' f := by
  induction l generalizing m changed with
  | nil => exact ⟨m, changed, rfl, hm⟩
  | cons k l ih =>
    have hl' : ∀ j ∈ l, j ∈ keys := fun j hj => hl j (mem_cons_of_mem _ hj)
    obtain ⟨b', hb', -⟩ := hf k (hl k mem_cons_self)
    obtain ⟨b, hb, -⟩ := h.rises k m f b' hm hb'
    by_cases hk : m.lookup k = some b
    · obtain ⟨m', c, hs, hbelow⟩ := ih changed hl' hm
      exact ⟨m', c, sweep_cons.mpr ⟨b, hb, .inl ⟨hk, hs⟩⟩, hbelow⟩
    · have hbound := h.bounds_of_fixed hf k (hl k mem_cons_self) m b hm hb
      obtain ⟨m', c, hs, hbelow⟩ := ih true hl' (hm.insert hbound)
      exact ⟨m', c, sweep_cons.mpr ⟨b, hb, .inr ⟨hk, hs⟩⟩, hbelow⟩

theorem settle_returns (rounds : Nat) (hf : Fixed step keys f) (hm : Below level m f) :
    ∃ r, settle step keys rounds m = .ok r := by
  induction rounds generalizing m with
  | zero => exact ⟨none, rfl⟩
  | succ rounds ih =>
    obtain ⟨m', c, hs, hbelow⟩ := h.sweep_returns false hf (fun _ hk => hk) hm
    cases c with
    | true =>
      obtain ⟨r, hr⟩ := ih hbelow
      exact ⟨r, settle_succ.mpr ⟨m', true, hs, .inl ⟨rfl, hr⟩⟩⟩
    | false => exact ⟨some m', settle_succ.mpr ⟨m', false, hs, .inr ⟨rfl, rfl⟩⟩⟩

/-- **The result is under every fixed map.** -/
theorem settle_least (hs : settle step keys rounds ∅ = .ok (some m))
    (hf : Fixed step keys f) : Below level m f :=
  settle_below (h.bounds_of_fixed hf) (below_empty f) hs

/-- **The order of the keys does not matter**: what one list settles on, every list of the same keys
    settles on, given enough rounds. -/
theorem settle_any_order {keys' : List κ} {rounds' : Nat}
    (hkeys : ∀ k, k ∈ keys' ↔ k ∈ keys) (hrounds : keys'.length * values.length < rounds')
    (hs : settle step keys rounds ∅ = .ok (some m)) :
    ∃ m', settle step keys' rounds' ∅ = .ok (some m') ∧ ∀ k, m'.lookup k = m.lookup k := by
  have hm : Fixed step keys m := settle_fixed hs
  have hm' : Fixed step keys' m := fun k hk => hm k ((hkeys k).mp hk)
  obtain ⟨r, hr⟩ := h.settle_returns rounds' hm' (below_empty m)
  cases r with
  | none => exact absurd hr (h.settles hrounds)
  | some m' =>
    have hfix : Fixed step keys m' := fun k hk => settle_fixed hr k ((hkeys k).mpr hk)
    have hle : Below level m' m := h.settle_least hr hm'
    have hge : Below level m m' := h.settle_least hs hfix
    refine ⟨m', hr, fun k => ?_⟩
    by_cases hk : k ∈ keys
    · exact h.eq_of_below hfix hm hk hle hge
    · exact (settle_outside (fun hk' => hk ((hkeys k).mp hk')) hr).trans (settle_outside hk hs).symm

end Climbs

end MlmForge.Climb
