/-
  Subject:   Kahn's algorithm: putting keyed items into an order in which each follows what it needs.

  * **`Kahn.order_complete`** -- when what needs what is well-founded, every item is put out;
  * **`Kahn.order_complete_iff`** -- every item is put out only when what needs what is well-founded.
-/
import Mathlib.Algebra.GroupWithZero.Nat
import Mathlib.Data.List.Perm.Subperm
import Mathlib.Order.WellFounded
import MlmForge.Basis.Passes

namespace MlmForge

open List Function

/-- What the algorithm knows of its items. -/
structure Kahn (ρ κ : Type) where
  key : ρ → κ
  deps : ρ → List κ
  ahead : ρ → ρ → Bool

namespace Kahn

variable {ρ κ : Type} [DecidableEq κ] (K : Kahn ρ κ)

/-! ## 1. The algorithm -/

/-- How many keys are missing for a key at the start. -/
def remaining (nodes : List ρ) (k : κ) : Nat :=
  ((nodes.filter fun n => K.key n = k).map fun n => (K.deps n).length).sum

def dependents (nodes : List ρ) (d : κ) : List κ :=
  nodes.flatMap fun n => ((K.deps n).filter (· = d)).map fun _ => K.key n

/-- The item with a key; of several the last. -/
def byKey (nodes : List ρ) (k : κ) : Option ρ := nodes.reverse.find? fun n => K.key n = k

/-- One who waited has one less to wait for, and is ready when that was the last. -/
def release (nodes : List ρ) (state : (κ → Nat) × List ρ) (d : κ) : (κ → Nat) × List ρ :=
  let left := state.1 d - 1
  (update state.1 d left,
    if left = 0 then state.2 ++ (K.byKey nodes d).toList else state.2)

def loop (nodes : List ρ) : Nat → List ρ → (κ → Nat) → List ρ → List ρ
  | 0, ordered, _, _ => ordered
  | fuel + 1, ordered, missing, ready =>
    match foremost K.ahead ready with
    | none => ordered
    | some n =>
      let next := (K.dependents nodes (K.key n)).foldl (K.release nodes)
        (missing, ready.eraseP fun m => K.key m = K.key n)
      loop nodes fuel (ordered ++ [n]) next.1 next.2

/-- The items in order, as far as an order was found. -/
def order (nodes : List ρ) : List ρ :=
  K.loop nodes (nodes.length + 1) [] (K.remaining nodes)
    (nodes.filter fun n => K.remaining nodes (K.key n) = 0)

/-! ## 2. Counts and waiters -/

/-- Items with different keys, each needing different keys of other items. -/
structure Proper (nodes : List ρ) : Prop where
  keys : (nodes.map K.key).Nodup
  deps_nodup : ∀ n ∈ nodes, (K.deps n).Nodup

variable {K} {nodes : List ρ}

section Lookup

omit [DecidableEq κ] in
theorem Proper.inj (h : K.Proper nodes) {m n : ρ} (hm : m ∈ nodes) (hn : n ∈ nodes)
    (e : K.key m = K.key n) : m = n :=
  inj_on_of_nodup_map h.keys hm hn e

theorem Proper.byKey (h : K.Proper nodes) {n : ρ} (hn : n ∈ nodes) : K.byKey nodes (K.key n) = some n := by
  unfold Kahn.byKey
  cases hf : nodes.reverse.find? fun m => K.key m = K.key n with
  | none =>
    have := find?_eq_none.mp hf n (mem_reverse.mpr hn)
    simp at this
  | some m =>
    have hk : K.key m = K.key n := by simpa using find?_some hf
    rw [h.inj (mem_reverse.mp (mem_of_find?_eq_some hf)) hn hk]

theorem Proper.filter_key (h : K.Proper nodes) {n : ρ} (hn : n ∈ nodes) :
    (nodes.filter fun m => K.key m = K.key n) = [n] := by
  have hnd : (nodes.filter fun m => K.key m = K.key n).Nodup := h.keys.of_map.filter _
  refine perm_singleton.mp ((perm_ext_iff_of_nodup hnd (nodup_singleton n)).mpr fun m => ?_)
  simp only [mem_filter, decide_eq_true_eq, mem_singleton]
  constructor
  · exact fun hm => h.inj hm.1 hn hm.2
  · rintro rfl
    exact ⟨hn, rfl⟩

theorem Proper.remaining (h : K.Proper nodes) {n : ρ} (hn : n ∈ nodes) :
    K.remaining nodes (K.key n) = (K.deps n).length := by
  rw [Kahn.remaining, h.filter_key hn]
  simp

theorem Proper.dependents (h : K.Proper nodes) (d : κ) :
    K.dependents nodes d = (nodes.filter fun n => d ∈ K.deps n).map K.key := by
  have hone : ∀ n ∈ nodes, (((K.deps n).filter (· = d)).map fun _ => K.key n) =
      if d ∈ K.deps n then [K.key n] else [] := by
    intro n hn
    by_cases hd : d ∈ K.deps n
    · have hf : (K.deps n).filter (· = d) = [d] :=
        perm_singleton.mp ((perm_ext_iff_of_nodup ((h.deps_nodup n hn).filter _)
          (nodup_singleton d)).mpr fun x => by
            simp only [mem_filter, decide_eq_true_eq, mem_singleton]
            exact ⟨fun hx => hx.2, fun e => ⟨e ▸ hd, e⟩⟩)
      rw [hf, if_pos hd]
      rfl
    · have hf : (K.deps n).filter (· = d) = [] := by
        rw [filter_eq_nil_iff]
        intro x hx e
        exact hd (of_decide_eq_true e ▸ hx)
      rw [hf, if_neg hd]
      rfl
  have hall : ∀ l : List ρ, (∀ n ∈ l, n ∈ nodes) →
      (l.flatMap fun n => ((K.deps n).filter (· = d)).map fun _ => K.key n) =
        (l.filter fun n => d ∈ K.deps n).map K.key := by
    intro l
    induction l with
    | nil => exact fun _ => rfl
    | cons n l ih =>
      intro hl
      rw [flatMap_cons, hone n (hl n mem_cons_self), ih fun m hm => hl m (mem_cons_of_mem _ hm), filter_cons]
      by_cases hd : d ∈ K.deps n
      · simp [hd]
      · simp [hd]
  exact hall nodes fun n hn => hn

end Lookup

variable {missing : κ → Nat} {ready : List ρ}

/-- Who has been released: one less is missing for each, and those for whom it was the last are
    ready. -/
theorem foldl_release {ds : List κ} (hnd : ds.Nodup)
    (hpos : ∀ d ∈ ds, 1 ≤ missing d) : ds.foldl (K.release nodes) (missing, ready) =
      (fun k => if k ∈ ds then missing k - 1 else missing k,
        ready ++ (ds.filter fun d => missing d = 1).flatMap fun d => (K.byKey nodes d).toList) := by
  induction ds generalizing missing ready with
  | nil => simp
  | cons d ds ih =>
    obtain ⟨hd, hnd⟩ := nodup_cons.mp hnd
    have hother : ∀ k ∈ ds, update missing d (missing d - 1) k = missing k := by
      intro k hk
      rw [update_of_ne]
      rintro rfl
      exact hd hk
    rw [foldl_cons, release, ih hnd fun k hk => by
      rw [hother k hk]
      exact hpos k (mem_cons_of_mem _ hk)]
    have hone := hpos d mem_cons_self
    have hfilter : (ds.filter fun k => update missing d (missing d - 1) k = 1) =
        ds.filter fun k => missing k = 1 :=
      filter_congr fun k hk => by rw [hother k hk]
    refine Prod.ext (funext fun k => ?_) ?_
    · by_cases hk : k = d
      · subst hk
        simp [hd]
      · simp [hk]
    · show _ ++ _ = _
      rw [hfilter, filter_cons]
      by_cases h1 : missing d = 1
      · simp [h1]
      · have : ¬ missing d - 1 = 0 := by omega
        simp [h1, this]

/-! ## 3. The invariant -/

/-- **The state of the loop**: counts are exact, who is ready has nothing missing and is not out yet,
    and what is out is closed and in order. -/
structure Sorting (K : Kahn ρ κ) (nodes ordered : List ρ) (missing : κ → Nat) (ready : List ρ) :
    Prop where
  sub : ∀ n ∈ ordered, n ∈ nodes
  nodup : (ordered.map K.key).Nodup
  count : ∀ n ∈ nodes,
    missing (K.key n) = ((K.deps n).filter fun d => d ∉ ordered.map K.key).length
  ready_iff : ∀ n, n ∈ ready ↔ n ∈ nodes ∧ K.key n ∉ ordered.map K.key ∧ missing (K.key n) = 0
  ready_nodup : (ready.map K.key).Nodup
  closed : ∀ n ∈ ordered, ∀ d ∈ K.deps n, d ∈ ordered.map K.key
  sorted : ordered.Pairwise fun a b => K.key b ∉ K.deps a

theorem Proper.start (h : K.Proper nodes) : K.Sorting nodes [] (K.remaining nodes)
    (nodes.filter fun n => K.remaining nodes (K.key n) = 0) where
  sub n hn := absurd hn not_mem_nil
  nodup := nodup_nil
  count n hn := by simp [h.remaining hn]
  ready_iff n := by simp
  ready_nodup := h.keys.sublist (filter_sublist.map _)
  closed n hn := absurd hn not_mem_nil
  sorted := List.Pairwise.nil

section Step

variable {ordered ready : List ρ} {missing : κ → Nat} {n : ρ}

/-- Nothing is missing for one who is ready. -/
theorem Sorting.met (h : K.Sorting nodes ordered missing ready) (hn : n ∈ ready) :
    ∀ d ∈ K.deps n, d ∈ ordered.map K.key := by
  obtain ⟨hm, -, h0⟩ := (h.ready_iff n).mp hn
  rw [h.count n hm, length_eq_zero_iff, filter_eq_nil_iff] at h0
  intro d hd
  simpa using h0 d hd

variable {m : ρ}

theorem Sorting.count_next (h : K.Sorting nodes ordered missing ready) (hp : K.Proper nodes)
    (hn : n ∈ ready) (hm : m ∈ nodes) : ((K.deps m).filter fun d => d ∉ (ordered ++ [n]).map K.key).length =
      if K.key n ∈ K.deps m then missing (K.key m) - 1 else missing (K.key m) := by
  obtain ⟨-, hnew, -⟩ := (h.ready_iff n).mp hn
  have hsplit : ((K.deps m).filter fun d => d ∉ (ordered ++ [n]).map K.key) =
      ((K.deps m).filter fun d => d ∉ ordered.map K.key).filter (· ≠ K.key n) := by
    rw [filter_filter]
    refine filter_congr fun d _ => ?_
    simp [and_comm]
  rw [hsplit, h.count m hm]
  split
  · rename_i hd
    have hnd := (hp.deps_nodup m hm).filter fun d => decide (d ∉ ordered.map K.key)
    have he := hnd.erase_eq_filter (K.key n)
    have hmem : K.key n ∈ (K.deps m).filter fun d => d ∉ ordered.map K.key :=
      mem_filter.mpr ⟨hd, decide_eq_true hnew⟩
    have hlen := length_erase_of_mem hmem
    rw [he] at hlen
    rw [← hlen]
    refine congrArg length (filter_congr fun d _ => ?_)
    by_cases e : d = K.key n <;> simp [e]
  · rename_i hd
    refine congrArg length (filter_eq_self.mpr fun d hmem => ?_)
    refine decide_eq_true ?_
    rintro rfl
    exact hd (mem_filter.mp hmem).1

theorem eraseP_key (hnd : (ready.map K.key).Nodup) :
    (ready.eraseP fun m => K.key m = K.key n) = ready.filter fun m => K.key m ≠ K.key n := by
  induction ready with
  | nil => rfl
  | cons a ready ih =>
    rw [map_cons, nodup_cons] at hnd
    by_cases e : K.key a = K.key n
    · rw [eraseP_cons_of_pos (by simp [e]), filter_cons_of_neg (by simp [e])]
      refine (filter_eq_self.mpr fun m hm => decide_eq_true ?_).symm
      intro e'
      exact hnd.1 (e.trans e'.symm ▸ mem_map_of_mem hm)
    · rw [eraseP_cons_of_neg (by simp [e]), filter_cons_of_pos (by simp [e]), ih hnd.2]

/-- Who is ready once `n` is out: who was, and who missed only `n`. -/
def nextReady (K : Kahn ρ κ) (nodes ready : List ρ) (missing : κ → Nat) (n : ρ) : List ρ :=
  (ready.filter fun m => K.key m ≠ K.key n) ++
    ((K.dependents nodes (K.key n)).filter fun d => missing d = 1).flatMap fun d =>
      (K.byKey nodes d).toList

/-- One round of the loop. -/
theorem Sorting.round (h : K.Sorting nodes ordered missing ready) (hp : K.Proper nodes) (hn : n ∈ ready) :
    (K.dependents nodes (K.key n)).foldl (K.release nodes)
      (missing, ready.eraseP fun m => K.key m = K.key n) =
    (fun k => if k ∈ K.dependents nodes (K.key n) then missing k - 1 else missing k,
      K.nextReady nodes ready missing n) := by
  obtain ⟨-, hnew, -⟩ := (h.ready_iff n).mp hn
  rw [eraseP_key h.ready_nodup, foldl_release]
  · rfl
  · rw [hp.dependents]
    exact hp.keys.sublist (filter_sublist.map _)
  · intro d hd
    rw [hp.dependents] at hd
    obtain ⟨m, hm, rfl⟩ := mem_map.mp hd
    obtain ⟨hm, hdep⟩ := mem_filter.mp hm
    rw [h.count m hm]
    exact length_pos_of_mem (mem_filter.mpr ⟨of_decide_eq_true hdep, decide_eq_true hnew⟩)

theorem Proper.mem_dependents (hp : K.Proper nodes) (hm : m ∈ nodes) {d : κ} :
    K.key m ∈ K.dependents nodes d ↔ d ∈ K.deps m := by
  rw [hp.dependents, mem_map]
  constructor
  · rintro ⟨m', hm', e⟩
    obtain ⟨hm', hd⟩ := mem_filter.mp hm'
    exact hp.inj hm' hm e ▸ of_decide_eq_true hd
  · exact fun hd => ⟨m, mem_filter.mpr ⟨hm, decide_eq_true hd⟩, rfl⟩

theorem Proper.mem_nextReady (hp : K.Proper nodes) : m ∈ K.nextReady nodes ready missing n ↔
    (m ∈ ready ∧ K.key m ≠ K.key n) ∨ (m ∈ nodes ∧ K.key n ∈ K.deps m ∧ missing (K.key m) = 1) := by
  unfold nextReady
  rw [mem_append, mem_filter, decide_eq_true_eq, mem_flatMap]
  refine or_congr_right ⟨?_, ?_⟩
  · rintro ⟨d, hd, hmd⟩
    obtain ⟨hd, h1⟩ := mem_filter.mp hd
    rw [hp.dependents] at hd
    obtain ⟨m', hm', rfl⟩ := mem_map.mp hd
    obtain ⟨hm', hdep⟩ := mem_filter.mp hm'
    rw [hp.byKey hm', Option.toList_some, mem_singleton] at hmd
    subst hmd
    exact ⟨hm', of_decide_eq_true hdep, of_decide_eq_true h1⟩
  · rintro ⟨hm, hdep, h1⟩
    refine ⟨K.key m, mem_filter.mpr ⟨(hp.mem_dependents hm).mpr hdep, decide_eq_true h1⟩, ?_⟩
    rw [hp.byKey hm, Option.toList_some]
    exact mem_singleton.mpr rfl

theorem Proper.map_released (hp : K.Proper nodes) (d : κ) (p : κ → Bool) :
    (((K.dependents nodes d).filter p).flatMap fun d => (K.byKey nodes d).toList).map K.key =
      (K.dependents nodes d).filter p := by
  rw [map_flatMap]
  have hone : ∀ k ∈ (K.dependents nodes d).filter p, (K.byKey nodes k).toList.map K.key = [k] := by
    intro k hk
    have hk := (mem_filter.mp hk).1
    rw [hp.dependents] at hk
    obtain ⟨m, hm, rfl⟩ := mem_map.mp hk
    rw [hp.byKey (mem_filter.mp hm).1]
    rfl
  rw [flatMap_congr hone]
  exact flatMap_singleton' _

/-- **Every round keeps the invariant.** -/
theorem Sorting.step (h : K.Sorting nodes ordered missing ready) (hp : K.Proper nodes)
    (hn : n ∈ ready) : K.Sorting nodes (ordered ++ [n])
      (fun k => if k ∈ K.dependents nodes (K.key n) then missing k - 1 else missing k)
      (K.nextReady nodes ready missing n) := by
  obtain ⟨hmem, hnew, -⟩ := (h.ready_iff n).mp hn
  have hmet := h.met hn
  have hkeys : (ordered ++ [n]).map K.key = ordered.map K.key ++ [K.key n] := by simp
  -- who needs `n` is not out, and is not `n`
  have hwait : ∀ m ∈ nodes, K.key n ∈ K.deps m →
      K.key m ∉ ordered.map K.key ∧ K.key m ≠ K.key n ∧ 1 ≤ missing (K.key m) := by
    intro m hm hdep
    refine ⟨fun hout => ?_, fun e => ?_, ?_⟩
    · obtain ⟨m', hm', e⟩ := mem_map.mp hout
      rw [hp.inj (h.sub m' hm') hm e] at hm'
      exact hnew (h.closed m hm' _ hdep)
    · rw [hp.inj hm hmem e] at hdep
      exact hnew (hmet _ hdep)
    · rw [h.count m hm]
      exact length_pos_of_mem (mem_filter.mpr ⟨hdep, decide_eq_true hnew⟩)
  have hcount : ∀ m ∈ nodes, (if K.key m ∈ K.dependents nodes (K.key n) then missing (K.key m) - 1
      else missing (K.key m)) = ((K.deps m).filter fun d => d ∉ (ordered ++ [n]).map K.key).length := by
    intro m hm
    rw [h.count_next hp hn hm]
    simp only [hp.mem_dependents hm]
  refine { sub := ?sub, nodup := ?nodup, count := hcount, ready_iff := ?ready_iff,
           ready_nodup := ?ready_nodup, closed := ?closed, sorted := ?sorted }
  case sub =>
    intro m hm
    rcases mem_append.mp hm with hm | hm
    · exact h.sub m hm
    · exact mem_singleton.mp hm ▸ hmem
  case nodup =>
    rw [hkeys]
    refine nodup_append.mpr ⟨h.nodup, nodup_singleton _, fun a ha b hb e => ?_⟩
    rw [mem_singleton.mp hb] at e
    exact hnew (e ▸ ha)
  case ready_iff =>
    intro m
    rw [hp.mem_nextReady, hkeys, mem_append, mem_singleton, h.ready_iff m]
    constructor
    · rintro (⟨⟨hm, hout, h0⟩, hne⟩ | ⟨hm, hdep, h1⟩)
      · refine ⟨hm, not_or.mpr ⟨hout, hne⟩, ?_⟩
        rw [if_neg, h0]
        intro hd
        have := (hwait m hm ((hp.mem_dependents hm).mp hd)).2.2
        omega
      · obtain ⟨hout, hne, -⟩ := hwait m hm hdep
        refine ⟨hm, not_or.mpr ⟨hout, hne⟩, ?_⟩
        rw [if_pos ((hp.mem_dependents hm).mpr hdep), h1]
    · rintro ⟨hm, hnot, h0⟩
      obtain ⟨hout, hne⟩ := not_or.mp hnot
      by_cases hdep : K.key n ∈ K.deps m
      · rw [if_pos ((hp.mem_dependents hm).mpr hdep)] at h0
        have := (hwait m hm hdep).2.2
        exact .inr ⟨hm, hdep, by omega⟩
      · rw [if_neg fun hd => hdep ((hp.mem_dependents hm).mp hd)] at h0
        exact .inl ⟨⟨hm, hout, h0⟩, hne⟩
  case ready_nodup =>
    unfold nextReady
    rw [map_append, hp.map_released]
    refine nodup_append.mpr ⟨h.ready_nodup.sublist (filter_sublist.map _), ?_, fun a ha b hb e => ?_⟩
    · rw [hp.dependents]
      exact (hp.keys.sublist (filter_sublist.map _)).filter _
    · obtain ⟨m, hm, rfl⟩ := mem_map.mp ha
      obtain ⟨-, -, h0⟩ := (h.ready_iff m).mp (mem_filter.mp hm).1
      have h1 := of_decide_eq_true (mem_filter.mp hb).2
      rw [← e] at h1
      omega
  case closed =>
    intro m hm d hd
    rw [hkeys, mem_append]
    rcases mem_append.mp hm with hm | hm
    · exact .inl (h.closed m hm d hd)
    · rw [mem_singleton.mp hm] at hd
      exact .inl (hmet d hd)
  case sorted =>
    refine pairwise_append.mpr ⟨h.sorted, pairwise_singleton _ _, fun a ha b hb hd => ?_⟩
    rw [mem_singleton.mp hb] at hd
    exact hnew (h.closed a ha _ hd)

end Step

/-! ## 4. The result -/

theorem Sorting.length_le {ordered : List ρ}
    (h : K.Sorting nodes ordered missing ready) : ordered.length ≤ nodes.length := by
  have hsub : ordered.map K.key ⊆ nodes.map K.key := fun k hk => by
    obtain ⟨n, hn, rfl⟩ := mem_map.mp hk
    exact mem_map_of_mem (h.sub n hn)
  simpa using (subperm_of_subset h.nodup hsub).length_le

theorem loop_spec (hp : K.Proper nodes) (fuel : Nat) (ordered : List ρ) (missing : κ → Nat)
    (ready : List ρ) (h : K.Sorting nodes ordered missing ready)
    (hfuel : nodes.length < ordered.length + fuel) :
    ∃ missing', K.Sorting nodes (K.loop nodes fuel ordered missing ready) missing' [] := by
  induction fuel generalizing ordered missing ready with
  | zero =>
    have := h.length_le
    omega
  | succ fuel ih =>
    unfold loop
    cases hf : foremost K.ahead ready with
    | none =>
      rw [foremost_eq_none.mp hf] at h
      exact ⟨missing, h⟩
    | some n =>
      have hn := foremost_mem hf
      simp only [h.round hp hn]
      refine ih _ _ _ (h.step hp hn) ?_
      rw [length_append, length_singleton]
      omega

theorem Proper.order (hp : K.Proper nodes) : ∃ missing, K.Sorting nodes (K.order nodes) missing [] :=
  loop_spec hp _ _ _ _ hp.start (by simp)

/-- **An item that is not put out needs another one that is not.** -/
theorem Proper.order_stuck (hp : K.Proper nodes) {n : ρ} (hn : n ∈ nodes)
    (hout : K.key n ∉ (K.order nodes).map K.key) : ∃ d ∈ K.deps n, d ∉ (K.order nodes).map K.key := by
  obtain ⟨missing, h⟩ := hp.order
  by_contra hno
  push Not at hno
  refine not_mem_nil ((h.ready_iff n).mpr ⟨hn, hout, ?_⟩)
  rw [h.count n hn, length_eq_zero_iff, filter_eq_nil_iff]
  intro d hd
  simpa using hno d hd

/-- One key is needed for another. -/
def Needs (K : Kahn ρ κ) (nodes : List ρ) (d k : κ) : Prop :=
  ∃ n ∈ nodes, K.key n = k ∧ d ∈ K.deps n

/-- **When what needs what is well-founded, every item is put out.** -/
theorem Proper.order_complete (hp : K.Proper nodes) (hdeps : ∀ n ∈ nodes, ∀ d ∈ K.deps n, d ∈ nodes.map K.key)
    (hwf : WellFounded (K.Needs nodes)) : (K.order nodes).length = nodes.length := by
  have hall : ∀ k, ∀ n ∈ nodes, K.key n = k → k ∈ (K.order nodes).map K.key := by
    intro k
    induction k using hwf.induction with
    | _ k ih =>
      rintro n hn rfl
      by_contra hout
      obtain ⟨d, hd, hnot⟩ := hp.order_stuck hn hout
      obtain ⟨m, hm, rfl⟩ := mem_map.mp (hdeps n hn d hd)
      exact hnot (ih _ ⟨n, hn, rfl, hd⟩ m hm rfl)
  obtain ⟨missing, h⟩ := hp.order
  have hsub : nodes.map K.key ⊆ (K.order nodes).map K.key := fun k hk => by
    obtain ⟨n, hn, rfl⟩ := mem_map.mp hk
    exact hall _ n hn rfl
  have hle := (subperm_of_subset hp.keys hsub).length_le
  rw [length_map, length_map] at hle
  exact le_antisymm h.length_le hle

/-- Once every item is out, what an item needs stands before it. -/
theorem Sorting.before {ordered : List ρ} (h : K.Sorting nodes ordered missing ready) (hp : K.Proper nodes)
    (hself : ∀ n ∈ nodes, K.key n ∉ K.deps n) {n : ρ} (hn : n ∈ ordered) {d : κ}
    (hd : d ∈ K.deps n) : (ordered.map K.key).idxOf d < (ordered.map K.key).idxOf (K.key n) := by
  have hi := idxOf_lt_length_of_mem (mem_map_of_mem (f := K.key) hn)
  have hj := idxOf_lt_length_of_mem (h.closed n hn d hd)
  have hat : ∀ {k : κ} (hk : (ordered.map K.key).idxOf k < ordered.length),
      K.key ordered[(ordered.map K.key).idxOf k] = k := by
    intro k hk
    have hk' : (ordered.map K.key).idxOf k < (ordered.map K.key).length := by simpa using hk
    rw [← getElem_map K.key (h := hk')]
    exact getElem_idxOf hk'
  rw [length_map] at hi hj
  by_contra hle
  rcases Nat.lt_or_eq_of_le (Nat.le_of_not_lt hle) with hlt | heq
  · have hnot := pairwise_iff_getElem.mp h.sorted _ _ hi hj hlt
    rw [hat hj, hp.inj (h.sub _ (getElem_mem hi)) (h.sub n hn) (hat hi)] at hnot
    exact hnot hd
  · have hkey : d = K.key n := by
      rw [← hat hj, ← hat hi]
      simp only [heq]
    exact hself n (h.sub n hn) (hkey ▸ hd)

/-- **Every item is put out exactly when what needs what is well-founded.** -/
theorem Proper.order_complete_iff (hp : K.Proper nodes)
    (hdeps : ∀ n ∈ nodes, ∀ d ∈ K.deps n, d ∈ nodes.map K.key) (hself : ∀ n ∈ nodes, K.key n ∉ K.deps n) :
    (K.order nodes).length = nodes.length ↔ WellFounded (K.Needs nodes) := by
  refine ⟨fun hlen => ?_, hp.order_complete hdeps⟩
  obtain ⟨missing, h⟩ := hp.order
  have hsub : (K.order nodes).Subperm nodes := subperm_of_subset h.nodup.of_map h.sub
  have hperm := hsub.perm_of_length_le hlen.ge
  refine Subrelation.wf (fun {d k} hdk => ?_)
    (InvImage.wf (fun k => ((K.order nodes).map K.key).idxOf k) Nat.lt_wfRel.wf)
  obtain ⟨n, hn, rfl, hd⟩ := hdk
  exact h.before hp hself (hperm.mem_iff.mpr hn) hd

end Kahn

end MlmForge
