/-
  Subject:   Breadth-first walks over a forest given by child lists.

  A queue walk takes a node off the front and appends its children. On a forest (`Forest`: child
  lists without repeats, one parent for each node, chains of parents that end) it meets every node
  below the queue exactly once and comes to an end:

  * `bfsFold_eq`, `bfsEach_push`, `bfsFirst_eq` -- a walk that accumulates, that changes a state, or
    that stops at the first hit, is a fold, or a search, over that order.
-/
import MlmForge.Basis.Outcome
import MlmForge.Basis.Links

namespace MlmForge

open List Function Option Relation

variable {α : Type}

/-- Child lists that agree with parent links, and no endless chain of parents. -/
structure Forest (children : α → List α) (parent : α → Option α) : Prop extends
    Linked children parent where
  ranked : Ranked parent

/-- The nodes a queue walk meets, in order. -/
def bfsOrder (children : α → List α) : Nat → List α → Option (List α)
  | _, [] => some []
  | 0, _ :: _ => none
  | n + 1, x :: queue => (bfsOrder children n (queue ++ children x)).map (x :: ·)

/-- A queue walk that accumulates. `visit` returns the new accumulator and the nodes to enqueue. -/
def bfsFold {ε β : Type} (visit : β → α → Query ε (β × List α)) : Nat → List α → β → Query ε β
  | _, [], acc => .ok acc
  | 0, _ :: _, _ => .error .loop
  | n + 1, x :: queue, acc => do
      let (acc, found) ← visit acc x
      bfsFold visit n (queue ++ found) acc

/-- A queue walk that changes a state. `visit` returns the nodes to enqueue. -/
def bfsEach {ε σ : Type} (visit : α → Call ε σ (List α)) : Nat → List α → Call ε σ Unit
  | _, [] => pure ()
  | 0, _ :: _ => throw .loop
  | n + 1, x :: queue => do
      let found ← visit x
      bfsEach visit n (queue ++ found)

/-- A queue walk that stops at its first hit. `visit` returns the hit or the nodes to enqueue. -/
def bfsFirst {ε β : Type} (visit : α → Query ε (β ⊕ List α)) : Nat → List α → Query ε (Option β)
  | _, [] => .ok none
  | 0, _ :: _ => .error .loop
  | n + 1, x :: queue => do
      match ← visit x with
      | .inl hit => .ok (some hit)
      | .inr found => bfsFirst visit n (queue ++ found)

theorem bfsOrder_induction {children : α → List α}
    {motive : ∀ n queue order, bfsOrder children n queue = some order → Prop} (nil : ∀ n h, motive n [] [] h)
    (cons : ∀ n x queue rest hrest, motive n (queue ++ children x) rest hrest →
      ∀ h, motive (n + 1) (x :: queue) (x :: rest) h) {n : Nat} {queue order : List α}
    (h : bfsOrder children n queue = some order) : motive n queue order h := by
  induction n generalizing queue order with
  | zero =>
    cases queue with
    | nil => cases h; exact nil 0 rfl
    | cons x queue => cases h
  | succ n ih =>
    cases queue with
    | nil => cases h; exact nil (n + 1) rfl
    | cons x queue =>
      obtain ⟨rest, hrest, rfl⟩ := map_eq_some_iff.mp h
      exact cons n x queue rest hrest (ih hrest) h

section Order

variable {children : α → List α} {parent : α → Option α} {x c : α}

theorem Forest.not_above_child (hF : Forest children parent) (hc : c ∈ children x) : ¬ Above parent x c := by
  intro h
  exact hF.ranked.irrefl c (TransGen.head' (hF.mem_iff.mp hc) h)

/-- The nodes below a node: itself, and what is below one of its children. -/
theorem Forest.above_iff (hF : Forest children parent) {y : α} :
    Above parent y x ↔ y = x ∨ ∃ c ∈ children x, Above parent y c := by
  constructor
  · intro h
    rcases ReflTransGen.cases_tail h with rfl | ⟨c, hyc, hc⟩
    · exact .inl rfl
    · exact .inr ⟨c, hF.mem_iff.mpr hc, hyc⟩
  · rintro (rfl | ⟨c, hc, hyc⟩)
    · exact .refl
    · exact hyc.tail (hF.mem_iff.mp hc)

variable {parent' : α → Option α}

/-- **Moving a node to one that is not below it keeps a forest.** -/
theorem Forest.move [DecidableEq α] {children' : α → List α}
    (hF : Forest children parent) {r t : α} (hc : parent c = some r) (ht : ¬ Above parent t c)
    (hne : t ≠ r) (hup : parent' = update parent c (some t)) (hr : children' r = (children r).filter (· ≠ c))
    (hmem : ∀ y, y ∈ children' t ↔ y = c ∨ y ∈ children t) (hnd : (children' t).Nodup)
    (hother : ∀ x, x ≠ r → x ≠ t → children' x = children x) : Forest children' parent' where
  ranked := hup ▸ hF.ranked.redirect ht
  toLinked := by
    have hoff : Linked (update children r (children' r)) (update parent c none) :=
      hF.toLinked.detach hc (fun y => update_apply parent c none y) (by rw [update_self, hr])
      (fun x hx => update_of_ne hx _ _)
    refine hoff.attach (c := c) (t := t) (update_self c none parent) (fun y => ?_)
      (fun y => ?_) hnd (fun x hx => ?_)
    · rw [hup, update_apply, update_apply]
      split <;> rfl
    · rw [update_of_ne hne]
      exact hmem y
    · by_cases hxr : x = r
      · rw [hxr, update_self]
      · rw [update_of_ne hxr]
        exact hother x hxr hx

/-- **Leaving out the children of some nodes keeps a forest.** -/
theorem Forest.restrict (hF : Forest children parent) (keep : α → Prop) [DecidablePred keep] :
    Forest (fun x => if keep x then children x else []) fun c => (parent c).filter keep where
  mem_iff {x c} := by
    rw [filter_eq_some_iff, decide_eq_true_iff]
    by_cases hk : keep x
    · rw [if_pos hk, hF.mem_iff]
      exact (and_iff_left hk).symm
    · rw [if_neg hk]
      exact iff_of_false not_mem_nil fun h => hk h.2
  nodup x := by
    split
    · exact hF.nodup x
    · exact nodup_nil
  ranked := hF.ranked.mono fun _ _ h => (filter_eq_some_iff.mp h).1

/-- No node of the queue is below another. -/
def Antichain (parent : α → Option α) (queue : List α) : Prop :=
  queue.Nodup ∧ ∀ a ∈ queue, ∀ b ∈ queue, Above parent a b → a = b

theorem antichain_singleton (x : α) : Antichain parent [x] := by
  refine ⟨nodup_singleton x, fun a ha b hb _ => ?_⟩
  rw [mem_singleton.mp ha, mem_singleton.mp hb]

variable {queue : List α}

theorem Antichain.mono (h : Antichain parent queue)
    (hp : ∀ a b, parent' a = some b → parent a = some b) : Antichain parent' queue :=
  ⟨h.1, fun a ha b hb hab => h.2 a ha b hb (ReflTransGen.mono hp _ _ hab)⟩

theorem Antichain.front_not_below (hF : Forest children parent)
    (h : Antichain parent (x :: queue)) {q : α} (hq : q ∈ queue ++ children x) : ¬ Above parent x q := by
  intro hab
  rcases mem_append.mp hq with hq | hq
  · have e := h.2 x mem_cons_self q (mem_cons_of_mem _ hq) hab
    exact (nodup_cons.mp h.1).1 (e ▸ hq)
  · exact hF.not_above_child hq hab

/-- Replacing the front of the queue by its children keeps the queue an antichain. -/
theorem Antichain.pop (hF : Forest children parent)
    (h : Antichain parent (x :: queue)) : Antichain parent (queue ++ children x) := by
  obtain ⟨hx, hnd⟩ := nodup_cons.mp h.1
  have hkid : ∀ c ∈ children x, ∀ b ∈ queue, ¬ Above parent c b := by
    intro c hc b hb hab
    rcases ReflTransGen.cases_head hab with rfl | ⟨d, hd, hdb⟩
    · have e := h.2 c (mem_cons_of_mem _ hb) x mem_cons_self (.single (hF.mem_iff.mp hc))
      exact hx (e ▸ hb)
    · rw [hF.mem_iff.mp hc] at hd
      cases hd
      exact hx (h.2 x mem_cons_self b (mem_cons_of_mem _ hb) hdb ▸ hb)
  refine ⟨?_, ?_⟩
  · refine nodup_append.mpr ⟨hnd, hF.nodup x, fun a ha b hb e => ?_⟩
    subst e
    exact hkid a hb a ha .refl
  · intro a ha b hb hab
    rcases mem_append.mp ha with ha | ha <;> rcases mem_append.mp hb with hb | hb
    · exact h.2 a (mem_cons_of_mem _ ha) b (mem_cons_of_mem _ hb) hab
    · have e := h.2 a (mem_cons_of_mem _ ha) x mem_cons_self (hab.tail (hF.mem_iff.mp hb))
      exact absurd (e ▸ ha) hx
    · exact absurd hab (hkid a ha b hb)
    · rcases ReflTransGen.cases_head hab with e | ⟨d, hd, hdb⟩
      · exact e
      · rw [hF.mem_iff.mp ha] at hd
        cases hd
        exact absurd hdb (hF.not_above_child hb)

/-- **On a forest a queue walk ends, and meets exactly the nodes below its queue, once each, a
    parent before its children.** The bound is the number of nodes there are to meet. -/
theorem bfsOrder_forest [DecidableEq α] (hF : Forest children parent) :
    ∀ (n : Nat) (queue : List α) (below : Finset α), below.card ≤ n →
      (∀ x, ∀ q ∈ queue, Above parent x q → x ∈ below) → Antichain parent queue →
      ∃ order, bfsOrder children n queue = some order ∧ order.Nodup ∧
        (∀ x, x ∈ order ↔ ∃ q ∈ queue, Above parent x q) ∧ order.Pairwise fun x y => parent x ≠ some y := by
  intro n
  induction n with
  | zero =>
    intro queue below hcard hbelow _
    cases queue with
    | nil => exact ⟨[], rfl, nodup_nil, by simp, List.Pairwise.nil⟩
    | cons x queue =>
      have hx := hbelow x x mem_cons_self .refl
      rw [Finset.card_eq_zero.mp (Nat.le_zero.mp hcard)] at hx
      exact absurd hx (Finset.notMem_empty x)
  | succ n ih =>
    intro queue below hcard hbelow hanti
    cases queue with
    | nil => exact ⟨[], rfl, nodup_nil, by simp, List.Pairwise.nil⟩
    | cons x queue =>
      have hx := hbelow x x mem_cons_self .refl
      have hfront : ∀ q ∈ queue ++ children x, ¬ Above parent x q := fun q hq => hanti.front_not_below hF hq
      have hsub : ∀ y, ∀ q ∈ queue ++ children x, Above parent y q → y ∈ below.erase x := by
        intro y q hq hyq
        refine Finset.mem_erase.mpr ⟨fun e => hfront q hq (e ▸ hyq), ?_⟩
        rcases mem_append.mp hq with hq' | hq'
        · exact hbelow y q (mem_cons_of_mem _ hq') hyq
        · exact hbelow y x mem_cons_self (hyq.tail (hF.mem_iff.mp hq'))
      have hcard' : (below.erase x).card ≤ n := by
        rw [Finset.card_erase_of_mem hx]
        omega
      obtain ⟨order, ho, hnd, hmem, hpair⟩ :=
        ih (queue ++ children x) (below.erase x) hcard' hsub (hanti.pop hF)
      refine ⟨x :: order, ?_, ?_, ?_, ?_⟩
      · show (bfsOrder children n (queue ++ children x)).map (x :: ·) = _
        rw [ho]
        rfl
      · refine nodup_cons.mpr ⟨fun h => ?_, hnd⟩
        obtain ⟨q, hq, hxq⟩ := (hmem x).mp h
        exact hfront q hq hxq
      · intro y
        rw [mem_cons, hmem]
        constructor
        · rintro (rfl | ⟨q, hq, hyq⟩)
          · exact ⟨y, mem_cons_self, .refl⟩
          · rcases mem_append.mp hq with hq | hq
            · exact ⟨q, mem_cons_of_mem _ hq, hyq⟩
            · exact ⟨x, mem_cons_self, hyq.tail (hF.mem_iff.mp hq)⟩
        · rintro ⟨q, hq, hyq⟩
          rcases mem_cons.mp hq with rfl | hq
          · rcases hF.above_iff.mp hyq with h | ⟨c, hc, hyc⟩
            · exact .inl h
            · exact .inr ⟨c, mem_append_right _ hc, hyc⟩
          · exact .inr ⟨q, mem_append_left _ hq, hyq⟩
      · refine pairwise_cons.mpr ⟨fun y hy e => ?_, hpair⟩
        obtain ⟨q, hq, hyq⟩ := (hmem y).mp hy
        exact hfront q hq (.head e hyq)

/-- The same from one node, when those below it have numbers below a bound. -/
theorem bfsOrder_single {children : Nat → List Nat} {parent : Nat → Option Nat} (hF : Forest children parent)
    {start bound n : Nat} (hn : bound ≤ n) (hlt : ∀ x, Above parent x start → x < bound) :
    ∃ order, bfsOrder children n [start] = some order ∧ order.Nodup ∧ (∀ x, x ∈ order ↔ Above parent x start) ∧
      order.Pairwise fun x y => parent x ≠ some y := by
  obtain ⟨order, ho, hnd, hmem, hpair⟩ := bfsOrder_forest hF n [start] (Finset.range bound)
    (by rwa [Finset.card_range]) (fun x q hq hx => Finset.mem_range.mpr (hlt x (mem_singleton.mp hq ▸ hx)))
    (antichain_singleton start)
  exact ⟨order, ho, hnd, by simpa using hmem, hpair⟩

end Order

/-! ## Level by level -/

/-- `x` comes before `y` level by level: it is less deep; or as deep, and its parent comes before the
    other's; or both have one parent, and its place there is the earlier one. -/
inductive LevelBefore (parent : α → Option α) (depth place : α → Nat) : α → α → Prop
  | level {x y : α} : depth x < depth y → LevelBefore parent depth place x y
  | parents {x y p q : α} : depth x = depth y → parent x = some p → parent y = some q →
      LevelBefore parent depth place p q → LevelBefore parent depth place x y
  | siblings {x y p : α} : parent x = some p → parent y = some p → place x < place y →
      LevelBefore parent depth place x y

/-- What the queue of a walk keeps: it goes level by level, over two levels at most, and who is on
    the lower one hangs from a node before all those left on the upper one. -/
structure Levelled (parent : α → Option α) (depth place : α → Nat) (queue : List α) : Prop where
  pairwise : queue.Pairwise (LevelBefore parent depth place)
  span : ∀ x ∈ queue, ∀ y ∈ queue, depth y ≤ depth x + 1
  hangs : ∀ x ∈ queue, ∀ y ∈ queue, depth y = depth x + 1 →
    ∃ p, parent y = some p ∧ LevelBefore parent depth place p x

section Levels

variable {children : α → List α} {parent : α → Option α} {depth place : α → Nat}

theorem levelled_singleton (x : α) : Levelled parent depth place [x] where
  pairwise := pairwise_singleton _ _
  span a ha b hb := by
    rw [mem_singleton.mp ha, mem_singleton.mp hb]
    omega
  hangs a ha b hb h := by
    rw [mem_singleton.mp ha, mem_singleton.mp hb] at h
    omega

/-- The order keeps under another name of the nodes, for the nodes `P` that are named. -/
theorem LevelBefore.map {β : Type} {parent' : β → Option β} {depth' place' : β → Nat} {g : α → β}
    {P : α → Prop} (hparent : ∀ {x p}, parent x = some p → parent' (g x) = some (g p) ∧ P p)
    (hdepth : ∀ {x}, P x → depth' (g x) = depth x)
    (hplace : ∀ {x p}, parent x = some p → place' (g x) = place x) {x y : α}
    (h : LevelBefore parent depth place x y) (hx : P x) (hy : P y) :
    LevelBefore parent' depth' place' (g x) (g y) := by
  induction h with
  | level h => exact .level (by rw [hdepth hx, hdepth hy]; exact h)
  | parents he hxp hyq _ ih =>
    exact .parents (by rw [hdepth hx, hdepth hy]; exact he) (hparent hxp).1 (hparent hyq).1
      (ih (hparent hxp).2 (hparent hyq).2)
  | siblings hxp hyp hlt =>
    exact .siblings (hparent hxp).1 (hparent hyp).1 (by rw [hplace hxp, hplace hyp]; exact hlt)

variable (hF : Forest children parent)
  (hdepth : ∀ {c p : α}, parent c = some p → depth c = depth p + 1)
  (hplace : ∀ x, (children x).Pairwise fun c d => place c < place d)

include hdepth in
theorem LevelBefore.depth_le {x y : α} (h : LevelBefore parent depth place x y) : depth x ≤ depth y := by
  cases h with
  | level h => exact Nat.le_of_lt h
  | parents h => exact Nat.le_of_eq h
  | siblings hx hy _ => rw [hdepth hx, hdepth hy]

include hdepth in
theorem depth_of_above {x q : α} (h : Above parent x q) : x = q ∨ depth q < depth x := by
  induction h using ReflTransGen.head_induction_on with
  | refl => exact .inl rfl
  | head hxy _ ih =>
    refine .inr ?_
    have := hdepth hxy
    rcases ih with rfl | ih
    · omega
    · omega

include hF hdepth hplace

/-- The children of the front belong at the end of the queue. -/
theorem Levelled.pop {x : α} {queue : List α} (h : Levelled parent depth place (x :: queue)) :
    Levelled parent depth place (queue ++ children x) := by
  obtain ⟨hfirst, hpair⟩ := pairwise_cons.mp h.pairwise
  have hkid : ∀ {c}, c ∈ children x → parent c = some x ∧ depth c = depth x + 1 := fun hc =>
    ⟨hF.mem_iff.mp hc, hdepth (hF.mem_iff.mp hc)⟩
  have hlow : ∀ y ∈ queue, depth x ≤ depth y ∧ depth y ≤ depth x + 1 := fun y hy =>
    ⟨(hfirst y hy).depth_le hdepth, h.span x mem_cons_self y (mem_cons_of_mem _ hy)⟩
  refine ⟨pairwise_append.mpr ⟨hpair, ?_, fun y hy c hc => ?_⟩, fun a ha b hb => ?_, fun a ha b hb hab => ?_⟩
  · refine (hplace x).imp_of_mem fun {c d} hc hd hcd => ?_
    exact .siblings (hkid hc).1 (hkid hd).1 hcd
  · obtain ⟨hcx, hcd⟩ := hkid hc
    obtain ⟨-, hle⟩ := hlow y hy
    rcases Nat.lt_or_ge (depth y) (depth c) with hlt | hge
    · exact .level hlt
    · -- `y` is already on the lower level, so its parent went off the queue before `x`
      obtain ⟨p, hp, hpx⟩ := h.hangs x mem_cons_self y (mem_cons_of_mem _ hy) (by omega)
      exact .parents (by omega) hp hcx hpx
  · have hbound : ∀ {a}, a ∈ queue ++ children x → depth x ≤ depth a ∧ depth a ≤ depth x + 1 := by
      intro a ha
      rcases mem_append.mp ha with ha | ha
      · exact hlow a ha
      · rw [(hkid ha).2]
        omega
    have := hbound ha
    have := hbound hb
    omega
  · rcases mem_append.mp ha with ha | ha <;> rcases mem_append.mp hb with hb | hb
    · exact h.hangs a (mem_cons_of_mem _ ha) b (mem_cons_of_mem _ hb) hab
    · exact ⟨x, (hkid hb).1, hfirst a ha⟩
    · have := hlow b hb
      have := (hkid ha).2
      omega
    · have := (hkid ha).2
      have := (hkid hb).2
      omega

/-- **A queue walk goes level by level.** -/
theorem bfsOrder_levels : ∀ {n : Nat} {queue order : List α},
    Levelled parent depth place queue → bfsOrder children n queue = some order →
    (∀ y ∈ order, ∃ q ∈ queue, Above parent y q) ∧ order.Pairwise (LevelBefore parent depth place) := by
  intro n queue order hq h
  induction h using bfsOrder_induction with
  | nil => exact ⟨by simp, List.Pairwise.nil⟩
  | cons n x queue rest _ ih =>
    obtain ⟨hbelow, hpair⟩ := ih (hq.pop hF hdepth hplace)
    obtain ⟨hfirst, -⟩ := pairwise_cons.mp hq.pairwise
    refine ⟨fun y hy => ?_, pairwise_cons.mpr ⟨fun y hy => ?_, hpair⟩⟩
    · rcases mem_cons.mp hy with rfl | hy
      · exact ⟨y, mem_cons_self, .refl⟩
      · obtain ⟨q, hq, hyq⟩ := hbelow y hy
        rcases mem_append.mp hq with hq | hq
        · exact ⟨q, mem_cons_of_mem _ hq, hyq⟩
        · exact ⟨x, mem_cons_self, hyq.tail (hF.mem_iff.mp hq)⟩
    · obtain ⟨q, hqm, hyq⟩ := hbelow y hy
      rcases mem_append.mp hqm with hqm | hqm
      · rcases depth_of_above hdepth hyq with rfl | hlt
        · exact hfirst y hqm
        · exact .level (Nat.lt_of_le_of_lt ((hfirst q hqm).depth_le hdepth) hlt)
      · have hqx := hdepth (hF.mem_iff.mp hqm)
        rcases depth_of_above hdepth hyq with rfl | hlt
        · exact .level (by omega)
        · exact .level (by omega)

end Levels

/-! ## Paths -/

/-- The places on the way down from `s` to a node. -/
inductive PathFrom (parent : α → Option α) (place : α → Nat) (s : α) : List Nat → α → Prop
  | here : PathFrom parent place s [] s
  | down {x p : α} {path : List Nat} : parent x = some p → PathFrom parent place s path p →
      PathFrom parent place s (path ++ [place x]) x

section Paths

variable {parent : α → Option α} {depth place : α → Nat} {s : α} {path : List Nat} {x : α}

theorem PathFrom.above (h : PathFrom parent place s path x) : Above parent x s := by
  induction h with
  | here => exact .refl
  | down hx _ ih => exact .head hx ih

theorem exists_pathFrom (h : Above parent x s) : ∃ path, PathFrom parent place s path x := by
  induction h using ReflTransGen.head_induction_on with
  | refl => exact ⟨[], .here⟩
  | head hx _ ih =>
    obtain ⟨path, hpath⟩ := ih
    exact ⟨_, .down hx hpath⟩

theorem LevelBefore.irrefl {y : α} (h : LevelBefore parent depth place x y) : x ≠ y := by
  induction h with
  | level h => exact fun e => Nat.ne_of_lt h (e ▸ rfl)
  | parents _ hx hy _ ih =>
    intro e
    subst e
    exact ih (some.inj (hx.symm.trans hy))
  | siblings _ _ h => exact fun e => Nat.ne_of_lt h (e ▸ rfl)

theorem lex_append : ∀ {l l' : List Nat} (m m' : List Nat), l.length = l'.length →
    List.Lex (· < ·) l l' → List.Lex (· < ·) (l ++ m) (l' ++ m') := by
  intro l l' m m' hlen h
  induction h with
  | nil => cases hlen
  | cons _ ih => exact .cons (ih (Nat.succ.inj hlen))
  | rel h => exact .rel h

theorem lex_append_left {l m m' : List Nat} (h : List.Lex (· < ·) m m') :
    List.Lex (· < ·) (l ++ m) (l ++ m') := by
  induction l with
  | nil => exact h
  | cons a l ih => exact .cons ih

variable (hdepth : ∀ {c p : α}, parent c = some p → depth c = depth p + 1)
include hdepth

theorem PathFrom.depth_eq (h : PathFrom parent place s path x) : depth x = depth s + path.length := by
  induction h with
  | here => rfl
  | down hx _ ih =>
    rw [hdepth hx, ih, length_append]
    rfl

/-- There is one way down to a node. -/
theorem PathFrom.unique {path' : List Nat} (h : PathFrom parent place s path x)
    (h' : PathFrom parent place s path' x) : path = path' := by
  induction h generalizing path' with
  | here =>
    have := h'.depth_eq hdepth
    exact (length_eq_zero_iff.mp (by omega)).symm
  | down hx hp ih =>
    cases h' with
    | here =>
      have := hdepth hx
      have := hp.depth_eq hdepth
      omega
    | down hx' hp' =>
      cases hx.symm.trans hx'
      rw [ih hp']

/-- **On one level the order is that of the paths**, compared left to right. -/
theorem LevelBefore.lex {y : α} (h : LevelBefore parent depth place x y) :
    ∀ {path path' : List Nat}, PathFrom parent place s path x → PathFrom parent place s path' y →
      depth x = depth y → List.Lex (· < ·) path path' := by
  -- two nodes on one level have parents on the way, unless they are `s` and the same
  have htop : ∀ {path path' : List Nat} {x y : α}, PathFrom parent place s path x →
      PathFrom parent place s path' y → depth x = depth y → x ≠ y →
      ∃ l l' p q, path = l ++ [place x] ∧ path' = l' ++ [place y] ∧ parent x = some p ∧
        parent y = some q ∧ PathFrom parent place s l p ∧ PathFrom parent place s l' q := by
    intro path path' x y hx hy he hne
    have h1 := hx.depth_eq hdepth
    have h2 := hy.depth_eq hdepth
    cases hx with
    | here =>
      cases hy with
      | here => exact absurd rfl hne
      | down hy' hl' => rw [length_append] at h2; simp at h1 h2; omega
    | down hx' hl =>
      cases hy with
      | here => rw [length_append] at h1; simp at h1 h2; omega
      | down hy' hl' => exact ⟨_, _, _, _, rfl, rfl, hx', hy', hl, hl'⟩
  induction h with
  | level h => intro _ _ _ _ he; omega
  | @parents x y p q he hxp hyq hpq ih =>
    intro path path' hx hy _
    have hne : x ≠ y := (LevelBefore.parents he hxp hyq hpq).irrefl
    obtain ⟨l, l', p', q', rfl, rfl, hp', hq', hl, hl'⟩ := htop hx hy he hne
    cases hxp.symm.trans hp'
    cases hyq.symm.trans hq'
    have hpq' : depth p = depth q := by
      have := hdepth hxp
      have := hdepth hyq
      omega
    have hlen : l.length = l'.length := by
      have := hl.depth_eq hdepth
      have := hl'.depth_eq hdepth
      omega
    exact lex_append _ _ hlen (ih hl hl' hpq')
  | @siblings x y p hxp hyp hlt =>
    intro path path' hx hy he
    have hne : x ≠ y := fun e => Nat.ne_of_lt hlt (e ▸ rfl)
    obtain ⟨l, l', p', q', rfl, rfl, hp', hq', hl, hl'⟩ := htop hx hy he hne
    cases hxp.symm.trans hp'
    cases hyp.symm.trans hq'
    rw [hl.unique hdepth hl']
    exact lex_append_left (.rel hlt)

end Paths

/-! ## Walks as folds over the order -/

section Folds

variable {ε β : Type} {children : α → List α}

/-- **An accumulating walk is a fold over the order**, when what it enqueues at the nodes it meets
    are their children. -/
theorem bfsFold_eq {visit : β → α → Query ε (β × List α)} {step : β → α → β} {n : Nat} {queue order : List α}
    {acc : β} (hvisit : ∀ acc, ∀ x ∈ order, visit acc x = .ok (step acc x, children x))
    (h : bfsOrder children n queue = some order) : bfsFold visit n queue acc = .ok (order.foldl step acc) := by
  induction h using bfsOrder_induction generalizing acc with
  | nil n => cases n <;> rfl
  | cons n x queue rest _ ih =>
    unfold bfsFold
    rw [hvisit acc x mem_cons_self]
    exact ih fun acc y hy => hvisit acc y (mem_cons_of_mem _ hy)

variable {σ : Type} {step : σ → α → σ} {P : σ → Prop}

section Push

variable {τ : Type} {parent : α → Option α} (label : σ → α → τ) (next : τ → τ)
  (hself : ∀ x, parent x ≠ some x) [DecidableEq α]

include hself

/-- **Labels pushed from parents to children.** A fold over an order in which no node comes after a
    child of it, each step of which gives the children of its node the label that follows the
    node's own, leaves every child with the label that follows its parent's, and changes no other. -/
theorem foldl_push : ∀ {order : List α} {s : σ}, P s → order.Nodup → order.Pairwise (fun x y => parent x ≠ some y) →
      (∀ s, ∀ x ∈ order, P s → P (step s x) ∧
        ∀ j, label (step s x) j = if parent j = some x then next (label s x) else label s j) →
      (∀ j, (∀ x ∈ order, parent j ≠ some x) → label (order.foldl step s) j = label s j) ∧
      ∀ j, ∀ x ∈ order, parent j = some x →
        label (order.foldl step s) j = next (label (order.foldl step s) x) := by
  intro order
  induction order with
  | nil => exact fun _ _ _ _ => ⟨fun _ _ => rfl, fun _ _ hx => absurd hx not_mem_nil⟩
  | cons z order ih =>
    intro s hs hnd hpair hstep
    obtain ⟨hz, hnd⟩ := nodup_cons.mp hnd
    obtain ⟨hzlast, hpair⟩ := pairwise_cons.mp hpair
    obtain ⟨hs1, hz1⟩ := hstep s z mem_cons_self hs
    obtain ⟨hkeep, hpush⟩ := ih hs1 hnd hpair fun s x hx => hstep s x (mem_cons_of_mem _ hx)
    refine ⟨fun j hj => ?_, fun j x hx hjx => ?_⟩
    · rw [foldl_cons, hkeep j fun x hx => hj x (mem_cons_of_mem _ hx), hz1, if_neg (hj z mem_cons_self)]
    · rcases mem_cons.mp hx with rfl | hx
      · -- neither the node nor its child is touched again
        have hj : ∀ y ∈ order, parent j ≠ some y := by
          rintro y hy hjy
          rw [hjx] at hjy
          cases hjy
          exact hz hy
        rw [foldl_cons, hkeep j hj, hkeep x hzlast, hz1, hz1, if_pos hjx, if_neg (hself x)]
      · exact hpush j x hx hjx

/-- **A walk that pushes labels is a fold over the order**, when what it enqueues at a node that has
    its last label already are the children. -/
theorem bfsEach_push (visit : α → Call ε σ (List α)) : ∀ {n : Nat} {queue order : List α} {s : σ}, P s →
      order.Nodup → order.Pairwise (fun x y => parent x ≠ some y) →
      (∀ s, ∀ x ∈ order, P s → P (step s x) ∧
        ∀ j, label (step s x) j = if parent j = some x then next (label s x) else label s j) →
      (∀ m, ∀ x ∈ order, P m → label m x = label (order.foldl step s) x →
        (visit x).run m = .ok (children x) (step m x)) →
      bfsOrder children n queue = some order →
      (bfsEach visit n queue).run s = .ok () (order.foldl step s) := by
  intro n queue order s hs hnd hpair hstep hvisit h
  induction h using bfsOrder_induction generalizing s with
  | nil n => cases n <;> rfl
  | cons n x queue rest _ ih =>
    have hx : (visit x).run s = .ok (children x) (step s x) := by
      refine hvisit s x mem_cons_self hs
        ((foldl_push label next hself hs hnd hpair hstep).1 x fun y hy => ?_).symm
      rcases mem_cons.mp hy with rfl | hy
      · exact hself y
      · exact (pairwise_cons.mp hpair).1 y hy
    rw [bfsEach, Call.run_bind, hx]
    exact ih (hstep s x mem_cons_self hs).1 (nodup_cons.mp hnd).2 (pairwise_cons.mp hpair).2
      (fun s y hy => hstep s y (mem_cons_of_mem _ hy)) fun m y hy => hvisit m y (mem_cons_of_mem _ hy)

end Push

/-- **A walk that stops at its first hit is a search over the order.** -/
theorem bfsFirst_eq {visit : α → Query ε (β ⊕ List α)} {hit : α → Option β} :
    ∀ {n : Nat} {queue order : List α}, (∀ x ∈ order, visit x = .ok (match hit x with
        | some b => .inl b
        | none => .inr (children x))) →
      bfsOrder children n queue = some order → bfsFirst visit n queue = .ok (order.findSome? hit) := by
  intro n queue order hvisit h
  induction h using bfsOrder_induction with
  | nil n => cases n <;> rfl
  | cons n x queue rest _ ih =>
    unfold bfsFirst
    rw [hvisit x mem_cons_self, findSome?_cons]
    cases hx : hit x with
    | some b => rfl
    | none => exact ih fun y hy => hvisit y (mem_cons_of_mem _ hy)

end Folds

end MlmForge
