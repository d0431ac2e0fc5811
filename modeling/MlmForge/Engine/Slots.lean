/-
  Subject:   The child slots of the trees that have them: a row of places for each node, and the
             passes of `validate_restored` that check them against the arena.

  A row is a `C` that lists its places by `row : C → List (Option NodeIndex)`: two places for a
  binary tree, `width` places for a matrix tree.

  * **`checkSlots_iff`** -- the passes return exactly when that holds, and every row has its width.
-/
import MlmForge.Basis.Maps
import MlmForge.Basis.Places
import MlmForge.Engine.Grow
import MlmForge.Engine.Prune

namespace MlmForge.Engine

open List AList Query Option

namespace Arena

variable {C : Type} (row : C → List (Option NodeIndex))

/-- The child slots of all nodes. -/
abbrev SlotMap (C : Type) := AList fun _ : NodeIndex => C

/-! ## 1. The passes -/

/-- What is wrong with an index in the slot map. -/
def slotIndexFault (a : Arena) (slot : NodeIndex) : Option SnapshotConsistencyError :=
  match a.nodes[slot]? with
  | none => some (.childSlotOutOfRange slot a.nodes.length)
  | some n => if n.userId = Uuid.nil then some (.childSlotTombstoned slot) else none

/-- What is wrong with an entry: its parent, then its shape, then its children. -/
def entryFault (a : Arena) (shape : NodeIndex → C → Option SnapshotConsistencyError)
    (parent : NodeIndex) (children : C) : Option SnapshotConsistencyError :=
  ((a.slotIndexFault parent).or (shape parent children)).or
    ((row children).reduceOption.findSome? a.slotIndexFault)

def checkEveryLiveNodeHasASlot (a : Arena) (slots : SlotMap C) : Check Unit :=
  a.eachLive fun slot n =>
    stopIf (slots.lookup slot = none) (.err (.slotEntryMissing slot n.userId))

/-- Every parent and child that the slot map names. -/
def slotPairs (slots : SlotMap C) : List (NodeIndex × NodeIndex) :=
  slots.entries.flatMap fun ⟨parent, children⟩ =>
    (row children).reduceOption.map fun child => (parent, child)

/-- The parents that name a child, in order and without repeats. -/
def distinctParents (pairs : List (NodeIndex × NodeIndex)) (child : NodeIndex) : List NodeIndex :=
  ((pairs.filter fun pair => pair.2 = child).map Prod.fst).dedup.mergeSort

/-- A child that more than one slot names. -/
def repeatFault (pairs : List (NodeIndex × NodeIndex)) (child : NodeIndex) :
    Stop SnapshotConsistencyError :=
  match distinctParents pairs child with
  | first :: second :: rest =>
    .err (.childSlotRepeated child first second (first :: second :: rest).length)
  | [first] => .err (.childSlottedTwiceUnderOneParent child first)
  | [] => .panic "index out of bounds"

/-- Every live non-root node is a child in exactly one child slot. Each fault names its lowest
    candidate. -/
def checkEveryLiveNodeIsSlottedOnce (a : Arena) (slots : SlotMap C) : Check Unit :=
  let pairs := slotPairs row slots
  match ((pairs.filter fun pair => a.root = some pair.2).map Prod.fst).min? with
  | some parent => .error (.err (.rootSlottedAsChild parent))
  | none =>
    match ((pairs.filter fun pair => pair.2 = pair.1).map Prod.fst).min? with
    | some slot => .error (.err (.nodeSlottedUnderItself slot))
    | none =>
      match ((pairs.map Prod.snd).filter fun c => 1 < (pairs.map Prod.snd).count c).min? with
      | some child => .error (repeatFault pairs child)
      | none =>
        a.eachLive fun slot n =>
          stopIf (a.root ≠ some slot ∧ slot ∉ pairs.map Prod.snd)
            (.err (.liveNodeNotSlotted slot n.userId))

/-- What is wrong with an entry whose occupants are not the node's children. -/
def childrenFault (a : Arena) (parent : NodeIndex) (entry : C) :
    Check (Option SnapshotConsistencyError) := do
  let n ← a.slot parent
  .ok (if (row entry).reduceOption ≠ n.children then
    some (.childrenDisagreeWithSlots parent n.children (row entry).reduceOption) else none)

/-- Each parent's occupied child slots, in slot order, equal its children. -/
def checkChildrenMatchSlots (a : Arena) (slots : SlotMap C) : Check Unit :=
  lowestFault (a.childrenFault row) none slots.entries

/-! ## 2. Slots that agree with the arena -/

/-- Live nodes have rows, and the occupants of a row are the node's children. -/
structure SlotsAgree (a : Arena) (slots : SlotMap C) : Prop where
  live : ∀ i, slots.lookup i ≠ none ↔ a.Live i
  children : ∀ {i c}, slots.lookup i = some c → (row c).reduceOption = a.childrenOf i

section Agree

variable {row} {a : Arena} {slots : SlotMap C}

theorem slotIndexFault_eq_none {i : NodeIndex} : a.slotIndexFault i = none ↔ a.Live i := by
  unfold slotIndexFault
  by_cases hi : i < a.nodes.length
  · simp only [getElem?_eq_nodeAt hi]
    unfold Live
    split <;> simp_all
  · simp only [getElem?_eq_none (Nat.le_of_not_lt hi), reduceCtorEq, false_iff]
    exact fun h => hi h.lt

variable {shape : NodeIndex → C → Option SnapshotConsistencyError} {parent : NodeIndex}

theorem entryFault_eq_none {children : C} : a.entryFault row shape parent children = none ↔
      a.Live parent ∧ shape parent children = none ∧ ∀ c ∈ (row children).reduceOption, a.Live c := by
  simp only [entryFault, or_eq_none_iff, slotIndexFault_eq_none, findSome?_eq_none_iff, and_assoc]

theorem mem_slotPairs {p c : NodeIndex} : (p, c) ∈ slotPairs row slots ↔
      ∃ entry, slots.lookup p = some entry ∧ c ∈ (row entry).reduceOption := by
  unfold slotPairs
  rw [mem_flatMap]
  constructor
  · rintro ⟨⟨parent, entry⟩, hmem, h⟩
    obtain ⟨child, hc, e⟩ := mem_map.mp h
    cases e
    exact ⟨entry, mem_lookup_iff.mpr hmem, hc⟩
  · rintro ⟨entry, hl, hc⟩
    exact ⟨⟨p, entry⟩, mem_lookup_iff.mp hl, mem_map_of_mem hc⟩

theorem childrenFault_eq_ok {entry : C} (hp : a.Live parent) :
    a.childrenFault row parent entry = .ok none ↔ (row entry).reduceOption = a.childrenOf parent := by
  unfold childrenFault
  rw [bind_ok (slot_ok hp.lt)]
  simp

theorem SlotsAgree.exists_row (h : SlotsAgree row a slots) {i : NodeIndex} (hi : a.Live i) :
    ∃ c, slots.lookup i = some c := ne_none_iff_exists'.mp ((h.live i).mpr hi)

theorem SlotsAgree.live_of_row (h : SlotsAgree row a slots) {i : NodeIndex} {c : C}
    (hc : slots.lookup i = some c) : a.Live i := (h.live i).mp (hc ▸ some_ne_none c)

theorem SlotsAgree.mem_pairs (h : SlotsAgree row a slots) (hv : a.Valid) {p c : NodeIndex} :
    (p, c) ∈ slotPairs row slots ↔ a.parentOf c = some p := by
  rw [mem_slotPairs, ← hv.placed.mem_iff]
  constructor
  · rintro ⟨entry, he, hc⟩
    exact h.children he ▸ hc
  · intro hc
    obtain ⟨entry, he⟩ := h.exists_row (hv.live_parent (hv.placed.mem_iff.mp hc))
    exact ⟨entry, he, (h.children he).symm ▸ hc⟩

theorem SlotsAgree.children_nodup (h : SlotsAgree row a slots) (hv : a.Valid) :
    ((slotPairs row slots).map Prod.snd).Nodup := by
  have hpairs : (slotPairs row slots).Nodup := by
    unfold slotPairs
    refine nodup_flatMap.mpr ⟨fun ⟨p, entry⟩ hx => ?_, ?_⟩
    · refine List.Nodup.map (fun _ _ e => (Prod.mk.inj e).2) ?_
      rw [h.children (mem_lookup_iff.mpr hx)]
      exact hv.placed.nodup p
    · refine (nodupKeys_iff_pairwise.mp slots.nodupKeys).imp fun {x y} hxy => ?_
      rintro ⟨p, c⟩ hx hy
      obtain ⟨_, _, e⟩ := mem_map.mp hx
      obtain ⟨_, _, e'⟩ := mem_map.mp hy
      exact hxy ((Prod.mk.inj e).1.trans (Prod.mk.inj e').1.symm)
  -- a child has one parent, so it is in one pair
  refine hpairs.map_on fun ⟨p, c⟩ hx ⟨q, d⟩ hy e => ?_
  have e : c = d := e
  subst e
  have := (h.mem_pairs hv).mp hx
  rw [(h.mem_pairs hv).mp hy] at this
  cases this
  rfl

theorem min?_filter_eq_none {β : Type} {l : List β} {P : β → Bool} {f : β → Nat}
    (h : ∀ x ∈ l, P x = false) : ((l.filter P).map f).min? = none := by
  rw [min?_eq_none_iff, map_eq_nil_iff, filter_eq_nil_iff]
  intro x hx
  rw [h x hx]
  nofun

theorem SlotsAgree.slottedOnce (h : SlotsAgree row a slots) (hv : a.Valid) :
    a.checkEveryLiveNodeIsSlottedOnce row slots = .ok () := by
  unfold checkEveryLiveNodeIsSlottedOnce
  have h1 : ∀ x ∈ slotPairs row slots, decide (a.root = some x.2) = false := by
    rintro ⟨p, c⟩ hx
    refine decide_eq_false fun hr => ?_
    have hp := (h.mem_pairs hv).mp hx
    rw [hv.root_parent hr] at hp
    cases hp
  have h2 : ∀ x ∈ slotPairs row slots, decide (x.2 = x.1) = false := by
    rintro ⟨p, c⟩ hx
    exact decide_eq_false (hv.forest.ranked.ne ((h.mem_pairs hv).mp hx))
  have h3 : ((((slotPairs row slots).map Prod.snd).filter fun c =>
      1 < ((slotPairs row slots).map Prod.snd).count c).map id).min? = none :=
    min?_filter_eq_none fun c _ => decide_eq_false
      (Nat.not_lt.mpr (nodup_iff_count_le_one.mp (h.children_nodup hv) c))
  rw [List.map_id] at h3
  simp only [min?_filter_eq_none h1, min?_filter_eq_none h2, h3]
  rw [eachLive_eq_ok]
  intro i hi
  rw [stopIf_eq_ok]
  rintro ⟨hr, hnot⟩
  obtain ⟨p, hp⟩ := hv.parent_of_ne_root hi hr
  exact hnot (mem_map.mpr ⟨(p, i), (h.mem_pairs hv).mpr hp, rfl⟩)

/-- **The passes over the slot map return exactly when it agrees with the arena and every row has
    its shape.** -/
theorem checkSlots_iff (hv : a.Valid) :
    (lowestFault (fun p c => .ok (a.entryFault row shape p c)) none slots.entries = .ok () ∧
      a.checkEveryLiveNodeHasASlot slots = .ok () ∧ a.checkEveryLiveNodeIsSlottedOnce row slots = .ok () ∧
      a.checkChildrenMatchSlots row slots = .ok ()) ↔
    SlotsAgree row a slots ∧ ∀ i c, slots.lookup i = some c → shape i c = none := by
  have hentry : ∀ {i c}, slots.lookup i = some c → (⟨i, c⟩ : Sigma _) ∈ slots.entries := fun h =>
    mem_lookup_iff.mp h
  simp only [lowestFault_eq_ok, true_and, Except.ok.injEq, entryFault_eq_none,
    checkEveryLiveNodeHasASlot, eachLive_eq_ok, stopIf_eq_ok, checkChildrenMatchSlots]
  constructor
  · rintro ⟨hfault, hlive, -, hkids⟩
    refine ⟨⟨fun i => ⟨fun hi => ?_, hlive i⟩, fun {i c} hi => ?_⟩, fun i c hi => ?_⟩
    · obtain ⟨c, hc⟩ := ne_none_iff_exists'.mp hi
      exact (hfault _ (hentry hc)).1
    · exact (childrenFault_eq_ok (hfault _ (hentry hi)).1).mp (hkids _ (hentry hi))
    · exact (hfault _ (hentry hi)).2.1
  · rintro ⟨h, hshape⟩
    have hlookup : ∀ x ∈ slots.entries, slots.lookup x.1 = some x.2 := fun x hx => mem_lookup_iff.mpr hx
    have hl : ∀ x ∈ slots.entries, a.Live x.1 := fun x hx => (h.live x.1).mp (by simp [hlookup x hx])
    refine ⟨fun x hx => ⟨hl x hx, hshape _ _ (hlookup x hx), fun c hc => ?_⟩,
      fun i hi => (h.live i).mpr hi, h.slottedOnce hv, fun x hx => ?_⟩
    · rw [h.children (hlookup x hx)] at hc
      exact hv.live_child hc
    · exact (childrenFault_eq_ok (hl x hx)).mpr (h.children (hlookup x hx))

end Agree

/-! ## 3. Slots after an operation -/

section Operations

variable {row} {a a' : Arena} {slots : SlotMap C} {k : NodeIndex} {leaf : Node} {empty : C}

/-- A row of its own for a new node, and its place in the row of its parent if it has one. -/
theorem SlotsAgree.insert {slots' : SlotMap C} {kids : List NodeIndex} (h : SlotsAgree row a slots) (filled : C)
    (g : Grown a a' k leaf kids) (hl : Leaf a leaf) (he : (row empty).reduceOption = [])
    (hkids : leaf.parent ≠ none → (row filled).reduceOption = kids)
    (hlook : ∀ i, slots'.lookup i = if leaf.parent = some i then some filled else
      if i = k then some empty else slots.lookup i) : SlotsAgree row a' slots' where
  live i := by
    rw [g.live_iff hl.user, hlook]
    split
    · rename_i hp
      simp [(hl.parent hp).1]
    · split
      · rename_i hi
        simp [hi]
      · rename_i hi
        rw [h.live]
        simp [hi]
  children {i c} hc := by
    rw [hlook] at hc
    rw [g.childrenOf hl]
    split at hc
    · rename_i hp
      cases hc
      rw [if_pos hp, hkids (hp ▸ some_ne_none i)]
    · rename_i hp
      rw [if_neg hp]
      split at hc
      · rename_i hi
        cases hc
        rw [if_pos hi, he]
      · rename_i hi
        rw [if_neg hi, h.children hc]

theorem SlotsAgree.insert_root (h : SlotsAgree row a slots)
    (g : Grown a a' k leaf []) (hl : Leaf a leaf) (hp : leaf.parent = none)
    (he : (row empty).reduceOption = []) : SlotsAgree row a' (slots.insert k empty) :=
  h.insert empty g hl he (absurd hp) fun i => by rw [hp, if_neg nofun, Maps.lookup_insert]

theorem SlotsAgree.insert_node (h : SlotsAgree row a slots) {p : NodeIndex}
    {filled : C} (g : Grown a a' k leaf (row filled).reduceOption) (hl : Leaf a leaf)
    (hp : leaf.parent = some p) (he : (row empty).reduceOption = []) :
    SlotsAgree row a' ((slots.insert k empty).insert p filled) :=
  h.insert filled g hl he (fun _ => rfl) fun i => by
    simp only [Maps.lookup_insert, hp, some.injEq, eq_comm]

theorem SlotsAgree.of_pruned {slots' : SlotMap C} {gone : List NodeIndex}
    (h : SlotsAgree row a slots) (p : Pruned a a' gone)
    (hdom : ∀ i, slots'.lookup i ≠ none ↔ i ∉ gone ∧ slots.lookup i ≠ none)
    (hkids : ∀ {i c}, slots'.lookup i = some c → (row c).reduceOption = a'.childrenOf i) :
    SlotsAgree row a' slots' where
  live i := by rw [hdom, h.live, p.live_iff]
  children := hkids

end Operations

end Arena

end MlmForge.Engine
