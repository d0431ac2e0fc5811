/-
  Subject:   What the operations on a stream leave alone, when its tree is valid but need not be a chain.

  A restore proves the tree of a stream valid. It does not prove it a chain, so the results about chains
  say nothing of an engine that was restored; these do.

  * `Other` -- a stop that is not the panic of the stream counter.
-/
import MlmForge.Basis.Triple
import MlmForge.Streamline.Engine

namespace MlmForge.Engine.UnilevelTree

open Query Call Arena

variable {t : UnilevelTree}

/-! ## 1. Trees that are valid, chains or not -/

theorem getParent_safe (h : t.arena.Valid) (u : Uuid) : (t.getParent u).Safe := by
  refine (resolve_safe u).bind fun i hi => ?_
  have hlive := h.live_of_lookup (resolve_eq_ok.mp hi)
  rw [bind_ok (node_ok hlive)]
  cases hp : (t.arena.nodeAt i).parent with
  | none => exact safe_ok _
  | some p =>
    simp only [bind_ok (node_ok (h.live_parent hp))]
    exact safe_ok _

theorem getSponsor_safe (h : t.arena.Valid) (u : Uuid) : (t.getSponsor u).Safe := by
  refine (resolve_safe u).bind fun i hi => ?_
  have hlive := h.live_of_lookup (resolve_eq_ok.mp hi)
  rw [bind_ok (slot_ok hlive.lt)]
  cases hs : (t.arena.nodeAt i).sponsor with
  | none => exact safe_ok _
  | some s =>
    simp only [bind_ok (slot_ok (h.live_sponsor hs).lt)]
    exact safe_ok _

theorem getDownline_safe (h : t.arena.Valid) (u : Uuid) (depth : Nat) : (t.getDownline u depth).Safe := by
  refine (resolve_safe u).bind fun i hi => ?_
  obtain ⟨order, hok, -⟩ := h.bfsDownline (ε := TreeError) (h.live_of_lookup (resolve_eq_ok.mp hi)) depth
  rw [hok]
  exact safe_ok _

/-- A tree that was added to is valid and holds whom it held. -/
def Grew (t t' : UnilevelTree) : Prop :=
  t'.arena.Valid ∧ ∀ v, t.contains v = true → t'.contains v = true

theorem grew_of_grown {t' : UnilevelTree} {k : NodeIndex} {leaf : Node} {kids : List NodeIndex}
    (g : Arena.Grown t.arena t'.arena k leaf kids) (h : t'.arena.Valid) : Grew t t' := by
  refine ⟨h, fun v hv => ?_⟩
  rw [contains, g.index, Maps.lookup_insert]
  split
  · rfl
  · exact hv

/-- A call on a tree that was refused, or that ran out of depths; it changed nothing. -/
def Stops (t : UnilevelTree) (stop : Stop TreeError) (t' : UnilevelTree) : Prop :=
  ((∃ x, stop = .err x) ∨ stop = depthPanic) ∧ t' = t

theorem Stops.err (x : TreeError) : Stops t (.err x) t := ⟨.inl ⟨x, rfl⟩, rfl⟩

theorem addRoot_does (h : t.arena.Valid) (u : Uuid) (ts : Int) :
    Call.Does (addRoot u ts) t (fun _ t' => Grew t t') (Stops t) := by
  refine does_checked (checkAddRoot_safe _ _) Stops.err fun _ hc => ?_
  obtain ⟨k, t', hrun, g, hv⟩ := addRoot_spec h hc ts
  exact does_of_run hrun (grew_of_grown g hv)

theorem addNode_does (h : t.arena.Valid) (u p s : Uuid) (ts : Int) :
    Call.Does (addNode u p s ts) t (fun _ t' => Grew t t') (Stops t) := by
  refine does_checked (checkAddNode_safe p s) Stops.err fun _ hc => ?_
  obtain ⟨-, -, i, -, hi, -⟩ := checkAddNode_eq_ok hc
  by_cases hroom : (t.arena.nodeAt i).depth + 1 < 2 ^ 32
  · obtain ⟨k, t', _, _, -, -, hrun, g, hv⟩ := addNode_spec h hc
      (fun i' hi' => by cases hi.symm.trans hi'; exact hroom) ts
    exact does_of_run hrun (grew_of_grown g hv)
  · exact does_of_error (addNode_full h hc hi hroom ts) ⟨.inr rfl, rfl⟩

theorem removeNode_does (h : t.arena.Valid) (u : Uuid) :
    Call.Does (removeNode u) t (fun _ t' => t'.arena.Valid) (Stops t) := by
  refine does_checked (h.checkRemoveLeaf_safe u) Stops.err fun _ hc => ?_
  obtain ⟨i, t', m, -, hrun, -, -, -, hv⟩ := removeNode_spec h hc
  exact does_of_run hrun hv

end MlmForge.Engine.UnilevelTree

namespace MlmForge.Streamline

open Engine Query Call Arena

/-! ## 2. Streams -/

/-- The panic of `next_stream_id += 1`. -/
def counterPanic : Stop StreamlineError := .panic "attempt to add with overflow"

/-- A stop that is not the counter's. -/
def Other (stop : Stop StreamlineError) : Prop := stop ≠ counterPanic

theorem Other.err (x : StreamlineError) : Other (.err x) := fun h => by cases h

theorem Other.panic {msg : String} (h : msg ≠ "attempt to add with overflow") : Other (.panic msg) :=
  fun hstop => h (Stop.panic.inj hstop)

/-- A stop of the tree is not the counter's: the two panics differ in the line that they report. -/
theorem other_of_stops {t t' : UnilevelTree} {stop : Stop TreeError} (h : t.Stops stop t')
    {f : TreeError → StreamlineError} : Other (stop.map f) := by
  rcases h.1 with ⟨x, rfl⟩ | rfl
  · exact .err _
  · exact .panic (by decide)

theorem other_of_safe {α : Type} {q : Query StreamlineError α} (h : q.Safe) {stop : Stop StreamlineError}
    (hq : q = .error stop) : Other stop := by
  obtain ⟨x, rfl⟩ := h stop hq
  exact .err x

/-- A call that leaves the state as `R` has it, and does not panic on the counter. -/
def Leaves {σ α : Type} (m : Call StreamlineError σ α) (s : σ) (R : σ → Prop) : Prop :=
  Call.Does m s (fun _ s' => R s') fun stop s' => R s' ∧ Other stop

/-- A stream under its own id with a valid tree. -/
structure Stream.Kept (s s' : Stream) : Prop where
  id : s'.id = s.id
  valid : s'.tree.arena.Valid

/-- A stream that was added to. -/
structure Stream.Grew (s s' : Stream) : Prop extends Stream.Kept s s' where
  holds : ∀ v, s.tree.contains v = true → s'.tree.contains v = true

section Streams

variable {s : Stream} {u sponsor : Uuid} {ts : Int}

theorem Stream.Kept.refl (h : s.tree.arena.Valid) : Stream.Kept s s := ⟨rfl, h⟩

theorem Stream.Grew.refl (h : s.tree.arena.Valid) : Stream.Grew s s := ⟨.refl h, fun _ hv => hv⟩

theorem Stream.Grew.of_tree {t' : UnilevelTree} (h : UnilevelTree.Grew s.tree t') :
    Stream.Grew s { s with tree := t' } := ⟨⟨rfl, h.1⟩, h.2⟩

theorem Stream.addRoot_grew (h : s.tree.arena.Valid) :
    Leaves (Stream.onTree (expect "empty tree has no root" (UnilevelTree.addRoot u ts))) s (Stream.Grew s) := by
  refine Call.Does.zoom (Call.Does.expect ((UnilevelTree.addRoot_does h u ts).imp ?_) ?_)
  · exact fun _ t' => .of_tree
  · rintro stop t' ⟨⟨x, rfl⟩ | rfl, rfl⟩ <;> exact ⟨.refl h, .panic (by decide)⟩

theorem Stream.addNode_grew (h : s.tree.arena.Valid) (p : Uuid) :
    Leaves (Stream.onTree (Call.relay (StreamlineError.treeError .add)
      (UnilevelTree.addNode u p sponsor ts))) s (Stream.Grew s) := by
  refine Call.Does.zoom (Call.Does.relay ((UnilevelTree.addNode_does h u p sponsor ts).imp ?_) ?_)
  · exact fun _ t' => .of_tree
  · intro stop t' hstop
    refine ⟨?_, other_of_stops hstop⟩
    rw [hstop.2]
    exact .refl h

theorem Stream.parentJustAdded_other (h : s.tree.arena.Valid) {stop : Stop StreamlineError}
    (hq : s.parentJustAdded u = .error stop) : Other stop := by
  unfold Stream.parentJustAdded at hq
  cases hp : s.tree.getParent u with
  | ok p =>
    rw [hp] at hq
    cases p with
    | some p => cases hq
    | none =>
      cases hq
      exact .panic (by decide)
  | error e =>
    rw [hp] at hq
    obtain ⟨x, rfl⟩ := UnilevelTree.getParent_safe h u e hp
    cases hq
    exact .panic (by decide)

theorem Stream.append_grew (h : s.tree.arena.Valid) : Leaves (Stream.append u sponsor ts) s (Stream.Grew s) := by
  refine does_get ?_
  cases hb : s.bottom with
  | some bottomId =>
    refine Call.Does.bind (Stream.addNode_grew h bottomId) fun _ s1 h1 => ?_
    refine Call.Does.bind (does_reads (fun _ _ => h1) fun stop hq =>
      ⟨h1, Stream.parentJustAdded_other h1.valid hq⟩) fun p s2 h2 => ?_
    exact (⟨⟨h2.id, h2.valid⟩, h2.holds⟩ : Stream.Grew s { s2 with bottom := some u })
  | none =>
    refine Call.Does.bind (Stream.addRoot_grew h) fun _ s1 h1 => ?_
    exact (⟨⟨h1.id, h1.valid⟩, h1.holds⟩ : Stream.Grew s { s1 with bottom := some u })

theorem Stream.seatFirst_grew (h : s.tree.arena.Valid) : Leaves (Stream.seatFirst u ts) s (Stream.Grew s) := by
  refine Call.Does.bind (Stream.addRoot_grew h) fun _ s1 h1 => ?_
  exact does_modify_last ⟨⟨h1.id, h1.valid⟩, h1.holds⟩

end Streams

/-! ## 3. Leaving a stream -/

namespace StreamlineEngine.Borrowed

variable {α β : Type}

/-- A call that leaves the borrowed stream under its id, with a valid tree, and that does not panic on
    the counter. -/
def Keeps (m : Call StreamlineError Borrowed α) : Prop :=
  ∀ b : Borrowed, b.stream.tree.arena.Valid →
    Call.Does m b (fun _ b' => Stream.Kept b.stream b'.stream)
      fun stop b' => Stream.Kept b.stream b'.stream ∧ Other stop

theorem keeps_pure (a : α) : Keeps (pure a) := fun _ h => does_pure (.refl h)

theorem Keeps.bind {m : Call StreamlineError Borrowed α} {f : α → Call StreamlineError Borrowed β}
    (hm : Keeps m) (hf : ∀ a, Keeps (f a)) : Keeps (m >>= f) := by
  intro b hb
  refine Call.Does.bind (hm b hb) fun a b1 h1 => ?_
  refine (hf a b1 h1.valid).mono (fun _ b2 h2 => ?_) fun stop b2 h2 => ?_
  · exact ⟨h2.id.trans h1.id, h2.valid⟩
  · exact ⟨⟨h2.1.id.trans h1.id, h2.1.valid⟩, h2.2⟩

theorem keeps_modify {change : Borrowed → Borrowed} (hid : ∀ b, (change b).stream.id = b.stream.id)
    (htree : ∀ b, (change b).stream.tree = b.stream.tree) :
    Keeps (modify change : Call StreamlineError Borrowed PUnit) := fun b hb =>
  does_modify_last ⟨hid b, (htree b) ▸ hb⟩

theorem keeps_reads {q : Borrowed → Query StreamlineError α}
    (hq : ∀ b : Borrowed, b.stream.tree.arena.Valid → (q b).Safe) : Keeps (reads q) :=
  fun b hb => does_reads (fun _ _ => .refl hb) fun _ hstop => ⟨.refl hb, other_of_safe (hq b hb) hstop⟩

theorem keeps_get {f : Borrowed → Call StreamlineError Borrowed β} (hf : ∀ b, Keeps (f b)) :
    Keeps (get >>= f) := fun b hb => does_get (hf b b hb)

theorem keeps_onTree {m : Call TreeError UnilevelTree α} {step : TreeStep}
    (hm : ∀ t : UnilevelTree, t.arena.Valid → Call.Does m t (fun _ t' => t'.arena.Valid) t.Stops) :
    Keeps (onTree step m) := by
  intro b hb
  refine Call.Does.zoom (Call.Does.relay ((hm b.stream.tree hb).imp ?_) ?_)
  · exact fun _ t' hv => ⟨rfl, hv⟩
  · intro stop t' hstop
    refine ⟨⟨rfl, ?_⟩, other_of_stops hstop⟩
    rw [hstop.2]
    exact hb

theorem keeps_removeNode (step : TreeStep) (u : Uuid) : Keeps (onTree step (UnilevelTree.removeNode u)) :=
  keeps_onTree fun _ h => UnilevelTree.removeNode_does h u

theorem keeps_reAdd (userId : Uuid) (parent : Option Uuid) (d : Descendant) :
    Keeps (reAdd userId parent d) := by
  unfold reAdd
  cases parent with
  | some pid =>
    refine keeps_onTree fun t h => ?_
    exact (UnilevelTree.addNode_does h _ _ _ _).imp fun _ _ hg => hg.1
  | none =>
    refine keeps_onTree fun t h => ?_
    exact (UnilevelTree.addRoot_does h _ _).imp fun _ _ hg => hg.1

theorem descendantsOf_safe {t : UnilevelTree} (h : t.arena.Valid) (u : Uuid) : (descendantsOf t u).Safe :=
  ((UnilevelTree.getDownline_safe h u 0).okOr _).bind fun _ _ => safe_mapM fun _ _ =>
    ((UnilevelTree.getSponsor_safe h _).okOr _).bind fun _ _ => safe_ok _

theorem firstUnparented_safe {t : UnilevelTree} (h : t.arena.Valid) (us : List Uuid) :
    (firstUnparented t us).Safe := by
  induction us with
  | nil => exact safe_ok _
  | cons u us ih =>
    refine ((UnilevelTree.getParent_safe h u).okOr _).bind fun p _ => ?_
    split
    · exact safe_ok _
    · exact ih

theorem keeps_removeDescendants (streamId : Nat) (ds : List Descendant) :
    Keeps (removeDescendants streamId ds) := by
  induction ds with
  | nil => exact keeps_pure _
  | cons d ds ih =>
    refine (keeps_removeNode _ _).bind fun _ => Keeps.bind ?_ fun _ => ih
    exact keeps_modify (fun _ => rfl) fun _ => rfl

theorem keeps_reAddDescendants (userId : Uuid) (streamId : Nat) (ds : List Descendant) :
    ∀ parent, Keeps (reAddDescendants userId streamId parent ds) := by
  induction ds with
  | nil => exact fun _ => keeps_pure _
  | cons d ds ih =>
    intro parent
    refine (keeps_reAdd userId parent d).bind fun _ => Keeps.bind ?_ fun _ => Keeps.bind ?_ fun _ => ih _
    · exact keeps_modify (fun _ => rfl) fun _ => rfl
    · exact keeps_modify (fun b => by split <;> rfl) fun b => by split <;> rfl

theorem keeps_transferOwner (streamId : Nat) : Keeps (transferOwner streamId) := by
  refine (keeps_reads fun b hb => firstUnparented_safe hb _).bind fun owner => ?_
  cases owner with
  | some nid => exact keeps_modify (fun _ => rfl) fun _ => rfl
  | none => exact keeps_modify (fun _ => rfl) fun _ => rfl

theorem keeps_leave (userId : Uuid) (streamId : Nat) : Keeps (leave userId streamId) := by
  refine (keeps_reads fun b hb => descendantsOf_safe hb _).bind fun ds => ?_
  refine (keeps_reads fun b hb => (UnilevelTree.getParent_safe hb _).okOr _).bind fun p => ?_
  refine (keeps_removeDescendants _ _).bind fun _ => (keeps_removeNode _ _).bind fun _ => ?_
  refine (keeps_reAddDescendants _ _ _ _).bind fun _ => Keeps.bind ?_ fun _ => Keeps.bind ?_ fun _ => ?_
  · exact keeps_modify (fun b => by split <;> rfl) fun b => by split <;> rfl
  · exact keeps_modify (fun b => by split <;> rfl) fun b => by split <;> rfl
  · refine keeps_get fun b => ?_
    split
    · exact keeps_transferOwner streamId
    · exact keeps_pure _

end StreamlineEngine.Borrowed

end MlmForge.Streamline
