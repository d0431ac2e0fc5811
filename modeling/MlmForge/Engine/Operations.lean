/-
  Subject:   The operations of the three trees, their checks, and their runs.

  * **`check_decides`** -- the checks decide the operations exactly;
  * **`unilevel_binary_stay_restorable`**, **`matrix_stays_restorable`** -- in any run, whatever fails
    in it, the tree stays one that `validate_restored` accepts, while its slots can be counted.
-/
import MlmForge.Engine.Binary
import MlmForge.Engine.MatrixOps
import MlmForge.Engine.Unilevel

namespace MlmForge.Engine

open Call (Decides Atomic after afterAll Throughout)

/-- An operation is decided by its check, and keeps `P` when it succeeds. -/
structure Sound {σ : Type} (P : σ → Prop) (check : Query TreeError Unit)
    (call : Call TreeError σ Unit) (s : σ) : Prop where
  decides : Decides check call s
  keeps : ∀ s', call.run s = .ok () s' → P s'

theorem Sound.after {σ : Type} {P : σ → Prop} {check : Query TreeError Unit}
    {call : Call TreeError σ Unit} {s : σ} (h : Sound P check call s) (hs : P s) : P (call.after s) :=
  h.decides.atomic.after hs fun _ s' hrun => h.keeps s' hrun

theorem kept_of {σ α β : Type} {P : σ → Prop} {q : σ → Query TreeError β} {body : β → Call TreeError σ α}
    {s s' : σ} (hok : ∀ b, q s = .ok b → ∃ a s', (Call.reads q >>= body).run s = .ok a s' ∧ P s')
    (hrun : ((fun _ => ()) <$> (Call.reads q >>= body)).run s = .ok () s') : P s' := by
  cases hq : q s with
  | error e => simp [hq] at hrun
  | ok b =>
    obtain ⟨a, s'', hrun', hP⟩ := hok b hq
    rw [Call.run_map, hrun'] at hrun
    cases hrun
    exact hP

/-- An operation that starts with its check is sound when it keeps `P` once the check has passed. -/
theorem sound_of {σ α : Type} {P : σ → Prop} (check : σ → Query TreeError Unit)
    {body : Unit → Call TreeError σ α} {s : σ} (hsafe : (check s).Safe)
    (hok : check s = .ok () → ∃ a s', (Call.reads check >>= body).run s = .ok a s' ∧ P s') :
    Sound P (check s) ((fun _ => ()) <$> (Call.reads check >>= body)) s := by
  have hd : Decides (check s) (Call.reads check >>= body) s :=
    Call.decides_of hsafe fun hc => (hok hc).imp fun a h => h.imp fun s' h => h.1
  exact ⟨hd.map _, fun s' => kept_of fun _ => hok⟩

/-! ## 1. Unilevel and binary trees -/

/-- A call on a unilevel tree. -/
inductive UnilevelOp where
  | addRoot (userId : Uuid) (enrolledAt : Int)
  | addNode (userId parentId sponsorId : Uuid) (enrolledAt : Int)
  | removeNode (userId : Uuid)
  deriving DecidableEq, Repr

namespace UnilevelOp

def check (t : UnilevelTree) : UnilevelOp → Query TreeError Unit
  | addRoot userId _ => t.checkAddRoot userId
  | addNode userId parentId sponsorId _ => t.checkAddNode userId parentId sponsorId
  | removeNode userId => t.checkRemoveNode userId

def exec [Build] : UnilevelOp → Call TreeError UnilevelTree Unit
  | addRoot userId enrolledAt => (fun _ => ()) <$> UnilevelTree.addRoot userId enrolledAt
  | addNode userId parentId sponsorId enrolledAt =>
    (fun _ => ()) <$> UnilevelTree.addNode userId parentId sponsorId enrolledAt
  | removeNode userId => (fun _ => ()) <$> UnilevelTree.removeNode userId

theorem sound [Build] (op : UnilevelOp) {t : UnilevelTree} (h : t.arena.Valid) (hroom : t.arena.Roomy) :
    Sound (fun t => t.arena.Valid) (op.check t) op.exec t := by
  cases op with
  | addRoot u e =>
    refine sound_of (fun t : UnilevelTree => t.checkAddRoot u) (Arena.checkAddRoot_safe _ _) fun hc => ?_
    obtain ⟨k, t', hrun, -, hv⟩ := UnilevelTree.addRoot_spec h hc e
    exact ⟨k, t', hrun, hv⟩
  | addNode u p s e =>
    refine sound_of (fun t : UnilevelTree => t.checkAddNode u p s)
      (UnilevelTree.checkAddNode_safe p s) fun hc => ?_
    obtain ⟨k, t', -, -, -, -, hrun, -, hv⟩ := UnilevelTree.addNode_spec h hc
      (fun _ hp => h.depth_succ_lt hroom (h.live_of_lookup hp)) e
    exact ⟨k, t', hrun, hv⟩
  | removeNode u =>
    refine sound_of (fun t : UnilevelTree => t.checkRemoveNode u) (h.checkRemoveLeaf_safe u) fun hc => ?_
    obtain ⟨i, t', m, -, hrun, -, -, -, hv⟩ := UnilevelTree.removeNode_spec h hc
    exact ⟨_, t', hrun, hv⟩

end UnilevelOp

/-- A call on a binary tree. -/
inductive BinaryOp where
  | addRoot (userId : Uuid) (enrolledAt : Int)
  | addNode (userId parentId : Uuid) (position : Nat) (sponsorId : Uuid) (enrolledAt : Int)
  | removeNode (userId : Uuid)
  deriving DecidableEq, Repr

namespace BinaryOp

def check (t : BinaryTree) : BinaryOp → Query TreeError Unit
  | addRoot userId _ => t.checkAddRoot userId
  | addNode userId parentId position sponsorId _ => t.checkAddNode userId parentId position sponsorId
  | removeNode userId => t.checkRemoveNode userId

def exec [Build] : BinaryOp → Call TreeError BinaryTree Unit
  | addRoot userId enrolledAt => (fun _ => ()) <$> BinaryTree.addRoot userId enrolledAt
  | addNode userId parentId position sponsorId enrolledAt =>
    (fun _ => ()) <$> BinaryTree.addNode userId parentId position sponsorId enrolledAt
  | removeNode userId => (fun _ => ()) <$> BinaryTree.removeNode userId

theorem sound [Build] (op : BinaryOp) {t : BinaryTree} (h : t.Valid) (hroom : t.arena.Roomy) :
    Sound BinaryTree.Valid (op.check t) op.exec t := by
  cases op with
  | addRoot u e =>
    refine sound_of (fun t : BinaryTree => t.checkAddRoot u) (Arena.checkAddRoot_safe _ _) fun hc => ?_
    obtain ⟨k, t', hrun, -, -, hv⟩ := BinaryTree.addRoot_spec h hc e
    exact ⟨k, t', hrun, hv⟩
  | addNode u p q s e =>
    refine sound_of (fun t : BinaryTree => t.checkAddNode u p q s)
      (BinaryTree.checkAddNode_safe p s q) fun hc => ?_
    obtain ⟨k, t', -, -, -, -, -, -, hrun, -, -, hv⟩ := BinaryTree.addNode_spec h hc hroom e
    exact ⟨k, t', hrun, hv⟩
  | removeNode u =>
    refine sound_of (fun t : BinaryTree => t.checkRemoveNode u) (h.arena.checkRemoveLeaf_safe u) fun hc => ?_
    obtain ⟨i, t', m, -, hrun, -, -, -, -, hv⟩ := BinaryTree.removeNode_spec h hc
    exact ⟨_, t', hrun, hv⟩

end BinaryOp

/-! ## 2. Matrix trees -/

/-- A call on a matrix tree. -/
inductive MatrixOp where
  | addRoot (userId : Uuid) (enrolledAt : Int)
  | addNode (userId sponsorId : Uuid) (enrolledAt : Int)
  | addNodeAt (userId sponsorId parentId : Uuid) (position : UInt8) (enrolledAt : Int)
  | removeNode (userId : Uuid) (mode : PruningMode)
  | placeFromTank (userId parentId : Uuid) (position : UInt8)
  deriving DecidableEq, Repr

namespace MatrixOp

/-- The check of an operation that has one. -/
def check (t : MatrixTree) : MatrixOp → Option (Query TreeError Unit)
  | addRoot userId _ => some (t.checkAddRoot userId)
  | addNode _ _ _ => none
  | addNodeAt userId sponsorId parentId position _ =>
    some (t.checkAddNodeAt userId sponsorId parentId position)
  | removeNode userId mode => some (t.checkRemoveNode userId mode)
  | placeFromTank _ _ _ => none

def exec [Build] : MatrixOp → Call TreeError MatrixTree Unit
  | addRoot userId enrolledAt => (fun _ => ()) <$> MatrixTree.addRoot userId enrolledAt
  | addNode userId sponsorId enrolledAt =>
    (fun _ => ()) <$> MatrixTree.addNode userId sponsorId enrolledAt
  | addNodeAt userId sponsorId parentId position enrolledAt =>
    (fun _ => ()) <$> MatrixTree.addNodeAt userId sponsorId parentId position enrolledAt
  | removeNode userId mode => (fun _ => ()) <$> MatrixTree.removeNode userId mode
  | placeFromTank userId parentId position =>
    (fun _ => ()) <$> MatrixTree.placeFromTank userId parentId position

/-- An operation with a check is sound. -/
theorem sound [Build] {op : MatrixOp} {t : MatrixTree} (h : t.Valid) (hroom : t.arena.Roomy) {c : Query TreeError Unit}
    (hop : op.check t = some c) : Sound MatrixTree.Valid c op.exec t := by
  cases op with
  | addRoot u e =>
    cases hop
    refine sound_of (fun t : MatrixTree => t.checkAddRoot u) MatrixTree.checkAddRoot_safe fun hc => ?_
    obtain ⟨k, t', hrun, -, -, -, -, hv⟩ := MatrixTree.addRoot_spec h hc e
    exact ⟨k, t', hrun, hv⟩
  | addNode u s e => cases hop
  | addNodeAt u s p q e =>
    cases hop
    refine sound_of (fun t : MatrixTree => t.checkAddNodeAt u s p q)
      (h.checkAddNodeAt_safe s p q) fun hc => ?_
    obtain ⟨k, t', -, -, -, -, -, hrun, -, -, -, hv⟩ := MatrixTree.addNodeAt_spec h hroom hc e
    exact ⟨k, t', hrun, hv⟩
  | removeNode u mode =>
    cases hop
    refine sound_of (fun t : MatrixTree => t.checkRemoveNode u mode) h.checkRemoveNode_safe fun hc => ?_
    obtain ⟨_, _, _, _, result, t', -, -, -, -, hrun, hr, -⟩ :=
      MatrixTree.removeNode_spec h hc fun _ => hroom
    exact ⟨result, t', hrun, hr.valid⟩
  | placeFromTank u p q => cases hop

/-- Every operation is atomic and keeps the tree valid. -/
theorem step [Build] (op : MatrixOp) {t : MatrixTree} (h : t.Valid) (hroom : t.arena.Roomy) :
    Atomic op.exec t ∧ ∀ t', op.exec.run t = .ok () t' → t'.Valid := by
  have hsearch : ∀ {α β : Type} {q : MatrixTree → Query TreeError β}
      {body : β → Call TreeError MatrixTree α}, (q t).Safe →
      (∀ b, q t = .ok b → ∃ a t', (Call.reads q >>= body).run t = .ok a t' ∧ t'.Valid) →
      Atomic ((fun _ => ()) <$> (Call.reads q >>= body)) t ∧
        ∀ t', ((fun _ => ()) <$> (Call.reads q >>= body)).run t = .ok () t' → t'.Valid := by
    intro α β q body hsafe hok
    refine ⟨(Call.atomic_of hsafe fun b hb => ?_).map _, fun t' => kept_of hok⟩
    obtain ⟨a, t', hrun, -⟩ := hok b hb
    exact ⟨a, t', hrun⟩
  cases hop : op.check t with
  | some c => exact ⟨(sound h hroom hop).decides.atomic, (sound h hroom hop).keeps⟩
  | none =>
    cases op with
    | addRoot u e => cases hop
    | addNode u s e =>
      refine hsearch (q := fun t => t.checkAddNode u s) (MatrixTree.checkAddNode_safe s) fun b hb => ?_
      obtain ⟨k, t', -, -, -, hrun, -, -, -, -, hv⟩ := MatrixTree.addNode_spec h hroom hb e
      exact ⟨k, t', hrun, hv⟩
    | addNodeAt u s p q e => cases hop
    | removeNode u mode => cases hop
    | placeFromTank u p q =>
      refine hsearch (q := fun t => t.checkPlaceFromTank u p q) (h.checkPlaceFromTank_safe p q) fun b hb => ?_
      obtain ⟨k, t', -, hrun, -, -, -, hv⟩ := MatrixTree.placeFromTank_spec h hroom hb
      exact ⟨(), t', hrun, hv⟩

end MatrixOp

/-! ## 3. A line that uses up the depths -/

/-- The members of a line in which each is placed below the one before. -/
def lineUser (k : Nat) : Uuid := BitVec.ofNat 128 (k + 1)

theorem lineUser_inj {j k : Nat} (hj : j ≤ 2 ^ 32) (hk : k ≤ 2 ^ 32) (e : lineUser j = lineUser k) : j = k := by
  have := congrArg BitVec.toNat e
  simp only [lineUser, BitVec.toNat_ofNat] at this
  omega

theorem lineUser_ne_nil {k : Nat} (hk : k ≤ 2 ^ 32) : lineUser k ≠ Uuid.nil := by
  intro e
  have := congrArg BitVec.toNat e
  simp only [lineUser, BitVec.toNat_ofNat, Uuid.nil, BitVec.ofNat_eq_ofNat] at this
  omega

/-- The arena holds a line of `d + 1` users, the last of them in slot `p`. -/
structure Lined (d : Nat) (a : Arena) (p : NodeIndex) : Prop where
  valid : a.Valid
  slots : a.nodes.length ≤ d + 1
  top : ∃ r, a.index.lookup (lineUser 0) = some r
  last : a.index.lookup (lineUser d) = some p
  depth : (a.nodeAt p).depth = d
  rest : ∀ k, d < k → k ≤ 2 ^ 32 → a.index.lookup (lineUser k) = none

section Line

variable {d : Nat} {a a' : Arena} {k p : NodeIndex}

theorem lined_root {e : Int} (g : Arena.Grown Arena.new a' k (Node.leaf (lineUser 0) none none 0 e) [])
    (hv : a'.Valid) : Lined 0 a' k where
  valid := hv
  slots := g.length.2
  top := ⟨k, by rw [g.index]; exact AList.lookup_insert _⟩
  last := by rw [g.index]; exact AList.lookup_insert _
  depth := by rw [g.depth, if_pos rfl]; rfl
  rest j hj hj' := by
    rw [g.index, AList.lookup_insert_ne fun e => by have := lineUser_inj hj' (by omega) e; omega]
    rfl

/-- A newcomer below the last one lengthens it. -/
theorem Lined.grown (h : Lined d a p) (hd : d < 2 ^ 32) {s : NodeIndex} {e : Int} {kids : List NodeIndex}
    (g : Arena.Grown a a' k (Node.leaf (lineUser (d + 1)) (some p) (some s) ((a.nodeAt p).depth + 1) e) kids)
    (hv : a'.Valid) : Lined (d + 1) a' k where
  valid := hv
  slots := g.length.2.trans (Nat.succ_le_succ h.slots)
  top := by
    rw [g.index, AList.lookup_insert_ne fun e => by have := lineUser_inj (by omega) (by omega) e; omega]
    exact h.top
  last := by rw [g.index]; exact AList.lookup_insert _
  depth := by rw [g.depth, if_pos rfl]; exact congrArg (· + 1) h.depth
  rest j hj hj' := by
    rw [g.index, AList.lookup_insert_ne fun e => by have := lineUser_inj hj' (by omega) e; omega]
    exact h.rest j (by omega) hj'

/-- The next of the line is not refused. -/
theorem Lined.check {t : UnilevelTree} (h : Lined d t.arena p) (hd : d < 2 ^ 32) :
    t.checkAddNode (lineUser (d + 1)) (lineUser d) (lineUser 0) = .ok () := by
  obtain ⟨r, hr⟩ := h.top
  exact UnilevelTree.checkAddNode_ok (lineUser_ne_nil hd) (h.rest _ (Nat.lt_succ_self d) hd) h.last hr

theorem exists_unilevel_line [Build] (d : Nat) (hd : d < 2 ^ 32) :
    ∃ (t : UnilevelTree) (p : NodeIndex), Lined d t.arena p := by
  induction d with
  | zero =>
    obtain ⟨k, t, -, g, hv⟩ := UnilevelTree.addRoot_spec (t := .new) Arena.new_valid
      (Arena.checkAddRoot_eq_ok.mpr ⟨lineUser_ne_nil (Nat.zero_le _), rfl, rfl⟩) 0
    exact ⟨t, k, lined_root g hv⟩
  | succ d ih =>
    obtain ⟨t, p, h⟩ := ih (by omega)
    obtain ⟨k, t', p', s, hp, -, -, g, hv⟩ := UnilevelTree.addNode_spec h.valid (h.check (by omega))
      (fun p' hp => by
        cases h.last.symm.trans hp
        rwa [h.depth]) 0
    cases h.last.symm.trans hp
    exact ⟨t', k, h.grown (by omega) g hv⟩

/-- A matrix tree with a line that goes down its first slots. -/
structure MatrixLined (d : Nat) (t : MatrixTree) (p : NodeIndex) : Prop extends Lined d t.arena p where
  tree : t.Valid
  width : t.width = 2
  tank : t.holdingTank = []
  row : ∃ row, t.slots.lookup p = some row ∧ row[0]? = some none

theorem MatrixLined.check {t : MatrixTree} (h : MatrixLined d t p) (hd : d < 2 ^ 32) :
    t.checkAddNodeAt (lineUser (d + 1)) (lineUser 0) (lineUser d) 0 = .ok () := by
  obtain ⟨r, hr⟩ := h.top
  obtain ⟨row, hrow, hopen⟩ := h.row
  obtain ⟨root, hroot, -⟩ := h.valid.root_above (h.valid.live_of_lookup h.last)
  simp [MatrixTree.checkAddNodeAt, Arena.checkUserId, Query.bind_eq_ok, lineUser_ne_nil hd, hroot, h.width,
    h.rest (d + 1) (Nat.lt_succ_self d) hd, MatrixTree.inTank, h.tank, Arena.resolve_eq_ok,
    Arena.resolveSponsor_eq_ok, h.last, hr, MatrixTree.slotsOf_ok hrow, MatrixTree.placeAt, hopen]

theorem exists_matrix_line [Build] (d : Nat) (hd : d < 2 ^ 32) :
    ∃ (t : MatrixTree) (p : NodeIndex), MatrixLined d t p := by
  induction d with
  | zero =>
    have hnew : MatrixTree.new 2 .breadthFirst = .ok ⟨Arena.new, 2, .breadthFirst, ∅, []⟩ := rfl
    obtain ⟨k, t, -, g, hslots, hw, htank, hv⟩ := MatrixTree.addRoot_spec (u := lineUser 0)
      (MatrixTree.new_valid hnew) rfl 0
    refine ⟨t, k, lined_root g hv.arena, hv, hw, htank, List.replicate 2 none, ?_, rfl⟩
    rw [hslots]
    exact AList.lookup_insert _
  | succ d ih =>
    obtain ⟨t, p, h⟩ := ih (by omega)
    obtain ⟨k, t', p', s, row, hp, -, -, pl, -, -, hv⟩ := MatrixTree.addNodeAt_spec h.tree
      (Nat.lt_of_le_of_lt h.slots hd) (h.check (by omega)) 0
    cases h.last.symm.trans hp
    refine ⟨t', k, h.grown (by omega) pl.grown hv.arena, hv, pl.width.trans h.width, pl.tank.trans h.tank,
      t.emptySlots, ?_, ?_⟩
    · rw [pl.slots, AList.lookup_insert_ne (pl.grown.ne (h.valid.live_of_lookup hp)).symm]
      exact AList.lookup_insert _
    · rw [MatrixTree.emptySlots, h.width]
      rfl

/-- At the end of a line of 2^32 users there is no depth left. -/
theorem Lined.deeper [Build] (h : Lined (2 ^ 32 - 1) a p) : deeper (ε := TreeError) (a.nodeAt p).depth =
    if Build.overflowChecks then .error depthPanic else .ok 0 := by
  rw [h.depth]
  rfl

end Line

/-! ## 4. Runs -/

/-- **Any run of a unilevel or of a binary tree stays restorable**, while its slots can be counted. -/
theorem unilevel_binary_stay_restorable [Build] :
    (∀ t : UnilevelTree, t = UnilevelTree.new ∨ t.validateRestored = .ok () → ∀ ops : List UnilevelOp,
      Throughout (fun t => t.arena.Roomy) (ops.map UnilevelOp.exec) t →
      (afterAll (ops.map UnilevelOp.exec) t).validateRestored = .ok ()) ∧
    (∀ t : BinaryTree, t = BinaryTree.new ∨ t.validateRestored = .ok () → ∀ ops : List BinaryOp,
      Throughout (fun t => t.arena.Roomy) (ops.map BinaryOp.exec) t →
      (afterAll (ops.map BinaryOp.exec) t).validateRestored = .ok () ∧
        (afterAll (ops.map BinaryOp.exec) t).Valid) := by
  refine ⟨fun t ht ops hroom => ?_, fun t ht ops hroom => ?_⟩
  · have hv : t.arena.Valid := by
      rcases ht with rfl | ht
      · exact Arena.new_valid
      · exact Arena.validateRestored_iff.mp ht
    exact Arena.validateRestored_iff.mpr (Call.afterAll_induction (P := fun t : UnilevelTree => t.arena.Valid)
      (fun op t hv hroom => (op.sound hv hroom).after hv) ops hroom hv)
  · have hv : t.Valid := by
      rcases ht with rfl | ht
      · exact BinaryTree.new_valid
      · exact BinaryTree.validateRestored_iff.mp ht
    have hend : (afterAll (ops.map BinaryOp.exec) t).Valid :=
      Call.afterAll_induction (fun op t hv hroom => (op.sound hv hroom).after hv) ops hroom hv
    exact ⟨BinaryTree.validateRestored_iff.mpr hend, hend⟩

theorem unilevel_binary_stay_restorable_reused :
    (afterAll ([.addRoot 1 0, .removeNode 1, .addRoot 2 5].map UnilevelOp.exec)
      UnilevelTree.new).validateRestored = .ok () ∧
    (afterAll ([.addRoot 1 0, .removeNode 1, .addRoot 2 5].map BinaryOp.exec)
      BinaryTree.new).validateRestored = .ok () :=
  ⟨unilevel_binary_stay_restorable.1 _ (.inl rfl) _ (by decide +kernel),
    (unilevel_binary_stay_restorable.2 _ (.inl rfl) _ (by decide +kernel)).1⟩

/-- **A line of 2^32 users in a release build**: it is restorable, and with one more at its end it is not,
    since the depth of that one wraps. -/
theorem unilevel_depth_wraps : ∃ t : UnilevelTree, t.validateRestored = .ok () ∧
    (afterAll ([.addNode (lineUser (2 ^ 32)) (lineUser (2 ^ 32 - 1)) (lineUser 0) 0].map
      (@UnilevelOp.exec .release)) t).validateRestored ≠ .ok () := by
  obtain ⟨t, p, h⟩ := exists_unilevel_line (2 ^ 32 - 1) (by decide)
  refine ⟨t, Arena.validateRestored_iff.mpr h.valid, fun hok => ?_⟩
  obtain ⟨r, hr⟩ := h.top
  have hc : t.checkAddNode (lineUser (2 ^ 32)) (lineUser (2 ^ 32 - 1)) (lineUser 0) = .ok () :=
    h.check (by decide)
  obtain ⟨k, t', hrun, g⟩ := @UnilevelTree.addNode_run _ _ _ _ .release h.valid hc _ _ h.last hr _
    (@Lined.deeper _ _ .release h) 0
  have hend : (afterAll ([.addNode (lineUser (2 ^ 32)) (lineUser (2 ^ 32 - 1)) (lineUser 0) 0].map
      (@UnilevelOp.exec .release)) t) = t' := by
    simp only [afterAll, UnilevelOp.exec, List.map_cons, List.map_nil, List.foldl, after, Call.run_map, hrun]
  rw [hend] at hok
  refine g.not_valid rfl (h.valid.live_of_lookup h.last) ?_ (Arena.validateRestored_iff.mp hok)
  exact (Nat.succ_ne_zero _).symm

/-- **Any run of a matrix tree stays restorable**, while its slots can be counted: whatever is placed,
    removed in either mode, and placed again from the tank, and whatever is refused in between. -/
theorem matrix_stays_restorable [Build] {t : MatrixTree}
    (h : (∃ width spillover, MatrixTree.new width spillover = .ok t) ∨ t.validateRestored = .ok ())
    (ops : List MatrixOp) (hroom : Throughout (fun t => t.arena.Roomy) (ops.map MatrixOp.exec) t) :
    (afterAll (ops.map MatrixOp.exec) t).validateRestored = .ok () ∧
      (afterAll (ops.map MatrixOp.exec) t).Valid := by
  have hv : t.Valid := by
    rcases h with ⟨width, spillover, hnew⟩ | h
    · exact MatrixTree.new_valid hnew
    · exact MatrixTree.validateRestored_iff.mp h
  have hend : (afterAll (ops.map MatrixOp.exec) t).Valid :=
    Call.afterAll_induction (fun op t hv hroom => (op.step hv hroom).1.after hv
      fun _ => (op.step hv hroom).2) ops hroom hv
  exact ⟨MatrixTree.validateRestored_iff.mpr hend, hend⟩

theorem matrix_stays_restorable_width_two :
    (afterAll ([.addRoot 1 0, .addNode 2 1 1, .addNode 3 1 2, .addNode 4 2 3,
        .removeNode 2 .promoteEarliest, .removeNode 3 .holdingTank, .placeFromTank 3 4 0].map
      MatrixOp.exec) ⟨Arena.new, 2, .breadthFirst, ∅, []⟩).validateRestored = .ok () :=
  (matrix_stays_restorable (.inl ⟨2, .breadthFirst, rfl⟩) _ (by decide +kernel)).1

/-- **The same line in a matrix tree.** -/
theorem matrix_depth_wraps : ∃ t : MatrixTree, t.validateRestored = .ok () ∧
    (afterAll ([.addNodeAt (lineUser (2 ^ 32)) (lineUser 0) (lineUser (2 ^ 32 - 1)) 0 0].map
      (@MatrixOp.exec .release)) t).validateRestored ≠ .ok () := by
  obtain ⟨t, p, h⟩ := exists_matrix_line (2 ^ 32 - 1) (by decide)
  refine ⟨t, MatrixTree.validateRestored_iff.mpr h.tree, fun hok => ?_⟩
  obtain ⟨r, hr⟩ := h.top
  obtain ⟨row, hrow, hopen⟩ := h.row
  have hc : t.checkAddNodeAt (lineUser (2 ^ 32)) (lineUser 0) (lineUser (2 ^ 32 - 1)) 0 = .ok () :=
    h.check (by decide)
  obtain ⟨k, t', hrun, pl⟩ := @MatrixTree.addNodeAt_run _ _ _ _ _ _ .release h.valid hc _ _
    h.last hr hrow hopen _ (@Lined.deeper _ _ .release h.toLined) 0
  have hend : (afterAll ([.addNodeAt (lineUser (2 ^ 32)) (lineUser 0) (lineUser (2 ^ 32 - 1)) 0 0].map
      (@MatrixOp.exec .release)) t) = t' := by
    simp only [afterAll, MatrixOp.exec, List.map_cons, List.map_nil, List.foldl, after, Call.run_map, hrun]
  rw [hend] at hok
  refine pl.grown.not_valid rfl (h.valid.live_of_lookup h.last) ?_ (MatrixTree.validateRestored_iff.mp hok).arena
  exact (Nat.succ_ne_zero _).symm

/-- **The checks decide the operations exactly**, on every tree that a restore accepts and whose slots can
    be counted; no operation panics or stops half way, and a removal never runs out of slots for what it
    moves. -/
theorem check_decides [Build] :
    (∀ t : UnilevelTree, t.validateRestored = .ok () → t.arena.Roomy →
      ∀ op : UnilevelOp, Decides (op.check t) op.exec t) ∧
    (∀ t : BinaryTree, t.validateRestored = .ok () → t.arena.Roomy →
      ∀ op : BinaryOp, Decides (op.check t) op.exec t) ∧
    (∀ t : MatrixTree, t.validateRestored = .ok () → t.arena.Roomy → ∀ op : MatrixOp,
      (∀ c, op.check t = some c → Decides c op.exec t) ∧ Atomic op.exec t ∧
      ∀ userId mode v t', op = .removeNode userId mode →
        op.exec.run t ≠ .error (.err (.subtreeFull v)) t') := by
  refine ⟨fun t ht hroom op => ?_, fun t ht hroom op => ?_, fun t ht hroom op => ?_⟩
  · exact (op.sound (Arena.validateRestored_iff.mp ht) hroom).decides
  · exact (op.sound (BinaryTree.validateRestored_iff.mp ht) hroom).decides
  · have hv := MatrixTree.validateRestored_iff.mp ht
    refine ⟨fun c hop => (MatrixOp.sound hv hroom hop).decides, (op.step hv hroom).1, ?_⟩
    rintro u mode v t' rfl hrun
    have hd : Decides (t.checkRemoveNode u mode) _ t :=
      (MatrixOp.sound hv hroom (rfl : (MatrixOp.removeNode u mode).check t = _)).decides
    cases hc : t.checkRemoveNode u mode with
    | ok _ =>
      obtain ⟨_, _, hok⟩ := hd.ok_iff.mp hc
      rw [hok] at hrun
      cases hrun
    | error e =>
      rw [hd.refused e hc] at hrun
      cases hrun
      rcases hv.checkRemoveNode_error hc with e | e | ⟨_, _, e⟩ <;> cases e

/-- A removal that promotes user 4 and spills user 5 below them, of a tree with one row full. -/
theorem check_decides_spill :
    let t := afterAll ([.addRoot 1 0, .addNode 2 1 1, .addNode 3 1 2, .addNode 4 2 3, .addNode 5 2 4].map
      MatrixOp.exec) ⟨Arena.new, 2, .breadthFirst, ∅, []⟩
    t.validateRestored = .ok () ∧ t.arena.Roomy ∧ t.checkRemoveNode 2 .promoteEarliest = .ok () ∧
      Decides (t.checkRemoveNode 2 .promoteEarliest) (MatrixOp.exec (.removeNode 2 .promoteEarliest)) t := by
  intro t
  have hok : t.validateRestored = .ok () := by decide +kernel
  have hroom : t.arena.Roomy := by decide +kernel
  exact ⟨hok, hroom, by decide +kernel,
    (check_decides.2.2 t hok hroom (.removeNode 2 .promoteEarliest)).1 _ rfl⟩

/-- **A line of 2^32 users in a build with overflow checks**: the check lets one more pass, and the
    operation panics. -/
theorem depth_overflow_panics : ∃ (t : UnilevelTree) (op : UnilevelOp), t.validateRestored = .ok () ∧
    op.check t = .ok () ∧ (@UnilevelOp.exec .dev op).run t = .error depthPanic t := by
  obtain ⟨t, p, h⟩ := exists_unilevel_line (2 ^ 32 - 1) (by decide)
  have hc : t.checkAddNode (lineUser (2 ^ 32)) (lineUser (2 ^ 32 - 1)) (lineUser 0) = .ok () :=
    h.check (by decide)
  refine ⟨t, .addNode (lineUser (2 ^ 32)) (lineUser (2 ^ 32 - 1)) (lineUser 0) 0,
    Arena.validateRestored_iff.mpr h.valid, hc, ?_⟩
  rw [UnilevelOp.exec, Call.run_map, UnilevelTree.addNode_full h.valid hc h.last (by rw [h.depth]; decide)]

end MlmForge.Engine
