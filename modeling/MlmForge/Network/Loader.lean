/-
  Subject:   The preflight of a tree load: the stored rows form one tree, and there is an order in which
             every row follows its parent and its sponsor.

  * **`preflight_iff`** -- rows that describe a sound roster pass exactly when parents and sponsors
    together form no cycle;
  * **`replay_order_is_topological`** -- what the order keeps to.
-/
import MlmForge.Basis.Kahn
import MlmForge.Engine.Lineage
import MlmForge.Network.Rows

namespace MlmForge.Network

open Engine MemoryTreeStore List Query Option TreeNodeRow

/-! ## 1. Configurations and refusals -/

/-- The type of a tree, as configurations and events name it. -/
inductive TreeType where
  | unilevel
  | binary
  | matrix
  | other (name : String)
  deriving DecidableEq, Repr

/-- What the checks of the rows read of a tree's configuration. -/
structure LoadTreeConfig where
  matrixWidth : Int
  deriving DecidableEq, Repr

/-- Why a load is refused before the engine is called. -/
inductive LoadRejection where
  | nilUser (treeId rowId : Uuid)
  | duplicateUser (treeId userId : Uuid)
  | secondRoot (treeId first second : Uuid)
  | noRoot (treeId : Uuid)
  | rootHasParent (treeId root parentId : Uuid)
  | rootHasPosition (treeId root : Uuid) (position : Int)
  | noSlotRule (treeId : Uuid) (treeType : TreeType)
  | nilParentOrSponsor (treeId userId : Uuid)
  | ownParent (treeId userId : Uuid)
  | ownSponsor (treeId userId : Uuid)
  | parentNotInTree (treeId userId parentId : Uuid)
  | sponsorNotInTree (treeId userId sponsorId : Uuid)
  | depthMismatch (treeId userId : Uuid) (depth : Int) (parentId : Uuid) (parentDepth : Int)
  | unexpectedPosition (treeId userId : Uuid) (treeType : TreeType) (position : Int)
  | nilPosition (treeId userId : Uuid) (treeType : TreeType)
  | positionOutOfRange (treeId userId : Uuid) (treeType : TreeType) (position limit : Int)
  | slotTaken (treeId : Uuid) (treeType : TreeType) (other userId parentId : Uuid) (position : Int)
  | nothingStuck (treeId : Uuid) (ordered total : Nat)
  | cycle (treeId : Uuid) (stuck total : Nat) (cycle : List Uuid)
  | unresolved (treeId : Uuid) (stuck total : Nat) (stopped reachedFrom : Option Uuid)
  deriving DecidableEq, Repr

/-! ## 2. The rows form a tree -/

/-- The depth-0 row; `seen` are the users met so far. -/
def findRoot (treeId : Uuid) : List TreeNodeRow → List Uuid → Option TreeNodeRow →
    Query LoadRejection (Option TreeNodeRow)
  | [], _, root => .ok root
  | n :: rest, seen, root => do
      stopIf (n.userId = Uuid.nil) (.err (.nilUser treeId n.id))
      stopIf (n.userId ∈ seen) (.err (.duplicateUser treeId n.userId))
      if n.depth = 0 then
        match root with
        | some r => .error (.err (.secondRoot treeId r.userId n.userId))
        | none => findRoot treeId rest (n.userId :: seen) (some n)
      else findRoot treeId rest (n.userId :: seen) root

/-- How many slots a row of the tree has; none where children carry no slot. -/
def slotLimit (treeId : Uuid) (cfg : LoadTreeConfig) : TreeType → Query LoadRejection (Option Int)
  | .unilevel => .ok none
  | .binary => .ok (some 2)
  | .matrix => .ok (some cfg.matrixWidth)
  | .other name => .error (.err (.noSlotRule treeId (.other name)))

/-- What a row other than the root has to be; the slot it claims. -/
def checkNode (treeId : Uuid) (treeType : TreeType) (limit : Option Int)
    (byId : Uuid → Option TreeNodeRow) (n : TreeNodeRow) :
    Query LoadRejection (Option (Uuid × Int)) :=
  match n.parentId, n.sponsorId with
  | some parentId, some sponsorId => do
      stopIf (parentId = n.userId) (.err (.ownParent treeId n.userId))
      stopIf (sponsorId = n.userId) (.err (.ownSponsor treeId n.userId))
      match byId parentId with
      | none => .error (.err (.parentNotInTree treeId n.userId parentId))
      | some parent => do
          stopIf (byId sponsorId = none) (.err (.sponsorNotInTree treeId n.userId sponsorId))
          stopIf (n.depth ≠ parent.depth + 1)
            (.err (.depthMismatch treeId n.userId n.depth parent.userId parent.depth))
          match limit, n.position with
          | none, none => .ok none
          | none, some q => .error (.err (.unexpectedPosition treeId n.userId treeType q))
          | some _, none => .error (.err (.nilPosition treeId n.userId treeType))
          | some limit, some q => do
              stopIf (q < 0 ∨ limit ≤ q)
                (.err (.positionOutOfRange treeId n.userId treeType q limit))
              .ok (some (parentId, q))
  | _, _ => .error (.err (.nilParentOrSponsor treeId n.userId))

/-- Every row other than the root, with the slots claimed so far. -/
def checkNodes (treeId : Uuid) (treeType : TreeType) (limit : Option Int)
    (byId : Uuid → Option TreeNodeRow) (root : Uuid) :
    List TreeNodeRow → List ((Uuid × Int) × Uuid) → Query LoadRejection Unit
  | [], _ => .ok ()
  | n :: rest, occupied =>
    if n.userId = root then checkNodes treeId treeType limit byId root rest occupied
    else do
      match ← checkNode treeId treeType limit byId n with
      | none => checkNodes treeId treeType limit byId root rest occupied
      | some slot =>
        match occupied.lookup slot with
        | some other => .error (.err (.slotTaken treeId treeType other n.userId slot.1 slot.2))
        | none => checkNodes treeId treeType limit byId root rest ((slot, n.userId) :: occupied)

def validateNodes (treeId : Uuid) (treeType : TreeType) (cfg : LoadTreeConfig)
    (nodes : List TreeNodeRow) : Query LoadRejection Unit := do
  match ← findRoot treeId nodes [] none with
  | none => .error (.err (.noRoot treeId))
  | some root => do
      match root.parentId with
      | some parentId => .error (.err (.rootHasParent treeId root.userId parentId))
      | none => .ok ()
      match root.position with
      | some q => .error (.err (.rootHasPosition treeId root.userId q))
      | none => .ok ()
      let limit ← slotLimit treeId cfg treeType
      checkNodes treeId treeType limit (fun u => nodes.find? fun n => n.userId = u) root.userId nodes []

/-! ## 3. The rows have an order -/

/-- What a row has to follow: its parent and its sponsor. The root's sponsor is not waited for. -/
def replayDeps (n : TreeNodeRow) : List Uuid :=
  let refs := n.parentId.toList ++ if n.parentId = none then [] else n.sponsorId.toList
  firstSeen [] (refs.filter (· ≠ n.userId))

/-- Shallowest first, then earliest enrolled, then by user. -/
def replaysFirst (a b : TreeNodeRow) : Bool :=
  if a.depth ≠ b.depth then a.depth < b.depth
  else if a.enrolledAt ≠ b.enrolledAt then a.enrolledAt < b.enrolledAt
  else a.userId < b.userId

def replayQueue : Kahn TreeNodeRow Uuid := ⟨TreeNodeRow.userId, replayDeps, replaysFirst⟩

/-- Follows unmet dependencies from `cur`; `path` is the way here. The second part is the cycle that
    was closed. -/
def followUnmet (unmet : Uuid → Option Uuid) : Nat → Uuid → List Uuid → List Uuid × Option (List Uuid)
  | 0, _, path => (path, none)
  | fuel + 1, cur, path =>
    match path.idxOf? cur with
    | some i => (path, some (path.drop i ++ [cur]))
    | none =>
      match unmet cur with
      | none => (path ++ [cur], none)
      | some next => followUnmet unmet fuel next (path ++ [cur])

def cycleError (treeId : Uuid) (nodes ordered : List TreeNodeRow) : LoadRejection :=
  let emitted := ordered.map TreeNodeRow.userId
  let stuck := ((nodes.map TreeNodeRow.userId).filter (!emitted.contains ·)).mergeSort (· ≤ ·)
  let unmet := fun id => (replayQueue.byKey nodes id).bind fun n =>
    (n.parentId.toList ++ n.sponsorId.toList).find? fun ref => ref != id && !emitted.contains ref
  match stuck with
  | [] => .nothingStuck treeId ordered.length nodes.length
  | first :: _ =>
    match followUnmet unmet (nodes.length + 2) first [] with
    | (_, some cycle) => .cycle treeId stuck.length nodes.length cycle
    | (path, none) => .unresolved treeId stuck.length nodes.length path.getLast?
        path.dropLast.getLast?

def orderForReplay (treeId : Uuid) (nodes : List TreeNodeRow) :
    Query LoadRejection (List TreeNodeRow) :=
  let ordered := replayQueue.order nodes
  if ordered.length ≠ nodes.length then .error (.err (cycleError treeId nodes ordered))
  else .ok ordered

def preflight (treeId : Uuid) (treeType : TreeType) (cfg : LoadTreeConfig)
    (nodes : List TreeNodeRow) : Query LoadRejection Unit :=
  if nodes = [] then .ok ()
  else do
    validateNodes treeId treeType cfg nodes
    let _ ← orderForReplay treeId nodes
    .ok ()

/-! ## 4. Rows that describe a roster -/

/-- The rows are the seats of a roster. -/
structure Describes (nodes : List TreeNodeRow) (r : Roster) : Prop where
  unique : (nodes.map TreeNodeRow.userId).Nodup
  row : ∀ n ∈ nodes, r n.userId = some n.seat
  node : ∀ u seat, r u = some seat → ∃ n ∈ nodes, n.userId = u ∧ n.seat = seat

/-- The slot that a row claims. -/
def TreeNodeRow.slot (n : TreeNodeRow) : Option (Uuid × Int) :=
  n.parentId.bind fun p => n.position.map fun q => (p, q)

section Loops

variable {treeId : Uuid} {l : List TreeNodeRow}

theorem findRoot_ok {seen : List Uuid} {root found : Option TreeNodeRow}
    (hnd : (l.map userId).Nodup) (hnil : ∀ n ∈ l, n.userId ≠ Uuid.nil)
    (hnew : ∀ n ∈ l, n.userId ∉ seen) (hone : root.toList ++ l.filter (·.depth = 0) = found.toList) :
    findRoot treeId l seen root = .ok found := by
  induction l generalizing seen root with
  | nil =>
    rw [filter_nil, append_nil] at hone
    show (.ok root : Query LoadRejection _) = .ok found
    cases root <;> cases found <;> simp_all
  | cons n l ih =>
    rw [map_cons, nodup_cons] at hnd
    have hnext : ∀ m ∈ l, m.userId ∉ n.userId :: seen := by
      intro m hm
      rw [mem_cons, not_or]
      refine ⟨fun e => hnd.1 (e ▸ mem_map_of_mem hm), hnew m (mem_cons_of_mem _ hm)⟩
    have hrest : ∀ root' : Option TreeNodeRow, root'.toList ++ l.filter (·.depth = 0) = found.toList →
        findRoot treeId l (n.userId :: seen) root' = .ok found := fun root' h =>
      ih hnd.2 (fun m hm => hnil m (mem_cons_of_mem _ hm)) hnext h
    refine seq_eq_ok.mpr ⟨?_, seq_eq_ok.mpr ⟨?_, ?_⟩⟩
    · exact stopIf_eq_ok.mpr (hnil n mem_cons_self)
    · exact stopIf_eq_ok.mpr (hnew n mem_cons_self)
    · by_cases h0 : n.depth = 0
      · rw [filter_cons_of_pos (by simpa using h0)] at hone
        rw [if_pos h0]
        cases root with
        | none => exact hrest (some n) hone
        | some r => cases found <;> simp at hone
      · rw [filter_cons_of_neg (by simpa using h0)] at hone
        rw [if_neg h0]
        exact hrest root hone

theorem checkNodes_ok {treeType : TreeType} {limit : Option Int} {byId : Uuid → Option TreeNodeRow}
    {root : Uuid} {occupied : List ((Uuid × Int) × Uuid)}
    (hcheck : ∀ n ∈ l, n.userId ≠ root → checkNode treeId treeType limit byId n = .ok n.slot)
    (hfree : ∀ n ∈ l, ∀ slot, n.slot = some slot → occupied.lookup slot = none)
    (hapart : l.Pairwise fun a b => ∀ slot, a.slot = some slot → b.slot ≠ some slot) :
    checkNodes treeId treeType limit byId root l occupied = .ok () := by
  induction l generalizing occupied with
  | nil => rfl
  | cons n l ih =>
    obtain ⟨hn, hl⟩ := pairwise_cons.mp hapart
    have hcheck' := fun m hm => hcheck m (mem_cons_of_mem n hm)
    have hfree' := fun m hm => hfree m (mem_cons_of_mem n hm)
    unfold checkNodes
    split
    · exact ih hcheck' hfree' hl
    · rename_i hne
      rw [bind_ok (hcheck n mem_cons_self hne)]
      cases hs : n.slot with
      | none => exact ih hcheck' hfree' hl
      | some slot =>
        simp only [hfree n mem_cons_self slot hs]
        refine ih hcheck' (fun m hm slot' hs' => ?_) hl
        have hother : slot' ≠ slot := by
          intro e
          exact hn m hm slot hs (e ▸ hs')
        rw [lookup_cons, beq_false_of_ne hother]
        exact hfree' m hm slot' hs'

end Loops

namespace Describes

variable {nodes : List TreeNodeRow} {r : Roster} {limit : Option Nat} {n : TreeNodeRow}

theorem inj (h : Describes nodes r) {m : TreeNodeRow} (hm : m ∈ nodes) (hn : n ∈ nodes)
    (e : m.userId = n.userId) : m = n :=
  inj_on_of_nodup_map h.unique hm hn e

theorem find (h : Describes nodes r) {u : Uuid} (hu : r u ≠ none) :
    ∃ m ∈ nodes, m.userId = u ∧ nodes.find? (fun n => n.userId = u) = some m := by
  obtain ⟨seat, hseat⟩ := ne_none_iff_exists'.mp hu
  obtain ⟨m, hm, rfl, -⟩ := h.node u seat hseat
  obtain ⟨m', hm'⟩ : ∃ m', nodes.find? (fun n => n.userId = m.userId) = some m' :=
    isSome_iff_exists.mp (find?_isSome.mpr ⟨m, hm, decide_eq_true rfl⟩)
  have he : m'.userId = m.userId := by simpa using find?_some hm'
  exact ⟨m, hm, rfl, h.inj (mem_of_find?_eq_some hm') hm he ▸ hm'⟩

theorem checkNode_ok (h : Describes nodes r) (hs : r.Sound limit) (hr : r.Recruited) (treeId : Uuid)
    (treeType : TreeType) (hn : n ∈ nodes) (hp : n.parentId ≠ none) :
    checkNode treeId treeType (limit.map Int.ofNat) (fun u => nodes.find? fun n => n.userId = u) n =
      .ok n.slot := by
  have hrow := h.row n hn
  obtain ⟨p, hp'⟩ := ne_none_iff_exists'.mp hp
  have hsp : n.seat.sponsor = n.sponsorId := if_neg hp
  obtain ⟨s, hs'⟩ := ne_none_iff_exists'.mp (hsp ▸ hr _ _ hrow hp)
  obtain ⟨hpne, above, habove, hdepth, -⟩ := hs.below hrow hp'
  obtain ⟨hsne, hsin⟩ := hs.sponsored hrow (hsp.trans hs')
  obtain ⟨parent, hparent, rfl, hfind⟩ := h.find (habove ▸ some_ne_none above)
  obtain ⟨sponsor, -, -, hsfind⟩ := h.find hsin
  cases (h.row parent hparent).symm.trans habove
  have hdepth : n.depth = parent.depth + 1 := hdepth
  unfold checkNode
  simp only [hp', hs', hfind]
  refine seq_eq_ok.mpr ⟨stopIf_eq_ok.mpr hpne, ?_⟩
  refine seq_eq_ok.mpr ⟨stopIf_eq_ok.mpr hsne, ?_⟩
  refine seq_eq_ok.mpr ⟨stopIf_eq_ok.mpr (by simp [hsfind]), ?_⟩
  refine seq_eq_ok.mpr ⟨stopIf_eq_ok.mpr (not_not.mpr hdepth), ?_⟩
  cases limit with
  | none =>
    have hq : n.position = none := hs.unslotted rfl hrow
    simp [slot, hq]
  | some m =>
    obtain ⟨q, hlt, hq⟩ := hs.slotted rfl hrow hp
    have hq : n.position = some (q : Int) := hq
    simp only [hq, map_some]
    have hin : ¬ ((q : Int) < 0 ∨ Int.ofNat m ≤ q) := by
      have hm : Int.ofNat m = (m : Int) := rfl
      omega
    refine seq_eq_ok.mpr ⟨stopIf_eq_ok.mpr hin, ?_⟩
    simp [slot, hp', hq]

theorem slots_apart (h : Describes nodes r) (hs : r.Sound limit) :
    nodes.Pairwise fun a b => ∀ slot, a.slot = some slot → b.slot ≠ some slot := by
  have hslot : ∀ {n : TreeNodeRow} {slot : Uuid × Int}, n.slot = some slot →
      n.seat.parent = some slot.1 ∧ n.seat.position = some slot.2 := by
    intro n slot hn
    obtain ⟨p, hp, hn⟩ := bind_eq_some_iff.mp hn
    obtain ⟨q, hq, rfl⟩ := map_eq_some_iff.mp hn
    exact ⟨hp, hq⟩
  refine (pairwise_map.mp h.unique).imp_of_mem fun {a b} ha hb hne slot hsa hsb => hne ?_
  exact hs.slot_unique (h.row a ha) (h.row b hb) (hslot hsa).1 (hslot hsb).1 (hslot hsa).2 (hslot hsb).2

/-- One row has depth 0, and it is the one without a parent. -/
theorem root (h : Describes nodes r) (hs : r.Sound limit) (hne : nodes ≠ []) :
    ∃ root ∈ nodes, nodes.filter (·.depth = 0) = [root] ∧ root.parentId = none ∧
      root.position = none ∧ ∀ n ∈ nodes, n.userId ≠ root.userId → n.parentId ≠ none := by
  obtain ⟨n, hn⟩ := exists_mem_of_ne_nil nodes hne
  obtain ⟨u, seat, hu, hp⟩ := hs.rooted (h.row n hn ▸ some_ne_none n.seat)
  obtain ⟨root, hroot, rfl, rfl⟩ := h.node u seat hu
  obtain ⟨hd, hq, -⟩ := hs.top hu hp
  have honly : ∀ m ∈ nodes, m.parentId = none → m = root := fun m hm hmp =>
    h.inj hm hroot (hs.root_unique (h.row m hm) hu hmp hp)
  refine ⟨root, hroot, ?_, hp, hq, fun m hm hm' hmp => hm' (honly m hm hmp ▸ rfl)⟩
  have hnd : (nodes.filter (·.depth = 0)).Nodup := h.unique.of_map.filter _
  refine perm_singleton.mp ((perm_ext_iff_of_nodup hnd (nodup_singleton root)).mpr fun m => ?_)
  rw [mem_filter, decide_eq_true_eq, mem_singleton]
  constructor
  · intro hm
    refine honly m hm.1 ?_
    cases hmp : m.parentId with
    | none => rfl
    | some p =>
      obtain ⟨-, above, -, hd', h0⟩ := hs.below (h.row m hm.1) hmp
      have hd' : m.depth = above.depth + 1 := hd'
      omega
  · rintro rfl
    exact ⟨hroot, hd⟩

variable {treeId : Uuid} {treeType : TreeType} {cfg : LoadTreeConfig}

variable (h : Describes nodes r) (hs : r.Sound limit)
include h hs

/-- **Rows that describe a sound roster form a tree.** -/
theorem validateNodes_ok (hr : r.Recruited) (hne : nodes ≠ [])
    (hlim : slotLimit treeId cfg treeType = .ok (limit.map Int.ofNat)) :
    validateNodes treeId treeType cfg nodes = .ok () := by
  obtain ⟨root, hroot, hfilter, hp, hq, hrest⟩ := h.root hs hne
  have hnil : ∀ n ∈ nodes, n.userId ≠ Uuid.nil := by
    intro n hn e
    have hrow := h.row n hn
    rw [e, hs.nil] at hrow
    cases hrow
  have hfind : findRoot treeId nodes [] none = .ok (some root) :=
    findRoot_ok h.unique hnil (fun n _ => not_mem_nil) hfilter
  unfold validateNodes
  rw [bind_ok hfind]
  simp only [hp, hq]
  refine seq_eq_ok.mpr ⟨rfl, seq_eq_ok.mpr ⟨rfl, ?_⟩⟩
  rw [bind_ok hlim]
  exact checkNodes_ok (fun n hn hnr => h.checkNode_ok hs hr treeId treeType hn (hrest n hn hnr))
    (fun _ _ _ _ => rfl) (h.slots_apart hs)

theorem mem_replayDeps (hn : n ∈ nodes) {d : Uuid} : d ∈ replayDeps n ↔ r.Needs n.userId d := by
  have hrow := h.row n hn
  have hrefs : d ∈ replayDeps n ↔ (n.seat.parent = some d ∨ n.seat.sponsor = some d) ∧ d ≠ n.userId := by
    simp only [replayDeps, mem_firstSeen, mem_filter, mem_append, mem_toList,
      not_mem_nil, not_false_eq_true, and_true, decide_eq_true_eq, seat]
    refine and_congr_left fun _ => or_congr_right ?_
    split <;> simp
  rw [hrefs]
  constructor
  · exact fun hd => ⟨n.seat, hrow, hd.1⟩
  · intro hd
    obtain ⟨seat, hseat, hd⟩ := hd
    cases hrow.symm.trans hseat
    refine ⟨hd, ?_⟩
    rcases hd with hd | hd
    · exact (hs.below hrow hd).1
    · exact (hs.sponsored hrow hd).1

/-- **The rows have an order exactly when the links up of the roster form no cycle.** -/
theorem orderForReplay_iff (treeId : Uuid) :
    (∃ ordered, orderForReplay treeId nodes = .ok ordered) ↔ Grounded r.Needs := by
  have hproper : replayQueue.Proper nodes := ⟨h.unique, fun n _ => nodup_firstSeen _ _⟩
  have hdeps : ∀ n ∈ nodes, ∀ d ∈ replayDeps n, d ∈ nodes.map userId := by
    intro n hn d hd
    obtain ⟨m, hm, rfl, -⟩ := h.find (hs.needs ((h.mem_replayDeps hs hn).mp hd))
    exact mem_map_of_mem hm
  have hself : ∀ n ∈ nodes, n.userId ∉ replayDeps n := by
    intro n _ hd
    have := (mem_filter.mp (mem_firstSeen.mp hd).1).2
    simp at this
  have hneeds : replayQueue.Needs nodes = fun d u => r.Needs u d := by
    funext d u
    refine propext ⟨fun hd => ?_, fun hd => ?_⟩
    · obtain ⟨n, hn, rfl, hd⟩ := hd
      exact (h.mem_replayDeps hs hn).mp hd
    · obtain ⟨n, hn, rfl, -⟩ := h.node u _ hd.choose_spec.1
      exact ⟨n, hn, rfl, (h.mem_replayDeps hs hn).mpr hd⟩
  have hiff := hproper.order_complete_iff hdeps hself
  rw [hneeds] at hiff
  rw [Grounded, ← hiff]
  unfold orderForReplay
  dsimp only
  split
  · rename_i hlen
    refine ⟨fun hok => ?_, fun e => absurd e hlen⟩
    obtain ⟨ordered, hok⟩ := hok
    cases hok
  · rename_i hlen
    exact ⟨fun _ => not_not.mp hlen, fun _ => ⟨_, rfl⟩⟩

/-- **Rows that describe a sound roster pass the preflight exactly when its links up form no cycle.** -/
theorem preflight_iff (hr : r.Recruited) (hlim : slotLimit treeId cfg treeType = .ok (limit.map Int.ofNat)) :
    preflight treeId treeType cfg nodes = .ok () ↔ Grounded r.Needs := by
  rw [← h.orderForReplay_iff hs treeId]
  unfold preflight
  split
  · rename_i hnil
    subst hnil
    exact ⟨fun _ => ⟨[], rfl⟩, fun _ => rfl⟩
  · rename_i hne
    rw [bind_ok (h.validateNodes_ok hs hr hne hlim), bind_eq_ok]
    exact exists_congr fun _ => and_iff_left rfl

end Describes

theorem mem_replayDeps_iff {n : TreeNodeRow} {d : Uuid} : d ∈ replayDeps n ↔
    (n.parentId = some d ∨ n.parentId ≠ none ∧ n.sponsorId = some d) ∧ d ≠ n.userId := by
  simp only [replayDeps, mem_firstSeen, mem_filter, mem_append, mem_toList, not_mem_nil, not_false_eq_true,
    and_true, decide_eq_true_eq]
  refine and_congr_left fun _ => or_congr_right ?_
  split <;> simp_all

/-- **An order for replay is a topological one**: it has the rows, each once, and each after its parent and,
    below the root, its sponsor. So rows with a reference that no row resolves get none. -/
theorem replay_order_is_topological {treeId : Uuid} {nodes ordered : List TreeNodeRow}
    (husers : (nodes.map userId).Nodup) (h : orderForReplay treeId nodes = .ok ordered) :
    ordered.Perm nodes ∧ ∀ n ∈ nodes, ∀ d, d ≠ n.userId →
      (n.parentId = some d ∨ n.parentId ≠ none ∧ n.sponsorId = some d) →
        (ordered.map userId).idxOf d < (ordered.map userId).idxOf n.userId := by
  have hproper : replayQueue.Proper nodes := ⟨husers, fun _ _ => nodup_firstSeen _ _⟩
  obtain ⟨missing, hsorting⟩ := hproper.order
  unfold orderForReplay at h
  dsimp only at h
  split at h
  · cases h
  · rename_i hlen
    cases h
    have hperm := (subperm_of_subset hsorting.nodup.of_map hsorting.sub).perm_of_length_le (not_not.mp hlen).ge
    refine ⟨hperm, fun n hn d hne hd => ?_⟩
    exact hsorting.before hproper (fun _ _ hself => (mem_replayDeps_iff.mp hself).2 rfl)
      (hperm.mem_iff.mpr hn) (mem_replayDeps_iff.mpr ⟨hd, hne⟩)

/-- User 2 sits above user 4, who sponsors them. -/
def deepSponsor : List TreeNodeRow :=
  [(1, none, none, 0), (2, some 1, some 4, 1), (3, some 1, some 1, 1), (4, some 3, some 3, 2)].map
    fun (u, parent, sponsor, depth) => ⟨u, 0, u, parent, sponsor, none, depth, 0, none, none⟩

theorem replay_order_is_topological_deepSponsor : ∃ ordered, orderForReplay 0 deepSponsor = .ok ordered ∧
    (ordered.map userId).idxOf 4 < (ordered.map userId).idxOf 2 := by
  have h : orderForReplay 0 deepSponsor = .ok (replayQueue.order deepSponsor) := rfl
  refine ⟨_, h, (replay_order_is_topological (by decide) h).2 (deepSponsor.get ⟨1, by decide⟩) ?_ 4 ?_ ?_⟩
  all_goals decide

end MlmForge.Network
