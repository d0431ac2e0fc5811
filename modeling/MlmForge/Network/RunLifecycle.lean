/-
  Subject:   The life of a commission run, over every sequence of calls on the store.

  * **`runs_follow_lifecycle`** -- so it is in every sequence of calls.
-/
import MlmForge.Basis.Chain
import MlmForge.Basis.Maps
import MlmForge.Basis.Triple
import MlmForge.Network.RunStore

namespace MlmForge.Network

open Engine Query Call List Option Function Maps

/-! ## 1. Statuses -/

/-- How the status of a run may move. -/
inductive CommissionRunStatus.Moves : CommissionRunStatus → CommissionRunStatus → Prop where
  | stays (a : CommissionRunStatus) : Moves a a
  | completes : Moves .running .complete
  | aborts : Moves .running .voided
  | revoked : Moves .complete .voided

namespace CommissionRunStatus

variable {a b c : CommissionRunStatus}

theorem Moves.trans (h : Moves a b) (h' : Moves b c) : Moves a c := by
  cases h with
  | stays => exact h'
  | completes =>
    cases h' with
    | stays => exact .completes
    | revoked => exact .aborts
  | aborts =>
    cases h' with
    | stays => exact .aborts
  | revoked =>
    cases h' with
    | stays => exact .revoked

theorem Moves.voided (h : Moves .voided b) : b = .voided := by
  cases h with
  | stays => rfl

theorem Moves.running (h : Moves a .running) : a = .running := by
  cases h with
  | stays => rfl

theorem moves_to_voided (a : CommissionRunStatus) : Moves a .voided := by
  cases a with
  | running => exact .aborts
  | complete => exact .revoked
  | voided => exact .stays _

end CommissionRunStatus

open CommissionRunStatus

namespace MemoryCommissionRunStore

variable {Amount : Type} {s s1 s2 : MemoryCommissionRunStore Amount} {r r0 : CommissionRun}
  {id : Uuid} {p : Text}

/-! ## 2. The invariant -/

/-- The run that supersedes a run. -/
def link (s : MemoryCommissionRunStore Amount) (id : Uuid) : Option Uuid :=
  (s.runs.lookup id).bind CommissionRun.supersededBy

/-- **The invariant of the store.** -/
structure Sound (s : MemoryCommissionRunStore Amount) : Prop where
  keyed : ∀ {id r}, s.runs.lookup id = some r → r.id = id
  single : ∀ {i j r r'}, s.runs.lookup i = some r → s.runs.lookup j = some r' →
    r.periodId = r'.periodId → r.status ≠ .voided → r'.status ≠ .voided → i = j
  superseded : ∀ {id r j}, s.runs.lookup id = some r → r.supersededBy = some j →
    r.status = .voided ∧ ∃ r', s.runs.lookup j = some r' ∧ r'.periodId = r.periodId
  ranked : Ranked s.link
  rows : ∀ {id row}, row ∈ s.rowsOf id → row.runId = id

/-- What becomes of the runs of a store. -/
def Evolves (s s' : MemoryCommissionRunStore Amount) : Prop :=
  ∀ id r, s.runs.lookup id = some r → ∃ r', s'.runs.lookup id = some r' ∧ r'.periodId = r.periodId ∧
    r.status.Moves r'.status ∧ (r.status ≠ .running → s'.rowsOf id = s.rowsOf id)

theorem Evolves.refl (s : MemoryCommissionRunStore Amount) : Evolves s s := fun _ r hr =>
  ⟨r, hr, rfl, .stays _, fun _ => rfl⟩

theorem Evolves.trans (h : Evolves s s1) (h' : Evolves s1 s2) : Evolves s s2 := by
  intro id r hr
  obtain ⟨r1, hr1, hp1, hm1, hrows1⟩ := h id r hr
  obtain ⟨r2, hr2, hp2, hm2, hrows2⟩ := h' id r1 hr1
  refine ⟨r2, hr2, hp2.trans hp1, hm1.trans hm2, fun hne => ?_⟩
  have hne1 : r1.status ≠ .running := fun hrun => hne (hrun ▸ hm1 : Moves r.status .running).running
  exact (hrows2 hne1).trans (hrows1 hne)

theorem new_sound : (new : MemoryCommissionRunStore Amount).Sound where
  keyed h := by cases h
  single h := by cases h
  superseded h := by cases h
  ranked := ⟨fun _ => 0, fun _ _ h => by cases h⟩
  rows h := by cases h

theorem lookup_putRun : (putRun r s).runs.lookup id = if id = r.id then some r else s.runs.lookup id :=
  lookup_insert _ _ _ _

theorem link_putRun : (putRun r s).link = update s.link r.id r.supersededBy := by
  funext i
  rw [link, lookup_putRun, update_apply]
  split <;> rfl

theorem of_lookup_putRun {x : CommissionRun} (h : (putRun r s).runs.lookup id = some x) :
    (id = r.id ∧ x = r) ∨ (id ≠ r.id ∧ s.runs.lookup id = some x) := by
  rw [lookup_putRun] at h
  split at h
  · rename_i hid
    exact .inl ⟨hid, (some.inj h).symm⟩
  · rename_i hid
    exact .inr ⟨hid, h⟩

theorem exists_putRun {x : CommissionRun} (h : s.runs.lookup id = some x)
    (hr : ∀ r0, s.runs.lookup r.id = some r0 → r.periodId = r0.periodId) :
    ∃ x', (putRun r s).runs.lookup id = some x' ∧ x'.periodId = x.periodId := by
  rw [lookup_putRun]
  split
  · rename_i hid
    exact ⟨r, rfl, hr x (hid ▸ h)⟩
  · exact ⟨x, h, rfl⟩

/-- **What a written run has to meet** for the store to stay sound: it stays in its period, is the only live
    run there, and links to a run of the period. -/
theorem Sound.write (h : s.Sound) (hsame : ∀ r0, s.runs.lookup r.id = some r0 → r.periodId = r0.periodId)
    (hlive : r.status ≠ .voided → ∀ j x, s.runs.lookup j = some x → x.periodId = r.periodId →
      x.status ≠ .voided → j = r.id) (hlink : ∀ j, r.supersededBy = some j →
      r.status = .voided ∧ ∃ r', s.runs.lookup j = some r' ∧ r'.periodId = r.periodId)
    (hranked : Ranked (update s.link r.id r.supersededBy)) : (putRun r s).Sound where
  keyed {i x} hx := by
    rcases of_lookup_putRun hx with ⟨hid, rfl⟩ | ⟨-, hx⟩
    · exact hid.symm
    · exact h.keyed hx
  single {i j x x'} hx hx' hper hne hne' := by
    rcases of_lookup_putRun hx with ⟨rfl, rfl⟩ | ⟨-, h1⟩
    · rcases of_lookup_putRun hx' with ⟨rfl, rfl⟩ | ⟨-, h2⟩
      · rfl
      · exact (hlive hne j x' h2 hper.symm hne').symm
    · rcases of_lookup_putRun hx' with ⟨rfl, rfl⟩ | ⟨-, h2⟩
      · exact hlive hne' i x h1 hper hne
      · exact h.single h1 h2 hper hne hne'
  superseded {i x j} hx hj := by
    obtain ⟨hv, r', hr', hp'⟩ : x.status = .voided ∧ ∃ r', s.runs.lookup j = some r' ∧
        r'.periodId = x.periodId := by
      rcases of_lookup_putRun hx with ⟨rfl, rfl⟩ | ⟨-, hx⟩
      · exact hlink j hj
      · exact h.superseded hx hj
    obtain ⟨x', hx', hpx⟩ := exists_putRun hr' hsame
    exact ⟨hv, x', hx', hpx.trans hp'⟩
  ranked := by
    rw [link_putRun]
    exact hranked
  rows := h.rows

/-- A run that moves on keeps the store sound. -/
theorem Sound.move (h : s.Sound) (hr0 : s.runs.lookup r.id = some r0) (hp : r.periodId = r0.periodId)
    (hm : r0.status.Moves r.status) (hs : r.supersededBy = r0.supersededBy) : (putRun r s).Sound := by
  have hlink : s.link r.id = r.supersededBy := by
    rw [link, hr0, hs]
    rfl
  refine h.write (fun r1 h1 => ?_) (fun hne j x hx hper hx' => ?_) (fun j hj => ?_) ?_
  · rw [hr0] at h1
    cases h1
    exact hp
  · exact h.single hx hr0 (hper.trans hp) hx' fun h0 => hne ((h0 ▸ hm : Moves .voided r.status).voided)
  · obtain ⟨hv, r', hr', hp'⟩ := h.superseded hr0 (hs ▸ hj)
    exact ⟨(hv ▸ hm : Moves .voided r.status).voided, r', hr', hp'.trans hp.symm⟩
  · rw [← hlink, update_eq_self]
    exact h.ranked

theorem evolves_move (hr0 : s.runs.lookup r.id = some r0) (hp : r.periodId = r0.periodId)
    (hm : r0.status.Moves r.status) : Evolves s (putRun r s) := by
  intro id x hx
  rw [lookup_putRun]
  split
  · rename_i hid
    subst hid
    rw [hr0] at hx
    cases hx
    exact ⟨r, rfl, hp, hm, fun _ => rfl⟩
  · exact ⟨x, hx, rfl, .stays _, fun _ => rfl⟩

/-! ## 3. The active run -/

theorem mem_runs (h : s.runs.lookup id = some r) : r ∈ s.runs.entries.map Sigma.snd :=
  mem_map.mpr ⟨⟨id, r⟩, AList.mem_lookup_iff.mp h, rfl⟩

theorem Sound.active (h : s.Sound) (hr : s.activeRunLocked p = some r) :
    s.runs.lookup r.id = some r ∧ r.periodId = p ∧ r.status ≠ .voided := by
  obtain ⟨⟨i, x⟩, hx, rfl⟩ := mem_map.mp (mem_of_find?_eq_some hr)
  have hlook := lookup_of_mem _ hx
  have hfound := find?_some hr
  obtain ⟨hp, hv⟩ := of_decide_eq_true hfound
  exact ⟨(h.keyed hlook).symm ▸ hlook, hp, hv⟩

theorem voided_of_inactive (hr : s.activeRunLocked p = none) (hx : s.runs.lookup id = some r)
    (hp : r.periodId = p) : r.status = .voided := by
  have hnot := find?_eq_none.mp hr r (mem_runs hx)
  by_contra hne
  exact hnot (decide_eq_true ⟨hp, hne⟩)

/-! ## 4. The operations -/

/-- A new run in a period without an active one. -/
theorem Sound.create (h : s.Sound) (hnew : s.runs.lookup id = none)
    (hp : s.activeRunLocked p = none) (planHash : Text) (now : Int) :
    (putRun ⟨id, p, planHash, .running, [], now, none, none, none⟩ s).Sound := by
  have hlink : s.link id = none := by
    rw [link, hnew]
    rfl
  refine h.write (fun r0 h0 => ?_) (fun _ j x hx hper hx' => ?_) nofun ?_
  · rw [hnew] at h0
    cases h0
  · exact absurd (voided_of_inactive hp hx hper) hx'
  · simp only
    rw [← hlink, update_eq_self]
    exact h.ranked

theorem evolves_create (hnew : s.runs.lookup r.id = none) : Evolves s (putRun r s) := by
  intro i x hx
  have hne : i ≠ r.id := fun hi => by
    rw [hi, hnew] at hx
    cases hx
  exact ⟨x, by rw [lookup_putRun, if_neg hne]; exact hx, rfl, .stays _, fun _ => rfl⟩

theorem Sound.supersede (h : s.Sound) (hr0 : s.runs.lookup r0.id = some r0) (hv : r0.status = .voided)
    (hr : s.runs.lookup id = some r) (hp : r.periodId = r0.periodId) (hlink : r.supersededBy = none)
    (hne : id ≠ r0.id) : (putRun { r0 with supersededBy := some id } s).Sound := by
  refine h.write (fun r1 h1 => ?_) (fun hlive => absurd hv hlive) (fun j hj => ?_) ?_
  · rw [hr0] at h1
    cases h1
    rfl
  · cases hj
    exact ⟨hv, r, hr, hp⟩
  · refine h.ranked.redirect fun habove => ?_
    -- nothing supersedes the new run, so the old one is not above it
    rcases Relation.ReflTransGen.cases_head habove with heq | ⟨j, hj, -⟩
    · exact hne heq
    · rw [link, hr, bind_some, hlink] at hj
      cases hj

/-- A call that keeps the store sound and opens no run but `drawn`, or stops with an error and changes
    nothing. -/
def Lawful {α : Type} (drawn : Option Uuid) (m : Call RunStoreError (MemoryCommissionRunStore Amount) α)
    (s : MemoryCommissionRunStore Amount) : Prop :=
  Call.Does m s (fun _ s' => s'.Sound ∧ Evolves s s' ∧
      ∀ id r, s'.runs.lookup id = some r → (∃ r0, s.runs.lookup id = some r0) ∨ drawn = some id)
    fun stop s' => (∃ x, stop = .err x) ∧ s' = s

section Calls

variable {α β : Type} {drawn : Option Uuid}

theorem lawful_reads_bind {q : MemoryCommissionRunStore Amount → Query RunStoreError β}
    {f : β → Call RunStoreError (MemoryCommissionRunStore Amount) α} (hsafe : (q s).Safe)
    (hok : ∀ b, q s = .ok b → Lawful drawn (f b) s) : Lawful drawn (reads q >>= f) s :=
  does_reads_bind (fun stop hq => ⟨hsafe stop hq, rfl⟩) hok

theorem lawful_move (h : s.Sound) (hr0 : s.runs.lookup r.id = some r0) (hp : r.periodId = r0.periodId)
    (hm : r0.status.Moves r.status) (hs : r.supersededBy = r0.supersededBy) :
    Lawful drawn (modify (putRun r)) s := by
  refine does_modify_last ⟨h.move hr0 hp hm hs, evolves_move hr0 hp hm, fun id x hx => .inl ?_⟩
  rcases of_lookup_putRun hx with ⟨rfl, -⟩ | ⟨-, hx⟩
  · exact ⟨r0, hr0⟩
  · exact ⟨x, hx⟩

theorem runLocked_safe (id : Uuid) : (s.runLocked id).Safe := by
  unfold runLocked
  split
  · exact safe_ok _
  · exact safe_err _

theorem runLocked_eq_ok : s.runLocked id = .ok r ↔ s.runs.lookup id = some r := by
  unfold runLocked
  split
  · rename_i run hrun
    rw [hrun]
    exact ⟨fun hok => congrArg some (Except.ok.inj hok), fun hok => congrArg Except.ok (some.inj hok)⟩
  · rename_i hnone
    rw [hnone]
    exact ⟨nofun, nofun⟩

theorem validatePlanHashOnly_safe (planHash : Text) : (validatePlanHashOnly planHash).Safe :=
  safe_stopIf _

theorem validateRunInput_safe (periodId planHash : Text) : (validateRunInput periodId planHash).Safe :=
  (safe_stopIf _).bind fun _ _ => (safe_stopIf _).bind fun _ _ =>
    (safe_stopIf _).bind fun _ _ => validatePlanHashOnly_safe planHash

theorem validateCarryForward_safe (checks : Checks Amount) (carryForward : RawMessage) :
    (validateCarryForward checks carryForward).Safe := by
  unfold validateCarryForward
  split
  · exact safe_ok _
  · split
    · exact safe_ok _
    · exact safe_err _

theorem validateResultInputs_safe (checks : Checks Amount) (structureName : Text)
    (results : List (CommissionResultInput Amount)) :
    (validateResultInputs checks structureName results).Safe := by
  refine (safe_stopIf _).bind fun _ _ => (safe_stopIf _).bind fun _ _ =>
    (safe_stopIf _).bind fun _ _ => safe_forM fun row _ => ?_
  refine (safe_stopIf _).bind fun _ _ => ?_
  split
  · exact safe_err _
  · split
    · exact safe_err _
    · exact safe_ok _

theorem createRunLocked_run (planHash : Text) (now : Int) :
    (createRunLocked p planHash id now).run s = match s.activeRunLocked p with
      | some existing => .error (.err (.liveRunExists p existing.id)) s
      | none => .ok id (putRun ⟨id, p, planHash, .running, [], now, none, none, none⟩ s) := by
  simp only [createRunLocked, run_bind, run_get]
  cases s.activeRunLocked p with
  | some existing => rfl
  | none => rfl

theorem createRun_lawful (h : s.Sound) (hnew : s.runs.lookup id = none) (planHash : Text) (now : Int) :
    Lawful (some id) (createRun p planHash id now) s := by
  refine lawful_reads_bind (validateRunInput_safe p planHash) fun _ _ => ?_
  unfold Lawful Call.Does
  rw [createRunLocked_run]
  cases hp : s.activeRunLocked p with
  | some existing => exact ⟨⟨_, rfl⟩, rfl⟩
  | none =>
    refine ⟨h.create hnew hp planHash now, evolves_create hnew, fun i x hx => ?_⟩
    rcases of_lookup_putRun hx with ⟨rfl, -⟩ | ⟨-, hx⟩
    · exact .inr rfl
    · exact .inl ⟨x, hx⟩

theorem completeRun_lawful (h : s.Sound) (checks : Checks Amount) (runId : Uuid)
    (carryForward : RawMessage) (now : Int) : Lawful none (completeRun checks runId carryForward now) s := by
  refine lawful_reads_bind (validateCarryForward_safe checks carryForward) fun _ _ => ?_
  refine lawful_reads_bind (runLocked_safe runId) fun run hrun => ?_
  refine lawful_reads_bind (safe_stopIf _) fun _ hstatus => ?_
  have hlook := runLocked_eq_ok.mp hrun
  have hrunning : run.status = .running := not_not.mp (stopIf_eq_ok.mp hstatus)
  have hkey : s.runs.lookup run.id = some run := (h.keyed hlook).symm ▸ hlook
  refine lawful_move h hkey rfl ?_ rfl
  rw [hrunning]
  exact .completes

theorem voidRun_lawful (h : s.Sound) (runId : Uuid) (now : Int) : Lawful none (voidRun runId now) s := by
  refine lawful_reads_bind (runLocked_safe runId) fun run hrun => ?_
  have hlook := runLocked_eq_ok.mp hrun
  split
  · exact does_pure ⟨h, .refl s, fun i x hx => .inl ⟨x, hx⟩⟩
  · have hkey : s.runs.lookup run.id = some run := (h.keyed hlook).symm ▸ hlook
    exact lawful_move h hkey rfl (moves_to_voided _) rfl

/-- **Replacing a run**: once the old run is voided its period has no active run, so the new one is
    always opened. -/
theorem replaceRun_lawful (h : s.Sound) (hnew : s.runs.lookup id = none) (oldRunId : Uuid)
    (planHash : Text) (now : Int) : Lawful (some id) (replaceRun oldRunId planHash id now) s := by
  refine lawful_reads_bind (validatePlanHashOnly_safe planHash) fun _ _ => ?_
  refine lawful_reads_bind (runLocked_safe oldRunId) fun old hold => ?_
  refine lawful_reads_bind (safe_stopIf _) fun _ hstatus => ?_
  have hlook := runLocked_eq_ok.mp hold
  have hid := h.keyed hlook
  subst hid
  have hlive : old.status ≠ .voided := by
    intro hv
    exact stopIf_eq_ok.mp hstatus (by rw [hv]; decide)
  -- the run is voided
  let voided : CommissionRun := { old with status := .voided, voidedAt := some now }
  have h1 : (putRun voided s).Sound := h.move (r := voided) hlook rfl (moves_to_voided _) rfl
  have he1 : Evolves s (putRun voided s) := evolves_move (r := voided) hlook rfl (moves_to_voided _)
  have hvoid : (voidRunLocked old.id now).run s = .ok () (putRun voided s) := by
    rw [voidRunLocked, run_bind, run_reads, hold]
    simp only
    rw [if_neg hlive]
    rfl
  have hnone : (putRun voided s).activeRunLocked old.periodId = none := by
    cases ha : (putRun voided s).activeRunLocked old.periodId with
    | none => rfl
    | some x =>
      obtain ⟨hx, hp, hv⟩ := h1.active ha
      rcases of_lookup_putRun hx with ⟨-, rfl⟩ | ⟨hne, hx⟩
      · exact absurd rfl hv
      · exact absurd (h.single hx hlook hp hv hlive) hne
  -- its replacement is opened
  have hne : id ≠ old.id := fun he => by
    rw [he, hlook] at hnew
    cases hnew
  have hnew1 : (putRun voided s).runs.lookup id = none := by
    rw [lookup_putRun, if_neg hne]
    exact hnew
  let opened : CommissionRun := ⟨id, old.periodId, planHash, .running, [], now, none, none, none⟩
  have h2 : (putRun opened (putRun voided s)).Sound := h1.create hnew1 hnone planHash now
  have hvoided : (putRun opened (putRun voided s)).runs.lookup old.id = some voided := by
    rw [lookup_putRun, if_neg (Ne.symm hne), lookup_putRun, if_pos rfl]
  have hopened : (putRun opened (putRun voided s)).runs.lookup id = some opened := by
    rw [lookup_putRun, if_pos rfl]
  -- and the link is written
  have h3 : (putRun { voided with supersededBy := some id } (putRun opened (putRun voided s))).Sound :=
    h2.supersede (show _ = some voided from hvoided) rfl hopened rfl rfl hne
  have he3 : Evolves (putRun opened (putRun voided s))
      (putRun { voided with supersededBy := some id } (putRun opened (putRun voided s))) :=
    evolves_move (r := { voided with supersededBy := some id }) hvoided rfl (.stays _)
  have hcreate : (createRunLocked old.periodId planHash id now).run (putRun voided s) =
      .ok id (putRun opened (putRun voided s)) := by
    rw [createRunLocked_run, hnone]
  refine does_run_bind hvoid (does_run_bind hcreate ?_)
  refine does_reads_bind (fun stop hq => ?_) fun x hx => ?_
  · rw [runLocked_eq_ok.mpr hvoided] at hq
    cases hq
  · rw [runLocked_eq_ok.mpr hvoided] at hx
    cases hx
    refine does_modify (does_pure ⟨h3, he1.trans ((evolves_create hnew1).trans he3), fun i x hx => ?_⟩)
    rcases of_lookup_putRun hx with ⟨rfl, -⟩ | ⟨-, hx⟩
    · exact .inl ⟨old, hlook⟩
    · rcases of_lookup_putRun hx with ⟨rfl, -⟩ | ⟨-, hx⟩
      · exact .inr rfl
      · rcases of_lookup_putRun hx with ⟨rfl, -⟩ | ⟨-, hx⟩
        · exact .inl ⟨old, hlook⟩
        · exact .inl ⟨x, hx⟩

theorem mem_numbered {runId : Uuid} {structureName : Text} {row : CommissionResult Amount}
    {results : List (CommissionResultInput Amount)} : ∀ {n : Nat},
    row ∈ numbered runId structureName n results → row.runId = runId := by
  induction results with
  | nil => exact fun hrow => absurd hrow not_mem_nil
  | cons r rest ih =>
    intro n hrow
    rcases mem_cons.mp hrow with rfl | hrow
    · rfl
    · exact ih hrow

theorem saveResults_lawful (h : s.Sound) (checks : Checks Amount) (runId : Uuid) (structureName : Text)
    (results : List (CommissionResultInput Amount)) :
    Lawful none (saveResults checks runId structureName results) s := by
  refine lawful_reads_bind (validateResultInputs_safe checks structureName results) fun _ _ => ?_
  refine lawful_reads_bind (runLocked_safe runId) fun run hrun => ?_
  refine lawful_reads_bind (safe_stopIf _) fun _ hstatus => ?_
  have hlook := runLocked_eq_ok.mp hrun
  have hrunning : run.status = .running := not_not.mp (stopIf_eq_ok.mp hstatus)
  refine does_modify_last ⟨⟨h.keyed, h.single, h.superseded, h.ranked, fun {i row} hrow => ?_⟩,
    fun i r hr => ⟨r, hr, rfl, .stays _, fun hne => ?_⟩, fun i x hx => .inl ⟨x, hx⟩⟩
  · simp only [rowsOf, lookup_insert] at hrow
    split at hrow
    · rename_i hi
      rw [getD_some, mem_insertionSort, mem_append] at hrow
      rcases hrow with hrow | hrow
      · exact hi ▸ h.rows (mem_filter.mp hrow).1
      · exact hi ▸ mem_numbered hrow
    · exact h.rows hrow
  · have hi : i ≠ runId := fun hi => by
      rw [hi, hlook] at hr
      cases hr
      exact hne hrunning
    simp only [rowsOf, lookup_insert, if_neg hi]

theorem lawful_read (h : s.Sound) {q : MemoryCommissionRunStore Amount → Query RunStoreError α}
    (hsafe : (q s).Safe) : Lawful drawn (reads q) s :=
  does_reads (fun _ _ => ⟨h, .refl s, fun _ x hx => .inl ⟨x, hx⟩⟩) fun stop hq => ⟨hsafe stop hq, rfl⟩

end Calls

/-! ## 5. Sequences of calls -/

end MemoryCommissionRunStore

/-- A call on the store, with what `uuid.New()` and `time.Now()` return in it. -/
inductive RunCall (Amount : Type) where
  | createRun (periodId planHash : Text) (fresh : Uuid) (now : Int)
  | completeRun (runId : Uuid) (carryForward : RawMessage) (now : Int)
  | voidRun (runId : Uuid) (now : Int)
  | replaceRun (oldRunId : Uuid) (planHash : Text) (fresh : Uuid) (now : Int)
  | saveResults (runId : Uuid) (structureName : Text) (results : List (CommissionResultInput Amount))
  | getRun (runId : Uuid)
  | getActiveRun (periodId : Text)
  | getResults (runId : Uuid)
  | getLiveResults (periodId : Text)

variable {Amount : Type}

/-- The id that a call draws. -/
def RunCall.drawn : RunCall Amount → Option Uuid
  | createRun _ _ fresh _ => some fresh
  | replaceRun _ _ fresh _ => some fresh
  | _ => none

namespace MemoryCommissionRunStore

variable {s : MemoryCommissionRunStore Amount}

/-- What a call does; its result is not looked at. -/
def serve (checks : Checks Amount) :
    RunCall Amount → Call RunStoreError (MemoryCommissionRunStore Amount) Unit
  | .createRun periodId planHash fresh now => (fun _ => ()) <$> createRun periodId planHash fresh now
  | .completeRun runId carryForward now => completeRun checks runId carryForward now
  | .voidRun runId now => voidRun runId now
  | .replaceRun oldRunId planHash fresh now =>
    (fun _ => ()) <$> replaceRun oldRunId planHash fresh now
  | .saveResults runId structureName results => saveResults checks runId structureName results
  | .getRun runId => (fun _ => ()) <$> reads fun s => s.getRun runId
  | .getActiveRun periodId =>
    (fun _ => ()) <$> reads fun s => .ok (s.getActiveRun periodId)
  | .getResults runId => (fun _ => ()) <$> reads fun s => s.getResults runId
  | .getLiveResults periodId =>
    (fun _ => ()) <$> reads fun s => .ok (s.getLiveResults periodId)

/-- **What a call does**: the store stays sound and its runs move on, or the call stops with an error and
    the store is what it was. -/
theorem serve_lawful (h : s.Sound) (checks : Checks Amount) (c : RunCall Amount)
    (hnew : ∀ id, c.drawn = some id → s.runs.lookup id = none) : Lawful c.drawn (serve checks c) s := by
  cases c with
  | createRun p planHash fresh now =>
    exact Call.Does.map (createRun_lawful h (hnew fresh rfl) planHash now)
  | completeRun runId carryForward now => exact completeRun_lawful h checks runId carryForward now
  | voidRun runId now => exact voidRun_lawful h runId now
  | replaceRun old planHash fresh now =>
    exact Call.Does.map (replaceRun_lawful h (hnew fresh rfl) old planHash now)
  | saveResults runId structureName results =>
    exact saveResults_lawful h checks runId structureName results
  | getRun runId => exact Call.Does.map (lawful_read h (runLocked_safe runId))
  | getActiveRun p => exact Call.Does.map (lawful_read h (safe_ok _))
  | getResults runId =>
    exact Call.Does.map (lawful_read h ((runLocked_safe runId).bind fun _ _ => safe_ok _))
  | getLiveResults p => exact Call.Does.map (lawful_read h (safe_ok _))

theorem after_of_lawful {drawn : Option Uuid}
    {m : Call RunStoreError (MemoryCommissionRunStore Amount) Unit} (h : s.Sound)
    (hm : Lawful drawn m s) : (m.after s).Sound ∧ Evolves s (m.after s) ∧
      ∀ id r, (m.after s).runs.lookup id = some r → (∃ r0, s.runs.lookup id = some r0) ∨ drawn = some id := by
  unfold Lawful Call.Does at hm
  unfold Call.after
  cases hrun : m.run s with
  | ok a s' =>
    rw [hrun] at hm
    exact hm
  | error stop s' =>
    rw [hrun] at hm
    obtain ⟨-, rfl⟩ := hm
    exact ⟨h, .refl s', fun _ r hr => .inl ⟨r, hr⟩⟩

/-- **Sequences of calls that draw new ids** keep the store sound and move its runs on; a run of the last
    store was there or was drawn. -/
theorem afterAll_sound (checks : Checks Amount) (calls : List (RunCall Amount)) :
    ∀ {s : MemoryCommissionRunStore Amount}, s.Sound → (calls.filterMap RunCall.drawn).Nodup →
    (∀ id ∈ calls.filterMap RunCall.drawn, s.runs.lookup id = none) →
    (afterAll (calls.map (serve checks)) s).Sound ∧ Evolves s (afterAll (calls.map (serve checks)) s) ∧
      ∀ id r, (afterAll (calls.map (serve checks)) s).runs.lookup id = some r →
        (∃ r0, s.runs.lookup id = some r0) ∨ id ∈ calls.filterMap RunCall.drawn := by
  induction calls with
  | nil => exact fun {s} h _ _ => ⟨h, .refl s, fun _ r hr => .inl ⟨r, hr⟩⟩
  | cons c calls ih =>
    intro s h hnodup hnew
    rw [filterMap_cons] at hnodup hnew ⊢
    have hc : ∀ id, c.drawn = some id → s.runs.lookup id = none := fun id hid => by
      rw [hid] at hnew
      exact hnew id mem_cons_self
    obtain ⟨h1, he1, hfrom1⟩ := after_of_lawful h (serve_lawful h checks c hc)
    have hrest : (calls.filterMap RunCall.drawn).Nodup ∧
        ∀ id ∈ calls.filterMap RunCall.drawn, s.runs.lookup id = none ∧ c.drawn ≠ some id := by
      cases hd : c.drawn with
      | none =>
        rw [hd] at hnodup hnew
        exact ⟨hnodup, fun id hid => ⟨hnew id hid, nofun⟩⟩
      | some d =>
        rw [hd] at hnodup hnew
        obtain ⟨hnot, hnodup⟩ := nodup_cons.mp hnodup
        refine ⟨hnodup, fun id hid => ⟨hnew id (mem_cons_of_mem _ hid), fun he => ?_⟩⟩
        exact hnot (some.inj he ▸ hid)
    obtain ⟨h2, he2, hfrom2⟩ := ih h1 hrest.1 fun id hid => by
      cases hl : ((serve checks c).after s).runs.lookup id with
      | none => rfl
      | some r =>
        rcases hfrom1 id r hl with ⟨r0, hr0⟩ | hdrawn
        · rw [(hrest.2 id hid).1] at hr0
          cases hr0
        · exact absurd hdrawn (hrest.2 id hid).2
    refine ⟨h2, he1.trans he2, fun id r hr => ?_⟩
    rcases hfrom2 id r hr with ⟨r1, hr1⟩ | hmem
    · rcases hfrom1 id r1 hr1 with h0 | hdrawn
      · exact .inl h0
      · rw [hdrawn]
        exact .inr mem_cons_self
    · cases hd : c.drawn with
      | none => exact .inr hmem
      | some d => exact .inr (mem_cons_of_mem _ hmem)

/-- **What may be seen in a store**: a period has at most one run that is not voided; only voided runs
    are superseded, by a run of their period, and following the links comes back to no run; and the live
    results of a period are the rows of its complete run, or none. -/
structure Legal (s : MemoryCommissionRunStore Amount) : Prop where
  single : ∀ {i j r r'}, s.runs.lookup i = some r → s.runs.lookup j = some r' →
    r.periodId = r'.periodId → r.status ≠ .voided → r'.status ≠ .voided → i = j
  superseded : ∀ {id r j}, s.runs.lookup id = some r → r.supersededBy = some j →
    r.status = .voided ∧ ∃ r', s.runs.lookup j = some r' ∧ r'.periodId = r.periodId
  acyclic : ∀ id, ¬ StrictlyAbove s.link id id
  live : ∀ p, (∃ id r, s.runs.lookup id = some r ∧ r.periodId = p ∧ r.status = .complete ∧
      s.getLiveResults p = s.rowsOf id ∧ ∀ row ∈ s.getLiveResults p, row.runId = id) ∨
    (s.getLiveResults p = [] ∧
      ∀ id r, s.runs.lookup id = some r → r.periodId = p → r.status ≠ .complete)

theorem Sound.legal (h : s.Sound) : s.Legal := by
  refine ⟨h.single, h.superseded, h.ranked.irrefl, fun p => ?_⟩
  cases ha : s.activeRunLocked p with
  | none =>
    refine .inr ⟨by rw [getLiveResults, ha], fun id r hr hp hc => ?_⟩
    rw [voided_of_inactive ha hr hp] at hc
    cases hc
  | some x =>
    obtain ⟨hx, hp, hv⟩ := h.active ha
    by_cases hc : x.status = .complete
    · have hlive : s.getLiveResults p = s.rowsOf x.id := by
        rw [getLiveResults, ha]
        exact if_pos hc
      refine .inl ⟨x.id, x, hx, hp, hc, hlive, fun row hrow => ?_⟩
      rw [hlive] at hrow
      exact h.rows hrow
    · refine .inr ⟨?_, fun id r hr hpr hcr => ?_⟩
      · rw [getLiveResults, ha]
        exact if_neg hc
      · have hrv : r.status ≠ .voided := by
          rw [hcr]
          decide
        have hid := h.single hr hx (hpr.trans hp.symm) hrv hv
        rw [hid, hx] at hr
        cases hr
        exact hc hcr

end MemoryCommissionRunStore

open MemoryCommissionRunStore

/-- **The life of a commission run.** After every sequence of calls that draw distinct ids, the store is
    legal; between any two moments of it the runs are still there, in their periods, with a status that
    only moved on and with the same rows once they are not running; and a call that returns an error
    leaves the store as it was. -/
theorem runs_follow_lifecycle (checks : Checks Amount) (before later : List (RunCall Amount))
    (hids : ((before ++ later).filterMap RunCall.drawn).Nodup) :
    (afterAll ((before ++ later).map (serve checks)) new).Legal ∧
    Evolves (afterAll (before.map (serve checks)) new)
      (afterAll ((before ++ later).map (serve checks)) new) ∧ ∀ c rest, later = c :: rest → ∀ stop s',
      (serve checks c).run (afterAll (before.map (serve checks)) new) = .error stop s' →
        (∃ x, stop = .err x) ∧ s' = afterAll (before.map (serve checks)) new := by
  rw [filterMap_append] at hids
  obtain ⟨hnodup1, hnodup2, hdisjoint⟩ := nodup_append.mp hids
  obtain ⟨h1, -, hfrom⟩ := afterAll_sound checks before new_sound hnodup1 fun _ _ => rfl
  have hfresh : ∀ id ∈ later.filterMap RunCall.drawn,
      (afterAll (before.map (serve checks)) new).runs.lookup id = none := by
    intro id hid
    cases hl : (afterAll (before.map (serve checks)) new).runs.lookup id with
    | none => rfl
    | some r =>
      rcases hfrom id r hl with ⟨r0, hr0⟩ | hmem
      · cases hr0
      · exact absurd rfl (hdisjoint id hmem id hid)
  have hsplit : afterAll ((before ++ later).map (serve checks)) new =
      afterAll (later.map (serve checks)) (afterAll (before.map (serve checks)) new) := by
    rw [afterAll, map_append, foldl_append]
    rfl
  obtain ⟨h2, he, -⟩ := afterAll_sound checks later h1 hnodup2 hfresh
  rw [hsplit]
  refine ⟨h2.legal, he, fun c rest hlater stop s' hrun => ?_⟩
  subst hlater
  refine (serve_lawful h1 checks c fun id hid => hfresh id ?_).error hrun
  rw [filterMap_cons, hid]
  exact mem_cons_self

def lenientChecks : Checks Nat := ⟨fun _ => none, fun _ => none⟩

def sampleHash : Text := planHashHead ++ replicate 64 97

/-- A run that is opened, filled and completed. -/
def completedRun : List (RunCall Nat) :=
  [.createRun [112] sampleHash 1 0, .saveResults 1 [116] [⟨7, 100, [123, 125]⟩], .completeRun 1 [] 1]

/-- Its replacement; the second one is refused. -/
def replacements : List (RunCall Nat) := [.replaceRun 1 sampleHash 2 2, .replaceRun 1 sampleHash 3 3]

theorem runs_follow_lifecycle_replaced : ((completedRun ++ replacements).filterMap RunCall.drawn).Nodup ∧
    (afterAll ((completedRun ++ replacements).map (serve lenientChecks)) new).Legal ∧
    Evolves (afterAll (completedRun.map (serve lenientChecks)) new)
      (afterAll ((completedRun ++ replacements).map (serve lenientChecks)) new) ∧
    ∀ c rest, replacements = c :: rest → ∀ stop s',
      (serve lenientChecks c).run (afterAll (completedRun.map (serve lenientChecks)) new) = .error stop s' →
        (∃ x, stop = .err x) ∧ s' = afterAll (completedRun.map (serve lenientChecks)) new := by
  have hids : ((completedRun ++ replacements).filterMap RunCall.drawn).Nodup := by decide
  exact ⟨hids, runs_follow_lifecycle lenientChecks completedRun replacements hids⟩

example : (afterAll ((completedRun ++ replacements).map (serve lenientChecks)) new).link 1 = some 2 := by
  decide +kernel

end MlmForge.Network
