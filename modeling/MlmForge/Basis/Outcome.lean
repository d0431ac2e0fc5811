/-
  Subject:   How a call on mutable state ends, and the rules to run one symbolically.

  A call either returns a value, or it stops: with an error it reports (`Stop.err`), with a panic
  (`Stop.panic`), or in a loop that outlives its bound (`Stop.loop`). A call on a `&mut self` is an
  `EStateM`: the state a stopped call leaves behind is part of its result, so "an error leaves the
  state unchanged" is a statement about the call and not a property of the encoding.

  * `Call.run_bind` and the other `run_` rules execute a call symbolically; `Query.bind_eq_ok` and
    `Query.forM_eq_ok` say what a sequence or a loop that returned did.
-/
import Mathlib.Data.List.Forall2

namespace MlmForge

open List

/-- Why a call stopped without a value. -/
inductive Stop (ε : Type) where
  | err (e : ε)
  | panic (msg : String)
  | loop
  deriving DecidableEq, Repr

/-- The same stop, with its error passed on in another form. -/
def Stop.map {ε ε' : Type} (f : ε → ε') : Stop ε → Stop ε'
  | err e => .err (f e)
  | panic msg => .panic msg
  | loop => .loop

/-- The stop of a caller that takes an error for impossible. -/
def Stop.expect {ε ε' : Type} (msg : String) : Stop ε → Stop ε'
  | err _ => .panic msg
  | panic msg => .panic msg
  | loop => .loop

/-- A read-only call. -/
abbrev Query (ε α : Type) := Except (Stop ε) α

/-- A call on mutable state. -/
abbrev Call (ε σ α : Type) := EStateM (Stop ε) σ α

namespace Query

variable {ε α β : Type} {m : Query ε α} {a : α}

theorem bind_ok (h : m = .ok a) (f : α → Query ε β) : (m >>= f) = f a := by
  rw [h]
  rfl

variable {f : α → Query ε β} {b : β}

theorem bind_eq_ok : (m >>= f) = .ok b ↔ ∃ a, m = .ok a ∧ f a = .ok b := by
  cases m with
  | error e => exact ⟨fun h => (by cases h), fun ⟨_, h, _⟩ => (by cases h)⟩
  | ok a =>
    constructor
    · intro h
      exact ⟨a, rfl, h⟩
    · rintro ⟨a', ha, h⟩
      cases ha
      exact h

theorem seq_eq_ok {m : Query ε PUnit} {f : PUnit → Query ε β} :
    (m >>= f) = .ok b ↔ m = .ok () ∧ f () = .ok b := by
  rw [bind_eq_ok]
  exact ⟨fun ⟨_, h⟩ => h, fun h => ⟨(), h⟩⟩

variable {e : Stop ε}

theorem bind_eq_error : (m >>= f) = .error e ↔ m = .error e ∨ ∃ a, m = .ok a ∧ f a = .error e := by
  cases m with
  | error e' =>
    refine ⟨fun h => .inl (by cases h; rfl), ?_⟩
    rintro (h | ⟨a, h, -⟩)
    · cases h
      rfl
    · cases h
  | ok a =>
    refine ⟨fun h => .inr ⟨a, rfl, h⟩, ?_⟩
    rintro (h | ⟨a', h, hf⟩)
    · cases h
    · cases h
      exact hf

/-- A guard: stops with `e` when `c` holds. -/
def stopIf (c : Prop) [Decidable c] (e : Stop ε) : Query ε Unit :=
  if c then .error e else .ok ()

variable {c : Prop}

@[simp] theorem stopIf_eq_ok [Decidable c] {u : Unit} : stopIf c e = .ok u ↔ ¬ c := by
  unfold stopIf
  split <;> simp_all

@[simp] theorem stopIf_eq_error [Decidable c] {e' : Stop ε} : stopIf c e = .error e' ↔ c ∧ e = e' := by
  unfold stopIf
  split <;> simp_all

/-- The query reports what stops it: it neither panics nor loops. -/
def Safe (m : Query ε α) : Prop := ∀ e, m = .error e → ∃ x, e = .err x

theorem safe_ok (a : α) : Safe (.ok a : Query ε α) := nofun

theorem safe_err (x : ε) : Safe (.error (.err x) : Query ε α) := fun _ h => ⟨x, by cases h; rfl⟩

theorem safe_stopIf [Decidable c] (x : ε) : Safe (stopIf c (.err x)) := by
  unfold stopIf
  split
  · exact safe_err x
  · exact safe_ok ()

theorem Safe.bind (hm : Safe m) (hf : ∀ a, m = .ok a → Safe (f a)) : Safe (m >>= f) := by
  cases m with
  | error e =>
    intro e' h
    cases h
    exact hm e rfl
  | ok a => exact hf a rfl

variable {l : List α}

theorem safe_forM {f : α → Query ε PUnit} (h : ∀ x ∈ l, Safe (f x)) : Safe (forM l f) := by
  induction l with
  | nil => exact safe_ok ()
  | cons x l ih =>
    rw [forM_cons]
    exact (h x mem_cons_self).bind fun _ _ => ih fun y hy => h y (mem_cons_of_mem _ hy)

theorem safe_mapM (h : ∀ x ∈ l, Safe (f x)) : Safe (l.mapM f) := by
  induction l with
  | nil => exact safe_ok _
  | cons x l ih =>
    rw [mapM_cons]
    exact (h x mem_cons_self).bind fun _ _ =>
      (ih fun y hy => h y (mem_cons_of_mem _ hy)).bind fun _ _ => safe_ok _

/-- A loop over a list returns exactly when its body returns on every element. -/
theorem forM_eq_ok {f : α → Query ε PUnit} : forM l f = .ok () ↔ ∀ x ∈ l, f x = .ok () := by
  induction l with
  | nil => exact ⟨fun _ x hx => absurd hx not_mem_nil, fun _ => rfl⟩
  | cons x l ih =>
    rw [forM_cons, bind_eq_ok]
    constructor
    · rintro ⟨_, hx, hl⟩ y hy
      rcases mem_cons.mp hy with rfl | hy
      · exact hx
      · exact ih.mp hl y hy
    · intro h
      exact ⟨(), h x mem_cons_self, ih.mpr fun y hy => h y (mem_cons_of_mem _ hy)⟩

theorem exists_of_forM_error {f : α → Query ε PUnit} (h : forM l f = .error e) : ∃ x ∈ l, f x = .error e := by
  induction l with
  | nil => cases h
  | cons x l ih =>
    rw [forM_cons, bind_eq_error] at h
    rcases h with h | ⟨_, -, h⟩
    · exact ⟨x, mem_cons_self, h⟩
    · obtain ⟨y, hy, hf⟩ := ih h
      exact ⟨y, mem_cons_of_mem _ hy, hf⟩

/-- **What a loop with an accumulator keeps**: `inv` is about the elements done and the accumulator. -/
theorem foldlM_induction {f : β → α → Query ε β} {b' : β} (h : l.foldlM f b = .ok b')
    (inv : List α → β → Prop) (start : inv [] b)
    (step : ∀ done x rest acc acc', l = done ++ x :: rest → inv done acc → f acc x = .ok acc' →
      inv (done ++ [x]) acc') : inv l b' := by
  have main : ∀ (rest done : List α) (acc : β), l = done ++ rest → inv done acc →
      rest.foldlM f acc = .ok b' → inv l b' := by
    intro rest
    induction rest with
    | nil =>
      intro done acc hl hinv hrun
      cases hrun
      rw [hl, append_nil]
      exact hinv
    | cons x rest ih =>
      intro done acc hl hinv hrun
      rw [foldlM_cons] at hrun
      obtain ⟨acc', hx, hrun⟩ := bind_eq_ok.mp hrun
      exact ih (done ++ [x]) acc' (by rw [hl, append_assoc]; rfl) (step done x rest acc acc' hl hinv hx) hrun
  exact main l [] b rfl start h

theorem mapM_eq_ok {g : α → β} (h : ∀ x ∈ l, f x = .ok (g x)) : l.mapM f = .ok (l.map g) := by
  induction l with
  | nil => rfl
  | cons x l ih =>
    rw [mapM_cons, bind_ok (h x mem_cons_self), bind_ok (ih fun y hy => h y (mem_cons_of_mem _ hy))]
    rfl

variable {γ : Type}

theorem mapM_of_forall₂ {R : α → γ → Prop} {g : γ → β} {m : List γ} (h : List.Forall₂ R l m)
    (hf : ∀ x y, y ∈ m → R x y → f x = .ok (g y)) : l.mapM f = .ok (m.map g) := by
  induction h with
  | nil => rfl
  | cons hxy _ ih =>
    rw [mapM_cons, bind_ok (hf _ _ mem_cons_self hxy),
      bind_ok (ih fun x y hy => hf x y (mem_cons_of_mem _ hy))]
    rfl

variable {r : List β}

theorem forall₂_of_mapM (h : l.mapM f = .ok r) : List.Forall₂ (fun x y => f x = .ok y) l r := by
  induction l generalizing r with
  | nil =>
    cases h
    exact .nil
  | cons x l ih =>
    rw [mapM_cons] at h
    obtain ⟨y, hy, h⟩ := bind_eq_ok.mp h
    obtain ⟨ys, hys, h⟩ := bind_eq_ok.mp h
    cases h
    exact .cons hy (ih hys)

theorem forall₂_mem_of_mapM (h : l.mapM f = .ok r) : List.Forall₂ (fun x y => x ∈ l ∧ f x = .ok y) l r :=
  (forall₂_and_left _ _).mpr ⟨fun _ hx => hx, forall₂_of_mapM h⟩

theorem exists_of_forall₂ {R : α → β → Prop} (h : List.Forall₂ R l r) {x : α} (hx : x ∈ l) : ∃ y ∈ r, R x y := by
  induction h with
  | nil => exact absurd hx not_mem_nil
  | cons hxy _ ih =>
    rcases mem_cons.mp hx with rfl | hx
    · exact ⟨_, mem_cons_self, hxy⟩
    · obtain ⟨y', hy', hf⟩ := ih hx
      exact ⟨y', mem_cons_of_mem _ hy', hf⟩

theorem exists_of_mem_mapM {y : β} (h : l.mapM f = .ok r) (hy : y ∈ r) : ∃ x ∈ l, f x = .ok y :=
  exists_of_forall₂ (forall₂_of_mapM h).flip hy

theorem exists_mem_of_mapM {x : α} (h : l.mapM f = .ok r) (hx : x ∈ l) : ∃ y ∈ r, f x = .ok y :=
  exists_of_forall₂ (forall₂_of_mapM h) hx

/-- A loop that collects results returns when its body does on every element. -/
theorem exists_mapM (h : ∀ x ∈ l, ∃ y, f x = .ok y) : ∃ r, l.mapM f = .ok r := by
  induction l with
  | nil => exact ⟨[], rfl⟩
  | cons x l ih =>
    obtain ⟨y, hy⟩ := h x mem_cons_self
    obtain ⟨r, hr⟩ := ih fun x' hx' => h x' (mem_cons_of_mem _ hx')
    exact ⟨y :: r, by rw [mapM_cons, bind_ok hy, bind_ok hr]; rfl⟩

theorem toOption_eq_some : m.toOption = some a ↔ m = .ok a := by
  cases m with
  | ok b => simp [Except.toOption]
  | error e => simp [Except.toOption]

/-- A loop that collects results keeps what each result takes from its argument. -/
theorem map_of_mapM {g : β → γ} {k : α → γ}
    (h : l.mapM f = .ok r) (hf : ∀ x y, f x = .ok y → g y = k x) : r.map g = l.map k := by
  have hall := forall₂_of_mapM h
  clear h
  induction hall with
  | nil => rfl
  | cons hxy _ ih => rw [map_cons, map_cons, hf _ _ hxy, ih]

/-- A query made on behalf of a caller with errors of its own. -/
def relay {ε' : Type} (f : ε → ε') (m : Query ε α) : Query ε' α := m.mapError (Stop.map f)

variable {ε' : Type}

@[simp] theorem relay_eq_ok {f : ε → ε'}  : relay f m = .ok a ↔ m = .ok a := by
  cases m <;> simp [relay, Except.mapError]

/-- A query whose error is replaced by a value. -/
def okOr {ε' : Type} (d : α) : Query ε α → Query ε' α
  | .ok a => .ok a
  | .error (.err _) => .ok d
  | .error (.panic msg) => .error (.panic msg)
  | .error .loop => .error .loop

@[simp] theorem okOr_ok (d a : α) : (okOr d (.ok a : Query ε α) : Query ε' α) = .ok a := rfl

theorem Safe.okOr (h : m.Safe) (d : α) : (Query.okOr d m : Query ε' α).Safe := by
  cases m with
  | ok a => exact safe_ok a
  | error e =>
    obtain ⟨x, rfl⟩ := h e rfl
    exact safe_ok d

end Query

namespace Call

variable {ε σ τ α β : Type}

/-- A read-only call made inside a mutating one. -/
def reads (q : σ → Query ε α) : Call ε σ α := fun s =>
  match q s with
  | .ok a => .ok a s
  | .error e => .error e s

/-- A call on the part of the state that `get` reads and `put` replaces. -/
def zoom (get : σ → τ) (put : σ → τ → σ) (m : Call ε τ α) : Call ε σ α := fun s =>
  match m.run (get s) with
  | .ok a t => .ok a (put s t)
  | .error e t => .error e (put s t)

/-- A call made on behalf of a caller with errors of its own. -/
def relay {ε' : Type} (f : ε → ε') (m : Call ε σ α) : Call ε' σ α := fun s =>
  match m.run s with
  | .ok a s' => .ok a s'
  | .error e s' => .error (e.map f) s'

/-- A call whose error its caller takes for impossible. -/
def expect {ε' : Type} (msg : String) (m : Call ε σ α) : Call ε' σ α := fun s =>
  match m.run s with
  | .ok a s' => .ok a s'
  | .error e s' => .error (e.expect msg) s'

/-- A call on a state that is one form of a larger one. -/
def within (form : σ → τ) (m : Call ε σ α) (s : σ) : EStateM.Result (Stop ε) τ α :=
  match m.run s with
  | .ok a s' => .ok a (form s')
  | .error e s' => .error e (form s')

@[simp] theorem run_pure (a : α) (s : σ) : (pure a : Call ε σ α).run s = .ok a s := rfl

@[simp] theorem run_bind (m : Call ε σ α) (f : α → Call ε σ β) (s : σ) : (m >>= f).run s = match m.run s with
      | .ok a s' => (f a).run s'
      | .error e s' => .error e s' := by
  show EStateM.bind m f s = _
  unfold EStateM.bind EStateM.run
  cases m s <;> rfl

@[simp] theorem run_map (f : α → β) (m : Call ε σ α) (s : σ) : (f <$> m).run s = match m.run s with
      | .ok a s' => .ok (f a) s'
      | .error e s' => .error e s' := by
  show EStateM.map f m s = _
  unfold EStateM.map EStateM.run
  cases m s <;> rfl

@[simp] theorem run_get (s : σ) : (get : Call ε σ σ).run s = .ok s s := rfl

@[simp] theorem run_modify (f : σ → σ) (s : σ) : (modify f : Call ε σ PUnit).run s = .ok ⟨⟩ (f s) := rfl

@[simp] theorem run_reads (q : σ → Query ε α) (s : σ) : (reads q).run s = match q s with
      | .ok a => .ok a s
      | .error e => .error e s := rfl

@[simp] theorem run_zoom (get : σ → τ) (put : σ → τ → σ) (m : Call ε τ α) (s : σ) :
    (zoom get put m).run s = match m.run (get s) with
      | .ok a t => .ok a (put s t)
      | .error e t => .error e (put s t) := rfl

variable {ε' : Type}

@[simp] theorem run_relay (f : ε → ε') (m : Call ε σ α) (s : σ) : (relay f m).run s = match m.run s with
      | .ok a s' => .ok a s'
      | .error e s' => .error (e.map f) s' := rfl

@[simp] theorem run_expect (msg : String) (m : Call ε σ α) (s : σ) :
    (expect msg m : Call ε' σ α).run s = match m.run s with
      | .ok a s' => .ok a s'
      | .error e s' => .error (e.expect msg) s' := rfl

@[simp] theorem run_throw (e : Stop ε) (s : σ) : (throw e : Call ε σ α).run s = .error e s := rfl

variable {form : σ → τ} {m : Call ε σ α} {s : σ} {a : α}

theorem within_ok {s' : σ} (h : m.run s = .ok a s') : within form m s = .ok a (form s') := by
  rw [within, h]

theorem of_within_ok {x : τ} (h : within form m s = .ok a x) : ∃ s', m.run s = .ok a s' ∧ form s' = x := by
  unfold within at h
  cases hm : m.run s with
  | ok b s' =>
    rw [hm] at h
    cases h
    exact ⟨s', rfl, rfl⟩
  | error e s' =>
    rw [hm] at h
    cases h

/-- A call that stops reports why, and leaves the state as it was. -/
def Atomic (call : Call ε σ α) (s : σ) : Prop :=
  ∀ e s', call.run s = .error e s' → (∃ x, e = .err x) ∧ s' = s

/-- **The check decides the call**: the check returns exactly when the call does; when it refuses,
    the call is refused for the same reason; and a call that stops leaves the state as it was. -/
structure Decides (check : Query ε Unit) (call : Call ε σ α) (s : σ) : Prop where
  ok_iff : check = .ok () ↔ ∃ a s', call.run s = .ok a s'
  refused : ∀ e, check = .error e → call.run s = .error e s
  atomic : Atomic call s

/-- A call that begins with its check is decided by it, when the check is safe and the call returns
    once the check has passed. -/
theorem decides_of {check : σ → Query ε Unit} {body : Unit → Call ε σ α} (hsafe : (check s).Safe)
    (hok : check s = .ok () → ∃ a s', (reads check >>= body).run s = .ok a s') :
    Decides (check s) (reads check >>= body) s := by
  have hrefused : ∀ e, check s = .error e → (reads check >>= body).run s = .error e s :=
    fun e he => by simp [he]
  refine ⟨⟨hok, fun ⟨a, s', hrun⟩ => ?_⟩, hrefused, fun e s' hrun => ?_⟩
  · cases hc : check s with
    | ok u => rfl
    | error e =>
      rw [hrefused e hc] at hrun
      cases hrun
  · cases hc : check s with
    | ok u =>
      obtain ⟨a, s'', hrun'⟩ := hok hc
      rw [hrun'] at hrun
      cases hrun
    | error e' =>
      rw [hrefused e' hc] at hrun
      cases hrun
      exact ⟨hsafe _ hc, rfl⟩

/-- A call that begins with a safe query, and returns whenever that one does, is atomic. -/
theorem atomic_of {q : σ → Query ε β} {body : β → Call ε σ α} (hsafe : (q s).Safe)
    (hok : ∀ b, q s = .ok b → ∃ a s', (reads q >>= body).run s = .ok a s') : Atomic (reads q >>= body) s := by
  intro e s' hrun
  cases hc : q s with
  | ok b =>
    obtain ⟨a, s'', hrun'⟩ := hok b hc
    rw [hrun'] at hrun
    cases hrun
  | error e' =>
    simp only [run_bind, run_reads, hc] at hrun
    cases hrun
    exact ⟨hsafe _ hc, rfl⟩

variable {check : Query ε Unit} {call : Call ε σ α}

/-- **A call that ends as another one does is decided as that one is.** -/
theorem Decides.transfer {τ : Type}
    {check' : Query ε' Unit} {call' : Call ε' τ β} {s' : τ} (h : Decides check call s) (f : ε → ε')
    (hok : check = .ok () → check' = .ok ())
    (hrefused : ∀ x, check = .error (.err x) → check' = .error (.err (f x)))
    (hruns : ∀ a t, call.run s = .ok a t → ∃ b t', call'.run s' = .ok b t')
    (hstops : ∀ x, call.run s = .error (.err x) s → call'.run s' = .error (.err (f x)) s') :
    Decides check' call' s' := by
  cases hc : call.run s with
  | ok a t =>
    obtain ⟨b, t', hrun⟩ := hruns a t hc
    have hpass := hok (h.ok_iff.mpr ⟨a, t, hc⟩)
    refine ⟨⟨fun _ => ⟨b, t', hrun⟩, fun _ => hpass⟩, fun e he => ?_, fun e t1 he => ?_⟩
    · rw [hpass] at he
      cases he
    · rw [hrun] at he
      cases he
  | error e t =>
    obtain ⟨⟨x, rfl⟩, rfl⟩ := h.atomic e t hc
    have hrun := hstops x hc
    have hstop : check' = .error (.err (f x)) := by
      cases hq : check with
      | ok u =>
        obtain ⟨a, t', hok⟩ := h.ok_iff.mp hq
        rw [hc] at hok
        cases hok
      | error e =>
        have he := h.refused e hq
        rw [hc] at he
        cases he
        exact hrefused x hq
    refine ⟨⟨fun he => ?_, fun ⟨b, t', he⟩ => ?_⟩, fun e he => ?_, fun e t1 he => ?_⟩
    · rw [hstop] at he
      cases he
    · rw [hrun] at he
      cases he
    · rw [hstop] at he
      cases he
      exact hrun
    · rw [hrun] at he
      cases he
      exact ⟨⟨_, rfl⟩, rfl⟩

theorem decides_map {f : α → β} : Decides check (f <$> call) s ↔ Decides check call s := by
  constructor
  · intro h
    refine h.transfer id id (fun _ he => he) (fun b t hrun => ?_) fun x hrun => ?_
    · cases hc : call.run s with
      | ok a t => exact ⟨a, t, rfl⟩
      | error e t => simp [hc] at hrun
    · cases hc : call.run s with
      | ok a t => simp [hc] at hrun
      | error e t =>
        simp only [run_map, hc] at hrun
        cases hrun
        rfl
  · intro h
    exact h.transfer id id (fun _ he => he) (fun a t hrun => ⟨f a, t, by simp [hrun]⟩) fun x hrun => by simp [hrun]

theorem Decides.map (h : Decides check call s) (f : α → β) : Decides check (f <$> call) s := decides_map.mpr h

theorem Atomic.map (h : Atomic call s) (f : α → β) : Atomic (f <$> call) s := by
  intro e s' hrun
  cases hc : call.run s with
  | ok a s'' => simp [hc] at hrun
  | error e' s'' =>
    simp only [run_map, hc] at hrun
    cases hrun
    exact h e s' hc

/-- A check and a call that are relayed alike are decided alike. -/
theorem Decides.relay
    (h : Decides check call s) (f : ε → ε') : Decides (check.relay f) (Call.relay f call) s :=
  h.transfer f Query.relay_eq_ok.mpr (fun x he => by rw [he]; rfl) (fun a t hrun => ⟨a, t, by simp [hrun]⟩)
    fun x hrun => by simp [hrun, Stop.map]

theorem decides_throw (x : ε) (s : σ) : Decides (.error (.err x)) (throw (.err x) : Call ε σ α) s where
  ok_iff := by simp
  refused e he := by cases he; rfl
  atomic e s' hrun := by cases hrun; exact ⟨⟨x, rfl⟩, rfl⟩

/-- A check and a call that first read the same value are decided by what they do with it. -/
theorem Decides.reads {q : Query ε β} {check : β → Query ε Unit} {call : β → Call ε σ α}
    (hsafe : q.Safe) (h : ∀ b, q = .ok b → Decides (check b) (call b) s) :
    Decides (q >>= check) (Call.reads (fun _ => q) >>= call) s := by
  cases hq : q with
  | ok b =>
    have hrun : (Call.reads (fun _ => q) >>= call).run s = (call b).run s := by simp [hq]
    have hb := h b hq
    rw [hq] at hrun
    exact ⟨by simp only [hrun]; exact hb.ok_iff, fun e he => hrun.trans (hb.refused e he),
      fun e s' he => hb.atomic e s' (hrun ▸ he)⟩
  | error e =>
    obtain ⟨x, rfl⟩ := hsafe e hq
    exact decides_throw x s

/-! ## Runs of calls -/

/-- The state a call leaves, whether it returned or stopped. -/
def after (call : Call ε σ α) (s : σ) : σ :=
  match call.run s with
  | .ok _ s' => s'
  | .error _ s' => s'

/-- The state a sequence of calls leaves. -/
def afterAll (calls : List (Call ε σ α)) (s : σ) : σ := calls.foldl (fun s call => after call s) s

variable {P : σ → Prop}

/-- **What an atomic call keeps whenever it returns, it keeps.** -/
theorem Atomic.after (h : Atomic call s) (hs : P s)
    (hok : ∀ a s', call.run s = .ok a s' → P s') : P (call.after s) := by
  unfold Call.after
  cases hc : call.run s with
  | ok a s' => exact hok a s' hc
  | error e s' => exact (h e s' hc).2 ▸ hs

/-- Every state in which a call of the sequence starts satisfies `p`. -/
def Throughout (p : σ → Prop) : List (Call ε σ α) → σ → Prop
  | [], _ => True
  | call :: calls, s => p s ∧ Throughout p calls (call.after s)

instance decidableThroughout (p : σ → Prop) [DecidablePred p] : ∀ (calls : List (Call ε σ α)) (s : σ),
    Decidable (Throughout p calls s)
  | [], _ => inferInstanceAs (Decidable True)
  | call :: calls, s =>
    have := decidableThroughout p calls (call.after s)
    inferInstanceAs (Decidable (_ ∧ _))

theorem Throughout.before {p : σ → Prop} {calls later : List (Call ε σ α)} {call : Call ε σ α} {s : σ}
    (h : Throughout p (calls ++ call :: later) s) : p (afterAll calls s) := by
  induction calls generalizing s with
  | nil => exact h.1
  | cons c calls ih => exact ih h.2

/-- **What every call of a sequence keeps, the sequence keeps.** -/
theorem afterAll_induction {ι : Type} {exec : ι → Call ε σ α} {p : σ → Prop}
    (hstep : ∀ op s, P s → p s → P ((exec op).after s)) (ops : List ι)
    (hp : Throughout p (ops.map exec) s) (hs : P s) : P (afterAll (ops.map exec) s) := by
  induction ops generalizing s with
  | nil => exact hs
  | cons op ops ih => exact ih hp.2 (hstep op s hs hp.1)

end Call

end MlmForge
