import MiddleEnd.Lowering

/-!
# Runs

Lowering and typing are computations on a state that may stop early.  A run that comes to its end
is taken apart here: it is a chain of runs that come to their ends, one for each step.  Where it has
to be known that a run comes to its end, or why it can stop, what its outcome satisfies is put
together from its steps.  Two runs are compared step by step too: one of them mirrors the other if
it comes to its end whenever that does.

## Main definitions

* `Runs.Meets` — what the outcome of a run satisfies.
* `Runs.Mirrors` — one computation comes to its end whenever another one does, with the same value.

## Main results

* `Runs.bind_ok`, `Runs.pure_ok`, `Runs.get_ok`, `Runs.modify_ok`, `Runs.throw_ok` — the steps.
* `Runs.forM_cons_ok`, `Runs.mapM_cons_ok` — one step of a pass over a list.
* `Runs.exists_of_isOk`, `Runs.exists_of_any`, `Runs.exists_of_bind` — a run on a fixed input that
  can be decided.
* `Runs.Meets.bind`, `Runs.meets_pure`, `Runs.meets_modify`, `Runs.meets_forM_cons` — the outcome
  after a step.
* `Runs.Mirrors.bind`, `Runs.Mirrors.get`, `Runs.Mirrors.forM`, `Runs.Mirrors.mapM` — composed steps
  side by side.
-/

namespace MiddleEnd.Runs

variable {σ ε α β : Type}

/-- A run that has been decided to come to its end. -/
theorem exists_of_isOk {x : Except ε α} (h : x.isOk = true) : ∃ a, x = .ok a := by
  cases x with
  | error e => cases h
  | ok a => exact ⟨a, rfl⟩

/-- A run that has been decided to come to its end with a value of which `P` holds. -/
theorem exists_of_any {x : Except ε α} {P : α → Bool} (h : x.toOption.any P = true) :
    ∃ a, x = .ok a ∧ P a = true := by
  cases x with
  | error e => cases h
  | ok a => exact ⟨a, rfl, h⟩

/-- The same of a run that leaves a state behind, whatever its end. -/
theorem exists_of_bind {r : Except ε α × σ} {f : α → Option β} {b : β}
    (h : r.1.toOption.bind f = some b) : ∃ a s, r = (.ok a, s) ∧ f a = some b := by
  obtain ⟨outcome, s⟩ := r
  cases outcome with
  | error e => cases h
  | ok a => exact ⟨a, s, rfl, h⟩

theorem bind_ok {x : StateT σ (Except ε) α} {f : α → StateT σ (Except ε) β} {s : σ}
    {r : β × σ} :
    (x >>= f) s = .ok r ↔ ∃ a s', x s = .ok (a, s') ∧ f a s' = .ok r := by
  simp only [Bind.bind, StateT.bind, Except.bind]
  cases x s with
  | error e => simp
  | ok p =>
    obtain ⟨a, s'⟩ := p
    simp only [Except.ok.injEq, Prod.mk.injEq]
    constructor
    · intro h
      exact ⟨a, s', ⟨rfl, rfl⟩, h⟩
    · rintro ⟨_, _, ⟨rfl, rfl⟩, h⟩
      exact h

theorem bind_of_ok {x : StateT σ (Except ε) α} {f : α → StateT σ (Except ε) β} {a : α} {s s' : σ}
    (h : x s = .ok (a, s')) : (x >>= f) s = f a s' := by
  simp [Bind.bind, StateT.bind, Except.bind, h]

theorem bind_of_error {x : StateT σ (Except ε) α} {f : α → StateT σ (Except ε) β} {e : ε} {s : σ}
    (h : x s = .error e) : (x >>= f) s = .error e := by
  simp [Bind.bind, StateT.bind, Except.bind, h]

theorem pure_ok {a b : α} {s s' : σ} :
    (pure a : StateT σ (Except ε) α) s = .ok (b, s') ↔ a = b ∧ s = s' := by
  show Except.ok (a, s) = .ok (b, s') ↔ _
  rw [Except.ok.injEq, Prod.mk.injEq]

theorem get_ok {b s s' : σ} :
    (get : StateT σ (Except ε) σ) s = .ok (b, s') ↔ s = b ∧ s = s' := by
  simp [get, getThe, MonadStateOf.get, StateT.get, pure, Except.pure]

theorem modify_ok {f : σ → σ} {s s' : σ} {u : PUnit} :
    (modify f : StateT σ (Except ε) PUnit) s = .ok (u, s') ↔ s' = f s := by
  show Except.ok (PUnit.unit, f s) = .ok (u, s') ↔ _
  simp [eq_comm]

theorem throw_ok {e : ε} {s : σ} {r : α × σ} :
    (throw e : StateT σ (Except ε) α) s = .ok r ↔ False := by
  simp [throw, throwThe, MonadExceptOf.throw, StateT.lift, Bind.bind, Except.bind]

/-- To discard a value is to go on without it. -/
theorem discard_eq (x : StateT σ (Except ε) α) : discard x = x >>= fun _ => pure PUnit.unit := by
  show Functor.mapConst PUnit.unit x = _
  rw [LawfulFunctor.map_const, bind_pure_comp]
  rfl

theorem discard_ok {x : StateT σ (Except ε) α} {s s' : σ} {u : PUnit} :
    (discard x) s = .ok (u, s') ↔ ∃ a, x s = .ok (a, s') := by
  rw [discard_eq, bind_ok]
  simp [pure_ok]

theorem forM_nil_ok {f : α → StateT σ (Except ε) PUnit} {s s' : σ} {u : PUnit} :
    ([] : List α).forM f s = .ok (u, s') ↔ s = s' := by
  exact pure_ok.trans (by simp)

theorem forM_cons_ok {f : α → StateT σ (Except ε) PUnit} {a : α} {as : List α} {s : σ}
    {r : PUnit × σ} :
    (a :: as).forM f s = .ok r ↔ ∃ s', f a s = .ok (⟨⟩, s') ∧ as.forM f s' = .ok r := by
  have hforM : (a :: as).forM f = f a >>= fun _ => as.forM f := rfl
  rw [hforM, bind_ok]
  constructor
  · rintro ⟨⟨⟩, s', ha, has⟩
    exact ⟨s', ha, has⟩
  · rintro ⟨s', ha, has⟩
    exact ⟨⟨⟩, s', ha, has⟩

theorem mapM_nil_ok {f : α → StateT σ (Except ε) β} {s s' : σ} {bs : List β} :
    ([] : List α).mapM f s = .ok (bs, s') ↔ bs = [] ∧ s = s' := by
  rw [List.mapM_nil, pure_ok, eq_comm]

theorem mapM_cons_ok {f : α → StateT σ (Except ε) β} {a : α} {as : List α} {s s'' : σ}
    {cs : List β} :
    (a :: as).mapM f s = .ok (cs, s'')
      ↔ ∃ b s' bs, f a s = .ok (b, s') ∧ as.mapM f s' = .ok (bs, s'') ∧ cs = b :: bs := by
  simp only [List.mapM_cons, bind_ok, pure_ok]
  constructor
  · rintro ⟨b, s', hb, bs, _, hbs, rfl, rfl⟩
    exact ⟨b, s', bs, hb, hbs, rfl⟩
  · rintro ⟨b, s', bs, hb, hbs, rfl⟩
    exact ⟨b, s', hb, bs, s'', hbs, rfl, rfl⟩

/-! ### Outcomes -/

/-- From `s` a computation comes to its end with a value and a state that satisfy `Q`, or it stops
with an exception that satisfies `E`. -/
def Meets (E : ε → Prop) (x : StateT σ (Except ε) α) (s : σ) (Q : α → σ → Prop) : Prop :=
  match x s with
  | .ok (a, s') => Q a s'
  | .error e => E e

variable {E : ε → Prop} {x : StateT σ (Except ε) α} {f : α → StateT σ (Except ε) β} {s : σ}
  {P Q : α → σ → Prop}

theorem Meets.mono (h : Meets E x s P) (hPQ : ∀ a s', P a s' → Q a s') : Meets E x s Q := by
  unfold Meets at *
  split at h
  · exact hPQ _ _ h
  · exact h

theorem meets_bind {R : β → σ → Prop} :
    Meets E (x >>= f) s R ↔ Meets E x s fun a s' => Meets E (f a) s' R := by
  unfold Meets
  simp only [Bind.bind, StateT.bind, Except.bind]
  cases x s with
  | error e => exact Iff.rfl
  | ok p => exact Iff.rfl

theorem Meets.bind {R : β → σ → Prop} (hx : Meets E x s P)
    (hf : ∀ a s', P a s' → Meets E (f a) s' R) : Meets E (x >>= f) s R :=
  meets_bind.2 (hx.mono hf)

theorem meets_pure {a : α} : Meets E (pure a : StateT σ (Except ε) α) s Q ↔ Q a s := Iff.rfl

theorem meets_get {Q : σ → σ → Prop} :
    Meets E (get : StateT σ (Except ε) σ) s Q ↔ Q s s := Iff.rfl

theorem meets_modify {g : σ → σ} {Q : PUnit → σ → Prop} :
    Meets E (modify g : StateT σ (Except ε) PUnit) s Q ↔ Q ⟨⟩ (g s) := Iff.rfl

theorem meets_throw {e : ε} : Meets E (throw e : StateT σ (Except ε) α) s Q ↔ E e := Iff.rfl

theorem Meets.discard {Q : PUnit → σ → Prop} (h : Meets E x s fun _ s' => Q ⟨⟩ s') :
    Meets E (discard x) s Q := by
  rw [discard_eq]
  exact h.bind fun _ _ hQ => meets_pure.2 hQ

theorem meets_forM_nil {g : α → StateT σ (Except ε) PUnit} {Q : PUnit → σ → Prop} :
    Meets E (([] : List α).forM g) s Q ↔ Q ⟨⟩ s := Iff.rfl

theorem meets_forM_cons {g : α → StateT σ (Except ε) PUnit} {a : α} {as : List α}
    {Q : PUnit → σ → Prop} :
    Meets E ((a :: as).forM g) s Q ↔ Meets E (g a) s fun _ s' => Meets E (as.forM g) s' Q :=
  meets_bind

theorem meets_mapM_nil {Q : List β → σ → Prop} :
    Meets E (([] : List α).mapM f) s Q ↔ Q [] s := by
  rw [List.mapM_nil, meets_pure]

theorem meets_mapM_cons {a : α} {as : List α} {Q : List β → σ → Prop} :
    Meets E ((a :: as).mapM f) s Q
      ↔ Meets E (f a) s fun b s' => Meets E (as.mapM f) s' fun bs s'' => Q (b :: bs) s'' := by
  simp only [List.mapM_cons, meets_bind, meets_pure]

/-- A run that comes to its end has such an outcome. -/
theorem Meets.of_ok {a : α} {s' : σ} (h : Meets E x s Q) (hx : x s = .ok (a, s')) : Q a s' := by
  unfold Meets at h
  rwa [hx] at h

/-- A run that no exception can stop comes to its end. -/
theorem Meets.exists_ok (h : Meets (fun _ => False) x s Q) :
    ∃ a s', x s = .ok (a, s') ∧ Q a s' := by
  unfold Meets at h
  split at h
  · next a s' hx => exact ⟨a, s', hx, h⟩
  · exact h.elim

/-! ### Runs side by side -/

/-- Where `x` comes to its end, `x'` does so from every related state, with the same value and in
related states. -/
def Mirrors (R : σ → σ → Prop) (x x' : StateT σ (Except ε) α) : Prop :=
  ∀ s s', R s s' → ∀ a s₁, x s = .ok (a, s₁) → ∃ s₁', x' s' = .ok (a, s₁') ∧ R s₁ s₁'

variable {ι : Type} {R : σ → σ → Prop} {x' : StateT σ (Except ε) α}
  {k k' : α → StateT σ (Except ε) β}

namespace Mirrors

theorem pure (a : α) : Mirrors R (pure a : StateT σ (Except ε) α) (pure a) := by
  intro s s' hs b s₁ h
  obtain ⟨rfl, rfl⟩ := pure_ok.1 h
  exact ⟨s', rfl, hs⟩

theorem bind (hx : Mirrors R x x') (hk : ∀ a, Mirrors R (k a) (k' a)) :
    Mirrors R (x >>= k) (x' >>= k') := by
  intro s s' hs b s₂ h
  obtain ⟨a, s₁, ha, hb⟩ := bind_ok.1 h
  obtain ⟨s₁', ha', hs₁⟩ := hx s s' hs a s₁ ha
  obtain ⟨s₂', hb', hs₂⟩ := hk a s₁ s₁' hs₁ b s₂ hb
  exact ⟨s₂', bind_ok.2 ⟨a, s₁', ha', hb'⟩, hs₂⟩

/-- Steps that read the state may depend on all of it. -/
theorem get {k k' : σ → StateT σ (Except ε) β} (hk : ∀ s s', R s s' → Mirrors R (k s) (k' s')) :
    Mirrors R (get >>= k) (get >>= k') := by
  intro s s' hs b s₁ h
  obtain ⟨_, _, hget, hb⟩ := bind_ok.1 h
  obtain ⟨rfl, rfl⟩ := get_ok.1 hget
  obtain ⟨s₁', hb', hs₁⟩ := hk s s' hs s s' hs b s₁ hb
  exact ⟨s₁', bind_ok.2 ⟨s', s', rfl, hb'⟩, hs₁⟩

theorem modify {f f' : σ → σ} (hf : ∀ s s', R s s' → R (f s) (f' s')) :
    Mirrors R (modify f : StateT σ (Except ε) PUnit) (modify f') := by
  intro s s' hs a s₁ h
  obtain rfl := modify_ok.1 h
  exact ⟨f' s', rfl, hf s s' hs⟩

/-- What never comes to its end is mirrored by everything. -/
theorem throw (e : ε) : Mirrors R (throw e) x' := fun _ _ _ _ _ h => (throw_ok.1 h).elim

theorem throw_bind (e : ε) {y : StateT σ (Except ε) β} :
    Mirrors R ((MonadExcept.throw e : StateT σ (Except ε) α) >>= k) y := by
  intro s s' hs b s₁ h
  obtain ⟨_, _, h, -⟩ := bind_ok.1 h
  exact (throw_ok.1 h).elim

theorem ite {p : Prop} [Decidable p] {y y' : StateT σ (Except ε) α} (hpos : p → Mirrors R x x')
    (hneg : ¬p → Mirrors R y y') : Mirrors R (if p then x else y) (if p then x' else y') := by
  split
  · next hp => exact hpos hp
  · next hp => exact hneg hp

theorem discard (hx : Mirrors R x x') : Mirrors R (discard x) (discard x') := by
  intro s s' hs u s₁ h
  obtain ⟨a, ha⟩ := discard_ok.1 h
  obtain ⟨s₁', ha', hs₁⟩ := hx s s' hs a s₁ ha
  exact ⟨s₁', discard_ok.2 ⟨a, ha'⟩, hs₁⟩

theorem forM {g : ι → α} {f : α → StateT σ (Except ε) PUnit} {f' : ι → StateT σ (Except ε) PUnit}
    {l : List ι} (hf : ∀ i ∈ l, Mirrors R (f (g i)) (f' i)) :
    Mirrors R ((l.map g).forM f) (l.forM f') := by
  induction l with
  | nil => exact .pure _
  | cons i l ih => exact (hf i (.head _)).bind fun _ => ih fun j hj => hf j (.tail _ hj)

theorem mapM {g : ι → α} {f : α → StateT σ (Except ε) β} {f' : ι → StateT σ (Except ε) β}
    {l : List ι} (hf : ∀ i ∈ l, Mirrors R (f (g i)) (f' i)) :
    Mirrors R ((l.map g).mapM f) (l.mapM f') := by
  induction l with
  | nil =>
    rw [List.map_nil, List.mapM_nil, List.mapM_nil]
    exact .pure _
  | cons i l ih =>
    rw [List.map_cons, List.mapM_cons, List.mapM_cons]
    exact (hf i (.head _)).bind fun b => (ih fun j hj => hf j (.tail _ hj)).bind fun bs => .pure _

end Mirrors

end MiddleEnd.Runs
