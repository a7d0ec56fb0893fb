import MiddleEnd.Proofs.Lowering.Sound

/-!
# The limit on registers

Lowering asks for the limit at one place only, where a register is given out.  So a run with a lower
limit is compared step by step with a run of the same steps under a higher one: both do the same
until the first of them has run out of registers, and then the other one has given out one too many.

## Main definitions

* `Lowering.Within`, `Lowering.Exceeds` — registers given out up to a limit, and beyond.
* `Lowering.Outgrows` — registers are only ever given out.
* `Lower.Restricts` — what a lower limit changes.

## Main results

* `Lower.Restricts.bind`, `Lower.Restricts.get`, `Lower.fresh_restricts` — composed steps side by
  side.
* `Lower.node_restricts` — a lower limit restricts the code of a node.
* `Generated.registers_exact` — **the limit on registers is exact and monotone**.
-/

namespace MiddleEnd

open Runs

/-- The same context under another limit. -/
def LowerContext.limited (c : LowerContext) (L : Nat) : LowerContext :=
  { c with registerLimit := L }

namespace LowerContext

variable (c : LowerContext) (L : Nat)

@[simp] theorem tree_limited : (c.limited L).tree = c.tree := rfl

@[simp] theorem resolution_limited : (c.limited L).resolution = c.resolution := rfl

@[simp] theorem typing_limited : (c.limited L).typing = c.typing := rfl

@[simp] theorem typeOf_limited (id : NodeId) : (c.limited L).typeOf id = c.typeOf id := rfl

@[simp] theorem span_limited (id : NodeId) : (c.limited L).span id = c.span id := rfl

end LowerContext

@[simp] theorem Lower.negatedLiteral?_limited (c : LowerContext) (L : Nat) (operand : NodeId)
    (ty : Ty) :
    negatedLiteral? (c.limited L) operand ty = negatedLiteral? c operand ty := rfl

/-! ### Registers given out -/

namespace Lowering

/-- The procedure being lowered exists, as do `n` procedures. -/
structure Running (n : Nat) (s : Lowering) : Prop where
  /-- The procedure being lowered exists. -/
  index : s.frame.index < s.program.procedures.size
  /-- So do `n` procedures. -/
  size : n ≤ s.program.procedures.size

/-- No procedure has been given a register above `L`. -/
def Within (L : Nat) (s : Lowering) : Prop :=
  ∀ p ∈ s.program.procedures, p.nextRegister ≤ L + 1

/-- A procedure with a given name has been given a register above `L`. -/
def Exceeds (L : Nat) (name : String) (s : Lowering) : Prop :=
  ∃ p ∈ s.program.procedures, p.name = name ∧ L + 1 < p.nextRegister

/-- Procedures keep their places and names, and registers are only ever given out. -/
def Outgrows (s s' : Lowering) : Prop :=
  ∀ (j : Nat) (p : Procedure), s.program.procedures[j]? = some p →
    ∃ p', s'.program.procedures[j]? = some p' ∧ p'.name = p.name ∧ p.nextRegister ≤ p'.nextRegister

variable {L n : Nat} {s s' s'' : Lowering}

theorem Outgrows.refl (s : Lowering) : s.Outgrows s := fun _ p hp => ⟨p, hp, rfl, Nat.le_refl _⟩

theorem Outgrows.trans (h : s.Outgrows s') (h' : s'.Outgrows s'') : s.Outgrows s'' := by
  intro j p hp
  obtain ⟨p', hp', hname, hnext⟩ := h j p hp
  obtain ⟨p'', hp'', hname', hnext'⟩ := h' j p' hp'
  exact ⟨p'', hp'', hname'.trans hname, Nat.le_trans hnext hnext'⟩

theorem Exceeds.outgrows {name : String} (h : s.Exceeds L name) (hgrows : s.Outgrows s') :
    s'.Exceeds L name := by
  obtain ⟨p, hp, hname, hnext⟩ := h
  obtain ⟨j, hj⟩ := Array.mem_iff_getElem?.1 hp
  obtain ⟨p', hp', hname', hnext'⟩ := hgrows j p hj
  exact ⟨p', Array.mem_of_getElem? hp', hname'.trans hname, Nat.lt_of_lt_of_le hnext hnext'⟩

theorem within_start (L : Nat) : start.Within L := by
  intro p hp
  obtain rfl : p = .empty "start" := by simpa [start, Program.empty] using hp
  exact Nat.le_add_left 1 L

theorem running_start : start.Running 1 := ⟨Nat.one_pos, Nat.le_refl 1⟩

/-- A change of the current procedure under its name. -/
theorem Outgrows.onCurrent {f : Procedure → Procedure} (hname : ∀ p, (f p).name = p.name)
    (hnext : ∀ p, p.nextRegister ≤ (f p).nextRegister) : s.Outgrows (s.onCurrent f) := by
  intro j p hp
  rw [getElem?_onCurrent, hp]
  split
  · exact ⟨f p, rfl, hname p, hnext p⟩
  · exact ⟨p, rfl, rfl, Nat.le_refl _⟩

theorem Running.onCurrent (h : s.Running n) (f : Procedure → Procedure) :
    (s.onCurrent f).Running n :=
  ⟨by simpa using h.index, by simpa using h.size⟩

/-- A change of the current procedure that gives out nothing above `L`. -/
theorem Within.onCurrent (h : s.Within L) (hs : s.Running n) {f : Procedure → Procedure}
    (hnext : (f s.current).nextRegister ≤ L + 1) : (s.onCurrent f).Within L := by
  intro p hp
  obtain ⟨j, hj⟩ := Array.mem_iff_getElem?.1 hp
  rw [getElem?_onCurrent] at hj
  split at hj
  · next hindex =>
    rw [← hindex, getElem?_current hs.index] at hj
    obtain rfl := Option.some.inj hj
    exact hnext
  · exact h p (Array.mem_of_getElem? hj)

/-- The current procedure is one of the program. -/
theorem Running.current_mem (h : s.Running n) : s.current ∈ s.program.procedures :=
  Array.mem_of_getElem? (getElem?_current h.index)

end Lowering

/-! ### Two runs -/

namespace Lower

variable {α β ι : Type} {L n : Nat}

/-- Both outcomes are the same and within the limit; or the first is that a procedure has run out of
registers, to which the second has given more. -/
def Agrees (L : Nat) (y y' : Except Stop (α × Lowering)) : Prop :=
  (y = y' ∧ ∀ a s', y' = .ok (a, s') → s'.Within L) ∨
    ∃ name span, y = .error (.limit (.registers name L span)) ∧
      ∀ a s', y' = .ok (a, s') → s'.Exceeds L name

/-- Under the lower limit `L` the computation `x` does what `x'` does, until it runs out of
registers.  Both start where `n` procedures exist. -/
structure Restricts (L n : Nat) (x x' : Lower α) : Prop where
  /-- Procedures only grow, and there are never fewer of them. -/
  grows : ∀ s, s.Running n → ∀ a s', x' s = .ok (a, s') → s'.Running n ∧ s.Outgrows s'
  /-- From a state within the limit both come to the same, unless the limit is exceeded. -/
  agrees : ∀ s, s.Running n → s.Within L → Agrees L (x s) (x' s)

namespace Restricts

variable {x x' : Lower α} {k k' : α → Lower β}

protected theorem pure (a : α) : Restricts L n (pure a) (pure a) where
  grows s hs b s' h := by
    obtain ⟨rfl, rfl⟩ := pure_ok.1 h
    exact ⟨hs, .refl _⟩
  agrees s hs hwithin := by
    refine .inl ⟨rfl, fun b s' h => ?_⟩
    obtain ⟨rfl, rfl⟩ := pure_ok.1 h
    exact hwithin

protected theorem throw (e : Stop) : Restricts L n (throw e : Lower α) (throw e) where
  grows _ _ _ _ h := (throw_ok.1 h).elim
  agrees _ _ _ := .inl ⟨rfl, fun _ _ h => (throw_ok.1 h).elim⟩

/-- What stops at once goes on to nothing. -/
theorem throw_bind (e : Stop) :
    Restricts L n ((MonadExcept.throw e : Lower α) >>= k)
      ((MonadExcept.throw e : Lower α) >>= k') where
  grows s _ b s' h := by
    obtain ⟨_, _, hstop, -⟩ := bind_ok.1 h
    exact (throw_ok.1 hstop).elim
  agrees s _ _ := by
    refine .inl ⟨rfl, fun b s' h => ?_⟩
    obtain ⟨_, _, hstop, -⟩ := bind_ok.1 h
    exact (throw_ok.1 hstop).elim

/-- Once the first run has stopped, the other one can only give out more. -/
protected theorem bind (hx : Restricts L n x x') (hk : ∀ a, Restricts L n (k a) (k' a)) :
    Restricts L n (x >>= k) (x' >>= k') where
  grows s hs b s₂ h := by
    obtain ⟨a, s₁, ha, hb⟩ := bind_ok.1 h
    obtain ⟨hs₁, hgrows₁⟩ := hx.grows s hs a s₁ ha
    obtain ⟨hs₂, hgrows₂⟩ := (hk a).grows s₁ hs₁ b s₂ hb
    exact ⟨hs₂, hgrows₁.trans hgrows₂⟩
  agrees s hs hwithin := by
    rcases hx.agrees s hs hwithin with ⟨hsame, hkeeps⟩ | ⟨name, span, hstop, hexceeds⟩
    · cases hrun : x' s with
      | error e =>
        rw [bind_of_error (hsame.trans hrun), bind_of_error hrun]
        exact .inl ⟨rfl, fun _ _ h => by cases h⟩
      | ok r =>
        obtain ⟨a, s₁⟩ := r
        rw [bind_of_ok (hsame.trans hrun), bind_of_ok hrun]
        exact (hk a).agrees s₁ (hx.grows s hs a s₁ hrun).1 (hkeeps a s₁ hrun)
    · refine .inr ⟨name, span, bind_of_error hstop, fun b s₂ h => ?_⟩
      obtain ⟨a, s₁, ha, hb⟩ := bind_ok.1 h
      have hgrows := ((hk a).grows s₁ (hx.grows s hs a s₁ ha).1 b s₂ hb).2
      exact (hexceeds a s₁ ha).outgrows hgrows

/-- Steps that read the state may depend on all of it. -/
protected theorem get {k k' : Lowering → Lower β}
    (hk : ∀ s, s.Running n → Restricts L s.program.procedures.size (k s) (k' s)) :
    Restricts L n (get >>= k) (get >>= k') where
  grows s hs b s' h := by
    obtain ⟨_, _, hget, hb⟩ := bind_ok.1 h
    obtain ⟨rfl, rfl⟩ := get_ok.1 hget
    obtain ⟨hs', hgrows⟩ := (hk s hs).grows s ⟨hs.index, Nat.le_refl _⟩ b s' hb
    exact ⟨⟨hs'.index, Nat.le_trans hs.size hs'.size⟩, hgrows⟩
  agrees s hs := (hk s hs).agrees s ⟨hs.index, Nat.le_refl _⟩

protected theorem modify {f : Lowering → Lowering} (hrunning : ∀ s, s.Running n → (f s).Running n)
    (hgrows : ∀ s : Lowering, s.Outgrows (f s))
    (hwithin : ∀ s, s.Running n → s.Within L → (f s).Within L) :
    Restricts L n (modify f) (modify f) where
  grows s hs u s' h := by
    obtain rfl := modify_ok.1 h
    exact ⟨hrunning s hs, hgrows s⟩
  agrees s hs hs' := by
    refine .inl ⟨rfl, fun u s' h => ?_⟩
    obtain rfl := modify_ok.1 h
    exact hwithin s hs hs'

/-- A change that leaves the procedures and the frame as they are. -/
theorem modify_rest {f : Lowering → Lowering}
    (hprocedures : ∀ s, (f s).program.procedures = s.program.procedures)
    (hindex : ∀ s, (f s).frame.index = s.frame.index) : Restricts L n (modify f) (modify f) :=
  .modify (fun s hs =>
    ⟨by rw [hprocedures, hindex]; exact hs.index, by rw [hprocedures]; exact hs.size⟩)
    (fun s j p hp => ⟨p, by rw [hprocedures, hp], rfl, Nat.le_refl _⟩)
    fun s _ hs p hp => hs p (by rwa [hprocedures] at hp)

protected theorem modifyProgram {f : Program → Program}
    (hf : ∀ p, (f p).procedures = p.procedures) :
    Restricts L n (modifyProgram f) (modifyProgram f) :=
  modify_rest (fun s => hf s.program) fun _ => rfl

protected theorem ite {p : Prop} [Decidable p] {y y' : Lower α} (hpos : p → Restricts L n x x')
    (hneg : ¬p → Restricts L n y y') :
    Restricts L n (if p then x else y) (if p then x' else y') := by
  split
  · next hp => exact hpos hp
  · next hp => exact hneg hp

protected theorem discard (hx : Restricts L n x x') : Restricts L n (discard x) (discard x') := by
  rw [discard_eq, discard_eq]
  exact hx.bind fun _ => .pure _

protected theorem forM {f f' : ι → Lower PUnit} {l : List ι}
    (hf : ∀ i ∈ l, Restricts L n (f i) (f' i)) :
    Restricts L n (l.forM f) (l.forM f') := by
  induction l with
  | nil => exact .pure _
  | cons i l ih => exact (hf i (.head _)).bind fun _ => ih fun j hj => hf j (.tail _ hj)

protected theorem mapM {f f' : ι → Lower β} {l : List ι}
    (hf : ∀ i ∈ l, Restricts L n (f i) (f' i)) :
    Restricts L n (l.mapM f) (l.mapM f') := by
  induction l with
  | nil =>
    rw [List.mapM_nil]
    exact .pure _
  | cons i l ih =>
    rw [List.mapM_cons, List.mapM_cons]
    exact (hf i (.head _)).bind fun b => (ih fun j hj => hf j (.tail _ hj)).bind fun bs => .pure _

end Restricts

/-! ### Steps -/

section Steps

variable {c : LowerContext} {L' : Nat}

/-- A change of the current procedure that gives out nothing. -/
protected theorem Restricts.modifyCurrent {f : Procedure → Procedure}
    (hname : ∀ p, (f p).name = p.name) (hnext : ∀ p, (f p).nextRegister = p.nextRegister) :
    Restricts L n (modifyCurrent f) (modifyCurrent f) :=
  .modify (fun _ hs => hs.onCurrent f)
    (fun _ => .onCurrent hname fun p => Nat.le_of_eq (hnext p).symm)
    fun s hs hwithin => hwithin.onCurrent hs (by rw [hnext]; exact hwithin _ hs.current_mem)

theorem report_restricts (p : LoweringProblem) : Restricts L n (report p) (report p) :=
  .modify_rest (fun _ => rfl) fun _ => rfl

/-- What is refused has no value. -/
theorem refused_restricts (p : LoweringProblem) (v : α) :
    Restricts L n (report p >>= fun _ => pure v) (report p >>= fun _ => pure v) :=
  (report_restricts p).bind fun _ => .pure v

theorem emit_restricts (i : Instruction) (ty : Ty) (span : Span) :
    Restricts L n (emit i ty span) (emit i ty span) :=
  .modifyCurrent (f := (·.extend i ty span))
    (fun p => by unfold Procedure.extend Procedure.push; split <;> rfl) fun p => by simp

theorem copy_restricts (out value : Register) (ty : Ty) (span : Span) :
    Restricts L n (copy out value ty span) (copy out value ty span) :=
  emit_restricts _ ty span

theorem isBound_restricts (r : Register) : Restricts L n (isBound r) (isBound r) :=
  .get fun _ _ => .pure _

theorem constant_restricts (w : Word) (span : Span) :
    Restricts L n (constant w span) (constant w span) := by
  unfold constant
  refine .get fun s _ => .ite (fun _ => .throw_bind _) fun _ => ?_
  exact .bind (.modifyProgram fun _ => rfl) fun _ => .pure _

theorem addNative_restricts (call : NativeCall) (span : Span) :
    Restricts L n (addNative call span) (addNative call span) := by
  unfold addNative
  refine .get fun s _ => .ite (fun _ => .throw_bind _) fun _ => ?_
  exact .bind (.modifyProgram fun _ => rfl) fun _ => .pure _

/-- Where no register is left, none is given out. -/
theorem fresh_stops {s : Lowering} {span : Span} (h : c.registerLimit < s.current.nextRegister) :
    fresh c span s = .error (.limit (.registers s.current.name c.registerLimit span)) := by
  simp [fresh, exhausted, h, get, getThe, MonadStateOf.get, StateT.get, throw, throwThe,
    MonadExceptOf.throw, StateT.lift, Bind.bind, StateT.bind, Except.bind, Pure.pure, Except.pure]

/-- **The limit counts where a register is given out.** -/
theorem fresh_restricts (h : L ≤ L') (span : Span) :
    Restricts L n (fresh (c.limited L) span) (fresh (c.limited L') span) where
  grows s hs r s' hr := by
    obtain ⟨-, -, rfl⟩ := fresh_ok.1 hr
    exact ⟨hs.onCurrent _, .onCurrent (fun _ => rfl) fun _ => Nat.le_succ _⟩
  agrees s hs hwithin := by
    by_cases hnext : s.current.nextRegister ≤ L
    · have hlow : fresh (c.limited L) span s = .ok (s.current.nextRegister, s.allocated) :=
        fresh_ok.2 ⟨hnext, rfl, rfl⟩
      have hhigh : fresh (c.limited L') span s = .ok (s.current.nextRegister, s.allocated) :=
        fresh_ok.2 ⟨Nat.le_trans hnext h, rfl, rfl⟩
      rw [hlow, hhigh]
      refine .inl ⟨rfl, fun r s' hr => ?_⟩
      cases hr
      exact hwithin.onCurrent hs (Nat.succ_le_succ hnext)
    · refine .inr ⟨_, _, fresh_stops (Nat.lt_of_not_le hnext), fun r s' hr => ?_⟩
      obtain ⟨-, -, rfl⟩ := fresh_ok.1 hr
      have hcurrent := (hs.onCurrent (·.allocate)).current_mem
      rw [Lowering.current_onCurrent _ hs.index] at hcurrent
      exact ⟨_, hcurrent, rfl, Nat.succ_lt_succ (Nat.lt_of_not_le hnext)⟩

variable (h : L ≤ L')

include h

/-- An instruction whose value gets a register of its own. -/
theorem computed_restricts (op : Opcode) (left right : Operand) (ty : Ty) (span : Span) :
    Restricts L n
      (fresh (c.limited L) span >>= fun out => emit ⟨op, out, left, right⟩ ty span >>= fun _ =>
        pure (some out))
      (fresh (c.limited L') span >>= fun out => emit ⟨op, out, left, right⟩ ty span >>= fun _ =>
        pure (some out)) :=
  (fresh_restricts h span).bind fun _ => (emit_restricts _ ty span).bind fun _ => .pure _

theorem load_restricts (w : Word) (ty : Ty) (span : Span) :
    Restricts L n (load (c.limited L) w ty span) (load (c.limited L') w ty span) :=
  (constant_restricts w span).bind fun _ => (fresh_restricts h span).bind fun _ =>
    (emit_restricts _ ty span).bind fun _ => .pure _

theorem convert_restricts (value : Register) (source dest : Ty) (span : Span) :
    Restricts L n (convert (c.limited L) value source dest span)
      (convert (c.limited L') value source dest span) := by
  unfold convert
  split
  · refine .ite (fun _ => .pure _) fun _ => ?_
    exact (fresh_restricts h span).bind fun _ => (emit_restricts _ dest span).bind fun _ => .pure _
  · exact .pure _

theorem bind_restricts (decl : NodeId) (value : Register) (span : Span) :
    Restricts L n (bind (c.limited L) decl value span) (bind (c.limited L') decl value span) := by
  unfold bind
  refine (isBound_restricts value).bind fun b => .ite
    (fun _ => (fresh_restricts h span).bind fun out =>
    (copy_restricts out value _ span).bind fun _ =>
      (Restricts.pure _).bind fun register => ?_)
    fun _ => (Restricts.pure _).bind fun register => ?_
  -- With or without a copy, the rest ties the register that has been chosen.
  all_goals
    refine .bind (.modify_rest (fun _ => rfl) fun _ => rfl) fun _ =>
      .bind (.modifyCurrent (fun _ => rfl) fun _ => rfl) fun _ => .get fun s _ => ?_
    refine .ite (fun _ => ?_) fun _ => .pure _
    dsimp only [LowerContext.limited]
    split
    · exact .bind (.modifyProgram fun _ => rfl) fun _ => .pure _
    · exact .pure _

end Steps

/-! ### Rules -/

section Rules

variable {c : LowerContext} {L' : Nat} {lower lower' : NodeId → Lower (Option Register)}

theorem literalRule_restricts (h : L ≤ L') (id : NodeId) (span : Span) (lit : Literal) :
    Restricts L n (literalRule (c.limited L) id span lit)
      (literalRule (c.limited L') id span lit) := by
  cases lit with
  | text _ => exact refused_restricts _ _
  | number _ | char _ =>
    simp only [literalRule, LowerContext.typing_limited, LowerContext.typeOf_limited]
    cases c.typing.literal? id with
    | none => exact .throw _
    | some v => exact (load_restricts h _ _ _).bind fun _ => .pure _

theorem outerRule_restricts (h : L ≤ L') (ident decl : NodeId) :
    Restricts L n (outerRule (c.limited L) ident decl) (outerRule (c.limited L') ident decl) := by
  simp only [outerRule, LowerContext.tree_limited, LowerContext.span_limited]
  cases literalConstant? c.tree decl with
  | some literal => exact literalRule_restricts h _ _ _
  | none => exact refused_restricts _ _

theorem identRule_restricts (h : L ≤ L') (id : NodeId) :
    Restricts L n (identRule (c.limited L) id) (identRule (c.limited L') id) := by
  simp only [identRule, LowerContext.tree_limited, LowerContext.span_limited,
    LowerContext.typeOf_limited, LowerContext.resolution_limited]
  cases c.resolution.declaration? id with
  | none => exact .throw _
  | some decl =>
    refine .ite (fun _ => refused_restricts _ _) fun _ => .ite (fun _ => .pure _) fun _ =>
      .get fun s _ => ?_
    cases s.ownerOf[decl]? with
    | none => exact .pure _
    | some owner =>
      refine .ite (fun _ => outerRule_restricts h id decl) fun _ => ?_
      cases s.current.registers[decl]? with
      | some register => exact .pure _
      | none => exact .throw _

theorem place_restricts (target : NodeId) :
    Restricts L n (place (c.limited L) target) (place (c.limited L') target) := by
  simp only [place, LowerContext.tree_limited, LowerContext.resolution_limited]
  cases c.resolution.declaration? (c.tree.ungroup target) with
  | none => exact .throw _
  | some decl =>
    refine .get fun s _ => ?_
    cases s.ownerOf[decl]? with
    | none => exact .pure _
    | some owner => exact .ite (fun _ => refused_restricts _ _) fun _ => .pure _

theorem store_restricts (target : NodeId) (value : Register) (span : Span) :
    Restricts L n (store (c.limited L) target value span)
      (store (c.limited L') target value span) := by
  refine (place_restricts target).bind fun register => ?_
  cases register with
  | none => exact .pure _
  | some register => exact copy_restricts _ _ _ _

/-- The parts of a slot do not depend on the limit, and reading them changes nothing. -/
theorem slotParts_restricts (id : NodeId) :
    Restricts L n (slotParts (c.limited L) id) (slotParts (c.limited L') id) := by
  simp only [slotParts, LowerContext.tree_limited]
  cases c.tree.shape id
  case slot target offset => exact .pure _
  all_goals exact .throw _

theorem nativeOutput_restricts (output : Option NodeId) :
    Restricts L n (nativeOutput (c.limited L) output) (nativeOutput (c.limited L') output) := by
  cases output with
  | none => exact .pure _
  | some output =>
    refine (slotParts_restricts output).bind fun parts =>
      (place_restricts parts.1).bind fun register => ?_
    cases register with
    | none => exact .pure _
    | some register => exact .pure _

/-- A procedure without code has given out nothing. -/
theorem opened_within {s : Lowering} (hs : s.Within L) (id : NodeId) (name : String)
    (isConstant : Bool) : (s.opened id name isConstant).Within L := by
  intro p hp
  rcases Array.mem_push.1 hp with hp | rfl
  · exact hs p hp
  · exact Nat.le_add_left 1 L

/-- The procedure that is opened exists from then on. -/
theorem openProcedure_bind_restricts {β : Type} {k k' : Nat → Lower β} (id : NodeId)
    (hk : ∀ index, Restricts L (index + 1) (k index) (k' index)) :
    Restricts L n (openProcedure (c.limited L) id >>= k)
      (openProcedure (c.limited L') id >>= k') := by
  -- Opening a procedure adds one, and leaves the others as they are.
  have hopened {s : Lowering} (hs : s.Running n) (name : String) (isConstant : Bool) :
      (s.opened id name isConstant).Running (s.program.procedures.size + 1)
        ∧ s.Outgrows (s.opened id name isConstant) := by
    refine ⟨⟨?_, ?_⟩, fun j p hp => ⟨p, ?_, rfl, Nat.le_refl _⟩⟩
    · have := hs.index
      simp only [Lowering.opened, Array.size_push]
      omega
    · simp [Lowering.opened]
    · obtain ⟨hj, -⟩ := Array.getElem?_eq_some_iff.1 hp
      simp only [Lowering.opened]
      rw [Array.getElem?_push, if_neg (Nat.ne_of_lt hj), hp]
  constructor
  · intro s hs b s₂ h
    obtain ⟨index, s₁, hopen, hb⟩ := bind_ok.1 h
    obtain ⟨rfl, rfl⟩ := openProcedure_ok hopen
    obtain ⟨hs₁, hgrows₁⟩ := hopened hs (procedureName (c.limited L') id).1
      (procedureName (c.limited L') id).2
    obtain ⟨hs₂, hgrows₂⟩ := (hk _).grows _ hs₁ b s₂ hb
    exact ⟨⟨hs₂.index, Nat.le_trans hs.size (Nat.le_of_succ_le hs₂.size)⟩, hgrows₁.trans hgrows₂⟩
  · -- Opening a procedure takes no register, so the two runs do the same there.
    intro s hs hwithin
    have hlow : openProcedure (c.limited L) id = openProcedure c id := rfl
    have hhigh : openProcedure (c.limited L') id = openProcedure c id := rfl
    rw [hlow, hhigh]
    cases hrun : openProcedure c id s with
    | error e =>
      rw [bind_of_error hrun, bind_of_error hrun]
      exact .inl ⟨rfl, fun _ _ h => by cases h⟩
    | ok r =>
      obtain ⟨index, s₁⟩ := r
      rw [bind_of_ok hrun, bind_of_ok hrun]
      obtain ⟨rfl, rfl⟩ := openProcedure_ok hrun
      exact (hk _).agrees _ (hopened hs _ _).1 (opened_within hwithin id _ _)

theorem convertLast_restricts (h : L ≤ L') (body : NodeId) (result : Ty) :
    Restricts L n (convertLast (c.limited L) body result)
      (convertLast (c.limited L') body result) := by
  refine .get fun s _ => .ite (fun _ => ?_) fun _ => .pure _
  exact (convert_restricts h _ _ _ _).discard

variable (h : L ≤ L') (hlower : ∀ n x, Restricts L n (lower x) (lower' x))

include h hlower

theorem operand_restricts (id : NodeId) (ty : Ty) :
    Restricts L n (operand (c.limited L) lower id ty) (operand (c.limited L') lower' id ty) := by
  refine (hlower n id).bind fun value => ?_
  cases value with
  | none => exact .pure _
  | some value => exact (convert_restricts h _ _ _ _).bind fun _ => .pure _

theorem binaryRule_restricts (id left op right : NodeId) :
    Restricts L n (binaryRule (c.limited L) lower id left op right)
      (binaryRule (c.limited L') lower' id left op right) := by
  simp only [binaryRule, LowerContext.tree_limited, LowerContext.span_limited,
    LowerContext.typeOf_limited]
  cases c.tree.shape op
  case binaryOp op =>
    dsimp only
    cases Kind.ofTy? (c.typeOf id) with
    | none => exact .throw _
    | some kind =>
      refine (operand_restricts h hlower left _).bind fun a =>
        (operand_restricts h hlower right _).bind fun b => ?_
      cases a with
      | none => exact .pure _
      | some a =>
        cases b with
        | none => exact .pure _
        | some b => exact computed_restricts h _ _ _ _ _
  all_goals exact .throw _

theorem signedRule_restricts (id op operand : NodeId) :
    Restricts L n (signedRule (c.limited L) lower id op operand)
      (signedRule (c.limited L') lower' id op operand) := by
  simp only [signedRule, LowerContext.tree_limited, LowerContext.span_limited,
    LowerContext.typeOf_limited, negatedLiteral?_limited]
  cases c.tree.shape op
  case signOp sign =>
    cases sign with
    | plus => exact operand_restricts h hlower operand _
    | minus =>
      dsimp only
      cases negatedLiteral? c operand (c.typeOf id) with
      | some w => exact (load_restricts h _ _ _).bind fun _ => .pure _
      | none =>
        refine (operand_restricts h hlower operand _).bind fun value => ?_
        cases value with
        | none => exact .pure _
        | some value =>
          dsimp only
          cases Kind.ofTy? (c.typeOf id) with
          | none => exact .throw _
          | some kind => exact computed_restricts h _ _ _ _ _
  all_goals exact .throw _

theorem callRule_restricts (id callee : NodeId) :
    Restricts L n (callRule (c.limited L) lower id callee)
      (callRule (c.limited L') lower' id callee) := by
  simp only [callRule, LowerContext.tree_limited, LowerContext.span_limited,
    LowerContext.typeOf_limited, LowerContext.resolution_limited]
  refine (hlower n callee).bind fun _ => ?_
  cases c.resolution.procedureTarget? c.tree callee with
  | none => exact refused_restricts _ _
  | some target =>
    refine .get fun s _ => ?_
    cases s.procedureOf[target]? with
    | none => exact .throw _
    | some index => exact computed_restricts h _ _ _ _ _

theorem castRule_restricts (id expr : NodeId) :
    Restricts L n (castRule (c.limited L) lower id expr)
      (castRule (c.limited L') lower' id expr) := by
  refine (hlower n expr).bind fun value => ?_
  cases value with
  | none => exact .pure _
  | some value => exact (convert_restricts h _ _ _ _).bind fun _ => .pure _

omit h in
theorem nativeInputs_restricts (inputs : List NodeId) :
    Restricts L n (nativeInputs (c.limited L) lower inputs)
      (nativeInputs (c.limited L') lower' inputs) := by
  induction inputs with
  | nil => exact .pure _
  | cons input rest ih =>
    refine (slotParts_restricts input).bind fun parts => (hlower n parts.1).bind fun register => ?_
    cases register with
    | none => exact .pure _
    | some register =>
      refine ih.bind fun slots => ?_
      cases slots with
      | none => exact .pure _
      | some slots => exact .pure _

omit h in
theorem nativeRule_restricts (id : NodeId) (source : String) (inputs : List NodeId)
    (output : Option NodeId) :
    Restricts L n (nativeRule (c.limited L) lower id source inputs output)
      (nativeRule (c.limited L') lower' id source inputs output) := by
  refine .ite (fun _ => refused_restricts _ _) fun _ => ?_
  refine (nativeInputs_restricts hlower inputs).bind fun slots => ?_
  cases slots with
  | none => exact .pure _
  | some slots =>
    refine (nativeOutput_restricts output).bind fun slot => ?_
    cases slot with
    | none => exact .pure _
    | some slot =>
      exact (addNative_restricts _ _).bind fun _ => (emit_restricts _ _ _).bind fun _ => .pure _

theorem constantRule_restricts (id definition : NodeId) :
    Restricts L n (constantRule (c.limited L) lower id definition)
      (constantRule (c.limited L') lower' id definition) := by
  refine (hlower n definition).bind fun value => ?_
  cases value with
  | none => exact .pure _
  | some value =>
    exact (convert_restricts h _ _ _ _).bind fun _ => (bind_restricts h _ _ _).bind fun _ => .pure _

theorem varRule_restricts (id : NodeId) (init : Option NodeId) :
    Restricts L n (varRule (c.limited L) lower id init)
      (varRule (c.limited L') lower' id init) := by
  cases init with
  | some init =>
    refine (hlower n init).bind fun value => ?_
    cases value with
    | none => exact .pure _
    | some value =>
      exact (convert_restricts h _ _ _ _).bind fun _ => (bind_restricts h _ _ _).bind fun _ =>
        .pure _
  | none =>
    refine .ite (fun _ => refused_restricts _ _) fun _ => ?_
    exact (fresh_restricts h _).bind fun _ => (bind_restricts h _ _ _).bind fun _ => .pure _

theorem assignRule_restricts (id target value : NodeId) :
    Restricts L n (assignRule (c.limited L) lower id target value)
      (assignRule (c.limited L') lower' id target value) := by
  refine (hlower n value).bind fun register => ?_
  cases register with
  | none => exact .pure _
  | some register =>
    exact (convert_restricts h _ _ _ _).bind fun converted => store_restricts _ _ _

theorem stage_restricts (value : NodeId) :
    Restricts L n (stage (c.limited L) lower value) (stage (c.limited L') lower' value) := by
  refine (hlower n value).bind fun register => ?_
  cases register with
  | none => exact .pure _
  | some register =>
    refine (isBound_restricts register).bind fun b => .ite (fun _ => ?_) fun _ => .pure _
    exact (fresh_restricts h _).bind fun out => (copy_restricts _ _ _ _).bind fun _ => .pure _

theorem parallelRule_restricts (targets values : List NodeId) :
    Restricts L n (parallelRule (c.limited L) lower targets values)
      (parallelRule (c.limited L') lower' targets values) := by
  refine (Restricts.mapM fun value _ => stage_restricts h hlower value).bind fun staged =>
    .forM fun (target, value, register) _ => ?_
  cases register with
  | none => exact .pure _
  | some register =>
    exact (convert_restricts h _ _ _ _).bind fun converted => store_restricts _ _ _

theorem returnRule_restricts (id : NodeId) (value : Option NodeId) :
    Restricts L n (returnRule (c.limited L) lower id value)
      (returnRule (c.limited L') lower' id value) := by
  cases value with
  | none => exact emit_restricts _ _ _
  | some value =>
    refine (hlower n value).bind fun register => ?_
    cases register with
    | none => exact .pure _
    | some register =>
      refine .get fun s _ => ?_
      dsimp only
      cases s.frame.result with
      | none => exact (Restricts.pure register).bind fun _ => emit_restricts _ _ _
      | some result => exact (convert_restricts h _ _ _ _).bind fun _ => emit_restricts _ _ _

/-- The procedure around goes on in the frame that it was left with, which exists still. -/
theorem procedureRule_restricts (id : NodeId) (result : Option NodeId) (body : NodeId) :
    Restricts L n (procedureRule (c.limited L) lower id result body)
      (procedureRule (c.limited L') lower' id result body) := by
  have hframe {m : Nat} (frame : Frame) (hindex : frame.index < m) :
      Restricts L m (modify fun s => { s with frame }) (modify fun s => { s with frame }) :=
    .modify (fun s hs => ⟨Nat.lt_of_lt_of_le hindex hs.size, hs.size⟩)
      (fun s j p hp => ⟨p, hp, rfl, Nat.le_refl _⟩) fun s _ hs => hs
  refine openProcedure_bind_restricts id fun index => .get fun s hs => ?_
  refine (hframe _ (Nat.lt_of_succ_le hs.size)).bind fun _ => (hlower _ body).bind fun _ => ?_
  cases result with
  | none => exact hframe _ hs.index
  | some result => exact (convertLast_restricts h _ _).bind fun _ => hframe _ hs.index

/-! ### All shapes -/

/-- A rule is restricted if what it is over is. -/
theorem rule_restricts (id : NodeId) :
    Restricts L n (rule (c.limited L) lower id) (rule (c.limited L') lower' id) := by
  simp only [rule, LowerContext.tree_limited, LowerContext.span_limited]
  -- Rules with no node below them, and one lemma for each of the others.
  cases c.tree.shape id
  case module items | block items =>
    exact (Restricts.forM fun item _ => (hlower n item).discard).bind fun _ => .pure _
  case constant name definition => exact constantRule_restricts h hlower id definition
  case var name ty init => exact varRule_restricts h hlower id init
  case procedure result body =>
    exact (procedureRule_restricts h hlower id result body).bind fun _ => .pure _
  case exprStmt expr => exact (hlower n expr).bind fun _ => .pure _
  case assign target value =>
    exact (assignRule_restricts h hlower id target value).bind fun _ => .pure _
  case parallel targets values =>
    exact (parallelRule_restricts h hlower targets values).bind fun _ => .pure _
  case ret value => exact (returnRule_restricts h hlower id value).bind fun _ => .pure _
  case literal lit => exact literalRule_restricts h id _ lit
  case ident name => exact identRule_restricts h id
  case binary left op right => exact binaryRule_restricts h hlower id left op right
  case signed op operand => exact signedRule_restricts h hlower id op operand
  case group expr => exact hlower n expr
  case call callee => exact callRule_restricts h hlower id callee
  case cast expr ty => exact castRule_restricts h hlower id expr
  case native source inputs output => exact nativeRule_restricts hlower id source inputs output
  case slot target offset => exact hlower n target
  all_goals exact .pure _

omit hlower in
/-- **A lower limit restricts the code of a node.** -/
theorem node_restricts (id : NodeId) :
    Restricts L n (node (c.limited L) id) (node (c.limited L') id) := by
  induction id using Nat.strongRecOn generalizing n with
  | ind id ih =>
    rw [node_eq, node_eq]
    refine rule_restricts h (fun m child => ?_) id
    split
    · next hlt => exact ih child hlt
    · exact .throw _

end Rules

end Lower

/-! ### Programs -/

namespace Generated

variable {t : Tree} {links : Links} {root : NodeId} {r : Resolution} {ty : Typing} {L L' : Nat}
  {g : Generated}

/-- Lowering comes to the end or stops where the code of the root does. -/
theorem ofTree_eq (t : Tree) (links : Links) (root : NodeId) (r : Resolution) (ty : Typing)
    (L : Nat) :
    ofTree t links root r ty L =
      (Lower.node ⟨t, links, root, r, ty, min L Register.maximum⟩ root .start).map fun (_, s) =>
        ⟨s.program, s.problems.toList⟩ := by
  unfold ofTree
  simp only [StateT.run]
  cases Lower.node ⟨t, links, root, r, ty, min L Register.maximum⟩ root .start <;> rfl

/-- What a lower limit changes about the code of the root. -/
theorem node_agrees (t : Tree) (links : Links) (root : NodeId) (r : Resolution) (ty : Typing)
    (hL : L ≤ L') :
    Lower.Agrees (min L Register.maximum)
      (Lower.node ⟨t, links, root, r, ty, min L Register.maximum⟩ root .start)
      (Lower.node ⟨t, links, root, r, ty, min L' Register.maximum⟩ root .start) := by
  have hcap : min L Register.maximum ≤ min L' Register.maximum :=
    Nat.le_min.2 ⟨Nat.le_trans (Nat.min_le_left _ _) hL, Nat.min_le_right _ _⟩
  exact (Lower.node_restricts (c := ⟨t, links, root, r, ty, 0⟩) hcap root).agrees .start
    Lowering.running_start (Lowering.within_start _)

/-- A program is the same under any higher limit. -/
theorem ofTree_mono (hL : L ≤ L') (h : ofTree t links root r ty L = .ok g) :
    ofTree t links root r ty L' = .ok g := by
  obtain ⟨v, s, hnode, rfl⟩ := ofTree_ok h
  rcases node_agrees t links root r ty hL with ⟨hsame, -⟩ | ⟨name, span, hstop, -⟩
  · rw [ofTree_eq, ← hsame, hnode]
    rfl
  · cases hnode.symm.trans hstop

/-- Under a lower limit a program is the same, or a procedure that has been given more registers is
refused. -/
theorem ofTree_restricted (hL : L ≤ L') (h : ofTree t links root r ty L' = .ok g) :
    (ofTree t links root r ty L = .ok g ∧ ∀ p ∈ g.program.procedures, p.nextRegister - 1 ≤ L) ∨
      ∃ p ∈ g.program.procedures, L < p.nextRegister - 1 ∧
        ∃ span, ofTree t links root r ty L = .error (.limit (.registers p.name L span)) := by
  obtain ⟨v, s, hnode, rfl⟩ := ofTree_ok h
  rcases node_agrees t links root r ty hL with ⟨hsame, hkeeps⟩ | ⟨name, span, hstop, hexceeds⟩
  · refine .inl ⟨by rw [ofTree_eq, hsame, hnode]; rfl, fun p hp => ?_⟩
    have hframe : p.frameSize ≤ min L Register.maximum + 1 := hkeeps v s hnode p hp
    show p.frameSize - 1 ≤ L
    omega
  · obtain ⟨p, hp, rfl, hnext⟩ := hexceeds v s hnode
    -- The program is within its own limit, so `L` is below the number of registers that there are.
    have hwithin : s.Within (min L' Register.maximum) := by
      rcases node_agrees t links root r ty (Nat.le_refl L') with ⟨-, hkeeps⟩ | ⟨_, _, hstop', -⟩
      · exact hkeeps v s hnode
      · cases hnode.symm.trans hstop'
    have hframe : p.frameSize ≤ min L' Register.maximum + 1 := hwithin p hp
    have hmore : min L Register.maximum + 1 < p.frameSize := hnext
    have hlimit : min L Register.maximum = L := by omega
    refine .inr ⟨p, hp, ?_, span, ?_⟩
    · show L < p.frameSize - 1
      omega
    · rw [ofTree_eq, hstop, hlimit]
      rfl

/-- **The limit on registers is exact and monotone.**  A program is the same under any higher limit.
Under a lower limit it is still the program exactly if no procedure has a higher register, and else
a procedure that has is refused, with that limit. -/
theorem registers_exact (hL : L ≤ L') :
    (∀ g, ofTree t links root r ty L = .ok g → ofTree t links root r ty L' = .ok g) ∧
    ∀ g, ofTree t links root r ty L' = .ok g →
      (ofTree t links root r ty L = .ok g ↔ ∀ p ∈ g.program.procedures, p.nextRegister - 1 ≤ L) ∧
      (¬(∀ p ∈ g.program.procedures, p.nextRegister - 1 ≤ L) →
        ∃ p ∈ g.program.procedures, L < p.nextRegister - 1 ∧
          ∃ span, ofTree t links root r ty L = .error (.limit (.registers p.name L span))) := by
  refine ⟨fun g => ofTree_mono hL, fun g hg => ?_⟩
  rcases ofTree_restricted hL hg with ⟨hlow, hwithin⟩ | ⟨p, hp, hnext, hstop⟩
  · exact ⟨⟨fun _ => hwithin, fun _ => hlow⟩, fun hmore => (hmore hwithin).elim⟩
  · refine ⟨⟨fun hlow => ?_, fun hwithin => ?_⟩, fun _ => ⟨p, hp, hnext, hstop⟩⟩
    · obtain ⟨span, hstop⟩ := hstop
      cases hlow.symm.trans hstop
    · exact (Nat.not_lt.2 (hwithin p hp) hnext).elim

end Generated

/-- `f :: proc { a : int; b : int }` -/
def Tree.twoVariables : Tree where
  nodes :=
    #[⟨.typeName "int", .nowhere⟩, ⟨.var "a" (some 0) none, .nowhere⟩, ⟨.typeName "int", .nowhere⟩,
      ⟨.var "b" (some 2) none, .nowhere⟩, ⟨.block [1, 3], .nowhere⟩, ⟨.procedure none 4, .nowhere⟩,
      ⟨.constant "f" 5, .nowhere⟩, ⟨.module [6], .nowhere⟩]
  children_lt := by decide

/-- The links of `twoVariables`. -/
def Tree.twoVariablesLinks : Links := (Section.ofTree .twoVariables (.unset 8) 7 none).2

/-- A procedure with two variables is lowered with two registers, and refused where there is one. -/
theorem Tree.twoVariables_refused :
    (∃ g, Generated.ofTree .twoVariables twoVariablesLinks 7 ⟨∅, [], ∅, []⟩ (.start 8) 3 = .ok g) ∧
      ∃ span, Generated.ofTree .twoVariables twoVariablesLinks 7 ⟨∅, [], ∅, []⟩ (.start 8) 1
        = .error (.limit (.registers "f" 1 span)) := by
  have hok : (Generated.ofTree .twoVariables twoVariablesLinks 7 ⟨∅, [], ∅, []⟩ (.start 8)
      2).toOption.any (fun g =>
        g.program.procedures.any (fun p => 1 < p.nextRegister - 1)
          && g.program.procedures.all fun p => p.nextRegister - 1 ≤ 1 || p.name == "f") = true := by
    decide +kernel
  obtain ⟨g, hg, hok⟩ := Runs.exists_of_any hok
  simp only [Bool.and_eq_true, Array.any_eq_true', Array.all_eq_true', decide_eq_true_eq,
    Bool.or_eq_true, beq_iff_eq] at hok
  obtain ⟨⟨p, hp, hmore⟩, hnames⟩ := hok
  have hmono := (Generated.registers_exact (by decide : 2 ≤ 3)).1 g hg
  obtain ⟨q, hq, hnext, span, hstop⟩ := ((Generated.registers_exact (by decide : 1 ≤ 2)).2 g hg).2
    fun hwithin => Nat.not_lt.2 (hwithin p hp) hmore
  obtain hle | hname := hnames q hq
  · exact absurd hnext (Nat.not_lt.2 hle)
  · exact ⟨⟨g, hmono⟩, span, hname ▸ hstop⟩

end MiddleEnd
