import MiddleEnd.Proofs.Typing.Reports

/-!
# Typing solves the equations

If the nodes are ordered so that every equation reads earlier nodes only, typing a section comes to
its end, whether or not there are errors.  The open nodes come later in the order than the one that
is asked for, so that no open node is met again.  Every node gets the type that the solution of the
equations gives, and what is reported are the failed checks of the nodes: neither depends on the
order in which the nodes were typed.

## Main definitions

* `Typing.Follows` — a table that comes after another one, with the nodes done and the problems
  reported in between.
* `Typing.Does` — a computation that has one result and reports one list of problems, whatever has
  been typed before.
* `Typing.Typed` — a typed section: the types of its nodes, and their failed checks as its problems.

## Main results

* `Typing.rule_does` — a rule gives the type that the equation gives, and reports the checks that
  fail.
* `Typing.nodeWithin_follows` — so does typing a node once.
* `Typing.ofSection_typed` — **the problems of a typed section are the failed checks of its nodes.**
* `Typing.ofSection_solves` — **a typed section solves its equations.**
-/

namespace MiddleEnd.Typing

open Runs

/-- A computation that comes to its end, whatever it meets. -/
abbrev Gives {β : Type} (m : Infer β) (s : Typing) (Q : β → Typing → Prop) : Prop :=
  Meets (fun _ => False) m s Q

/-! ### Tables over time -/

variable {α : Type} [Preorder α]

section

variable (c : Context) (S : NodeId → Prop) (F : NodeId → Ty)

/-- From `s` to `s'` nodes of `S` get the types that `F` gives, and what is reported is `own` and
the failed checks of these nodes. -/
structure Follows (own : List TypeProblem) (s s' : Typing) : Prop where
  /-- What was done stays done. -/
  extends_ : Extends s s'
  /-- No other node is open. -/
  active : ∀ x, s'.progressOf x = .active → s.progressOf x = .active
  /-- Nodes that are done by now have the types that `F` gives. -/
  done : ∀ x τ, s'.Done x τ → s.Done x τ ∨ S x ∧ τ = F x
  /-- What is reported by now was reported before, is `own`, or is a failed check of a node typed in
  between. -/
  problems : ∀ P, P ∈ s'.problems ↔ P ∈ s.problems ∨ P ∈ own
    ∨ ∃ x τ, s'.Done x τ ∧ (∀ σ, ¬s.Done x σ) ∧ P ∈ c.reports F x

variable (rank : NodeId → α)

/-- A table from which nodes before `id` can be typed, while `id` is open. -/
structure Opened (id : NodeId) (depth : Nat) (s : Typing) : Prop where
  /-- There is room for every node of the tree. -/
  size : s.progress.size = c.tree.size
  /-- There are fewer nodes waiting than may be opened. -/
  waiting : s.waitingCount < depth
  /-- The node is open. -/
  opened : s.progressOf id = .active
  /-- No open node comes before it. -/
  active : ∀ y, s.progressOf y = .active → rank id ≤ rank y
  /-- What is done has the types that `F` gives. -/
  typed : ∀ x τ, s.Done x τ → S x ∧ τ = F x

/-- While `id` is open, the computation has the result `v` and reports `own`. -/
def Does (id : NodeId) (depth : Nat) {β : Type} (m : Infer β) (v : β) (own : List TypeProblem) :
    Prop :=
  ∀ s, Opened c S F rank id depth s → Gives m s fun a s' => a = v ∧ Follows c S F own s s'

end

variable {c : Context} {S : NodeId → Prop} {F : NodeId → Ty} {rank : NodeId → α} {id : NodeId}
  {depth : Nat} {own own' : List TypeProblem} {s s₁ s' : Typing}

namespace Follows

theorem refl (s : Typing) : Follows c S F [] s s where
  extends_ := .refl s
  active _ h := h
  done _ _ h := .inl h
  problems P := by
    constructor
    · exact .inl
    · rintro (h | h | ⟨x, τ, hx, hnew, -⟩)
      · exact h
      · cases h
      · exact (hnew τ hx).elim

theorem trans (h : Follows c S F own s s₁) (h' : Follows c S F own' s₁ s') :
    Follows c S F (own ++ own') s s' where
  extends_ := h.extends_.trans h'.extends_
  active x hx := h.active x (h'.active x hx)
  done x τ hx := (h'.done x τ hx).elim (h.done x τ) .inr
  problems P := by
    rw [h'.problems, h.problems, List.mem_append]
    constructor
    · rintro ((hP | hP | ⟨x, τ, hx, hnew, hP⟩) | hP | ⟨x, τ, hx, hnew, hP⟩)
      · exact .inl hP
      · exact .inr (.inl (.inl hP))
      · exact .inr (.inr ⟨x, τ, h'.extends_.done x τ hx, hnew, hP⟩)
      · exact .inr (.inl (.inr hP))
      · exact .inr (.inr ⟨x, τ, hx, fun σ hσ => hnew σ (h.extends_.done x σ hσ), hP⟩)
    · rintro (hP | (hP | hP) | ⟨x, τ, hx, hnew, hP⟩)
      · exact .inl (.inl hP)
      · exact .inl (.inr (.inl hP))
      · exact .inr (.inl hP)
      · -- A node that is done by now was done in the first part or in the second one.
        by_cases hdone : ∃ σ, s₁.Done x σ
        · obtain ⟨σ, hσ⟩ := hdone
          exact .inl (.inr (.inr ⟨x, σ, hσ, hnew, hP⟩))
        · exact .inr (.inr ⟨x, τ, hx, fun σ hσ => hdone ⟨σ, hσ⟩, hP⟩)

theorem opened (h : Follows c S F own s s') (hs : Opened c S F rank id depth s) :
    Opened c S F rank id depth s' where
  size := h.extends_.size.trans hs.size
  waiting := Nat.lt_of_le_of_lt h.extends_.waitingCount_le hs.waiting
  opened := h.extends_.active id hs.opened
  active y hy := hs.active y (h.active y hy)
  typed x τ hx := (h.done x τ hx).elim (hs.typed x τ) fun h => h

end Follows

/-! ### Computations -/

namespace Does

variable {β γ : Type} {m : Infer β} {k : β → Infer γ} {v : β} {w : γ}

theorem pure (v : β) : Does c S F rank id depth (pure v) v [] := fun s _ =>
  meets_pure.2 ⟨rfl, .refl s⟩

theorem bind (hm : Does c S F rank id depth m v own) (hk : Does c S F rank id depth (k v) w own') :
    Does c S F rank id depth (m >>= k) w (own ++ own') := by
  intro s hs
  refine (hm s hs).bind fun a s₁ h₁ => ?_
  obtain ⟨rfl, h₁⟩ := h₁
  exact (hk s₁ (h₁.opened hs)).mono fun b s' ⟨hb, h'⟩ => ⟨hb, h₁.trans h'⟩

/-- A step that reports nothing itself. -/
theorem seq (hm : Does c S F rank id depth m v []) (hk : Does c S F rank id depth (k v) w own) :
    Does c S F rank id depth (m >>= k) w own :=
  hm.bind hk

/-- A last step that only gives the result. -/
theorem result (hm : Does c S F rank id depth m v own) {k : β → γ} (hk : k v = w) :
    Does c S F rank id depth (m >>= fun a => Pure.pure (k a)) w own := by
  have h := hm.bind (k := fun a => Pure.pure (k a)) (Does.pure (k v))
  rwa [List.append_nil, hk] at h

theorem discard (hm : Does c S F rank id depth m v own) :
    Does c S F rank id depth (discard m) ⟨⟩ own := fun s hs =>
  ((hm s hs).mono fun _ _ h => ⟨rfl, h.2⟩).discard

theorem report (p : TypeProblem) : Does c S F rank id depth (report p) ⟨⟩ [p] := by
  intro s hs
  refine meets_modify.2 ⟨rfl, extends_reported s p, fun _ h => h, fun _ _ h => .inl h, fun P => ?_⟩
  rw [Array.mem_push, List.mem_singleton]
  constructor
  · exact fun h => h.imp_right .inl
  · rintro (h | h | ⟨x, τ, hx, hnew, -⟩)
    · exact .inl h
    · exact .inr h
    · exact (hnew τ hx).elim

theorem refuse (p : TypeProblem) : Does c S F rank id depth (refuse p) .uncastable [p] :=
  (report p).result rfl

theorem record (value : LiteralValue) : Does c S F rank id depth (record id value) ⟨⟩ [] := by
  intro s hs
  have hsame := Follows.refl (c := c) (S := S) (F := F) s
  exact meets_modify.2
    ⟨rfl, extends_recorded hs.opened value, hsame.active, hsame.done, hsame.problems⟩

theorem forM {ι : Type} {xs : List ι} {m : ι → Infer Unit} {own : ι → List TypeProblem}
    (hm : ∀ x ∈ xs, Does c S F rank id depth (m x) ⟨⟩ (own x)) :
    Does c S F rank id depth (xs.forM m) ⟨⟩ (xs.flatMap own) := by
  induction xs with
  | nil => exact .pure _
  | cons x xs ih => exact (hm x (.head _)).bind (ih fun y hy => hm y (.tail _ hy))

/-- A check that may fail, before the result is given. -/
theorem check {b : Prop} [Decidable b] (p : TypeProblem) (v : β) :
    Does c S F rank id depth
      (if b then (Typing.report p >>= fun _ => Pure.pure v) else Pure.pure v) v
      (if b then [p] else []) := by
  split
  · exact (report p).result rfl
  · exact .pure _

/-- A check that may fail. -/
theorem check_last {b : Prop} [Decidable b] (p : TypeProblem) :
    Does c S F rank id depth (if b then Typing.report p else Pure.pure ⟨⟩) ⟨⟩
      (if b then [p] else []) := by
  split
  · exact .report p
  · exact .pure _

end Does

/-! ### Rules -/

theorem Context.Ranked.ungroup (h : c.Ranked S rank) {x : NodeId} (hx : S x) :
    S (c.tree.ungroup x) := by
  have hasks := c.tree.ungroup_asks x
  generalize c.tree.ungroup x = y at hasks ⊢
  induction hasks with
  | refl => exact hx
  | tail _ hasks ih => exact (h.asked _ ih _ hasks).1

section Rules

variable {infer : NodeId → Infer Ty}

theorem literalRule_does {lit : Literal} (hshape : c.tree.shape id = .literal lit) :
    Does c S F rank id depth (literalRule id lit) lit.ty (c.reports F id) := by
  unfold literalRule Literal.ty Context.reports
  rw [hshape]
  cases lit with
  | number spelling =>
    simp only
    cases Spelled.ofText spelling with
    | error e => exact .refuse _
    | ok value => cases value <;> exact (Does.record _).seq (.pure _)
  | char ch => exact (Does.record _).seq (.pure _)
  | text contents => exact .pure _

theorem isWritable_does (hS : c.Ranked S rank) {target : NodeId} (ht : S target) :
    Does c S F rank id depth (isWritable c target) (c.writes target) (c.targetReports target) := by
  unfold isWritable Context.writes Context.targetReports
  simp only
  cases hident : c.tree.shape (c.tree.ungroup target)
  case ident name =>
    simp only
    cases hdecl : c.resolution.declaration? (c.tree.ungroup target) with
    | none => exact .pure _
    | some decl =>
      have hdeclaration := (hS.ident _ name decl (hS.ungroup ht) hident hdecl).2.1
      simp only
      cases hshape : c.tree.shape decl <;> rw [hshape] at hdeclaration <;>
        first | (cases hdeclaration; done) | skip
      · exact (Does.report _).result rfl
      · exact .pure _
  all_goals exact (Does.report _).result rfl

variable (hinfer : ∀ x, S x ∧ rank x < rank id → Does c S F rank id depth (infer x) (F x) [])

include hinfer

theorem optionalRule_does {x : Option NodeId} (hx : ∀ y, x = some y → S y ∧ rank y < rank id) :
    Does c S F rank id depth (optionalRule infer x) (x.map F) [] := by
  cases x with
  | none => exact .pure _
  | some y => exact (hinfer y (hx y rfl)).seq (.pure _)

theorem varRule_does {name : String} {ty init : Option NodeId}
    (hshape : c.tree.shape id = .var name ty init)
    (hty : ∀ y, ty = some y → S y ∧ rank y < rank id)
    (hinit : ∀ y, init = some y → S y ∧ rank y < rank id) :
    Does c S F rank id depth (varRule infer id name ty init) (c.equation F id)
      (c.reports F id) := by
  unfold varRule Context.equation Context.reports
  rw [hshape]
  refine (optionalRule_does hinfer hty).seq ((optionalRule_does hinfer hinit).seq ?_)
  cases ty with
  | none =>
    cases init with
    | none => exact .refuse _
    | some i => exact .pure _
  | some x =>
    cases init with
    | none => exact .pure _
    | some i => exact .check _ _

theorem binaryRule_does {left op right : NodeId} (hshape : c.tree.shape id = .binary left op right)
    (hleft : S left ∧ rank left < rank id) (hop : S op ∧ rank op < rank id)
    (hright : S right ∧ rank right < rank id) :
    Does c S F rank id depth (binaryRule infer id left op right) (c.equation F id)
      (c.reports F id) := by
  unfold binaryRule Context.equation Context.reports
  rw [hshape]
  refine (hinfer left hleft).seq ((hinfer op hop).seq ((hinfer right hright).seq ?_))
  exact .check _ _

theorem signedRule_does {op x : NodeId} {sign : Sign} (hshape : c.tree.shape id = .signed op x)
    (hsign : c.tree.shape op = .signOp sign) (hop : S op ∧ rank op < rank id)
    (hx : S x ∧ rank x < rank id) :
    Does c S F rank id depth (signedRule c infer id op x) (c.equation F id) (c.reports F id) := by
  unfold signedRule Context.equation Context.reports
  simp only [hshape, hsign]
  exact (hinfer op hop).seq ((hinfer x hx).seq (.check _ _))

theorem callRule_does {callee : NodeId} (hshape : c.tree.shape id = .call callee)
    (hcallee : S callee ∧ rank callee < rank id)
    (hresult : ∀ result, c.calleeResult? callee = some result → S result ∧ rank result < rank id) :
    Does c S F rank id depth (callRule c infer id callee) (c.equation F id) (c.reports F id) := by
  unfold callRule Context.equation Context.reports
  simp only [hshape, Context.callTy]
  refine (hinfer callee hcallee).seq ?_
  split
  · exact .pure _
  · split
    · exact .refuse _
    · refine (congrArg (fun m : Infer Ty => Does c S F rank id depth m _ []) (match_result? (c := c)
        (c.resolution.procedureTarget? c.tree callee) infer (return .empty))).mpr ?_
      rw [← Context.calleeResult?]
      cases hnode : c.calleeResult? callee with
      | none => exact .pure _
      | some result => exact hinfer result (hresult result hnode)

theorem castRule_does {x y : NodeId} (hshape : c.tree.shape id = .cast x y)
    (hx : S x ∧ rank x < rank id) (hy : S y ∧ rank y < rank id) :
    Does c S F rank id depth (castRule infer id x y) (c.equation F id) (c.reports F id) := by
  unfold castRule Context.equation Context.reports Context.castTy
  simp only [hshape]
  refine (hinfer x hx).seq ((hinfer y hy).seq ?_)
  split
  · exact .pure _
  · split
    · exact .pure _
    · cases hcast : Ty.canCast (F x) (F y) with
      | true => exact .pure _
      | false => exact .refuse _

theorem slotRule_does {target : NodeId} {offset : Nat}
    (hshape : c.tree.shape id = .slot target offset) (ht : S target ∧ rank target < rank id) :
    Does c S F rank id depth (slotRule infer id target) (c.equation F id) (c.reports F id) := by
  unfold slotRule Context.equation Context.reports
  rw [hshape]
  exact (hinfer target ht).seq (.check _ _)

theorem returnRule_does {value : Option NodeId}
    (hvalue : ∀ x, value = some x → S x ∧ rank x < rank id)
    (hresult : ∀ result, c.resultNode? id = some result → S result ∧ rank result < rank id) :
    Does c S F rank id depth (returnRule c infer id value) ⟨⟩ (c.returnReports F id value) := by
  unfold returnRule Context.returnReports
  refine (optionalRule_does hinfer hvalue).seq ?_
  refine (congrArg (fun m : Infer Unit => Does c S F rank id depth m _ _) (match_result? (c := c)
    (c.links.enclosingProcedure? c.tree id) (checkReturn infer id value (value.map F))
    (return))).mpr ?_
  rw [← Context.resultNode?]
  cases hnode : c.resultNode? id with
  | none => exact .pure _
  | some result =>
    refine (hinfer result (hresult result hnode)).seq ?_
    cases value with
    | none => exact .check_last _
    | some value => exact .check_last _

variable (hS : c.Ranked S rank)

include hS

theorem nativeRule_does {source : String} {inputs : List NodeId} {output : Option NodeId}
    (hshape : c.tree.shape id = .native source inputs output)
    (hinputs : ∀ x ∈ inputs, S x ∧ rank x < rank id)
    (houtput : ∀ x, output = some x → S x ∧ rank x < rank id) :
    Does c S F rank id depth (nativeRule c infer inputs output) (c.equation F id)
      (c.reports F id) := by
  have htyped : Does c S F rank id depth (inputs.forM fun input => discard (infer input)) ⟨⟩
    [] := by
    have h := Does.forM fun x hx => (hinfer x (hinputs x hx)).discard
    rwa [List.flatMap_eq_nil_iff.2 fun _ _ => rfl] at h
  unfold nativeRule Context.equation Context.reports
  rw [hshape]
  refine htyped.seq ?_
  cases output with
  | none => exact .pure _
  | some o =>
    refine (hinfer o (houtput o rfl)).seq ?_
    simp only
    cases hslot : c.tree.shape o
    case slot target offset =>
      have htarget : S target := (hS.asked o (houtput o rfl).1 target
        (by simp [hslot, Shape.asked, Shape.children])).1
      exact (isWritable_does hS htarget).result rfl
    all_goals exact .pure _

theorem storeRule_does {target value : NodeId} (ht : S target ∧ rank target < rank id)
    (hv : S value ∧ rank value < rank id) :
    Does c S F rank id depth (storeRule c infer target value) ⟨⟩
      (c.storeReports F target value) := by
  unfold storeRule Context.storeReports
  refine (hinfer target ht).seq ((hinfer value hv).seq ((isWritable_does hS ht.1).bind ?_))
  split
  · split
    · exact .report _
    · exact .check_last _
  · exact .pure _

theorem parallelRule_does {targets values : List NodeId}
    (hshape : c.tree.shape id = .parallel targets values)
    (ht : ∀ x ∈ targets, S x ∧ rank x < rank id) (hv : ∀ x ∈ values, S x ∧ rank x < rank id) :
    Does c S F rank id depth (parallelRule c infer id targets values) ⟨⟩ (c.reports F id) := by
  unfold parallelRule Context.reports
  rw [hshape]
  simp only
  split
  · exact Does.forM fun pair hpair => storeRule_does hinfer hS (ht _ (List.of_mem_zip hpair).1)
      (hv _ (List.of_mem_zip hpair).2)
  · have hall : ∀ x ∈ targets ++ values, S x ∧ rank x < rank id := fun x hx =>
      (List.mem_append.1 hx).elim (ht x) (hv x)
    have htyped := Does.forM fun x hx => (hinfer x (hall x hx)).discard
    rw [List.flatMap_eq_nil_iff.2 fun _ _ => rfl] at htyped
    exact htyped.seq (.report _)

omit hS in
/-- What has the type of another node compares nothing itself. -/
theorem pass_does {x : NodeId} (hx : S x ∧ rank x < rank id) (hequation : c.equation F id = F x)
    (hreports : c.reports F id = []) :
    Does c S F rank id depth (infer x) (c.equation F id) (c.reports F id) := by
  rw [hequation, hreports]
  exact hinfer x hx

omit hS in
theorem exprStmt_does {x : NodeId} (hshape : c.tree.shape id = .exprStmt x)
    (hx : S x ∧ rank x < rank id) :
    Does c S F rank id depth (infer x >>= fun _ => Pure.pure .empty) (c.equation F id)
      (c.reports F id) := by
  simp only [Context.equation, Context.reports, hshape]
  exact (hinfer x hx).result rfl

theorem assign_does {target value : NodeId} (hshape : c.tree.shape id = .assign target value)
    (ht : S target ∧ rank target < rank id) (hv : S value ∧ rank value < rank id) :
    Does c S F rank id depth (storeRule c infer target value >>= fun _ => Pure.pure .empty)
      (c.equation F id) (c.reports F id) := by
  simp only [Context.equation, Context.reports, hshape]
  exact (storeRule_does hinfer hS ht hv).result rfl

theorem parallel_does {targets values : List NodeId}
    (hshape : c.tree.shape id = .parallel targets values)
    (ht : ∀ x ∈ targets, S x ∧ rank x < rank id) (hv : ∀ x ∈ values, S x ∧ rank x < rank id) :
    Does c S F rank id depth (parallelRule c infer id targets values >>= fun _ => Pure.pure .empty)
      (c.equation F id) (c.reports F id) := by
  simp only [Context.equation, hshape]
  exact (parallelRule_does hinfer hS hshape ht hv).result rfl

theorem return_does {value : Option NodeId} (hid : S id) (hshape : c.tree.shape id = .ret value)
    (hvalue : ∀ x, value = some x → S x ∧ rank x < rank id) :
    Does c S F rank id depth (returnRule c infer id value >>= fun _ => Pure.pure .empty)
      (c.equation F id) (c.reports F id) := by
  simp only [Context.equation, Context.reports, hshape]
  exact (returnRule_does hinfer hvalue fun result hresult =>
    hS.ret id value result hid hshape hresult).result rfl

/-- **A rule gives the type that the equation gives, and reports the checks that fail.** -/
theorem rule_does (hid : S id) :
    Does c S F rank id depth (rule c infer id) (c.equation F id) (c.reports F id) := by
  have hasked := hS.asked id hid
  unfold rule
  cases hshape : c.tree.shape id <;> rw [hshape] at hasked
  case constant name x =>
    exact pass_does hinfer (hasked x (by simp [Shape.asked, Shape.children]))
      (by simp only [Context.equation, hshape]) (by simp only [Context.reports, hshape])
  case var name ty init =>
    exact varRule_does hinfer hshape
      (fun y hy => hasked y (by simp [Shape.asked, Shape.children, hy]))
      (fun y hy => hasked y (by simp [Shape.asked, Shape.children, hy]))
  case exprStmt x =>
    exact exprStmt_does hinfer hshape (hasked x (by simp [Shape.asked, Shape.children]))
  case assign target value =>
    exact assign_does hinfer hS hshape (hasked target (by simp [Shape.asked, Shape.children]))
      (hasked value (by simp [Shape.asked, Shape.children]))
  case parallel targets values =>
    exact parallel_does hinfer hS hshape
      (fun x hx => hasked x (by simp [Shape.asked, Shape.children, hx]))
      (fun x hx => hasked x (by simp [Shape.asked, Shape.children, hx]))
  case ret value =>
    exact return_does hinfer hS hid hshape fun x hx =>
      hasked x (by simp [Shape.asked, Shape.children, hx])
  case literal lit =>
    have h : Does c S F rank id depth (literalRule id lit) lit.ty (c.reports F id) :=
      literalRule_does hshape
    simpa only [Context.equation, hshape] using h
  case ident name =>
    simp only
    cases hdecl : c.resolution.declaration? id with
    | none =>
      simp only [Context.equation, Context.reports, hshape, hdecl]
      exact .pure _
    | some decl =>
      -- The declaration is not below the identifier, but it comes earlier in the order.
      obtain ⟨hmem, -, hlt⟩ := hS.ident id name decl hid hshape hdecl
      exact pass_does hinfer ⟨hmem, hlt⟩ (by simp only [Context.equation, hshape, hdecl])
        (by simp only [Context.reports, hshape])
  case binary left op right =>
    exact binaryRule_does hinfer hshape (hasked left (by simp [Shape.asked, Shape.children]))
      (hasked op (by simp [Shape.asked, Shape.children]))
      (hasked right (by simp [Shape.asked, Shape.children]))
  case signed op x =>
    obtain ⟨sign, hsign⟩ := hS.sign id op x hid hshape
    exact signedRule_does hinfer hshape hsign (hasked op (by simp [Shape.asked, Shape.children]))
      (hasked x (by simp [Shape.asked, Shape.children]))
  case group x =>
    exact pass_does hinfer (hasked x (by simp [Shape.asked, Shape.children]))
      (by simp only [Context.equation, hshape]) (by simp only [Context.reports, hshape])
  case call callee =>
    exact callRule_does hinfer hshape (hasked callee (by simp [Shape.asked, Shape.children]))
      (fun result hresult => hS.call id callee result hid hshape hresult)
  case cast x y =>
    exact castRule_does hinfer hshape (hasked x (by simp [Shape.asked, Shape.children]))
      (hasked y (by simp [Shape.asked, Shape.children]))
  case native source inputs output =>
    exact nativeRule_does hinfer hS hshape
      (fun x hx => hasked x (by simp [Shape.asked, Shape.children, hx]))
      (fun x hx => hasked x (by simp [Shape.asked, Shape.children, hx]))
  case slot target offset =>
    exact slotRule_does hinfer hshape (hasked target (by simp [Shape.asked, Shape.children]))
  case typeName name =>
    unfold typeNameRule
    simp only [Context.equation, Context.reports, hshape]
    cases Ty.ofName? name with
    | some τ => exact .pure _
    | none => exact (Does.report _).result rfl
  case array elem len =>
    simp only [Context.equation, Context.reports, hshape]
    exact .refuse _
  -- Nothing is asked for at the other shapes, which have no type.
  all_goals
    simp only [Context.equation, Context.reports, hshape]
    exact .pure _

end Rules

/-! ### Each node once -/

/-- Opening a node changes nothing about those that are done. -/
theorem done_opened_iff (hsize : id < s.progress.size) (hwaiting : s.progressOf id = .waiting)
    {x : NodeId} {τ : Ty} : (s.marked id .active).Done x τ ↔ s.Done x τ := by
  refine ⟨fun hx => ?_, (extends_opened hsize hwaiting).done x τ⟩
  unfold Done at hx ⊢
  by_cases hne : x = id
  · rw [hne, progressOf_marked_self hsize] at hx
    cases hx
  · rwa [progressOf_marked_of_ne hne] at hx

/-- When a rule is through, what it has reported is what its node is wrong with. -/
theorem Follows.close {s₂ : Typing} {τ : Ty} (hsize : id < s.progress.size)
    (hwaiting : s.progressOf id = .waiting) (hid : S id) (hτ : τ = F id)
    (hrule : Follows c S F (c.reports F id) (s.marked id .active) s₂) :
    Follows c S F [] s (s₂.marked id (.done τ)) := by
  obtain ⟨hextends, hself, hopen, hdone⟩ := extends_closed hsize hwaiting hrule.extends_ τ
  -- What was done before is another node, as this one is being inferred.
  have hne {x : NodeId} {σ : Ty} (hx : s₂.Done x σ) : x ≠ id := by
    rintro rfl
    unfold Done at hx
    rw [hopen] at hx
    cases hx
  -- Done in the end is what was done when the rule was through, and the node itself.
  have hcases (x : NodeId) (σ : Ty) : (s₂.marked id (.done τ)).Done x σ
      ↔ (x = id ∧ σ = τ) ∨ s₂.Done x σ := by
    constructor
    · intro hx
      by_cases heq : x = id
      · subst heq
        exact .inl ⟨rfl, (Done.unique hself hx).symm⟩
      · unfold Done at hx ⊢
        rw [progressOf_marked_of_ne heq] at hx
        exact .inr hx
    · rintro (⟨rfl, rfl⟩ | hx)
      · exact hself
      · exact hdone x σ hx
  have hnew (x : NodeId) : (∀ σ, ¬(s.marked id .active).Done x σ) ↔ ∀ σ, ¬s.Done x σ := by
    simp only [done_opened_iff hsize hwaiting]
  refine ⟨hextends, fun x hx => ?_, fun x σ hx => ?_, fun P => ?_⟩
  · -- A node that is being inferred was so before.
    have heq : x ≠ id := by
      rintro rfl
      unfold Done at hself
      rw [hself] at hx
      cases hx
    rw [progressOf_marked_of_ne heq] at hx
    have hactive := hrule.active x hx
    rwa [progressOf_marked_of_ne heq] at hactive
  · -- What is done now was done before, or it is the node itself.
    rcases (hcases x σ).1 hx with ⟨rfl, rfl⟩ | hx
    · exact .inr ⟨hid, hτ⟩
    · exact (hrule.done x σ hx).imp_left (done_opened_iff hsize hwaiting).1
  · -- The reports of the rule are now those of the node.
    have hproblems := hrule.problems P
    change P ∈ s₂.problems ↔ P ∈ s.problems ∨ _ at hproblems
    change P ∈ s₂.problems ↔ _
    rw [hproblems]
    simp only [hcases, hnew, List.not_mem_nil, false_or]
    refine or_congr_right ⟨?_, ?_⟩
    · rintro (hP | ⟨x, σ, hx, hwas, hP⟩)
      · refine ⟨id, τ, .inl ⟨rfl, rfl⟩, fun σ hσ => ?_, hP⟩
        unfold Done at hσ
        rw [hwaiting] at hσ
        cases hσ
      · exact ⟨x, σ, .inr hx, hwas, hP⟩
    · rintro ⟨x, σ, ⟨rfl, rfl⟩ | hx, hwas, hP⟩
      · exact .inl hP
      · exact .inr ⟨x, σ, hx, hwas, hP⟩

section

variable (hS : c.Ranked S rank) (hF : ∀ x, S x → F x = c.equation F x)

include hS hF

/-- **Typing a node once gives the type that the equation gives**, and reports the failed checks of
the nodes that are typed for it. -/
theorem nodeWithin_follows (hid : S id) (hsize : s.progress.size = c.tree.size)
    (hdepth : s.waitingCount < depth) (hopen : ∀ y, s.progressOf y = .active → rank id < rank y)
    (htyped : ∀ x τ, s.Done x τ → S x ∧ τ = F x) :
    Gives (nodeWithin c depth id) s fun τ s' =>
      (τ = F id ∧ Follows c S F [] s s') ∧ s'.Done id (F id) := by
  -- The depth is above the number of nodes that wait, so that it does not run out.
  induction depth generalizing id s with
  | zero => exact (Nat.not_lt_zero _ hdepth).elim
  | succ depth ih =>
    refine meets_bind.2 (meets_get.2 ?_)
    cases hprogress : s.progressOf id with
    | done σ =>
      have hσ := (htyped id σ hprogress).2
      exact meets_pure.2 ⟨⟨hσ, .refl s⟩, hσ ▸ hprogress⟩
    | active => exact (lt_irrefl _ (hopen id hprogress)).elim
    | waiting =>
      have hlt : id < s.progress.size := hsize ▸ hS.lt id hid
      have hopened : Opened c S F rank id depth (s.marked id .active) :=
        { size := (size_marked id _).trans hsize
          waiting := waitingCount_opened hlt hprogress hdepth
          opened := progressOf_marked_self hlt .active
          active := fun y hy => by
            by_cases hne : y = id
            · rw [hne]
            · rw [progressOf_marked_of_ne hne] at hy
              exact le_of_lt (hopen y hy)
          typed := fun x τ hx => htyped x τ ((done_opened_iff hlt hprogress).1 hx) }
      have hserves (x : NodeId) (hx : S x ∧ rank x < rank id) :
          Does c S F rank id depth (nodeWithin c depth x) (F x) [] := fun s₁ hs₁ =>
        (ih hx.1 hs₁.size hs₁.waiting (fun y hy => lt_of_lt_of_le hx.2 (hs₁.active y hy))
          hs₁.typed).mono fun _ _ h => h.1
      refine meets_bind.2 (meets_modify.2 ?_)
      refine (rule_does hserves hS hid _ hopened).bind fun τ s₂ ⟨hτ, hrule⟩ => ?_
      refine meets_bind.2 (meets_modify.2 (meets_pure.2 ?_))
      rw [← hF id hid] at hτ
      refine ⟨⟨hτ, hrule.close hlt hprogress hid hτ⟩, ?_⟩
      rw [← hτ]
      exact progressOf_marked_self (by rwa [hrule.extends_.size, size_marked]) _

/-- Nodes that are typed one after the other. -/
theorem forM_node_follows {xs : List NodeId} (hxs : ∀ x ∈ xs, S x)
    (hsize : s.progress.size = c.tree.size) (hdepth : s.waitingCount < c.tree.size + 1)
    (hopen : ∀ y, s.progressOf y ≠ .active) (htyped : ∀ x τ, s.Done x τ → S x ∧ τ = F x) :
    Gives (xs.forM fun x => discard (node c x)) s fun _ s' =>
      Follows c S F [] s s' ∧ ∀ x ∈ xs, s'.Done x (F x) := by
  induction xs generalizing s with
  | nil => exact meets_forM_nil.2 ⟨.refl s, fun x hx => by cases hx⟩
  | cons x xs ih =>
    refine meets_forM_cons.2 (Meets.discard ?_)
    refine (nodeWithin_follows hS hF (hxs x (.head _)) hsize hdepth
      (fun y hy => (hopen y hy).elim) htyped).mono fun τ s₁ ⟨⟨_, h₁⟩, hx⟩ => ?_
    refine (ih (fun y hy => hxs y (.tail _ hy)) (h₁.extends_.size.trans hsize)
      (Nat.lt_of_le_of_lt h₁.extends_.waitingCount_le hdepth) (fun y hy => hopen y (h₁.active y hy))
      fun y τ hy => (h₁.done y τ hy).elim (htyped y τ) fun h => h).mono fun _ s' ⟨h', hall⟩ => ?_
    refine ⟨h₁.trans h', fun y hy => ?_⟩
    rcases List.mem_cons.1 hy with rfl | hy
    · exact h'.extends_.done y _ hx
    · exact hall y hy

end

/-! ### Sections -/

/-- What is known of a typed section: some nodes of `S`, those of the section among them, have the
types that `F` gives, and the problems are their failed checks. -/
structure Typed (c : Context) (S : NodeId → Prop) (F : NodeId → Ty) (xs : List NodeId)
    (ty : Typing) : Prop where
  /-- The nodes of the section have the types that `F` gives. -/
  nodes : ∀ x ∈ xs, ty.Done x (F x)
  /-- So has every node that is done. -/
  done : ∀ x τ, ty.Done x τ → S x ∧ τ = F x
  /-- What is reported are the failed checks of the nodes that are done. -/
  problems : ∀ P, P ∈ ty.problems ↔ ∃ x τ, ty.Done x τ ∧ P ∈ c.reports F x

/-- **The problems of a typed section are the failed checks of its nodes**, and of the nodes outside
that have been typed for them. -/
theorem ofSection_typed {t : Tree} {links : Links} {sec : Section} {r : Resolution}
    (hS : Context.Ranked ⟨t, links, r⟩ S rank)
    (hF : ∀ x, S x → F x = Context.equation ⟨t, links, r⟩ F x)
    (hsec : ∀ x ∈ sec.nodes.toList, S x) :
    ∃ ty, ofSection t links sec r = .ok ty ∧ Typed ⟨t, links, r⟩ S F sec.nodes.toList ty := by
  have hwaiting : (start t.size).waitingCount < t.size + 1 := (ready_start ⟨t, links, r⟩).waiting
  have hprogress (x : NodeId) : (start t.size).progressOf x = .waiting := by
    unfold progressOf start
    simp only [Array.getElem?_replicate]
    split <;> rfl
  have hnone (x : NodeId) (τ : Ty) : ¬(start t.size).Done x τ := by
    unfold Done
    rw [hprogress]
    exact fun h => (by cases h)
  obtain ⟨_, ty, hrun, hfollows, hnodes⟩ := (forM_node_follows (s := start t.size) hS hF hsec
    (by simp [start]) hwaiting (fun y hy => by rw [hprogress] at hy; cases hy)
    fun x τ hx => (hnone x τ hx).elim).exists_ok
  refine ⟨ty, ?_, hnodes, fun x τ hx => (hfollows.done x τ hx).elim (fun h => (hnone x τ h).elim)
    fun h => h, fun P => ?_⟩
  · unfold ofSection
    simp only [bind, Except.bind, StateT.run]
    rw [hrun]
    rfl
  · have hempty : (start t.size).problems = #[] := rfl
    rw [hfollows.problems, hempty]
    simp [hnone]

/-- **A typed section solves its equations**: typing comes to its end, the type of every node is
what its equation gives, and no node depends on itself. -/
theorem ofSection_solves [WellFoundedLT α] {t : Tree} {links : Links} {sec : Section}
    {r : Resolution}
    (hS : Context.Ranked ⟨t, links, r⟩ S rank) (hsec : ∀ x, x ∈ sec.nodes.toList ↔ S x) :
    ∃ ty, ofSection t links sec r = .ok ty
      ∧ (∀ x, S x → ty.typeOf x = Context.equation ⟨t, links, r⟩ ty.typeOf x)
      ∧ Typed ⟨t, links, r⟩ S ty.typeOf sec.nodes.toList ty
      ∧ ∀ x, .selfReference x ∉ ty.problems := by
  obtain ⟨F, hF⟩ := hS.exists_solution
  obtain ⟨ty, hty, htyped⟩ := ofSection_typed hS hF fun x hx => (hsec x).1 hx
  have hsame (x : NodeId) (hx : S x) : ty.typeOf x = F x := (htyped.nodes x ((hsec x).2 hx)).typeOf
  have hsolves (x : NodeId) (hx : S x) :
      ty.typeOf x = Context.equation ⟨t, links, r⟩ ty.typeOf x := by
    rw [hsame x hx, hF x hx]
    exact (hS.equation_congr hx fun y hy _ => hsame y hy).symm
  -- The same run, seen with the types that it yields.
  obtain ⟨ty', hty', htyped'⟩ := ofSection_typed hS hsolves fun x hx => (hsec x).1 hx
  obtain rfl := Except.ok.inj (hty.symm.trans hty')
  refine ⟨ty, hty, hsolves, htyped', fun x hx => ?_⟩
  obtain ⟨y, τ, -, hreports⟩ := (htyped.problems _).1 hx
  exact Context.selfReference_notMem_reports hreports

end MiddleEnd.Typing
