import MiddleEnd.Proofs.Resolution
import MiddleEnd.Proofs.Typing.Tables

/-!
# Typing computes the judgement

A table that was computed without a problem gives every node the type that the judgement gives it,
and no node an error type.

## Main definitions

* `Typing.Context.Closed` — a set of nodes that no rule leaves.

## Main results

* `Typing.rule_sound` — a rule gives a type that the judgement gives.
* `Typing.nodeWithin_sound` — so does typing a node once.
* `Typing.wellTyped_of_ofSection` — a section without problems is well typed.
-/

namespace MiddleEnd.Typing

open Runs

variable {c : Context} {depth : Nat} {s s' : Typing}

/-! ### Closed sets of nodes -/

/-- A set of nodes of the tree that no rule leaves. -/
structure Context.Closed (c : Context) (S : NodeId → Prop) : Prop where
  /-- The nodes are in the tree. -/
  lt : ∀ x, S x → x < c.tree.size
  /-- Children are in the set. -/
  child : ∀ x, S x → ∀ y ∈ c.tree.children x, S y
  /-- Declarations of names are in the set. -/
  ident : ∀ x name, S x → c.tree.shape x = .ident name →
    ∃ decl, c.resolution.declaration? x = some decl ∧ S decl
      ∧ (c.tree.shape decl).isDeclaration = true
  /-- Procedures around a node are in the set. -/
  host : ∀ x p, S x → c.links.enclosingProcedure? c.tree x = some p → S p

variable {S : NodeId → Prop}

theorem Context.Closed.ungroup (hS : c.Closed S) {x : NodeId} (hx : S x) :
    S (c.tree.ungroup x) :=
  Tree.ungroup_induction hx fun y e _ he hy => hS.child y hy e he

/-- What a name of the set leads to is in it. -/
theorem Context.Closed.leads (hS : c.Closed S) {x e : NodeId} (hx : S x)
    (h : c.resolution.Leads c.tree e x) : S e := by
  obtain ⟨name, decl, hident, hbound, hdefinition⟩ := h
  obtain ⟨decl', hbound', hdecl, -⟩ := hS.ident _ name (hS.ungroup hx) hident
  obtain rfl : decl' = decl := Option.some.inj (hbound'.symm.trans hbound)
  exact hS.child _ hdecl e (Tree.child_of_definition? hdefinition)

theorem Context.Closed.target (hS : c.Closed S) {x p : NodeId} (hx : S x)
    (hp : c.resolution.procedureTarget? c.tree x = some p) : S p := by
  unfold Resolution.procedureTarget? at hp
  generalize c.tree.size + 1 = steps at hp
  induction steps generalizing x with
  | zero => cases hp
  | succ steps ih =>
    rcases Resolution.targetWithin?_succ_iff.1 hp with ⟨rfl, -⟩ | ⟨e, hleads, hp⟩
    · exact hS.ungroup hx
    · exact ih (hS.leads hx hleads) hp

/-- The declared result type of a procedure of the set is in it. -/
theorem Context.Closed.result (hS : c.Closed S) {p result : NodeId} (hp : S p)
    (h : (c.tree.shape p).result? = some result) : S result := by
  unfold Shape.result? at h
  split at h
  · next r body hshape =>
    exact hS.child p hp result (by simp [Tree.children, hshape, Shape.children, h])
  · cases h

theorem Context.Closed.calleeResult (hS : c.Closed S) {callee result : NodeId} (hx : S callee)
    (h : c.calleeResult? callee = some result) : S result := by
  obtain ⟨p, htarget, hresult⟩ := Option.bind_eq_some_iff.1 h
  exact hS.result (hS.target hx htarget) hresult

theorem Context.Closed.resultNode (hS : c.Closed S) {id result : NodeId} (hx : S id)
    (h : c.resultNode? id = some result) : S result := by
  obtain ⟨p, hhost, hresult⟩ := Option.bind_eq_some_iff.1 h
  exact hS.result (hS.host id p hx hhost) hresult

/-- A rule that asks whether a procedure declares a result type asks for the type. -/
theorem match_result? {α : Type} (o : Option NodeId) (f : NodeId → α) (a : α) :
    (match o.map c.tree.shape with
      | some (.procedure (some result) _) => f result
      | _ => a)
      = match o.bind fun p => (c.tree.shape p).result? with
        | some result => f result
        | none => a := by
  cases o with
  | none => rfl
  | some p =>
    simp only [Option.map_some, Option.bind_some]
    cases c.tree.shape p
    case procedure result body => cases result <;> rfl
    all_goals rfl

/-! ### Rules -/

theorem isError_wider {a b : Ty} (ha : a.isError = false) (hb : b.isError = false) :
    (Ty.wider a b).isError = false := by
  unfold Ty.wider
  split
  · exact hb
  · exact ha

/-- Two sound operands have a sound type or none. -/
theorem isError_promote {a b : Ty} (ha : a.isError = false) (hb : b.isError = false)
    (h : a.promote b ≠ .uncastable) : (a.promote b).isError = false := by
  unfold Ty.promote at h ⊢
  simp only [ha, hb, Bool.false_eq_true, if_false] at h ⊢
  repeat' split
  all_goals first
    | exact ha
    | exact hb
    | exact isError_wider ha hb
    | simp_all

theorem isError_withSign {a : Ty} {sign : Sign} (ha : a.isError = false)
    (h : a.withSign sign ≠ .uncastable) : (a.withSign sign).isError = false := by
  cases a <;> first | rfl | exact ha | exact (h rfl).elim

/-- No type that a program can name is an error. -/
theorem isError_ofName? {name : String} {σ : Ty} (h : Ty.ofName? name = some σ) :
    σ.isError = false := by
  have hall : ∀ τ ∈ Ty.builtin, τ.isError = false := by decide
  exact hall σ (List.mem_of_find?_eq_some h)

/-- A node that need not be there, with its type if it is. -/
inductive OptionallyDone (s : Typing) : Option NodeId → Option Ty → Prop
  /-- There is no node. -/
  | none : OptionallyDone s none none
  /-- The node is done, and its type is that of a value. -/
  | some {y : NodeId} {τ : Ty} (hdone : s.Done y τ) (herror : τ.isError = false) :
      OptionallyDone s (some y) (some τ)

theorem OptionallyDone.mono {s s' : Typing} {x : Option NodeId} {σ : Option Ty}
    (h : OptionallyDone s x σ) (hs : Extends s s') : OptionallyDone s' x σ := by
  cases h with
  | none => exact .none
  | some hdone herror => exact .some (hs.done _ _ hdone) herror

section Rules

variable {infer : NodeId → Infer Ty} {τ : Ty} (hS : c.Closed S)
  (ih : ∀ (x : NodeId), S x → ∀ (s s' : Typing) (τ : Ty), infer x s = .ok (τ, s') →
    Ready c depth s →
    Advances c depth s s' ∧ (s'.problems = #[] → s'.Done x τ ∧ τ.isError = false))

theorem isWritable_sound {target : NodeId} {b : Bool} (hS : c.Closed S) (ht : S target)
    (h : isWritable c target s = .ok (b, s')) (hs : Ready c depth s) :
    Advances c depth s s' ∧ (s'.problems = #[] → b = true ∧ c.IsVariable target) := by
  unfold isWritable at h
  simp only at h
  cases hident : c.tree.shape (c.tree.ungroup target)
  case ident name =>
    obtain ⟨decl, hdecl, -, -⟩ := hS.ident _ _ (hS.ungroup ht) hident
    simp only [hident, hdecl] at h
    cases hshape : c.tree.shape decl
    case var name ty init =>
      simp only [hshape] at h
      obtain ⟨rfl, rfl⟩ := pure_ok.1 h
      exact ⟨hs.refl, fun _ => ⟨rfl, decl, name, ty, init, hdecl, hshape, _, hident⟩⟩
    case constant name definition =>
      simp only [hshape] at h
      obtain ⟨_, s₁, hreport, h⟩ := bind_ok.1 h
      obtain ⟨rfl, rfl⟩ := pure_ok.1 h
      exact hs.refl.reported hreport
    all_goals
      simp only [hshape] at h
      exact (throw_ok.1 h).elim
  all_goals
    simp only [hident] at h
    obtain ⟨_, s₁, hreport, h⟩ := bind_ok.1 h
    obtain ⟨rfl, rfl⟩ := pure_ok.1 h
    exact hs.refl.reported hreport

/-- A literal whose value is recorded has the type that goes with the value. -/
theorem recorded_sound {id : NodeId} {lit : Literal} {v : LiteralValue} {σ : Ty}
    (hshape : c.tree.shape id = .literal lit) (hv : lit.value? = some v)
    (hid : s.progressOf id = .active)
    (h : (do record id v; return σ : Infer Ty) s = .ok (τ, s')) (hs : Ready c depth s)
    (hσ : s'.literal? id = some v → HasType c s' id (.literal lit) σ) (herror : σ.isError = false) :
    Advances c depth s s'
      ∧ (s'.problems = #[] → HasType c s' id (.literal lit) τ ∧ τ.isError = false) := by
  obtain ⟨_, s₁, hrecord, h⟩ := bind_ok.1 h
  obtain ⟨rfl, rfl⟩ := pure_ok.1 h
  obtain ⟨hadv, hliteral⟩ := record_advances hshape hv hrecord hs hid
  exact ⟨hadv, fun _ => ⟨hσ hliteral, herror⟩⟩

theorem literalRule_sound {id : NodeId} {lit : Literal}
    (hshape : c.tree.shape id = .literal lit) (hid : s.progressOf id = .active)
    (h : literalRule id lit s = .ok (τ, s')) (hs : Ready c depth s) :
    Advances c depth s s'
      ∧ (s'.problems = #[] → HasType c s' id (.literal lit) τ ∧ τ.isError = false) := by
  cases lit with
  | number spelling =>
    -- A number that cannot be read is reported.
    unfold literalRule at h
    cases hspelled : Spelled.ofText spelling with
    | error e =>
      simp only [hspelled] at h
      exact hs.refl.refused h
    | ok value =>
      simp only [hspelled] at h
      cases value with
      | decimal n =>
        exact recorded_sound hshape (by simp [Literal.value?, hspelled]) hid h hs
          (.decimal hspelled) rfl
      | octal n =>
        exact recorded_sound hshape (by simp [Literal.value?, hspelled]) hid h hs
          (.octal hspelled) rfl
      | float bits =>
        exact recorded_sound hshape (by simp [Literal.value?, hspelled]) hid h hs
          (.float hspelled) rfl
  | char ch => exact recorded_sound hshape rfl hid h hs .char rfl
  | text contents =>
    obtain ⟨rfl, rfl⟩ := pure_ok.1 h
    exact ⟨hs.refl, fun _ => ⟨.text, rfl⟩⟩

include ih

theorem optionalRule_sound {x : Option NodeId} {σ : Option Ty} (hx : ∀ y, x = some y → S y)
    (h : optionalRule infer x s = .ok (σ, s')) (hs : Ready c depth s) :
    Advances c depth s s' ∧ (s'.problems = #[] → OptionallyDone s' x σ) := by
  cases x with
  | none =>
    obtain ⟨rfl, rfl⟩ := pure_ok.1 h
    exact ⟨hs.refl, fun _ => .none⟩
  | some y =>
    obtain ⟨τ, s₁, hy, h⟩ := bind_ok.1 h
    obtain ⟨rfl, rfl⟩ := pure_ok.1 h
    obtain ⟨hadv, hdone⟩ := ih y (hx y rfl) _ _ _ hy hs
    exact ⟨hadv, fun hp => .some (hdone hp).1 (hdone hp).2⟩

theorem varRule_sound {id : NodeId} {name : String} {ty init : Option NodeId}
    (hty : ∀ y, ty = some y → S y) (hinit : ∀ y, init = some y → S y)
    (h : varRule infer id name ty init s = .ok (τ, s')) (hs : Ready c depth s) :
    Advances c depth s s'
      ∧ (s'.problems = #[] → HasType c s' id (.var name ty init) τ ∧ τ.isError = false) := by
  obtain ⟨declared, s₁, hdeclared, h⟩ := bind_ok.1 h
  obtain ⟨initial, s₂, hinitial, h⟩ := bind_ok.1 h
  obtain ⟨hadv₁, hdone₁⟩ := optionalRule_sound ih hty hdeclared hs
  obtain ⟨hadv₂, hdone₂⟩ := optionalRule_sound ih hinit hinitial hadv₁.ready
  have hadv := hadv₁.trans hadv₂
  -- Whatever is reported on the way is still there at the end.
  have hdone₁ (hp : s₂.problems = #[]) := (hdone₁ (hadv₂.extends_.problems hp)).mono hadv₂.extends_
  cases declared with
  | none =>
    cases initial with
    | none =>
      exact hadv.refused h
    | some source =>
      obtain ⟨rfl, rfl⟩ := pure_ok.1 h
      refine ⟨hadv, fun hp => ?_⟩
      cases hdone₁ hp
      cases hdone₂ hp with
      | some hdone herror => exact ⟨.varInferred hdone, herror⟩
  | some dest =>
    cases initial with
    | none =>
      obtain ⟨rfl, rfl⟩ := pure_ok.1 h
      refine ⟨hadv, fun hp => ?_⟩
      cases hdone₂ hp
      cases hdone₁ hp with
      | some hdone herror => exact ⟨.varDeclared hdone, herror⟩
    | some source =>
      -- Both are there, so the value has to fit the type.
      cases hassign : Ty.canAssign dest source with
      | true =>
        simp only [hassign, Bool.not_true, Bool.false_eq_true, if_false] at h
        obtain ⟨rfl, rfl⟩ := pure_ok.1 h
        refine ⟨hadv, fun hp => ?_⟩
        cases hdone₁ hp with
        | some hdone herror =>
          cases hdone₂ hp with
          | some hdone' _ => exact ⟨.var hdone hdone' hassign, herror⟩
      | false =>
        simp only [hassign, Bool.not_false, if_true] at h
        cases init with
        | none =>
          obtain ⟨rfl, rfl⟩ := pure_ok.1 h
          exact ⟨hadv, fun hp => (by cases hdone₂ hp)⟩
        | some i =>
          obtain ⟨_, s₃, hreport, h⟩ := bind_ok.1 h
          obtain ⟨rfl, rfl⟩ := pure_ok.1 h
          exact hadv.reported hreport

theorem binaryRule_sound {id left op right : NodeId} (hleft : S left) (hop : S op)
    (hright : S right) (h : binaryRule infer id left op right s = .ok (τ, s'))
    (hs : Ready c depth s) :
    Advances c depth s s'
      ∧ (s'.problems = #[] → HasType c s' id (.binary left op right) τ ∧ τ.isError = false) := by
  obtain ⟨a, s₁, hl, h⟩ := bind_ok.1 h
  obtain ⟨_, s₂, ho, h⟩ := bind_ok.1 h
  obtain ⟨b, s₃, hr, h⟩ := bind_ok.1 h
  obtain ⟨hadv₁, hdone₁⟩ := ih left hleft _ _ _ hl hs
  obtain ⟨hadv₂, -⟩ := ih op hop _ _ _ ho hadv₁.ready
  obtain ⟨hadv₃, hdone₃⟩ := ih right hright _ _ _ hr hadv₂.ready
  have hlater := hadv₂.trans hadv₃
  have hadv := hadv₁.trans hlater
  by_cases hreports : a.promote b = .uncastable ∧ (!a.isError) = true ∧ (!b.isError) = true
  · simp only [if_pos hreports] at h
    obtain ⟨_, s₄, hreport, h⟩ := bind_ok.1 h
    obtain ⟨rfl, rfl⟩ := pure_ok.1 h
    exact hadv.reported hreport
  · simp only [if_neg hreports] at h
    obtain ⟨rfl, rfl⟩ := pure_ok.1 h
    refine ⟨hadv, fun hp => ?_⟩
    obtain ⟨hda, hea⟩ := hdone₁ (hlater.extends_.problems hp)
    obtain ⟨hdb, heb⟩ := hdone₃ hp
    have hpromote : a.promote b ≠ .uncastable := fun h => hreports ⟨h, by simp [hea], by simp [heb]⟩
    exact ⟨.binary (hlater.extends_.done _ _ hda) hdb hpromote, isError_promote hea heb hpromote⟩

theorem signedRule_sound {id op x : NodeId} (hop : S op) (hx : S x)
    (h : signedRule c infer id op x s = .ok (τ, s')) (hs : Ready c depth s) :
    Advances c depth s s'
      ∧ (s'.problems = #[] → HasType c s' id (.signed op x) τ ∧ τ.isError = false) := by
  obtain ⟨_, s₁, ho, h⟩ := bind_ok.1 h
  obtain ⟨a, s₂, hx', h⟩ := bind_ok.1 h
  obtain ⟨hadv₁, -⟩ := ih op hop _ _ _ ho hs
  obtain ⟨hadv₂, hdone₂⟩ := ih x hx _ _ _ hx' hadv₁.ready
  have hadv := hadv₁.trans hadv₂
  cases hshape : c.tree.shape op
  case signOp sign =>
    simp only [hshape] at h
    by_cases hreports : a.withSign sign = .uncastable ∧ (!a.isError) = true
    · simp only [if_pos hreports] at h
      obtain ⟨_, s₄, hreport, h⟩ := bind_ok.1 h
      obtain ⟨rfl, rfl⟩ := pure_ok.1 h
      exact hadv.reported hreport
    · simp only [if_neg hreports] at h
      obtain ⟨rfl, rfl⟩ := pure_ok.1 h
      refine ⟨hadv, fun hp => ?_⟩
      obtain ⟨hdone, herror⟩ := hdone₂ hp
      have hsign : a.withSign sign ≠ .uncastable := fun h => hreports ⟨h, by simp [herror]⟩
      exact ⟨.signed hshape hdone hsign, isError_withSign herror hsign⟩
  all_goals
    simp only [hshape] at h
    exact (throw_ok.1 h).elim

include hS

theorem callRule_sound {id callee : NodeId} (hcallee : S callee)
    (h : callRule c infer id callee s = .ok (τ, s')) (hs : Ready c depth s) :
    Advances c depth s s'
      ∧ (s'.problems = #[] → HasType c s' id (.call callee) τ ∧ τ.isError = false) := by
  obtain ⟨σ, s₁, hc, h⟩ := bind_ok.1 h
  obtain ⟨hadv₁, hdone₁⟩ := ih callee hcallee _ _ _ hc hs
  cases herror : σ.isError with
  | true =>
    simp only [herror, if_true] at h
    obtain ⟨rfl, rfl⟩ := pure_ok.1 h
    exact ⟨hadv₁, fun hp => absurd (hdone₁ hp).2 (by simp [herror])⟩
  | false =>
    simp only [herror, Bool.false_eq_true, if_false] at h
    -- The result is asked for only where the callee is a procedure.
    by_cases hσ : σ = .procedure
    · subst hσ
      simp only [ne_eq, not_true_eq_false, if_false] at h
      have hresult : (match c.calleeResult? callee with
          | some result => infer result
          | none => return .empty : Infer Ty) s₁ = .ok (τ, s') :=
        (congrFun (match_result? (c := c) (c.resolution.procedureTarget? c.tree callee) infer
          (return .empty)) s₁).symm.trans h
      cases hnode : c.calleeResult? callee with
      | none =>
        rw [hnode] at hresult
        obtain ⟨rfl, rfl⟩ := pure_ok.1 hresult
        exact ⟨hadv₁, fun hp => ⟨.callEmpty (hdone₁ hp).1 hnode, rfl⟩⟩
      | some result =>
        rw [hnode] at hresult
        obtain ⟨hadv₂, hdone₂⟩ :=
          ih result (hS.calleeResult hcallee hnode) _ _ _ hresult hadv₁.ready
        refine ⟨hadv₁.trans hadv₂, fun hp => ?_⟩
        obtain ⟨hdone, hτ⟩ := hdone₂ hp
        have hproc := (hdone₁ (hadv₂.extends_.problems hp)).1
        exact ⟨.callTyped (hadv₂.extends_.done _ _ hproc) hnode hdone, hτ⟩
    · simp only [ne_eq, hσ, not_false_eq_true, if_true] at h
      exact hadv₁.refused h

omit hS in
theorem castRule_sound {id x y : NodeId} (hx : S x) (hy : S y)
    (h : castRule infer id x y s = .ok (τ, s')) (hs : Ready c depth s) :
    Advances c depth s s'
      ∧ (s'.problems = #[] → HasType c s' id (.cast x y) τ ∧ τ.isError = false) := by
  obtain ⟨a, s₁, ha, h⟩ := bind_ok.1 h
  obtain ⟨b, s₂, hb, h⟩ := bind_ok.1 h
  obtain ⟨hadv₁, hdone₁⟩ := ih x hx _ _ _ ha hs
  obtain ⟨hadv₂, hdone₂⟩ := ih y hy _ _ _ hb hadv₁.ready
  have hadv := hadv₁.trans hadv₂
  -- A part that is an error is not reported again.
  cases hea : a.isError with
  | true =>
    simp only [hea, if_true] at h
    obtain ⟨rfl, rfl⟩ := pure_ok.1 h
    exact ⟨hadv, fun hp => absurd (hdone₁ (hadv₂.extends_.problems hp)).2 (by simp [hea])⟩
  | false =>
    simp only [hea, Bool.false_eq_true, if_false] at h
    cases heb : b.isError with
    | true =>
      simp only [heb, if_true] at h
      obtain ⟨rfl, rfl⟩ := pure_ok.1 h
      exact ⟨hadv, fun hp => absurd (hdone₂ hp).2 (by simp [heb])⟩
    | false =>
      simp only [heb, Bool.false_eq_true, if_false] at h
      cases hcast : Ty.canCast a b with
      | true =>
        simp only [hcast, Bool.not_true, Bool.false_eq_true, if_false] at h
        obtain ⟨rfl, rfl⟩ := pure_ok.1 h
        refine ⟨hadv, fun hp => ⟨.cast ?_ (hdone₂ hp).1 hcast, heb⟩⟩
        exact hadv₂.extends_.done _ _ (hdone₁ (hadv₂.extends_.problems hp)).1
      | false =>
        simp only [hcast, Bool.not_false, if_true] at h
        exact hadv.refused h

omit hS in
/-- Nodes that are typed one after the other. -/
theorem forM_sound {xs : List NodeId} {u : Unit} (hxs : ∀ x ∈ xs, S x)
    (h : (xs.forM fun x => discard (infer x)) s = .ok (u, s')) (hs : Ready c depth s) :
    Advances c depth s s' ∧ (s'.problems = #[] → ∀ x ∈ xs, ∃ τ, s'.Done x τ) := by
  induction xs generalizing s with
  | nil =>
    obtain rfl := forM_nil_ok.1 h
    exact ⟨hs.refl, fun _ _ hx => by cases hx⟩
  | cons x xs ihxs =>
    obtain ⟨s₁, hone, hrest⟩ := forM_cons_ok.1 h
    obtain ⟨σ, hx⟩ := discard_ok.1 hone
    obtain ⟨hadv₁, hdone₁⟩ := ih x (hxs x (.head _)) _ _ _ hx hs
    obtain ⟨hadv₂, hdone₂⟩ := ihxs (fun y hy => hxs y (.tail _ hy)) hrest hadv₁.ready
    refine ⟨hadv₁.trans hadv₂, fun hp y hy => ?_⟩
    rcases List.mem_cons.1 hy with rfl | hy
    · exact ⟨σ, hadv₂.extends_.done _ _ (hdone₁ (hadv₂.extends_.problems hp)).1⟩
    · exact hdone₂ hp y hy

theorem nativeRule_sound {id : NodeId} {source : String} {inputs : List NodeId}
    {output : Option NodeId} (hin : ∀ x ∈ inputs, S x) (hout : ∀ x, output = some x → S x)
    (h : nativeRule c infer inputs output s = .ok (τ, s')) (hs : Ready c depth s) :
    Advances c depth s s'
      ∧ (s'.problems = #[] → HasType c s' id (.native source inputs output) τ
        ∧ τ.isError = false) := by
  obtain ⟨_, s₁, hinputs, h⟩ := bind_ok.1 h
  obtain ⟨hadv₁, hdone₁⟩ := forM_sound ih hin hinputs hs
  -- With an output the type is that of its target.
  cases output with
  | none =>
    obtain ⟨rfl, rfl⟩ := pure_ok.1 h
    exact ⟨hadv₁, fun hp => ⟨.nativeSilent (hdone₁ hp), rfl⟩⟩
  | some o =>
    obtain ⟨σ, s₂, ho, h⟩ := bind_ok.1 h
    obtain ⟨hadv₂, hdone₂⟩ := ih o (hout o rfl) _ _ _ ho hadv₁.ready
    have hinputs {s₃ : Typing} (hadv₃ : Advances c depth s₂ s₃) (hp : s₃.problems = #[]) :
        ∀ input ∈ inputs, ∃ τ, s₃.Done input τ := by
      intro input hinput
      have hlater := hadv₂.extends_.trans hadv₃.extends_
      obtain ⟨τ, hτ⟩ := hdone₁ (hlater.problems hp) input hinput
      exact ⟨τ, hlater.done _ _ hτ⟩
    cases hshape : c.tree.shape o
    case slot target offset =>
      simp only [hshape] at h
      obtain ⟨b, s₃, hwritable, h⟩ := bind_ok.1 h
      obtain ⟨rfl, rfl⟩ := pure_ok.1 h
      have htarget : S target :=
        hS.child o (hout o rfl) target (by simp [Tree.children, hshape, Shape.children])
      obtain ⟨hadv₃, hvariable⟩ := isWritable_sound hS htarget hwritable hadv₂.ready
      refine ⟨(hadv₁.trans hadv₂).trans hadv₃, fun hp => ?_⟩
      obtain ⟨hdone, herror⟩ := hdone₂ (hadv₃.extends_.problems hp)
      refine ⟨.native (hinputs hadv₃ hp) (hadv₃.extends_.done _ _ hdone) ?_, herror⟩
      intro target' offset' hslot
      rw [hshape] at hslot
      cases hslot
      exact (hvariable hp).2
    all_goals
      simp only [hshape] at h
      obtain ⟨rfl, rfl⟩ := pure_ok.1 h
      refine ⟨hadv₁.trans hadv₂, fun hp => ?_⟩
      obtain ⟨hdone, herror⟩ := hdone₂ hp
      exact ⟨.native (hinputs hadv₂.ready.refl hp) hdone (by simp [hshape]), herror⟩

omit hS in
theorem slotRule_sound {id target : NodeId} {offset : Nat} (ht : S target)
    (h : slotRule infer id target s = .ok (τ, s')) (hs : Ready c depth s) :
    Advances c depth s s'
      ∧ (s'.problems = #[] → HasType c s' id (.slot target offset) τ ∧ τ.isError = false) := by
  obtain ⟨σ, s₁, hx, h⟩ := bind_ok.1 h
  obtain ⟨hadv₁, hdone₁⟩ := ih target ht _ _ _ hx hs
  by_cases hreports : (!σ.isError) = true ∧ (!σ.isNumeric) = true ∧ σ ≠ .char
  · simp only [if_pos hreports] at h
    obtain ⟨_, s₂, hreport, h⟩ := bind_ok.1 h
    obtain ⟨rfl, rfl⟩ := pure_ok.1 h
    exact hadv₁.reported hreport
  · simp only [if_neg hreports] at h
    obtain ⟨rfl, rfl⟩ := pure_ok.1 h
    refine ⟨hadv₁, fun hp => ?_⟩
    obtain ⟨hdone, herror⟩ := hdone₁ hp
    refine ⟨.slot hdone ?_, herror⟩
    by_cases hnumeric : σ.isNumeric = true
    · exact .inl hnumeric
    · refine .inr (Classical.byContradiction fun hchar => hreports ?_)
      exact ⟨by simp [herror], by simp [hnumeric], hchar⟩

theorem storeRule_sound {target value : NodeId} {u : Unit} (ht : S target) (hv : S value)
    (h : storeRule c infer target value s = .ok (u, s')) (hs : Ready c depth s) :
    Advances c depth s s' ∧ (s'.problems = #[] → CanStore c s' target value) := by
  obtain ⟨δ, s₁, hx, h⟩ := bind_ok.1 h
  obtain ⟨σ, s₂, hy, h⟩ := bind_ok.1 h
  obtain ⟨b, s₃, hwritable, h⟩ := bind_ok.1 h
  obtain ⟨hadv₁, hdone₁⟩ := ih target ht _ _ _ hx hs
  obtain ⟨hadv₂, hdone₂⟩ := ih value hv _ _ _ hy hadv₁.ready
  obtain ⟨hadv₃, hvariable⟩ := isWritable_sound hS ht hwritable hadv₂.ready
  have hadv := (hadv₁.trans hadv₂).trans hadv₃
  have hreported {p : TypeProblem} (h : report p s₃ = .ok (u, s')) :
      Advances c depth s s' ∧ (s'.problems = #[] → CanStore c s' target value) := by
    exact hadv.reported h
  -- The target has to be a variable; then it has to take the type.
  cases b with
  | false =>
    simp only [Bool.false_eq_true, if_false] at h
    obtain ⟨-, rfl⟩ := pure_ok.1 h
    exact ⟨hadv, fun hp => by cases (hvariable hp).1⟩
  | true =>
    simp only [if_true] at h
    by_cases hprocedure : δ = .procedure
    · simp only [if_pos hprocedure] at h
      exact hreported h
    · simp only [if_neg hprocedure] at h
      cases hassign : Ty.canAssign δ σ with
      | false =>
        simp only [hassign, Bool.not_false, if_true] at h
        exact hreported h
      | true =>
        simp only [hassign, Bool.not_true, Bool.false_eq_true, if_false] at h
        obtain ⟨-, rfl⟩ := pure_ok.1 h
        refine ⟨hadv, fun hp => ?_⟩
        have hp₂ := hadv₃.extends_.problems hp
        have hδ := (hdone₁ (hadv₂.extends_.problems hp₂)).1
        exact ⟨δ, σ, hadv₃.extends_.done _ _ (hadv₂.extends_.done _ _ hδ),
          hadv₃.extends_.done _ _ (hdone₂ hp₂).1, (hvariable hp).2, hprocedure, hassign⟩

theorem parallelRule_sound {id : NodeId} {targets values : List NodeId} {u : Unit}
    (ht : ∀ x ∈ targets, S x) (hv : ∀ x ∈ values, S x)
    (h : parallelRule c infer id targets values s = .ok (u, s')) (hs : Ready c depth s) :
    Advances c depth s s'
      ∧ (s'.problems = #[] → HasType c s' id (.parallel targets values) .empty) := by
  unfold parallelRule at h
  by_cases hlength : targets.length = values.length
  · simp only [if_pos hlength] at h
    have hpairs : ∀ pair ∈ targets.zip values, S pair.1 ∧ S pair.2 := fun pair hpair =>
      ⟨ht _ (List.of_mem_zip hpair).1, hv _ (List.of_mem_zip hpair).2⟩
    -- Without a report every pair can be stored.
    suffices hstores : Advances c depth s s'
        ∧ (s'.problems = #[] → ∀ pair ∈ targets.zip values, CanStore c s' pair.1 pair.2) from
      ⟨hstores.1, fun hp => .parallel hlength (hstores.2 hp)⟩
    generalize targets.zip values = pairs at h hpairs ⊢
    induction pairs generalizing s with
    | nil =>
      obtain rfl := forM_nil_ok.1 h
      exact ⟨hs.refl, fun _ _ hpair => by cases hpair⟩
    | cons pair pairs ihpairs =>
      obtain ⟨s₁, hone, hrest⟩ := forM_cons_ok.1 h
      obtain ⟨hp₁, hp₂⟩ := hpairs pair (.head _)
      obtain ⟨hadv₁, hstore₁⟩ := storeRule_sound hS ih hp₁ hp₂ hone hs
      obtain ⟨hadv₂, hstores⟩ :=
        ihpairs hadv₁.ready hrest fun q hq => hpairs q (.tail _ hq)
      refine ⟨hadv₁.trans hadv₂, fun hp q hq => ?_⟩
      rcases List.mem_cons.1 hq with rfl | hq
      · exact (hstore₁ (hadv₂.extends_.problems hp)).mono hadv₂.extends_.done
      · exact hstores hp q hq
  · -- Targets and values that do not match are typed all the same, and reported.
    simp only [if_neg hlength] at h
    obtain ⟨_, s₁, hall, h⟩ := bind_ok.1 h
    have hboth : ∀ x ∈ targets ++ values, S x := fun x hx =>
      (List.mem_append.1 hx).elim (ht x) (hv x)
    obtain ⟨hadv₁, -⟩ := forM_sound ih hboth hall hs
    exact hadv₁.reported h

/-- What a return checks in a procedure whose result is `result`. -/
def checkReturn (infer : NodeId → Infer Ty) (id : NodeId) (value : Option NodeId)
    (valueTy : Option Ty) (result : NodeId) : Infer Unit := do
  let resultTy ← infer result
  match value, valueTy with
  | some value, some valueTy =>
    if !Ty.canAssign resultTy valueTy then report (.returnType value result valueTy resultTy)
  | _, _ =>
    if resultTy ≠ .empty ∧ !resultTy.isError then report (.missingReturn id resultTy)

theorem returnRule_sound {id : NodeId} {value : Option NodeId} {u : Unit} (hid : S id)
    (hv : ∀ x, value = some x → S x) (h : returnRule c infer id value s = .ok (u, s'))
    (hs : Ready c depth s) :
    Advances c depth s s' ∧ (s'.problems = #[] → HasType c s' id (.ret value) .empty) := by
  obtain ⟨valueTy, s₁, hvalue, h⟩ := bind_ok.1 h
  obtain ⟨hadv₁, hdone₁⟩ := optionalRule_sound ih hv hvalue hs
  let check := checkReturn infer id value valueTy
  have hresult : (match c.resultNode? id with
      | some result => check result
      | none => return : Infer Unit) s₁ = .ok (u, s') :=
    (congrFun (match_result? (c := c) (c.links.enclosingProcedure? c.tree id) check
      (return)) s₁).symm.trans h
  cases hnode : c.resultNode? id with
  -- No result is declared, so there is nothing to compare with.
  | none =>
    rw [hnode] at hresult
    obtain ⟨-, rfl⟩ := pure_ok.1 hresult
    refine ⟨hadv₁, fun hp => .retFree hnode fun v hv => ?_⟩
    cases hdone₁ hp with
    | none => cases hv
    | some hdone =>
      cases hv
      exact ⟨_, hdone⟩
  | some result =>
    -- The value has to fit the declared result.
    simp only [hnode] at hresult
    obtain ⟨ρ, s₂, hr, hresult⟩ := bind_ok.1 hresult
    obtain ⟨hadv₂, hdone₂⟩ := ih result (hS.resultNode hid hnode) _ _ _ hr hadv₁.ready
    have hadv := hadv₁.trans hadv₂
    have hreported {p : TypeProblem} (h : report p s₂ = .ok (u, s')) :
        Advances c depth s s' ∧ (s'.problems = #[] → HasType c s' id (.ret value) .empty) := by
      exact hadv.reported h
    split at hresult
    · next v σ _ _ =>
      cases hassign : Ty.canAssign ρ σ with
      | false =>
        simp only [hassign, Bool.not_false, if_true] at hresult
        exact hreported hresult
      | true =>
        simp only [hassign, Bool.not_true, Bool.false_eq_true, if_false] at hresult
        obtain ⟨-, rfl⟩ := pure_ok.1 hresult
        refine ⟨hadv, fun hp => ?_⟩
        cases hdone₁ (hadv₂.extends_.problems hp) with
        | some hdone =>
          exact .retValue hnode (hdone₂ hp).1 (hadv₂.extends_.done _ _ hdone) hassign
    · -- Without a value the declared result has to be empty.
      next hnone =>
      by_cases hreports : ρ ≠ .empty ∧ (!ρ.isError) = true
      · simp only [if_pos hreports] at hresult
        exact hreported hresult
      · simp only [if_neg hreports] at hresult
        obtain ⟨-, rfl⟩ := pure_ok.1 hresult
        refine ⟨hadv, fun hp => ?_⟩
        obtain ⟨hdone, herror⟩ := hdone₂ hp
        have hempty : ρ = .empty :=
          Classical.byContradiction fun hne => hreports ⟨hne, by simp [herror]⟩
        cases hdone₁ (hadv₂.extends_.problems hp) with
        | none => exact .retNothing hnode (hempty ▸ hdone)
        | some => exact (hnone _ _ rfl rfl).elim

/-- **A rule gives a type that the judgement gives**, if nothing is reported. -/
theorem rule_sound {id : NodeId} (hid : S id) (hactive : s.progressOf id = .active)
    (h : rule c infer id s = .ok (τ, s')) (hs : Ready c depth s) :
    Advances c depth s s'
      ∧ (s'.problems = #[] → HasType c s' id (c.tree.shape id) τ ∧ τ.isError = false) := by
  have hchild : ∀ y ∈ (c.tree.shape id).children, S y := hS.child id hid
  unfold rule at h
  cases hshape : c.tree.shape id <;> simp only [hshape] at h hchild
  case constant name x =>
    obtain ⟨hadv, hdone⟩ := ih x (hchild x (by simp [Shape.children])) _ _ _ h hs
    exact ⟨hadv, fun hp => ⟨.constant (hdone hp).1, (hdone hp).2⟩⟩
  case var name ty init =>
    exact varRule_sound ih (fun y hy => hchild y (by simp [Shape.children, hy]))
      (fun y hy => hchild y (by simp [Shape.children, hy])) h hs
  case procedure result body =>
    obtain ⟨rfl, rfl⟩ := pure_ok.1 h
    exact ⟨hs.refl, fun _ => ⟨.procedure, rfl⟩⟩
  case exprStmt x =>
    obtain ⟨σ, s₁, hx, h⟩ := bind_ok.1 h
    obtain ⟨rfl, rfl⟩ := pure_ok.1 h
    obtain ⟨hadv, hdone⟩ := ih x (hchild x (by simp [Shape.children])) _ _ _ hx hs
    exact ⟨hadv, fun hp => ⟨.exprStmt (hdone hp).1, rfl⟩⟩
  case assign target value =>
    obtain ⟨_, s₁, hstore, h⟩ := bind_ok.1 h
    obtain ⟨rfl, rfl⟩ := pure_ok.1 h
    obtain ⟨hadv, hcan⟩ := storeRule_sound hS ih (hchild target (by simp [Shape.children]))
      (hchild value (by simp [Shape.children])) hstore hs
    exact ⟨hadv, fun hp => ⟨.assign (hcan hp), rfl⟩⟩
  case parallel targets values =>
    obtain ⟨_, s₁, hstores, h⟩ := bind_ok.1 h
    obtain ⟨rfl, rfl⟩ := pure_ok.1 h
    obtain ⟨hadv, hcan⟩ := parallelRule_sound hS ih
      (fun x hx => hchild x (by simp [Shape.children, hx]))
      (fun x hx => hchild x (by simp [Shape.children, hx])) hstores hs
    exact ⟨hadv, fun hp => ⟨hcan hp, rfl⟩⟩
  case ret value =>
    obtain ⟨_, s₁, hreturn, h⟩ := bind_ok.1 h
    obtain ⟨rfl, rfl⟩ := pure_ok.1 h
    obtain ⟨hadv, hcan⟩ := returnRule_sound hS ih hid
      (fun x hx => hchild x (by simp [Shape.children, hx])) hreturn hs
    exact ⟨hadv, fun hp => ⟨hcan hp, rfl⟩⟩
  case literal lit => exact literalRule_sound hshape hactive h hs
  case ident name =>
    obtain ⟨decl, hdecl, hdeclS, -⟩ := hS.ident id name hid hshape
    simp only [hdecl] at h
    obtain ⟨hadv, hdone⟩ := ih decl hdeclS _ _ _ h hs
    exact ⟨hadv, fun hp => ⟨.ident hdecl (hdone hp).1, (hdone hp).2⟩⟩
  case binary left op right =>
    exact binaryRule_sound ih (hchild left (by simp [Shape.children]))
      (hchild op (by simp [Shape.children])) (hchild right (by simp [Shape.children])) h hs
  case signed op x =>
    exact signedRule_sound ih (hchild op (by simp [Shape.children]))
      (hchild x (by simp [Shape.children])) h hs
  case group x =>
    obtain ⟨hadv, hdone⟩ := ih x (hchild x (by simp [Shape.children])) _ _ _ h hs
    exact ⟨hadv, fun hp => ⟨.group (hdone hp).1, (hdone hp).2⟩⟩
  case call callee =>
    exact callRule_sound hS ih (hchild callee (by simp [Shape.children])) h hs
  case cast x y =>
    exact castRule_sound ih (hchild x (by simp [Shape.children]))
      (hchild y (by simp [Shape.children])) h hs
  case native source inputs output =>
    exact nativeRule_sound hS ih (fun x hx => hchild x (by simp [Shape.children, hx]))
      (fun x hx => hchild x (by simp [Shape.children, hx])) h hs
  case slot target offset =>
    exact slotRule_sound ih (hchild target (by simp [Shape.children])) h hs
  case typeName name =>
    unfold typeNameRule at h
    cases hname : Ty.ofName? name with
    | none =>
      simp only [hname] at h
      obtain ⟨_, s₁, hreport, h⟩ := bind_ok.1 h
      obtain ⟨rfl, rfl⟩ := pure_ok.1 h
      exact hs.refl.reported hreport
    | some σ =>
      simp only [hname] at h
      obtain ⟨rfl, rfl⟩ := pure_ok.1 h
      exact ⟨hs.refl, fun _ => ⟨.typeName hname, isError_ofName? hname⟩⟩
  case array elem len =>
    exact hs.refl.refused h
  -- Everything else is `empty` whatever stands below it.
  all_goals
    obtain ⟨rfl, rfl⟩ := pure_ok.1 h
    exact ⟨hs.refl, fun _ => ⟨by constructor, rfl⟩⟩

end Rules

/-! ### Each node once -/

/-- Typing a node once gives it the type that the judgement gives it. -/
theorem nodeWithin_sound (hS : c.Closed S) {id : NodeId} {τ : Ty} (hid : S id)
    (h : nodeWithin c depth id s = .ok (τ, s')) (hs : Ready c depth s) :
    Advances c depth s s' ∧ (s'.problems = #[] → s'.Done id τ ∧ τ.isError = false) := by
  -- The depth is above the number of nodes that wait, so that it does not run out.
  induction depth generalizing id s s' τ with
  | zero => exact (Nat.not_lt_zero _ hs.waiting).elim
  | succ depth ih =>
    obtain ⟨_, _, hget, h⟩ := bind_ok.1 h
    obtain ⟨rfl, rfl⟩ := get_ok.1 hget
    cases hprogress : s.progressOf id with
    | done σ =>
      simp only [hprogress] at h
      obtain ⟨rfl, rfl⟩ := pure_ok.1 h
      exact ⟨hs.refl, fun hp => ⟨hprogress, (hs.wellTyped hp id σ hprogress).2⟩⟩
    | active =>
      simp only [hprogress] at h
      exact hs.refl.refused h
    | waiting =>
      simp only [hprogress] at h
      obtain ⟨_, s₁, hmark, h⟩ := bind_ok.1 h
      obtain rfl := mark_ok.1 hmark
      obtain ⟨σ, s₂, hrule, h⟩ := bind_ok.1 h
      obtain ⟨_, s₃, hmark, h⟩ := bind_ok.1 h
      obtain rfl := mark_ok.1 hmark
      obtain ⟨rfl, rfl⟩ := pure_ok.1 h
      have hlt := hS.lt id hid
      have hready := (ready_opened hs hlt hprogress).2
      have hactive := progressOf_marked_self (s := s) (hs.size ▸ hlt) .active
      obtain ⟨hadvances, htype⟩ := rule_sound hS
        (fun x hx s s' τ h hs => ih hx h hs) hid hactive hrule hready
      obtain ⟨hall, hself⟩ := advances_closed hs hlt hprogress hadvances htype
      exact ⟨hall, fun hp => ⟨hself, (htype hp).2⟩⟩

/-- Nothing has been typed in a new table. -/
theorem ready_start (c : Context) : Ready c (c.tree.size + 1) (start c.tree.size) where
  size := by simp [start]
  waiting := by
    unfold waitingCount
    refine Nat.lt_succ_of_le (Nat.le_trans List.countP_le_length ?_)
    simp [start]
  literals x v hv := by simp [start, literal?] at hv
  wellTyped _ x τ hx := by
    unfold Done progressOf start at hx
    simp only [Array.getElem?_replicate] at hx
    split at hx <;> cases hx

/-- **A section that is typed without problems is well typed**: every node of it has the type that
the judgement gives it, no node has an error type, and values belong to the literals that spell
them. -/
theorem wellTyped_of_ofSection {t : Tree} {links : Links} {sec : Section} {r : Resolution}
    {ty : Typing} (hS : Context.Closed ⟨t, links, r⟩ S) (hsec : ∀ x ∈ sec.nodes.toList, S x)
    (h : ofSection t links sec r = .ok ty) (hp : ty.problems = #[]) :
    (∀ x ∈ sec.nodes.toList,
        HasType ⟨t, links, r⟩ ty x (t.shape x) (ty.typeOf x) ∧ (ty.typeOf x).isError = false)
      ∧ ∀ x v, ty.literal? x = some v → ∃ lit, t.shape x = .literal lit ∧ lit.value? = some v := by
  have hrun : ∃ u, (sec.nodes.toList.forM fun x => discard (node ⟨t, links, r⟩ x)) (start t.size)
      = .ok (u, ty) := by
    unfold ofSection at h
    simp only [bind, Except.bind, StateT.run] at h
    split at h
    · cases h
    · next p hforM =>
      cases h
      exact ⟨p.1, hforM⟩
  obtain ⟨u, hrun⟩ := hrun
  obtain ⟨hadv, hdone⟩ := forM_sound (S := S)
    (fun x hx s s' τ h hs => nodeWithin_sound hS hx h hs) hsec hrun (ready_start ⟨t, links, r⟩)
  refine ⟨fun x hx => ?_, hadv.ready.literals⟩
  obtain ⟨τ, hτ⟩ := hdone hp x hx
  have hwell := hadv.ready.wellTyped hp x τ hτ
  rw [hτ.typeOf]
  exact hwell

end MiddleEnd.Typing
