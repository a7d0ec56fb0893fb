import Mathlib.Logic.Function.Basic
import Mathlib.Logic.Relation
import MiddleEnd.Proofs.Resolution.Callees

/-!
# Activations

What becomes of procedures while a tree is evaluated.  An activation performs the nodes below its
owner one after the other, children first.  It does not enter the procedures among them: a procedure
is made into a value that remembers the environment it was made in.  A name is searched in the
environment of its activation, then in the one around that, and so on.  A call opens an environment
for the procedure that its callee gives, around which is the one that the procedure remembers.

Values other than procedures are all alike here, and what is neither a procedure nor a name may give
any value at all, procedures included.  So whatever the operators, casts and native code compute,
their evaluations are among those described here.

## Main definitions

* `Tree.Performs` — the nodes that an activation performs.
* `Environment`, `Environments.Finds` — what declarations hold, and where a name is found.
* `Configuration.Step`, `Configuration.Reachable` — one step of an evaluation, and what it comes to.

## Main results

* `Tree.performs_or_inside` — what is not performed is inside a procedure that is.
* `Tree.Performs.eq_of_mem_procedure` — nothing inside a procedure is performed.
* `Environments.Finds.unique` — a name is found at one place.
* `Environments.Finds.mono` — what is found once is found ever after.
-/

namespace MiddleEnd

/-! ### What an activation performs -/

namespace Shape

/-- What declares nothing, is no name, and neither calls nor returns. -/
def isSilent : Shape → Bool
  | constant _ _ | var _ _ _ | ident _ | call _ | ret _ => false
  | _ => true

variable {s : Shape}

theorem isDeclaration_of_isSilent (h : s.isSilent = true) : s.isDeclaration = false := by
  cases s <;> first | rfl | cases h

theorem isDeclaration_of_isProcedure (h : s.isProcedure = true) : s.isDeclaration = false := by
  cases s <;> first | rfl | cases h

theorem isDeclaration_of_isScope (h : s.isScope = true) : s.isDeclaration = false := by
  cases s <;> first | rfl | cases h

theorem isProcedure_of_isDeclaration (h : s.isDeclaration = true) : s.isProcedure = false := by
  cases s <;> first | rfl | cases h

end Shape

namespace Tree

variable (t : Tree)

/-- The nodes below `o`, except those inside a procedure below it. -/
inductive Performs (o : NodeId) : NodeId → Prop where
  /-- A node directly below. -/
  | child {x : NodeId} (h : x ∈ t.children o) : Performs o x
  /-- A node directly below one that is performed and is no procedure. -/
  | operand {x y : NodeId} (h : Performs o y) (hproc : (t.shape y).isProcedure = false)
      (hx : x ∈ t.children y) : Performs o x

/-- The nodes to perform before `x`. -/
def operands (x : NodeId) : List NodeId := if (t.shape x).isProcedure then [] else t.children x

/-- The targets that a node stores to, with what their values are computed by.  What native code
stores is computed by no node. -/
def stores (x : NodeId) : List (NodeId × Option NodeId) :=
  match t.shape x with
  | .assign target value => [(target, some value)]
  | .parallel targets values => targets.zip (values.map some)
  | .native _ _ (some output) =>
    match t.shape output with
    | .slot target _ => [(target, none)]
    | _ => []
  | _ => []

variable {t} {root o x q : NodeId}

theorem Performs.mem (h : t.Performs o x) : x ∈ t.preorder o := by
  induction h with
  | child h => exact t.child_mem_preorder h
  | operand _ _ hx ih => exact t.mem_preorder_trans ih (t.child_mem_preorder hx)

theorem Performs.of_operands {y : NodeId} (h : t.Performs o y) (hx : x ∈ t.operands y) :
    t.Performs o x := by
  unfold operands at hx
  split at hx
  · cases hx
  · next hproc => exact h.operand (by simpa using hproc) hx

/-- An expression is performed with the parentheses around it. -/
theorem Performs.ungroup (h : t.Performs o x) : t.Performs o (t.ungroup x) :=
  ungroup_induction h fun _ _ hshape he hx => hx.operand (by rw [hshape]; rfl) he

/-- Two parts with a node in common are one inside the other. -/
theorem mem_preorder_or (hnodup : (t.preorder root).Nodup) {a b : NodeId} (ha : a ∈ t.preorder root)
    (hb : b ∈ t.preorder root) (hxa : x ∈ t.preorder a) (hxb : x ∈ t.preorder b) :
    a ∈ t.preorder b ∨ b ∈ t.preorder a := by
  have hx := t.mem_preorder_trans ha hxa
  have hplace := (mem_preorder_iff_position hnodup ha hx).1 hxa
  have hplace' := (mem_preorder_iff_position hnodup hb hx).1 hxb
  rw [mem_preorder_iff_position hnodup hb ha, mem_preorder_iff_position hnodup ha hb]
  omega

/-- **What is below an owner is performed, or it is inside a procedure that is.** -/
theorem performs_or_inside (hx : x ∈ t.preorder o) (hne : x ≠ o) :
    t.Performs o x
      ∨ ∃ q, t.Performs o q ∧ (t.shape q).isProcedure = true ∧ x ∈ t.preorder q ∧ x ≠ q := by
  refine preorder_induction (P := fun x _ => x ≠ o → t.Performs o x
      ∨ ∃ q, t.Performs o q ∧ (t.shape q).isProcedure = true ∧ x ∈ t.preorder q ∧ x ≠ q)
    (fun hne => (hne rfl).elim) ?_ x hx hne
  intro y hy ih x hx _
  have hinside {q : NodeId} (hq : y ∈ t.preorder q) : x ∈ t.preorder q ∧ x ≠ q := by
    have hlt := Nat.lt_of_lt_of_le (t.child_lt hx) (t.le_of_mem_preorder hq)
    exact ⟨t.mem_preorder_trans hq (t.child_mem_preorder hx), Nat.ne_of_lt hlt⟩
  by_cases hyo : y = o
  · exact .inl (.child (hyo ▸ hx))
  rcases ih hyo with hperforms | ⟨q, hq, hproc, hyq, -⟩
  · cases hproc : (t.shape y).isProcedure with
    | false => exact .inl (hperforms.operand hproc hx)
    | true => exact .inr ⟨y, hperforms, hproc, hinside (t.self_mem_preorder y)⟩
  · exact .inr ⟨q, hq, hproc, hinside hyq⟩

/-- **Nothing inside a procedure is performed.** -/
theorem Performs.eq_of_mem_procedure (hnodup : (t.preorder root).Nodup) (ho : o ∈ t.preorder root)
    (h : t.Performs o x) (hq : q ∈ t.preorder root) (hproc : (t.shape q).isProcedure = true)
    (hqo : q < o) (hx : x ∈ t.preorder q) : x = q := by
  induction h with
  | @child x h =>
    by_contra hne
    have hinside := parent_mem_preorder hnodup hq ho h hx (Ne.symm hne)
    exact Nat.not_le_of_lt hqo (t.le_of_mem_preorder hinside)
  | @operand x y h hplain hxy ih =>
    by_contra hne
    have hy := t.mem_preorder_trans ho h.mem
    have heq := ih (parent_mem_preorder hnodup hq hy hxy hx (Ne.symm hne))
    rw [heq, hproc] at hplain
    cases hplain

/-- What is performed is smaller than the owner. -/
theorem Performs.lt (h : t.Performs o x) : x < o := by
  induction h with
  | child h => exact t.child_lt h
  | operand _ _ hx ih => exact Nat.lt_trans (t.child_lt hx) ih

/-- What is performed inside a constant that is a procedure is the procedure, or parentheses around
it. -/
theorem Performs.isProcedure_of_namesProcedure (hnodup : (t.preorder root).Nodup)
    (ho : o ∈ t.preorder root) (h : t.Performs o x) {d : NodeId} (hd : t.Performs o d)
    (hnames : t.namesProcedure d = true) (hx : x ∈ t.preorder d) (hne : x ≠ d)
    (hgroup : ∀ e, t.shape x ≠ .group e) : (t.shape x).isProcedure = true := by
  obtain ⟨name, e, hshape, hliteral⟩ : ∃ name e, t.shape d = .constant name e
      ∧ (t.shape (t.ungroup e)).isProcedure = true := by
    unfold namesProcedure at hnames
    split at hnames
    · exact ⟨_, _, by assumption, hnames⟩
    · cases hnames
  have hchildren : t.children d = [e] := by simp [children, hshape, Shape.children]
  have hxe : x ∈ t.preorder e := by
    obtain ⟨y, hy, hxy⟩ := (t.mem_preorder.1 hx).resolve_left hne
    rw [hchildren, List.mem_singleton] at hy
    exact hy ▸ hxy
  have he : e ∈ t.children d := by simp [hchildren]
  have hq := (hd.operand (by simp [hshape, Shape.isProcedure]) he).ungroup
  have hsame := h.eq_of_mem_procedure hnodup ho (t.mem_preorder_trans ho hq.mem) hliteral hq.lt
    (mem_preorder_ungroup hxe hgroup)
  rwa [hsame]

end Tree

/-! ### Environments -/

/-- What a declaration holds. -/
inductive Content where
  /-- Anything that is no procedure. -/
  | datum
  /-- The procedure `p`, made in the environment `home`. -/
  | procedure (p : NodeId) (home : Nat)

/-- The declarations of an activation. -/
structure Environment where
  /-- The procedure that is active, or the root. -/
  owner : NodeId
  /-- Where that procedure was made. -/
  around : Option Nat
  /-- What its declarations hold so far. -/
  held : NodeId → Option Content

/-- An environment later in an evaluation. -/
structure Environment.Grows (env env' : Environment) : Prop where
  /-- It belongs to the same procedure. -/
  owner : env'.owner = env.owner
  /-- That procedure was made in the same place. -/
  around : env'.around = env.around
  /-- What held something still does. -/
  held : ∀ d, env.held d ≠ none → env'.held d ≠ none

/-- All environments so far, in the order in which they were opened. -/
abbrev Environments := Array Environment

namespace Environments

/-- The search for `d` that starts at `α` ends at `γ`, where `v` is held. -/
inductive Finds (E : Environments) (d : NodeId) : Nat → Nat → Content → Prop where
  /-- The declaration holds something in this environment. -/
  | here {α : Nat} {env : Environment} {v : Content} (hα : E[α]? = some env)
      (hd : env.held d = some v) : Finds E d α α v
  /-- It holds nothing here, and is found around. -/
  | around {α β γ : Nat} {env : Environment} {v : Content} (hα : E[α]? = some env)
      (hd : env.held d = none) (hβ : env.around = some β) (h : Finds E d β γ v) : Finds E d α γ v

/-- The environments after a declaration of activation `γ` has got its value. -/
def hold (E : Environments) (γ : Nat) (d : NodeId) (v : Content) : Environments :=
  E.modify γ fun env => { env with held := Function.update env.held d (some v) }

/-- Environments later in an evaluation. -/
def Extends (E E' : Environments) : Prop :=
  ∀ (α : Nat) (env : Environment), E[α]? = some env → ∃ env', E'[α]? = some env' ∧ env.Grows env'

variable {E E' E'' : Environments} {d : NodeId} {α γ γ' : Nat} {v v' : Content}

/-- **A name is found at one place.** -/
theorem Finds.unique (h : E.Finds d α γ v) (h' : E.Finds d α γ' v') : γ = γ' ∧ v = v' := by
  induction h with
  | here hα hd =>
    cases h' with
    | here hα' hd' => simp_all
    | around hα' hd' _ _ => simp_all
  | around hα hd hβ _ ih =>
    cases h' with
    | here hα' hd' => simp_all
    | around hα' hd' hβ' h' =>
      obtain rfl := Option.some.inj (hα.symm.trans hα')
      obtain rfl := Option.some.inj (hβ.symm.trans hβ')
      exact ih h'

/-- A search passes over an environment that holds nothing, and on it goes. -/
theorem Finds.exists_of_around {β : Nat} {env : Environment} (hα : E[α]? = some env)
    (hβ : env.around = some β) (h : ∃ γ v, E.Finds d β γ v) : ∃ γ v, E.Finds d α γ v := by
  cases hd : env.held d with
  | some v => exact ⟨α, v, .here hα hd⟩
  | none =>
    obtain ⟨γ, v, h⟩ := h
    exact ⟨γ, v, .around hα hd hβ h⟩

/-- **What is found once is found ever after**, though perhaps nearer. -/
theorem Finds.mono (h : E.Finds d α γ v) (hE : E.Extends E') : ∃ γ v, E'.Finds d α γ v := by
  induction h with
  | here hα hd =>
    obtain ⟨env', hα', hgrows⟩ := hE _ _ hα
    obtain ⟨v', hd'⟩ := Option.ne_none_iff_exists'.1 (hgrows.held d (by simp [hd]))
    exact ⟨_, v', .here hα' hd'⟩
  | around hα _ hβ _ ih =>
    obtain ⟨env', hα', hgrows⟩ := hE _ _ hα
    exact Finds.exists_of_around hα' (hgrows.around.trans hβ) ih

theorem Finds.cell (h : E.Finds d α γ v) : ∃ env, E[γ]? = some env ∧ env.held d = some v := by
  induction h with
  | here hα hd => exact ⟨_, hα, hd⟩
  | around _ _ _ _ ih => exact ih

theorem Extends.refl (E : Environments) : E.Extends E := fun _ env hα =>
  ⟨env, hα, rfl, rfl, fun _ hd => hd⟩

theorem Extends.trans (h : E.Extends E') (h' : E'.Extends E'') : E.Extends E'' := by
  intro α env hα
  obtain ⟨env', hα', hgrows⟩ := h α env hα
  obtain ⟨env'', hα'', hgrows'⟩ := h' α env' hα'
  exact ⟨env'', hα'', hgrows'.owner.trans hgrows.owner, hgrows'.around.trans hgrows.around,
    fun d hd => hgrows'.held d (hgrows.held d hd)⟩

theorem getElem?_hold : (E.hold γ d v)[α]? =
    if γ = α then E[α]?.map fun env => { env with held := Function.update env.held d (some v) }
    else E[α]? := Array.getElem?_modify

theorem extends_hold : E.Extends (E.hold γ d v) := by
  intro α env hα
  rw [getElem?_hold, hα]
  split
  · refine ⟨_, rfl, rfl, rfl, fun x hx => ?_⟩
    simp only [Function.update_apply]
    split
    · simp
    · exact hx
  · exact ⟨env, rfl, rfl, rfl, fun _ hd => hd⟩

/-- What is held after a store was held before it, or it was stored. -/
theorem of_getElem?_hold {env' : Environment} (h : (E.hold γ d v)[α]? = some env') :
    ∃ env, E[α]? = some env ∧ env'.owner = env.owner ∧ env'.around = env.around
      ∧ ∀ x w, env'.held x = some w → env.held x = some w ∨ x = d ∧ w = v := by
  rw [getElem?_hold] at h
  split at h
  · obtain ⟨env, hα, rfl⟩ := Option.map_eq_some_iff.1 h
    refine ⟨env, hα, rfl, rfl, fun x w hw => ?_⟩
    simp only [Function.update_apply] at hw
    split at hw
    · next heq => exact .inr ⟨heq, (Option.some.inj hw).symm⟩
    · exact .inl hw
  · exact ⟨env', h, rfl, rfl, fun x w hw => .inl hw⟩

/-- What is stored is held. -/
theorem held_hold {env' : Environment} (h : (E.hold α d v)[α]? = some env') :
    env'.held d = some v := by
  rw [getElem?_hold, if_pos rfl] at h
  obtain ⟨env, -, rfl⟩ := Option.map_eq_some_iff.1 h
  simp

theorem extends_push (env : Environment) : E.Extends (E.push env) := by
  intro α env' hα
  have hlt := (Array.getElem?_eq_some_iff.1 hα).1
  refine ⟨env', ?_, rfl, rfl, fun _ hd => hd⟩
  rw [Array.getElem?_push_lt hlt, ← hα, Array.getElem?_eq_getElem hlt]

end Environments

/-! ### Evaluations -/

/-- What an activation has to do: perform a node and all below, or the node alone, after those. -/
inductive Task where
  /-- Perform the node and all that is below it. -/
  | visit (x : NodeId)
  /-- Perform the node itself, now that what is below it has been performed. -/
  | finish (x : NodeId)

/-- The node that a task is about. -/
def Task.node : Task → NodeId
  | visit x | finish x => x

/-- The environments, and the activations with what they still have to do, the last one first. -/
structure Configuration where
  /-- All environments made so far, those of activations that have ended included. -/
  environments : Environments
  /-- The activations, each with its environment and its tasks. -/
  stack : List (Nat × List Task)

namespace Configuration

variable (t : Tree) (r : Resolution)

/-- In the environment `α`, the expression `x` may give `v`. -/
def Gives (E : Environments) (α : Nat) (x : NodeId) (v : Content) : Prop :=
  match t.shape (t.ungroup x) with
  | .procedure _ _ => v = .procedure (t.ungroup x) α
  | .ident _ => ∃ d γ, r.declaration? (t.ungroup x) = some d ∧ E.Finds d α γ v
  | _ => True

/-- A value is stored where the name of the target is found. -/
inductive Stores (E : Environments) (α : Nat) (target : NodeId) (v : Content) :
    Environments → Prop where
  /-- The name of the target is bound, and what it is bound to holds the value from now on. -/
  | bound {d : NodeId} {γ : Nat} {w : Content} (hd : r.declaration? (t.ungroup target) = some d)
      (h : E.Finds d α γ w) : Stores E α target v (E.hold γ d v)
  /-- The name of the target is not bound, and nothing changes. -/
  | unbound (hd : r.declaration? (t.ungroup target) = none) : Stores E α target v E

/-- Values are stored one after the other. -/
inductive StoresAll (α : Nat) :
    Environments → List NodeId → List Content → Environments → Prop where
  /-- There is nothing left to store. -/
  | nil {E : Environments} : StoresAll α E [] [] E
  /-- The first value is stored, then the others. -/
  | cons {E E' E'' : Environments} {target : NodeId} {v : Content} {targets : List NodeId}
      {vs : List Content} (h : Stores t r E α target v E') (hrest : StoresAll α E' targets vs E'') :
      StoresAll α E (target :: targets) (v :: vs) E''

/-- What a node does after those below it have been performed, unless it calls or returns. -/
inductive Finishes (E : Environments) (α : Nat) (x : NodeId) : Environments → Prop where
  /-- A declaration gets the value of its definition. -/
  | define {e : NodeId} {v : Content} (h : t.definition? x = some e) (hv : Gives t r E α e v) :
      Finishes E α x (E.hold α x v)
  /-- A declaration without a definition gets any value. -/
  | start {v : Content} (hdecl : (t.shape x).isDeclaration = true) (h : t.definition? x = none) :
      Finishes E α x (E.hold α x v)
  /-- A name that holds nothing yet, or is bound to nothing, has no value. -/
  | read {name : String} {d : NodeId} {γ : Nat} {v : Content} (hshape : t.shape x = .ident name)
      (hd : r.declaration? x = some d) (h : E.Finds d α γ v) : Finishes E α x E
  /-- All values are computed before the first one is stored. -/
  | store {E' : Environments} {vs : List Content} (hsilent : (t.shape x).isSilent = true)
      (hvs : List.Forall₂ (fun s v => ∀ value ∈ s.2, Gives t r E α value v) (t.stores x) vs)
      (h : StoresAll t r α E ((t.stores x).map Prod.fst) vs E') : Finishes E α x E'

/-- One step of an evaluation. -/
inductive Step : Configuration → Configuration → Prop where
  /-- What is below the node is performed in order, and then the node. -/
  | visit {E : Environments} {α : Nat} {x : NodeId} {tasks : List Task}
      {rest : List (Nat × List Task)} :
      Step ⟨E, (α, .visit x :: tasks) :: rest⟩
        ⟨E, (α, (t.operands x).map .visit ++ .finish x :: tasks) :: rest⟩
  /-- The node is performed. -/
  | finish {E E' : Environments} {α : Nat} {x : NodeId} {tasks : List Task}
      {rest : List (Nat × List Task)} (h : Finishes t r E α x E') :
      Step ⟨E, (α, .finish x :: tasks) :: rest⟩ ⟨E', (α, tasks) :: rest⟩
  /-- A procedure is entered, with an environment of its own around which is the one it was made
  in. -/
  | call {E : Environments} {α home : Nat} {x callee p : NodeId} {tasks : List Task}
      {rest : List (Nat × List Task)} (hshape : t.shape x = .call callee)
      (hp : Gives t r E α callee (.procedure p home)) :
      Step ⟨E, (α, .finish x :: tasks) :: rest⟩
        ⟨E.push ⟨p, some home, fun _ => none⟩,
          (E.size, (t.children p).map .visit) :: (α, tasks) :: rest⟩
  /-- A return drops what the activation still has to do. -/
  | ret {E : Environments} {α : Nat} {x : NodeId} {value : Option NodeId} {tasks : List Task}
      {rest : List (Nat × List Task)} (hshape : t.shape x = .ret value) :
      Step ⟨E, (α, .finish x :: tasks) :: rest⟩ ⟨E, rest⟩
  /-- An activation that has nothing left to do ends. -/
  | leave {E : Environments} {α : Nat} {rest : List (Nat × List Task)} :
      Step ⟨E, (α, []) :: rest⟩ ⟨E, rest⟩

/-- The root is about to be performed, and nothing is held. -/
def start (root : NodeId) : Configuration :=
  ⟨#[⟨root, none, fun _ => none⟩], [(0, (t.children root).map .visit)]⟩

/-- What an evaluation of the tree below `root` comes to. -/
def Reachable (root : NodeId) (κ : Configuration) : Prop :=
  Relation.ReflTransGen (Step t r) (start t root) κ

end Configuration

end MiddleEnd
