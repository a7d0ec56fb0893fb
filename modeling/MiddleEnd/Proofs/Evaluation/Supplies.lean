import MiddleEnd.Proofs.Evaluation.Activations
import MiddleEnd.Proofs.Typing.Callees

/-!
# What callees give

In a tree that nothing is reported about, what holds a procedure holds the one that its chain of
names ends at, throughout every evaluation.  And it holds it in time: a procedure is called after
all names in it that are declared outside of it have got their values.

The environments of an evaluation are sound if their cells hold what their types say, and if each of
them is surrounded by one where the names from outside are found.  The tasks of an activation are
pending in its environment if they stand in the order of the tree and leave out only what has been
performed.  Each step keeps both.

## Main definitions

* `Environments.Supplies` — all names that a procedure uses from outside are found.
* `Typing.Context.Pending` — the tasks of an activation, and what they leave out.
* `Typing.Context.Sound` — the environments of an evaluation.
* `Typing.Context.Steady` — a configuration of which all that holds.

## Main results

* `Typing.Context.Sound.finds` — **a name that is performed has its value.**
* `Typing.Context.Sound.denotes_of_gives` — **what has the type of a procedure gives the one it
  denotes.**
* `Typing.Context.Sound.call` — **a call is of the procedure that its callee denotes.**
* `Typing.Context.Steady.step`, `Typing.Context.Accepts.steady` — **every step of an evaluation
  keeps all that, and so does the whole evaluation.**
-/

namespace MiddleEnd

/-- All names in `p` that are declared outside of it are found from `home` on. -/
def Environments.Supplies (E : Environments) (t : Tree) (r : Resolution) (home : Nat) (p : NodeId) :
    Prop :=
  ∀ x ∈ t.preorder p, ∀ d, r.declaration? x = some d → d ∉ t.preorder p →
    ∃ γ v, E.Finds d home γ v

theorem Environments.Supplies.mono {E E' : Environments} {t : Tree} {r : Resolution} {home : Nat}
    {p : NodeId} (h : E.Supplies t r home p) (hE : E.Extends E') : E'.Supplies t r home p := by
  intro x hx d hbound hout
  obtain ⟨γ, v, hfinds⟩ := h x hx d hbound hout
  exact hfinds.mono hE

namespace Task

variable (t : Tree) (root : NodeId)

/-- In the order of the tree, the task comes after those of `x`. -/
def After (x : NodeId) : Task → Prop
  | visit y => t.position root x + t.weight x ≤ t.position root y
  | finish y => x ∈ t.preorder y ∧ x ≠ y

/-- To do the task is to perform `x` among others. -/
def Covers (x : NodeId) : Task → Prop
  | visit y => x ∈ t.preorder y
  | finish y => x = y

end Task

namespace Typing.Context

variable (c : Context) (root : NodeId) (f : NodeId → Ty)

/-- `x` has been performed: its type is no error, and a declaration holds its value. -/
structure Done (env : Environment) (x : NodeId) : Prop where
  /-- Its type is that of a value. -/
  isError : (f x).isError = false
  /-- If it is a declaration, it holds something. -/
  held : (c.tree.shape x).isDeclaration = true → env.held x ≠ none

/-- The tasks of an activation stand in the order of the tree, and leave out what has been
performed. -/
structure Pending (env : Environment) (tasks : List Task) : Prop where
  /-- The tasks are about nodes that belong to the activation. -/
  performs : ∀ task ∈ tasks, c.tree.Performs env.owner task.node
  /-- A task comes after the one before it in the tree. -/
  ordered : tasks.Pairwise fun a b => b.After c.tree root a.node
  /-- Every node that belongs to the activation is still to be performed or has been performed. -/
  done : ∀ x, c.tree.Performs env.owner x → (∃ task ∈ tasks, task.Covers c.tree x) ∨ c.Done f env x

/-- `v` is the procedure that `e` denotes, made where all that it needs is found. -/
def Denotes (E : Environments) (e : NodeId) (v : Content) : Prop :=
  ∃ p home, c.resolution.procedureTarget? c.tree e = some p ∧ v = .procedure p home
    ∧ E.Supplies c.tree c.resolution home p

/-- Cells of an evaluation hold what their types say, in environments with all that is needed
around. -/
structure Sound (E : Environments) : Prop where
  /-- An environment belongs to a node of the tree that is no declaration. -/
  owner : ∀ (α : Nat) (env : Environment), E[α]? = some env →
    env.owner ∈ c.tree.preorder root ∧ (c.tree.shape env.owner).isDeclaration = false
  /-- What a procedure uses from outside is found around its environment. -/
  around : ∀ (α : Nat) (env : Environment), E[α]? = some env → ∀ x ∈ c.tree.preorder env.owner, ∀ d,
    c.resolution.declaration? x = some d → d ∉ c.tree.preorder env.owner →
      ∃ β γ v, env.around = some β ∧ E.Finds d β γ v
  /-- What holds something has the type of a value. -/
  isError : ∀ (α : Nat) (env : Environment) (d : NodeId), E[α]? = some env → env.held d ≠ none →
    (f d).isError = false
  /-- What has the type of a procedure holds one that its definition denotes. -/
  denotes : ∀ (α : Nat) (env : Environment) (d : NodeId) (v : Content), E[α]? = some env →
    env.held d = some v → f d = .procedure → ∃ e, c.tree.definition? d = some e ∧ c.Denotes E e v

/-- The environments are sound, and the tasks of every activation are pending in its environment. -/
structure Steady (κ : Configuration) : Prop where
  /-- The environments are sound. -/
  sound : c.Sound root f κ.environments
  /-- The tasks of each activation are what its environment has not performed. -/
  pending : ∀ a ∈ κ.stack, ∃ env, κ.environments[a.1]? = some env ∧ c.Pending root f env a.2

variable {c root f} {env env' : Environment} {E E' : Environments} {x : NodeId} {tasks : List Task}
  {α : Nat} {v : Content}

theorem Denotes.mono {e : NodeId} (h : c.Denotes E e v) (hE : E.Extends E') : c.Denotes E' e v := by
  obtain ⟨p, home, hp, hv, hsupplies⟩ := h
  exact ⟨p, home, hp, hv, hsupplies.mono hE⟩

/-! ### Tasks -/

namespace Pending

theorem grows (h : c.Pending root f env tasks) (hgrows : env.Grows env') :
    c.Pending root f env' tasks where
  performs := by rw [hgrows.owner]; exact h.performs
  ordered := h.ordered
  done x hx := by
    refine (h.done x (hgrows.owner ▸ hx)).imp_right fun hdone => ⟨hdone.isError, fun hdecl => ?_⟩
    exact hgrows.held x (hdone.held hdecl)

/-- The tasks of an activation that begins. -/
theorem start (hnodup : (c.tree.preorder root).Nodup) {o : NodeId} {around : Option Nat}
    (ho : o ∈ c.tree.preorder root) :
    c.Pending root f ⟨o, around, fun _ => none⟩ ((c.tree.children o).map .visit) where
  performs := by
    intro task htask
    obtain ⟨x, hx, rfl⟩ := List.mem_map.1 htask
    exact .child hx
  ordered := List.pairwise_map.2 (Tree.siblings_apart hnodup ho)
  done := by
    intro x hx
    rcases c.tree.mem_preorder.1 hx.mem with rfl | ⟨y, hy, hxy⟩
    · exact (Nat.lt_irrefl _ hx.lt).elim
    · exact .inl ⟨.visit y, List.mem_map_of_mem hy, hxy⟩

/-- A node is performed after those below it. -/
theorem visit (hnodup : (c.tree.preorder root).Nodup) (ho : env.owner ∈ c.tree.preorder root)
    (h : c.Pending root f env (.visit x :: tasks)) :
    c.Pending root f env ((c.tree.operands x).map .visit ++ .finish x :: tasks) := by
  have hx := h.performs (.visit x) (.head _)
  have hmem := c.tree.mem_preorder_trans ho hx.mem
  obtain ⟨hfirst, hrest⟩ := List.pairwise_cons.1 h.ordered
  have hoperand {y : NodeId} (hy : y ∈ c.tree.operands x) : y ∈ c.tree.children x := by
    unfold Tree.operands at hy
    split at hy
    · cases hy
    · exact hy
  -- What comes after a node comes after what is below it.
  have hafter {y : NodeId} (hy : y ∈ c.tree.children x) (task : Task) (htask : task ∈ tasks) :
      task.After c.tree root y := by
    have hinside := c.tree.child_mem_preorder hy
    cases task with
    | visit z =>
      exact Nat.le_trans (Tree.end_le_end hnodup hmem hinside) (hfirst (.visit z) htask)
    | finish z =>
      have hz := (hfirst (.finish z) htask).1
      exact ⟨c.tree.mem_preorder_trans hz hinside,
        Nat.ne_of_lt (Nat.lt_of_lt_of_le (c.tree.child_lt hy) (c.tree.le_of_mem_preorder hz))⟩
  constructor
  · intro task htask
    rcases List.mem_append.1 htask with htask | htask
    · obtain ⟨y, hy, rfl⟩ := List.mem_map.1 htask
      exact hx.of_operands hy
    · rcases List.mem_cons.1 htask with rfl | htask
      · exact hx
      · exact h.performs task (.tail _ htask)
  · refine List.pairwise_append.2 ⟨?_, List.pairwise_cons.2 ⟨hfirst, hrest⟩, ?_⟩
    · refine List.pairwise_map.2 ((Tree.siblings_apart hnodup hmem).sublist ?_)
      unfold Tree.operands
      split
      · exact List.nil_sublist _
      · exact List.Sublist.refl _
    · intro task htask task' htask'
      obtain ⟨y, hy, rfl⟩ := List.mem_map.1 htask
      rcases List.mem_cons.1 htask' with rfl | htask'
      · exact ⟨c.tree.child_mem_preorder (hoperand hy),
          Nat.ne_of_lt (c.tree.child_lt (hoperand hy))⟩
      · exact hafter (hoperand hy) task' htask'
  · intro y hy
    refine (h.done y hy).imp_left ?_
    rintro ⟨task, htask, hcovers⟩
    rcases List.mem_cons.1 htask with rfl | htask
    · rcases c.tree.mem_preorder.1 hcovers with rfl | ⟨z, hz, hyz⟩
      · exact ⟨.finish y, by simp, rfl⟩
      · cases hproc : (c.tree.shape x).isProcedure with
        | false =>
          have hz : z ∈ c.tree.operands x := by simpa [Tree.operands, hproc] using hz
          exact ⟨.visit z, List.mem_append_left _ (List.mem_map_of_mem hz), hyz⟩
        | true =>
          -- Nothing inside a procedure is performed.
          have heq := hy.eq_of_mem_procedure hnodup ho hmem hproc hx.lt hcovers
          exact ⟨.finish x, by simp, heq⟩
    · exact ⟨task, List.mem_append_right _ (.tail _ htask), hcovers⟩

/-- What has been performed is left out from then on. -/
theorem finish (h : c.Pending root f env (.finish x :: tasks)) (hdone : c.Done f env x) :
    c.Pending root f env tasks where
  performs task htask := h.performs task (.tail _ htask)
  ordered := (List.pairwise_cons.1 h.ordered).2
  done y hy := by
    rcases h.done y hy with ⟨task, htask, hcovers⟩ | hdone'
    · rcases List.mem_cons.1 htask with rfl | htask
      · exact .inr ((show y = x from hcovers) ▸ hdone)
      · exact .inl ⟨task, htask, hcovers⟩
    · exact .inr hdone'

theorem head (h : c.Pending root f env (.finish x :: tasks)) : c.tree.Performs env.owner x :=
  h.performs (.finish x) (.head _)

/-- A task that comes after `x` performs what comes after `x`, or a node around it. -/
theorem covered (hnodup : (c.tree.preorder root).Nodup) (ho : env.owner ∈ c.tree.preorder root)
    (h : c.Pending root f env (.finish x :: tasks)) {task : Task} {d : NodeId}
    (htask : task ∈ tasks) (hcovers : task.Covers c.tree d) :
    c.tree.position root x + c.tree.weight x ≤ c.tree.position root d
      ∨ x ∈ c.tree.preorder d ∧ x ≠ d := by
  have hafter := (List.pairwise_cons.1 h.ordered).1 task htask
  have hz := c.tree.mem_preorder_trans ho (h.performs task (.tail _ htask)).mem
  cases task with
  | visit z =>
    have hd := c.tree.mem_preorder_trans hz hcovers
    have hplace := (Tree.mem_preorder_iff_position hnodup hz hd).1 hcovers
    exact .inl (Nat.le_trans hafter hplace.1)
  | finish z =>
    obtain rfl : d = z := hcovers
    exact .inr hafter

/-- The children of a node that is performed have been performed. -/
theorem done_child (hnodup : (c.tree.preorder root).Nodup) (ho : env.owner ∈ c.tree.preorder root)
    (h : c.Pending root f env (.finish x :: tasks)) (hproc : (c.tree.shape x).isProcedure = false)
    {y : NodeId} (hy : y ∈ c.tree.children x) : c.Done f env y := by
  have hmem := c.tree.mem_preorder_trans ho h.head.mem
  have hinside := c.tree.child_mem_preorder hy
  have hlt := c.tree.child_lt hy
  rcases h.done y (h.head.operand hproc hy) with ⟨task, htask, hcovers⟩ | hdone
  · exfalso
    rcases List.mem_cons.1 htask with rfl | htask
    · exact Nat.ne_of_lt hlt hcovers
    · rcases h.covered hnodup ho htask hcovers with hle | ⟨hx, -⟩
      · have hplace :=
          Tree.mem_preorder_iff_position hnodup hmem (c.tree.mem_preorder_trans hmem hinside)
        have hend := (hplace.1 hinside).2
        omega
      · exact Nat.not_le_of_lt hlt (c.tree.le_of_mem_preorder hx)
  · exact hdone

end Pending

/-! ### Names -/

variable (h : c.Accepts root f)

include h

/-- A declaration that is performed by the activation itself holds its value before it is used. -/
theorem Pending.held (ho : env.owner ∈ c.tree.preorder root)
    (hp : c.Pending root f env (.finish x :: tasks)) (hgroup : ∀ e, c.tree.shape x ≠ .group e)
    (hproc : (c.tree.shape x).isProcedure = false) {y d : NodeId} (hy : y ∈ c.tree.preorder x)
    (hbound : c.resolution.declaration? y = some d) (hne : d ≠ x)
    (hperforms : c.tree.Performs env.owner d) : env.held d ≠ none := by
  have hnodup := h.tree.nodup
  have hx := c.tree.mem_preorder_trans ho hp.head.mem
  obtain ⟨hyo, -, hd, hdeclares, hbefore, hleft⟩ := h.exact.bound_before hbound
  rcases hp.done d hperforms with ⟨task, htask, hcovers⟩ | hdone
  · exfalso
    rcases List.mem_cons.1 htask with rfl | htask
    · exact hne hcovers
    · have hend := ((Tree.mem_preorder_iff_position hnodup hx hyo).1 hy).2
      rcases hp.covered hnodup ho htask hcovers with hle | ⟨hxd, hxne⟩
      · omega
      · -- The declaration is around the node: it is a constant, and its procedure is around it too.
        have hyd := c.tree.mem_preorder_trans hxd hy
        have hend := ((Tree.mem_preorder_iff_position hnodup hd hyo).1 hyd).2
        have hnames := hleft.resolve_left (by omega)
        have hyes :=
          hp.head.isProcedure_of_namesProcedure hnodup ho hperforms hnames hxd hxne hgroup
        exact Bool.noConfusion (hproc.symm.trans hyes)
  · exact hdone.held hdeclares

/-- **A name that is performed has its value**, and so has every name in a procedure that is made,
unless it is declared there. -/
theorem Sound.finds (hs : c.Sound root f E) (hα : E[α]? = some env)
    (hp : c.Pending root f env (.finish x :: tasks)) (hgroup : ∀ e, c.tree.shape x ≠ .group e)
    (hproc : (c.tree.shape x).isProcedure = false) {y d : NodeId} (hy : y ∈ c.tree.preorder x)
    (hbound : c.resolution.declaration? y = some d) (hne : d ≠ x)
    (hinside : ∀ q, c.tree.Performs env.owner q → (c.tree.shape q).isProcedure = true →
      y ∈ c.tree.preorder q → d ∉ c.tree.preorder q) : ∃ γ v, E.Finds d α γ v := by
  obtain ⟨ho, howner⟩ := hs.owner α env hα
  obtain ⟨-, -, -, hdeclares, -⟩ := h.exact.bound_before hbound
  by_cases hout : d ∈ c.tree.preorder env.owner
  · have hdo : d ≠ env.owner := by
      rintro rfl
      rw [hdeclares] at howner
      cases howner
    rcases Tree.performs_or_inside hout hdo with hperforms | ⟨q, hq, hprocedure, hdq, hne⟩
    · obtain ⟨v, hv⟩ := Option.ne_none_iff_exists'.1
        (hp.held h ho hgroup hproc hy hbound hne hperforms)
      exact ⟨α, v, .here hα hv⟩
    · have hmem := c.tree.mem_preorder_trans ho hq.mem
      exact (hinside q hq hprocedure (h.exact.mem_of_declared h.tree hbound hmem hdq hne) hdq).elim
  · have hyo := c.tree.mem_preorder_trans hp.head.mem hy
    obtain ⟨β, γ, v, hβ, hfinds⟩ := hs.around α env hα y hyo d hbound hout
    exact Environments.Finds.exists_of_around hα hβ ⟨γ, v, hfinds⟩

/-- A procedure is made where all that it needs is found, as soon as the node that it belongs to has
been performed. -/
theorem Sound.supplies (hs : c.Sound root f E) (hα : E[α]? = some env)
    (hp : c.Pending root f env (.finish x :: tasks)) (hgroup : ∀ e, c.tree.shape x ≠ .group e)
    (hproc : (c.tree.shape x).isProcedure = false) {q : NodeId} (hq : c.tree.Performs env.owner q)
    (hqx : q ∈ c.tree.preorder x) (hprocedure : (c.tree.shape q).isProcedure = true)
    (hE : E.Extends E')
    (hheld : (c.tree.shape x).isDeclaration = true → ∃ γ w, E'.Finds x α γ w) :
    E'.Supplies c.tree c.resolution α q := by
  have hnodup := h.tree.nodup
  obtain ⟨ho, -⟩ := hs.owner α env hα
  intro y hy d hbound hout
  by_cases hdx : d = x
  · obtain ⟨-, -, -, hdeclares, -⟩ := h.exact.bound_before hbound
    exact hdx ▸ hheld (hdx ▸ hdeclares)
  have hinside : ∀ q', c.tree.Performs env.owner q' → (c.tree.shape q').isProcedure = true →
      y ∈ c.tree.preorder q' → d ∉ c.tree.preorder q' := by
    intro q' hq' hprocedure' hyq' hdq'
    -- The two procedures around the name are performed by one activation, so they are one.
    have hmem := c.tree.mem_preorder_trans ho hq.mem
    have hmem' := c.tree.mem_preorder_trans ho hq'.mem
    have hsame : q = q' := by
      rcases Tree.mem_preorder_or hnodup hmem hmem' hy hyq' with hin | hin
      · exact hq.eq_of_mem_procedure hnodup ho hmem' hprocedure' hq'.lt hin
      · exact (hq'.eq_of_mem_procedure hnodup ho hmem hprocedure hq.lt hin).symm
    exact hout (hsame ▸ hdq')
  obtain ⟨γ, w, hfinds⟩ :=
    hs.finds h hα hp hgroup hproc (c.tree.mem_preorder_trans hqx hy) hbound hdx hinside
  exact hfinds.mono hE

/-- **What has the type of a procedure gives the one it denotes.** -/
theorem Sound.denotes_of_gives (hs : c.Sound root f E) (hα : E[α]? = some env)
    (hp : c.Pending root f env (.finish x :: tasks)) (hgroup : ∀ e, c.tree.shape x ≠ .group e)
    (hproc : (c.tree.shape x).isProcedure = false) {e : NodeId} (he : e ∈ c.tree.children x)
    (hexpr : (c.tree.shape e).isExpr = true) (htype : f e = .procedure)
    (hgives : Configuration.Gives c.tree c.resolution E α e v) (hE : E.Extends E')
    (hheld : (c.tree.shape x).isDeclaration = true → ∃ γ w, E'.Finds x α γ w) :
    c.Denotes E' e v := by
  obtain ⟨ho, -⟩ := hs.owner α env hα
  have hmem := h.tree.child (c.tree.mem_preorder_trans ho hp.head.mem) he
  have htarget := h.exact.procedureTarget?_step h.tree hmem
  unfold Configuration.Gives at hgives
  rcases h.procedure_or_name hmem hexpr htype with hliteral | ⟨name, d, hname, hbound, hd⟩
  · have hsupplies := hs.supplies h hα hp hgroup hproc (hp.head.operand hproc he).ungroup
      (c.tree.mem_preorder_of_child he (c.tree.ungroup_mem_preorder e)) hliteral hE hheld
    cases hshape : c.tree.shape (c.tree.ungroup e) <;> rw [hshape] at hliteral <;>
      first | (cases hliteral; done) | skip
    simp only [hshape] at htarget hgives
    exact ⟨_, α, htarget, hgives, hsupplies⟩
  · simp only [hname] at hgives htarget
    obtain ⟨d', γ, hbound', hfinds⟩ := hgives
    obtain rfl := Option.some.inj (hbound.symm.trans hbound')
    obtain ⟨env', hγ, hcell⟩ := hfinds.cell
    obtain ⟨e', hdefinition, p, home, hp, hv, hsupplies⟩ := hs.denotes γ env' d v hγ hcell hd
    exact ⟨p, home, by simp [htarget, hbound, hdefinition, hp], hv, hsupplies.mono hE⟩

omit h

/-! ### Environments -/

namespace Sound

theorem hold (hs : c.Sound root f E) {γ : Nat} {d : NodeId} (herror : (f d).isError = false)
    (hv : f d = .procedure → ∃ e, c.tree.definition? d = some e ∧ c.Denotes (E.hold γ d v) e v) :
    c.Sound root f (E.hold γ d v) where
  owner α env' hα := by
    obtain ⟨env, hα, howner, -, -⟩ := Environments.of_getElem?_hold hα
    exact howner ▸ hs.owner α env hα
  around α env' hα := by
    obtain ⟨env, hα, howner, haround, -⟩ := Environments.of_getElem?_hold hα
    rw [howner, haround]
    -- Holding one more declaration changes no surrounding environment.
    intro x hx d hbound hout
    obtain ⟨β, γ, w, hβ, hfinds⟩ := hs.around α env hα x hx d hbound hout
    obtain ⟨γ', w', hfinds'⟩ := hfinds.mono Environments.extends_hold
    exact ⟨β, γ', w', hβ, hfinds'⟩
  isError α env' x hα hx := by
    obtain ⟨env, hα, -, -, hheld⟩ := Environments.of_getElem?_hold hα
    obtain ⟨w, hw⟩ := Option.ne_none_iff_exists'.1 hx
    rcases hheld x w hw with hw | ⟨rfl, -⟩
    · exact hs.isError α env x hα (by simp [hw])
    · exact herror
  -- What is held is old, or it is the declaration itself.
  denotes α env' x w hα hw hproc := by
    obtain ⟨env, hα, -, -, hheld⟩ := Environments.of_getElem?_hold hα
    rcases hheld x w hw with hw | ⟨rfl, rfl⟩
    · obtain ⟨e, hdefinition, hdenotes⟩ := hs.denotes α env x w hα hw hproc
      exact ⟨e, hdefinition, hdenotes.mono Environments.extends_hold⟩
    · exact hv hproc

theorem push (hs : c.Sound root f E) {p : NodeId} {home : Nat} (hp : p ∈ c.tree.preorder root)
    (hproc : (c.tree.shape p).isProcedure = true)
    (hsupplies : E.Supplies c.tree c.resolution home p) :
    c.Sound root f (E.push ⟨p, some home, fun _ => none⟩) := by
  have hmono := Environments.extends_push (E := E) ⟨p, some home, fun _ => none⟩
  -- An environment is old, or it is the new one, which holds nothing yet.
  have hcases {α : Nat} {env : Environment}
      (hα : (E.push ⟨p, some home, fun _ => none⟩)[α]? = some env) :
      E[α]? = some env ∨ env = ⟨p, some home, fun _ => none⟩ := by
    rw [Array.getElem?_push] at hα
    split at hα
    · exact .inr (Option.some.inj hα).symm
    · exact .inl hα
  constructor
  · intro α env hα
    rcases hcases hα with hα | rfl
    · exact hs.owner α env hα
    · exact ⟨hp, Shape.isDeclaration_of_isProcedure hproc⟩
  · intro α env hα x hx d hbound hout
    rcases hcases hα with hα | rfl
    · obtain ⟨β, γ, w, hβ, hfinds⟩ := hs.around α env hα x hx d hbound hout
      obtain ⟨γ', w', hfinds'⟩ := hfinds.mono hmono
      exact ⟨β, γ', w', hβ, hfinds'⟩
    · -- What the procedure uses from outside is found from its home.
      obtain ⟨γ, w, hfinds⟩ := hsupplies.mono hmono x hx d hbound hout
      exact ⟨home, γ, w, rfl, hfinds⟩
  · intro α env d hα hd
    rcases hcases hα with hα | rfl
    · exact hs.isError α env d hα hd
    · exact (hd rfl).elim
  · intro α env d v hα hd hproc
    rcases hcases hα with hα | rfl
    · obtain ⟨e, hdefinition, hdenotes⟩ := hs.denotes α env d v hα hd hproc
      exact ⟨e, hdefinition, hdenotes.mono hmono⟩
    · cases hd

/-- Stores to names that hold no procedures. -/
theorem storesAll (hs : c.Sound root f E) {targets : List NodeId} {vs : List Content}
    (hplain : ∀ target ∈ targets, ∀ d,
      c.resolution.declaration? (c.tree.ungroup target) = some d → f d ≠ .procedure)
    (h : Configuration.StoresAll c.tree c.resolution α E targets vs E') :
    E.Extends E' ∧ c.Sound root f E' := by
  induction h with
  | nil => exact ⟨.refl _, hs⟩
  | cons h _ ih =>
    have hrest := fun target htarget => hplain target (.tail _ htarget)
    cases h with
    | unbound => exact ih hs hrest
    | @bound d γ w hd hfinds =>
      obtain ⟨env, hγ, hheld⟩ := hfinds.cell
      have herror := hs.isError γ env d hγ (by simp [hheld])
      obtain ⟨hextends, hsound⟩ := ih (hs.hold herror fun hproc =>
        (hplain _ (.head _) _ hd hproc).elim) hrest
      exact ⟨Environments.extends_hold.trans hextends, hsound⟩

end Sound

/-! ### Steps -/

/-- Nothing is stored to what holds a procedure. -/
theorem Accepts.ne_procedure_of_stores (h : c.Accepts root f) (hx : x ∈ c.tree.preorder root)
    {target d : NodeId} (htarget : target ∈ (c.tree.stores x).map Prod.fst)
    (hbound : c.resolution.declaration? (c.tree.ungroup target) = some d) : f d ≠ .procedure := by
  obtain ⟨⟨target, value⟩, hstore, rfl⟩ := List.mem_map.1 htarget
  unfold Tree.stores at hstore
  split at hstore
  · next target' value' hshape =>
    obtain ⟨rfl, -⟩ := Prod.mk.inj (List.mem_singleton.1 hstore)
    exact h.ne_procedure_of_assign hx hshape hbound
  · next targets values hshape =>
    exact h.ne_procedure_of_parallel hx hshape (List.of_mem_zip hstore).1 hbound
  · next source inputs output hshape =>
    split at hstore
    · next target' offset hslot =>
      obtain ⟨rfl, -⟩ := Prod.mk.inj (List.mem_singleton.1 hstore)
      exact h.ne_procedure_of_native hx hshape hslot hbound
    · cases hstore
  · cases hstore

/-- What is defined is a declaration, and its definition is an expression. -/
theorem Accepts.isExpr_definition (h : c.Accepts root f) (hx : x ∈ c.tree.preorder root)
    {e : NodeId} (hdefinition : c.tree.definition? x = some e) :
    (c.tree.shape x).isDeclaration = true ∧ (c.tree.shape e).isExpr = true := by
  have hfits := h.tree.fits x hx
  unfold Tree.definition? at hdefinition
  cases hshape : c.tree.shape x <;> simp only [hshape] at hdefinition <;>
    first | (cases hdefinition; done) | skip
  · obtain rfl := Option.some.inj hdefinition
    exact ⟨rfl, by simpa only [Tree.fits, hshape] using hfits⟩
  · subst hdefinition
    simp only [Tree.fits, hshape, Bool.and_eq_true, Option.all_some] at hfits
    exact ⟨rfl, hfits.2⟩

/-- Nothing that is performed brings an error in. -/
theorem Pending.isError (h : c.Accepts root f) (ho : env.owner ∈ c.tree.preorder root)
    (hp : c.Pending root f env (.finish x :: tasks))
    (hname : ∀ name, c.tree.shape x = .ident name →
      ∃ d, c.resolution.declaration? x = some d ∧ (f d).isError = false) :
        (f x).isError = false := by
  refine h.isError_of_asked (c.tree.mem_preorder_trans ho hp.head.mem) (fun y hy => ?_) hname
  have hchild := Shape.mem_children_of_asked hy
  have hproc : (c.tree.shape x).isProcedure = false := by
    cases hshape : c.tree.shape x <;> rw [hshape] at hy <;> first | rfl | cases hy
  exact (hp.done_child h.tree.nodup ho hproc hchild).isError

/-- The tasks that are left when a node is done. -/
theorem Pending.next (hα : E[α]? = some env) (hp : c.Pending root f env (.finish x :: tasks))
    (hextends : E.Extends E') (herror : (f x).isError = false)
    (hheld : (c.tree.shape x).isDeclaration = true →
      ∀ env', E'[α]? = some env' → env'.held x ≠ none) :
    ∃ env', E'[α]? = some env' ∧ c.Pending root f env' tasks := by
  obtain ⟨env', hα', hgrows⟩ := hextends α env hα
  exact ⟨env', hα', (hp.grows hgrows).finish ⟨herror, fun hdeclares => hheld hdeclares env' hα'⟩⟩

/-- A declaration holds its value from then on. -/
theorem Sound.declare (h : c.Accepts root f) (hs : c.Sound root f E) (hα : E[α]? = some env)
    (hp : c.Pending root f env (.finish x :: tasks))
    (hdeclares : (c.tree.shape x).isDeclaration = true)
    (hv : f x = .procedure → ∃ e, c.tree.definition? x = some e ∧ c.Denotes (E.hold α x v) e v) :
    c.Sound root f (E.hold α x v)
      ∧ ∃ env', (E.hold α x v)[α]? = some env' ∧ c.Pending root f env' tasks := by
  have herror := Pending.isError h (hs.owner α env hα).1 hp fun name hname => by
    rw [hname] at hdeclares
    cases hdeclares
  refine ⟨hs.hold herror hv, hp.next hα Environments.extends_hold herror fun _ env' hα' => ?_⟩
  simp [Environments.held_hold hα']

/-- A definition of the type of a procedure gives the procedure that it denotes. -/
theorem Sound.denotes_of_define (h : c.Accepts root f) (hs : c.Sound root f E)
    (hα : E[α]? = some env) (hp : c.Pending root f env (.finish x :: tasks)) {e : NodeId}
    (hdefinition : c.tree.definition? x = some e)
    (hgives : Configuration.Gives c.tree c.resolution E α e v) (hproc : f x = .procedure) :
    c.Denotes (E.hold α x v) e v := by
  have hx := c.tree.mem_preorder_trans (hs.owner α env hα).1 hp.head.mem
  obtain ⟨hdeclares, hexpr⟩ := h.isExpr_definition hx hdefinition
  obtain ⟨e', hdefinition', -, -, htype⟩ := h.exists_definition hx hdeclares hproc
  obtain rfl := Option.some.inj (hdefinition.symm.trans hdefinition')
  refine hs.denotes_of_gives h hα hp (fun e' hshape => ?_)
    (Shape.isProcedure_of_isDeclaration hdeclares) (Tree.child_of_definition? hdefinition)
    hexpr htype hgives Environments.extends_hold fun _ => ?_
  · rw [hshape] at hdeclares
    cases hdeclares
  · obtain ⟨env', hα', -⟩ := Environments.extends_hold (γ := α) (d := x) (v := v) α env hα
    exact ⟨α, v, .here hα' (Environments.held_hold hα')⟩

/-- **A node that is finished leaves sound environments**, in which it has been performed. -/
theorem Sound.finish (h : c.Accepts root f) (hs : c.Sound root f E) (hα : E[α]? = some env)
    (hp : c.Pending root f env (.finish x :: tasks))
    (hfinishes : Configuration.Finishes c.tree c.resolution E α x E') :
    E.Extends E' ∧ c.Sound root f E' ∧ ∃ env', E'[α]? = some env'
      ∧ c.Pending root f env' tasks := by
  obtain ⟨ho, -⟩ := hs.owner α env hα
  have hx := c.tree.mem_preorder_trans ho hp.head.mem
  cases hfinishes with
  -- A definition holds what its expression gives.
  | @define e v hdefinition hgives =>
    obtain ⟨hdeclares, -⟩ := h.isExpr_definition hx hdefinition
    exact ⟨Environments.extends_hold, hs.declare h hα hp hdeclares fun hproc =>
      ⟨e, hdefinition, hs.denotes_of_define h hα hp hdefinition hgives hproc⟩⟩
  -- A declaration without a definition is no procedure.
  | @start v hdeclares hdefinition =>
    refine ⟨Environments.extends_hold, hs.declare h hα hp hdeclares fun hproc => ?_⟩
    obtain ⟨e, hdefinition', -⟩ := h.exists_definition hx hdeclares hproc
    rw [hdefinition] at hdefinition'
    cases hdefinition'
  -- A name is no error, since the one that it stands for is none.
  | @read name d γ v hshape hbound hfinds =>
    obtain ⟨env', hγ, hcell⟩ := hfinds.cell
    have herror := hs.isError γ env' d hγ (by simp [hcell])
    refine ⟨.refl E, hs, hp.next hα (.refl E) ?_ fun hdeclares => ?_⟩
    · exact Pending.isError h ho hp fun _ _ => ⟨d, hbound, herror⟩
    · rw [hshape] at hdeclares
      cases hdeclares
  -- A store leaves all procedures where they are.
  | store hsilent _ hstores =>
    obtain ⟨hextends, hsound⟩ := hs.storesAll (fun target htarget d hbound =>
      h.ne_procedure_of_stores hx htarget hbound) hstores
    refine ⟨hextends, hsound, hp.next hα hextends ?_ fun hdeclares => ?_⟩
    · refine Pending.isError h ho hp fun name hname => ?_
      rw [hname] at hsilent
      cases hsilent
    · rw [Shape.isDeclaration_of_isSilent hsilent] at hdeclares
      cases hdeclares

/-- A callee that is performed is an expression of the type of a procedure. -/
theorem Pending.callee (h : c.Accepts root f) (ho : env.owner ∈ c.tree.preorder root)
    (hp : c.Pending root f env (.finish x :: tasks)) {callee : NodeId}
    (hshape : c.tree.shape x = .call callee) :
    callee ∈ c.tree.children x ∧ (c.tree.shape callee).isExpr = true ∧ f callee = .procedure := by
  have hx := c.tree.mem_preorder_trans ho hp.head.mem
  have hchild : callee ∈ c.tree.children x := by simp [Tree.children, hshape, Shape.children]
  have hfits := h.tree.fits x hx
  have hquiet := h.quiet x hx
  have hdone := hp.done_child h.tree.nodup ho (by simp [hshape, Shape.isProcedure]) hchild
  exact ⟨hchild, by simpa only [Tree.fits, hshape] using hfits,
    by simpa [reports, hshape, hdone.isError] using hquiet⟩

/-- The name of a procedure is found by the time of the call. -/
theorem Sound.finds_callee (h : c.Accepts root f) (hs : c.Sound root f E) (hα : E[α]? = some env)
    (hp : c.Pending root f env (.finish x :: tasks)) {callee d : NodeId} {name : String}
    (hshape : c.tree.shape x = .call callee)
    (hname : c.tree.shape (c.tree.ungroup callee) = .ident name)
    (hbound : c.resolution.declaration? (c.tree.ungroup callee) = some d) :
    ∃ γ v, E.Finds d α γ v := by
  obtain ⟨ho, -⟩ := hs.owner α env hα
  have hproc : (c.tree.shape x).isProcedure = false := by simp [hshape, Shape.isProcedure]
  have hchild : callee ∈ c.tree.children x := by simp [Tree.children, hshape, Shape.children]
  have hinside := c.tree.mem_preorder_of_child hchild (c.tree.ungroup_mem_preorder callee)
  refine hs.finds h hα hp (by simp [hshape]) hproc hinside hbound ?_ fun q hq hprocedure hmem _ =>
    ?_
  · rintro rfl
    obtain ⟨-, -, -, hdeclares, -⟩ := h.exact.bound_before hbound
    rw [hshape] at hdeclares
    cases hdeclares
  · -- The name itself is performed, and it is no procedure.
    have hsame := (hp.head.operand hproc hchild).ungroup.eq_of_mem_procedure h.tree.nodup ho
      (c.tree.mem_preorder_trans ho hq.mem) hprocedure hq.lt hmem
    rw [← hsame, hname] at hprocedure
    cases hprocedure

/-- **A call is of the procedure that its callee denotes**, and of no other. -/
theorem Sound.call (h : c.Accepts root f) (hs : c.Sound root f E) (hα : E[α]? = some env)
    (hp : c.Pending root f env (.finish x :: tasks)) {callee : NodeId}
    (hshape : c.tree.shape x = .call callee) :
    ∃ v, Configuration.Gives c.tree c.resolution E α callee v ∧ c.Denotes E callee v
      ∧ ∀ v', Configuration.Gives c.tree c.resolution E α callee v' → v' = v := by
  obtain ⟨ho, -⟩ := hs.owner α env hα
  obtain ⟨hchild, hexpr, htype⟩ := hp.callee h ho hshape
  have hx := c.tree.mem_preorder_trans ho hp.head.mem
  -- What the callee gives is what it denotes.
  have hdenotes {v : Content} (hgives : Configuration.Gives c.tree c.resolution E α callee v) :
      c.Denotes E callee v := by
    refine hs.denotes_of_gives h hα hp (by simp [hshape]) (by simp [hshape, Shape.isProcedure])
      hchild hexpr htype hgives (.refl E) fun hdeclares => ?_
    rw [hshape] at hdeclares
    cases hdeclares
  rcases h.procedure_or_name (h.tree.child hx hchild) hexpr htype with
    hliteral | ⟨name, d, hname, hbound, -⟩
  · -- A procedure written in the place of the callee.
    cases hprocedure : c.tree.shape (c.tree.ungroup callee) <;> rw [hprocedure] at hliteral <;>
      first | (cases hliteral; done) | skip
    have hgives (v : Content) : Configuration.Gives c.tree c.resolution E α callee v
        ↔ v = .procedure (c.tree.ungroup callee) α := by
      simp only [Configuration.Gives, hprocedure]
    exact ⟨_, (hgives _).2 rfl, hdenotes ((hgives _).2 rfl), fun v' hv' => (hgives v').1 hv'⟩
  · -- A name that stands for a procedure.
    have hgives (v : Content) : Configuration.Gives c.tree c.resolution E α callee v
        ↔ ∃ γ, E.Finds d α γ v := by
      simp [Configuration.Gives, hname, hbound]
    obtain ⟨γ, v, hfinds⟩ := hs.finds_callee h hα hp hshape hname hbound
    refine ⟨v, (hgives v).2 ⟨γ, hfinds⟩, hdenotes ((hgives v).2 ⟨γ, hfinds⟩), fun v' hv' => ?_⟩
    obtain ⟨γ', hfinds'⟩ := (hgives v').1 hv'
    exact (hfinds'.unique hfinds).2

/-- **Every step of an evaluation keeps the environments sound and the tasks pending.** -/
theorem Steady.step (h : c.Accepts root f) {κ κ' : Configuration} (hκ : c.Steady root f κ)
    (hstep : Configuration.Step c.tree c.resolution κ κ') : c.Steady root f κ' := by
  have hnodup := h.tree.nodup
  obtain ⟨hs, hpending⟩ := hκ
  -- The activations that wait are not concerned.
  have hwait {E E' : Environments} {rest : List (Nat × List Task)} (hE : E.Extends E')
      (hrest : ∀ a ∈ rest, ∃ env, E[a.1]? = some env ∧ c.Pending root f env a.2) :
      ∀ a ∈ rest, ∃ env, E'[a.1]? = some env ∧ c.Pending root f env a.2 := by
    intro a ha
    obtain ⟨env, hα, hp⟩ := hrest a ha
    obtain ⟨env', hα', hgrows⟩ := hE a.1 env hα
    exact ⟨env', hα', hp.grows hgrows⟩
  cases hstep with
  | visit =>
    obtain ⟨⟨env, hα, hp⟩, hrest⟩ := List.forall_mem_cons.1 hpending
    exact ⟨hs, List.forall_mem_cons.2 ⟨⟨env, hα, hp.visit hnodup (hs.owner _ env hα).1⟩, hrest⟩⟩
  | finish hfinishes =>
    obtain ⟨⟨env, hα, hp⟩, hrest⟩ := List.forall_mem_cons.1 hpending
    obtain ⟨hextends, hsound, hafter⟩ := hs.finish h hα hp hfinishes
    exact ⟨hsound, List.forall_mem_cons.2 ⟨hafter, hwait hextends hrest⟩⟩
  | @call E α home x callee p tasks rest hshape hgives =>
    obtain ⟨⟨env, hα, hp⟩, hrest⟩ := List.forall_mem_cons.1 hpending
    obtain ⟨ho, -⟩ := hs.owner α env hα
    obtain ⟨v, -, ⟨p', home', htarget, rfl, hsupplies⟩, honly⟩ := hs.call h hα hp hshape
    obtain ⟨rfl, rfl⟩ := Content.procedure.inj (honly _ hgives)
    obtain ⟨hchild, -⟩ := hp.callee h ho hshape
    obtain ⟨hmem, hprocedure, -⟩ := h.exact.target_before hnodup
      (h.tree.child (c.tree.mem_preorder_trans ho hp.head.mem) hchild) htarget
    have hextends := Environments.extends_push (E := E) ⟨p, some home, fun _ => none⟩
    have hdone : c.Done f env x := by
      refine ⟨Pending.isError h ho hp fun name hname => ?_, fun hdeclares => ?_⟩
      · rw [hshape] at hname
        cases hname
      · rw [hshape] at hdeclares
        cases hdeclares
    refine ⟨hs.push hmem hprocedure hsupplies, List.forall_mem_cons.2 ⟨?_, hwait hextends ?_⟩⟩
    · exact ⟨_, Array.getElem?_push_size, Pending.start hnodup hmem⟩
    · exact List.forall_mem_cons.2 ⟨⟨env, hα, hp.finish hdone⟩, hrest⟩
  | ret => exact ⟨hs, (List.forall_mem_cons.1 hpending).2⟩
  | leave => exact ⟨hs, (List.forall_mem_cons.1 hpending).2⟩

/-- Nothing is around the root, and nothing is needed from there. -/
theorem Accepts.steady_start (h : c.Accepts root f) :
    c.Steady root f (Configuration.start c.tree root) := by
  have hcell {α : Nat} {env : Environment}
      (hα : (Configuration.start c.tree root).environments[α]? = some env) :
      α = 0 ∧ env = ⟨root, none, fun _ => none⟩ := by
    cases α with
    | zero => exact ⟨rfl, (Option.some.inj hα).symm⟩
    | succ α => simp [Configuration.start] at hα
  refine ⟨⟨?_, ?_, ?_, ?_⟩, ?_⟩
  · intro α env hα
    obtain ⟨-, rfl⟩ := hcell hα
    exact ⟨c.tree.self_mem_preorder root, Shape.isDeclaration_of_isScope h.tree.root_scope⟩
  · intro α env hα x hx d hbound hout
    obtain ⟨-, rfl⟩ := hcell hα
    obtain ⟨-, -, hd, -⟩ := h.exact.bound_before hbound
    exact (hout hd).elim
  · intro α env d hα hd
    obtain ⟨-, rfl⟩ := hcell hα
    exact (hd rfl).elim
  · intro α env d v hα hd
    obtain ⟨-, rfl⟩ := hcell hα
    cases hd
  · exact List.forall_mem_singleton.2
      ⟨_, rfl, Pending.start h.tree.nodup (c.tree.self_mem_preorder root)⟩

/-- **So does the whole evaluation.** -/
theorem Accepts.steady (h : c.Accepts root f) {κ : Configuration}
    (hκ : Configuration.Reachable c.tree c.resolution root κ) : c.Steady root f κ := by
  induction hκ with
  | refl => exact h.steady_start
  | tail _ hstep ih => exact ih.step h hstep

end Typing.Context

end MiddleEnd
