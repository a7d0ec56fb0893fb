import MiddleEnd.Machine.Run
import MiddleEnd.Proofs.Lowering.Types

/-!
# Evaluation

What a typed tree means, without code or registers.  An activation of a procedure gives words to
declarations.  Words are read in the kind of the node whose value they are.  A procedure hands back
the value of the return that it is left with, or else the value computed or stored last.

Words are only converted between two different kinds.  A value without a kind, such as the one of a
procedure that declares no result, is used as it is.

## Main definitions

* `Activation` — the words of the declarations, and the value computed or stored last.
* `Eval` — a computation on an activation, which may leave it or break down.
* `Eval.rule` — the value of each shape, over any way to evaluate the nodes below.
* `Eval.node` — the value of a node.
* `LowerContext.activate` — the value of a procedure, with the words of its declarations.
* `LowerContext.calls`, `LowerContext.evaluate` — calls with a bound on those nested in them, and
  the value of the whole tree.

## Main results

* `Eval.node_eq` — a node is evaluated by the rule for its shape, over the values of the nodes
  below.
-/

namespace MiddleEnd

/-- What goes wrong in an evaluation, and where. -/
structure Breakdown where
  /-- What goes wrong. -/
  fault : Fault
  /-- Where it does. -/
  span : Span
  deriving DecidableEq

/-- Why the evaluation of a procedure stops before its end. -/
inductive Exit where
  /-- A return with this value. -/
  | leave (w : Word)
  /-- Something goes wrong. -/
  | breakdown (b : Breakdown)
  deriving DecidableEq

/-- A procedure that is being evaluated. -/
structure Activation where
  /-- The words of the declarations so far. -/
  words : Std.TreeMap NodeId Word
  /-- The value computed or stored last. -/
  last : Word
  /-- The kind of that value, if it is kept in one. -/
  lastKind : Option Kind

/-- Nothing has been computed yet. -/
def Activation.start : Activation := ⟨∅, 0, none⟩

/-- An evaluation in an activation, which may leave the procedure or break down. -/
abbrev Eval := ExceptT Exit (StateM Activation)

namespace Eval

/-- Remember a value as the last one. -/
def remember (w : Word) (kind : Option Kind) : Eval Word := do
  modify fun a => { a with last := w, lastKind := kind }
  return w

/-- Give a word to a declaration. -/
def declare (decl : NodeId) (w : Word) : Eval Unit :=
  modify fun a => { a with words := a.words.insert decl w }

/-- Convert a value to another kind. -/
def convert (w : Word) (source dest : Option Kind) : Eval Word :=
  match source, dest with
  | some a, some b => if a = b then return w else remember (a.convert b w) (some b)
  | _, _ => return w

/-- The result of an operation on words of a kind. -/
def arith (result : Except ArithError Word) (kind : Kind) (span : Span) : Eval Word :=
  match result with
  | .ok w => remember w (some kind)
  | .error e => throw (.breakdown ⟨.arith e, span⟩)

section Rules

variable (c : LowerContext) (call : NodeId → Span → Except Breakdown Word)
  (eval : NodeId → Eval (Option Word))

/-! ### Expressions -/

/-- Evaluate a node and convert its value. -/
def operand (x : NodeId) (kind : Option Kind) : Eval (Option Word) := do
  match ← eval x with
  | none => return none
  | some w => some <$> convert w (c.kindOf x) kind

/-- The word of a literal. -/
def literalRule (id : NodeId) : Eval (Option Word) :=
  match c.typing.literal? id with
  | none => return none
  | some v => some <$> remember v.word (c.kindOf id)

/-- The word of a declaration of this activation, or the literal that a constant stands for. -/
def identRule (id : NodeId) : Eval (Option Word) := do
  match c.resolution.declaration? id with
  | none => return none
  | some decl =>
    if c.typeOf decl = .procedure then return none
    match (← get).words[decl]? with
    | some w => return some w
    | none =>
      match Lower.literalConstant? c.tree decl with
      | some (x, _) => literalRule c x
      | none => return none

/-- The operation on the values of the operands, both read in the kind of the expression. -/
def binaryRule (id left op right : NodeId) : Eval (Option Word) :=
  match c.tree.shape op, c.kindOf id with
  | .binaryOp op, some kind => do
    let a ← operand c eval left kind
    let b ← operand c eval right kind
    match a, b with
    | some a, some b => some <$> arith ((ArithOp.binary op).apply kind a b) kind (c.span id)
    | _, _ => return none
  | _, _ => return none

/-- A negative literal is one word if its kind can hold it: the least value of a kind has a
magnitude that the kind cannot hold. -/
def signedRule (id op x : NodeId) : Eval (Option Word) :=
  match c.tree.shape op, c.kindOf id with
  | .signOp .plus, kind => operand c eval x kind
  | .signOp .minus, some kind =>
    match Lower.negatedLiteral? c x (c.typeOf id) with
    | some w => some <$> remember w kind
    | none => do
      match ← operand c eval x kind with
      | none => return none
      | some w => some <$> arith (kind.negate w) kind (c.span id)
  | _, _ => return none

/-- The value that the procedure called is left with. -/
def callRule (id callee : NodeId) : Eval (Option Word) := do
  let _ ← eval callee
  match c.resolution.procedureTarget? c.tree callee with
  | none => return none
  | some target =>
    match call target (c.span id) with
    | .ok w => some <$> remember w (c.kindOf id)
    | .error b => throw (.breakdown b)

/-! ### Declarations and statements -/

/-- The value of the definition or of the initial value of a declaration, in the kind of the
declaration. -/
def declareRule (id x : NodeId) : Eval (Option Word) := do
  match ← operand c eval x (c.kindOf id) with
  | none => return none
  | some w =>
    let w ← remember w (c.kindOf id)
    declare id w
    return some w

/-- Give a new word to the declaration that `target` names, if it has one. -/
def store (target : NodeId) (w : Word) : Eval Unit := do
  match c.resolution.declaration? (c.tree.ungroup target) with
  | none => return
  | some decl =>
    match (← get).words[decl]? with
    | none => return
    | some _ =>
      declare decl w
      discard (remember w (c.kindOf target))

/-- Store a value, in the kind of the target. -/
def assignRule (target value : NodeId) : Eval Unit := do
  match ← operand c eval value (c.kindOf target) with
  | none => return
  | some w => store c target w

/-- Evaluate a value of a parallel assignment. -/
def stage (value : NodeId) : Eval (Option Word) := do
  match ← eval value with
  | none => return none
  | some w => some <$> remember w (c.kindOf value)

/-- Store a value that has been evaluated before. -/
def unstage (target value : NodeId) : Option Word → Eval Unit
  | none => return
  | some w => do
    let w ← convert w (c.kindOf value) (c.kindOf target)
    store c target w

/-- All values are evaluated before the first target is written. -/
def parallelRule (targets values : List NodeId) : Eval Unit := do
  let staged ← values.mapM (stage c eval)
  (targets.zip (values.zip staged)).forM fun e => unstage c e.1 e.2.1 e.2.2

/-- Leave the procedure with a value in the kind of its result. -/
def returnRule (id : NodeId) : Option NodeId → Eval Unit
  | none => throw (.leave 0)
  | some x => do
    match ← operand c eval x (c.resultKind? id) with
    | none => return
    | some w => throw (.leave w)

/-! ### All shapes -/

/-- The value of a node. -/
def rule (id : NodeId) : Eval (Option Word) :=
  match c.tree.shape id with
  | .module items | .block items => do
    items.forM fun item => discard (eval item)
    return none
  | .constant _ x | .var _ _ (some x) => declareRule c eval id x
  | .var _ _ none => do
    declare id 0
    return some 0
  | .exprStmt x => do let _ ← eval x; return none
  | .assign target value => do assignRule c eval target value; return none
  | .parallel targets values => do parallelRule c eval targets values; return none
  | .ret value => do returnRule c eval id value; return none
  | .literal _ => literalRule c id
  | .ident _ => identRule c id
  | .binary left op right => binaryRule c eval id left op right
  | .signed op x => signedRule c eval id op x
  | .group x => eval x
  | .call callee => callRule c call eval id callee
  | .cast x _ => operand c eval x (c.kindOf id)
  | .procedure _ _ | .struct _ | .enum _ | .field _ _ | .variant _ | .native _ _ _ | .slot _ _
  | .binaryOp _ | .signOp _ | .typeName _ | .array _ _ => return none

end Rules

/-- The value of a node.  Native code has no value here. -/
def node (c : LowerContext) (call : NodeId → Span → Except Breakdown Word) (id : NodeId) :
    Eval (Option Word) :=
  rule c call (fun x => if _h : x < id then node c call x else return none) id
termination_by id

/-! ### Nodes below -/

theorem forM_congr {α : Type} {xs : List α} {f g : α → Eval Unit} (h : ∀ x ∈ xs, f x = g x) :
    xs.forM f = xs.forM g := by
  induction xs with
  | nil => rfl
  | cons x xs ih =>
    show (do f x; xs.forM f) = (do g x; xs.forM g)
    rw [h x (.head _), ih fun y hy => h y (.tail _ hy)]

theorem mapM_congr {α β : Type} {xs : List α} {f g : α → Eval β} (h : ∀ x ∈ xs, f x = g x) :
    xs.mapM f = xs.mapM g := by
  induction xs with
  | nil => rfl
  | cons x xs ih =>
    rw [List.mapM_cons, List.mapM_cons, h x (.head _), ih fun y hy => h y (.tail _ hy)]

/-- A rule evaluates no nodes but those below. -/
theorem rule_congr {c : LowerContext} {call : NodeId → Span → Except Breakdown Word} {id : NodeId}
    {eval eval' : NodeId → Eval (Option Word)}
    (h : ∀ x ∈ c.tree.children id, eval x = eval' x) :
    rule c call eval id = rule c call eval' id := by
  -- An operand is a child, so it is evaluated alike.
  have operand_congr {x : NodeId} (kind : Option Kind) (hx : x ∈ c.tree.children id) :
      operand c eval x kind = operand c eval' x kind := by
    unfold operand
    rw [h x hx]
  unfold Tree.children at h operand_congr
  unfold rule
  generalize c.tree.shape id = shape at h operand_congr
  cases shape with
  | module items | block items =>
    simp only
    rw [forM_congr fun x hx => by rw [h x hx]]
  | constant name x => simp only [declareRule, operand_congr _ (List.mem_singleton_self x)]
  | var name ty init =>
    cases init with
    | none => rfl
    | some x =>
      simp only [declareRule, operand_congr _ (show x ∈ (Shape.var name ty (some x)).children by
        simp [Shape.children])]
  | exprStmt x | group x => simp only [h x (List.mem_singleton_self x)]
  | assign target value =>
    simp only [assignRule, operand_congr _ (show value ∈ (Shape.assign target value).children by
      simp [Shape.children])]
  | parallel targets values =>
    have hstage : values.mapM (stage c eval) = values.mapM (stage c eval') :=
      mapM_congr fun x hx => by
        unfold stage
        rw [h x (by simp [Shape.children, hx])]
    simp only [parallelRule, hstage]
  | ret value =>
    cases value with
    | none => rfl
    | some x => simp only [returnRule, operand_congr _ (List.mem_singleton_self x)]
  | binary left op right =>
    simp only [binaryRule, operand_congr _ (show left ∈ (Shape.binary left op right).children by
      simp [Shape.children]), operand_congr _ (show right ∈ (Shape.binary left op right).children by
      simp [Shape.children])]
  | signed op x =>
    simp only [signedRule, operand_congr _ (show x ∈ (Shape.signed op x).children by
      simp [Shape.children])]
  | call callee => simp only [callRule, h callee (List.mem_singleton_self callee)]
  | cast x ty =>
    exact operand_congr _ (show x ∈ (Shape.cast x ty).children by simp [Shape.children])
  -- What is left evaluates no child.
  | literal | ident | procedure | struct | enum | field | variant | native | slot | binaryOp
  | signOp | typeName | array => rfl

/-- A node is evaluated by the rule for its shape, over the values of the nodes below. -/
theorem node_eq (c : LowerContext) (call : NodeId → Span → Except Breakdown Word) (id : NodeId) :
    node c call id = rule c call (node c call) id := by
  rw [node]
  exact rule_congr fun x hx => dif_pos (c.tree.child_lt hx)

/-- The value of a procedure: what it is left with, or the value computed or stored last. -/
def body (c : LowerContext) (call : NodeId → Span → Except Breakdown Word) (id : NodeId)
    (result : Option Kind) : Eval Word := do
  let _ ← node c call id
  let a ← get
  convert a.last a.lastKind result

end Eval

namespace LowerContext

variable (c : LowerContext)

/-- Evaluate a procedure in a new activation. -/
def activate (call : NodeId → Span → Except Breakdown Word) (body : NodeId)
    (result : Option Kind) : Except Breakdown (Word × Std.TreeMap NodeId Word) :=
  match (Eval.body c call body result).run .start with
  | (.ok w, a) | (.error (.leave w), a) => .ok (w, a.words)
  | (.error (.breakdown b), _) => .error b

/-- Calls of procedures in which at most `depth` calls may be nested, counting these. -/
def calls (limit : Nat) : Nat → NodeId → Span → Except Breakdown Word
  | 0, _, span => .error ⟨.callDepth limit, span⟩
  | depth + 1, target, _ =>
    match c.tree.shape target with
    | .procedure result body =>
      (c.activate (calls limit depth) body (result.bind c.kindOf)).map Prod.fst
    | _ => .ok 0

/-- Evaluate the whole tree with at most `depth` calls nested in one another, of `limit` that may be
nested at all. -/
def evaluate (limit depth : Nat) : Except Breakdown (Word × Std.TreeMap NodeId Word) :=
  c.activate (c.calls limit depth) c.root none

end LowerContext

end MiddleEnd
