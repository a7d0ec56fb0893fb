import MiddleEnd.Tree.Shape

/-!
# Broken contracts

Passes expect their callers to hand over trees of the right form, and so do queues and backends for
what they are handed.  Whoever meets anything else stops with a `Misuse` that says what it met; this
is no diagnostic of the program.
-/

namespace MiddleEnd

/-- What was met that the caller should have ruled out, with the node it was met at if there is
one. -/
inductive Misuse where
  /-- Names are resolved below a root that is no scope. -/
  | rootNotScope (root : NodeId)
  /-- A node of a section has lost its parent. -/
  | noParent (id : NodeId)
  /-- An identifier outside every scope. -/
  | noScope (ident : NodeId)
  /-- A signed expression without a sign. -/
  | noSign (id : NodeId)
  /-- A node that mentions a node after it. -/
  | notBefore (id : NodeId)
  /-- An arithmetic expression without an operator. -/
  | noOperator (id : NodeId)
  /-- An identifier bound to a node that declares nothing. -/
  | notDeclaration (decl : NodeId)
  /-- An identifier without a declaration in code to be lowered. -/
  | unboundIdent (ident : NodeId)
  /-- An arithmetic expression whose type is no number. -/
  | noKind (id : NodeId)
  /-- A literal without a value. -/
  | noValue (id : NodeId)
  /-- A declaration of the current procedure without a register. -/
  | noRegister (decl : NodeId)
  /-- A call of a procedure that has no code yet. -/
  | notLowered (procedure : NodeId)
  /-- Native code tied to something that is no slot. -/
  | notSlot (id : NodeId)
  /-- A limit was exceeded and nothing was reported. -/
  | unreportedLimit
  /-- A diagnostic that is no error is emitted as one. -/
  | notError
  /-- A backend is handed native code with more inputs than a native function can have. -/
  | nativeInputs (count : Nat)
  deriving DecidableEq, Repr

end MiddleEnd
