import MiddleEnd.Typing

/-!
# What it means to be well typed

The typing judgement, read off a finished table and independent of how the table was computed.

## Main definitions

* `Literal.value?` — the value that a literal spells.
* `Typing.Done` — a node has got its type.
* `Typing.Context.IsVariable` — an expression names a variable.
* `Typing.Context.resultNode?`, `Typing.Context.calleeResult?` — the result type that a `return` or
  a call is about.
* `Typing.HasType` — one case per rule of the language.

## Main results

* `Typing.HasType.mono` — a judgement outlasts whatever is typed later.
-/

namespace MiddleEnd

/-- The value that a literal spells; a text has none that is recorded. -/
def Literal.value? : Literal → Option LiteralValue
  | number spelling =>
    match Spelled.ofText spelling with
    | .ok (.decimal n) | .ok (.octal n) => some (.integer n)
    | .ok (.float bits) => some (.float bits)
    | .error _ => none
  | char c => some (.char c)
  | text _ => none

/-- The declared result type of a procedure. -/
def Shape.result? : Shape → Option NodeId
  | procedure result _ => result
  | _ => none

namespace Typing

/-- A node has got its type. -/
def Done (ty : Typing) (id : NodeId) (τ : Ty) : Prop := ty.progressOf id = .done τ

theorem Done.typeOf {ty : Typing} {id : NodeId} {τ : Ty} (h : ty.Done id τ) : ty.typeOf id = τ := by
  unfold Done at h
  simp [Typing.typeOf, h]

theorem Done.unique {ty : Typing} {id : NodeId} {τ σ : Ty} (h : ty.Done id τ) (h' : ty.Done id σ) :
    τ = σ :=
  h.typeOf.symm.trans h'.typeOf

namespace Context

/-- Whether an expression names a variable, perhaps in parentheses. -/
def IsVariable (c : Context) (target : NodeId) : Prop :=
  ∃ decl name ty init, c.resolution.declaration? (c.tree.ungroup target) = some decl
    ∧ c.tree.shape decl = .var name ty init
    ∧ ∃ name, c.tree.shape (c.tree.ungroup target) = .ident name

/-- The declared result type of the procedure around a node. -/
def resultNode? (c : Context) (id : NodeId) : Option NodeId :=
  (c.links.enclosingProcedure? c.tree id).bind fun p => (c.tree.shape p).result?

/-- The declared result type of the procedure that a callee denotes. -/
def calleeResult? (c : Context) (callee : NodeId) : Option NodeId :=
  (c.resolution.procedureTarget? c.tree callee).bind fun p => (c.tree.shape p).result?

end Context

/-- A store that the types allow. -/
def CanStore (c : Context) (ty : Typing) (target value : NodeId) : Prop :=
  ∃ δ σ, ty.Done target δ ∧ ty.Done value σ ∧ c.IsVariable target ∧ δ ≠ .procedure
    ∧ Ty.canAssign δ σ = true

/-- The type of a node, from its shape and the types of the nodes that it mentions. -/
inductive HasType (c : Context) (ty : Typing) (id : NodeId) : Shape → Ty → Prop
  /-- A module has no value. -/
  | module {items : List NodeId} : HasType c ty id (.module items) .empty
  /-- A block has no value. -/
  | block {items : List NodeId} : HasType c ty id (.block items) .empty
  /-- Neither has a structure. -/
  | struct {fields : List NodeId} : HasType c ty id (.struct fields) .empty
  /-- Neither has a field. -/
  | field {name : String} {x : NodeId} : HasType c ty id (.field name x) .empty
  /-- Neither has an enumeration. -/
  | enum {variants : List NodeId} : HasType c ty id (.enum variants) .empty
  /-- Neither has a variant. -/
  | variant {name : String} : HasType c ty id (.variant name) .empty
  /-- An operator has no value of its own. -/
  | binaryOp {op : BinaryOp} : HasType c ty id (.binaryOp op) .empty
  /-- Neither has a sign. -/
  | signOp {sign : Sign} : HasType c ty id (.signOp sign) .empty
  /-- A procedure is a value. -/
  | procedure {result : Option NodeId} {body : NodeId} :
      HasType c ty id (.procedure result body) .procedure
  /-- A constant has the type of its definition. -/
  | constant {name : String} {x : NodeId} {τ : Ty} (h : ty.Done x τ) :
      HasType c ty id (.constant name x) τ
  /-- A variable has its declared type, and can hold its initial value. -/
  | var {name : String} {x i : NodeId} {τ σ : Ty} (hty : ty.Done x τ) (hinit : ty.Done i σ)
      (h : Ty.canAssign τ σ = true) : HasType c ty id (.var name (some x) (some i)) τ
  /-- A variable without an initial value has its declared type. -/
  | varDeclared {name : String} {x : NodeId} {τ : Ty} (h : ty.Done x τ) :
      HasType c ty id (.var name (some x) none) τ
  /-- A variable without a declared type has that of its initial value. -/
  | varInferred {name : String} {i : NodeId} {τ : Ty} (h : ty.Done i τ) :
      HasType c ty id (.var name none (some i)) τ
  /-- A statement has no value. -/
  | exprStmt {x : NodeId} {τ : Ty} (h : ty.Done x τ) : HasType c ty id (.exprStmt x) .empty
  /-- What is stored must fit the target. -/
  | assign {target value : NodeId} (h : CanStore c ty target value) :
      HasType c ty id (.assign target value) .empty
  /-- There are as many values as targets, and each value fits its target. -/
  | parallel {targets values : List NodeId} (hlength : targets.length = values.length)
      (h : ∀ pair ∈ targets.zip values, CanStore c ty pair.1 pair.2) :
      HasType c ty id (.parallel targets values) .empty
  /-- Where no result is declared, anything may be returned. -/
  | retFree {value : Option NodeId} (hresult : c.resultNode? id = none)
      (h : ∀ v, value = some v → ∃ σ, ty.Done v σ) : HasType c ty id (.ret value) .empty
  /-- Nothing may be returned where the declared result is `empty`. -/
  | retNothing {result : NodeId} (hresult : c.resultNode? id = some result)
      (h : ty.Done result .empty) : HasType c ty id (.ret none) .empty
  /-- What is returned must fit the declared result. -/
  | retValue {result value : NodeId} {ρ σ : Ty} (hresult : c.resultNode? id = some result)
      (hρ : ty.Done result ρ) (hσ : ty.Done value σ) (h : Ty.canAssign ρ σ = true) :
      HasType c ty id (.ret (some value)) .empty
  /-- A decimal number fits every numeric type. -/
  | decimal {spelling : String} {n : Nat} (hspelled : Spelled.ofText spelling = .ok (.decimal n))
      (h : ty.literal? id = some (.integer n)) :
      HasType c ty id (.literal (.number spelling)) .anyNumber
  /-- An octal number is unsigned. -/
  | octal {spelling : String} {n : Nat} (hspelled : Spelled.ofText spelling = .ok (.octal n))
      (h : ty.literal? id = some (.integer n)) :
      HasType c ty id (.literal (.number spelling)) .anyUnsigned
  /-- A number with a point or an exponent is a float. -/
  | float {spelling : String} {bits : Nat} (hspelled : Spelled.ofText spelling = .ok (.float bits))
      (h : ty.literal? id = some (.float bits)) :
      HasType c ty id (.literal (.number spelling)) .anyFloat
  /-- A character. -/
  | char {ch : Char} (h : ty.literal? id = some (.char ch)) :
      HasType c ty id (.literal (.char ch)) .char
  /-- A text. -/
  | text {contents : String} : HasType c ty id (.literal (.text contents)) .text
  /-- A name has the type of its declaration. -/
  | ident {name : String} {decl : NodeId} {τ : Ty}
      (hdecl : c.resolution.declaration? id = some decl) (h : ty.Done decl τ) :
      HasType c ty id (.ident name) τ
  /-- Operands have a type in common. -/
  | binary {left op right : NodeId} {τ σ : Ty} (hleft : ty.Done left τ) (hright : ty.Done right σ)
      (h : τ.promote σ ≠ .uncastable) : HasType c ty id (.binary left op right) (τ.promote σ)
  /-- The operand is a number. -/
  | signed {op x : NodeId} {sign : Sign} {τ : Ty} (hop : c.tree.shape op = .signOp sign)
      (hx : ty.Done x τ) (h : τ.withSign sign ≠ .uncastable) :
      HasType c ty id (.signed op x) (τ.withSign sign)
  /-- Parentheses change nothing. -/
  | group {x : NodeId} {τ : Ty} (h : ty.Done x τ) : HasType c ty id (.group x) τ
  /-- A call has the declared result of the procedure. -/
  | callTyped {callee result : NodeId} {τ : Ty} (hcallee : ty.Done callee .procedure)
      (hresult : c.calleeResult? callee = some result) (h : ty.Done result τ) :
      HasType c ty id (.call callee) τ
  /-- If none is declared, it has no value. -/
  | callEmpty {callee : NodeId} (hcallee : ty.Done callee .procedure)
      (hresult : c.calleeResult? callee = none) : HasType c ty id (.call callee) .empty
  /-- The operand can be cast to the target. -/
  | cast {x y : NodeId} {σ τ : Ty} (hx : ty.Done x σ) (hy : ty.Done y τ)
      (h : Ty.canCast σ τ = true) : HasType c ty id (.cast x y) τ
  /-- Native code without an output has no value. -/
  | nativeSilent {source : String} {inputs : List NodeId}
      (h : ∀ input ∈ inputs, ∃ τ, ty.Done input τ) :
      HasType c ty id (.native source inputs none) .empty
  /-- Native code has the type of its output, which must be a variable. -/
  | native {source : String} {inputs : List NodeId} {output : NodeId} {τ : Ty}
      (hinputs : ∀ input ∈ inputs, ∃ τ, ty.Done input τ) (h : ty.Done output τ)
      (htarget : ∀ target offset, c.tree.shape output = .slot target offset →
        c.IsVariable target) : HasType c ty id (.native source inputs (some output)) τ
  /-- What native code exchanges is a number or a character. -/
  | slot {target : NodeId} {offset : Nat} {τ : Ty} (h : ty.Done target τ)
      (hτ : τ.isNumeric = true ∨ τ = .char) : HasType c ty id (.slot target offset) τ
  /-- A type stands for itself. -/
  | typeName {name : String} {τ : Ty} (h : Ty.ofName? name = some τ) :
      HasType c ty id (.typeName name) τ

theorem CanStore.canAssign {c : Context} {ty : Typing} {target value : NodeId}
    (h : CanStore c ty target value) : (ty.typeOf target).canAssign (ty.typeOf value) = true := by
  obtain ⟨δ, σ, hδ, hσ, -, -, hassign⟩ := h
  rwa [hδ.typeOf, hσ.typeOf]

theorem CanStore.mono {c : Context} {a b : Typing} {target value : NodeId}
    (h : CanStore c a target value) (hdone : ∀ x τ, a.Done x τ → b.Done x τ) :
    CanStore c b target value := by
  obtain ⟨δ, σ, hδ, hσ, htarget, hprocedure, hassign⟩ := h
  exact ⟨δ, σ, hdone _ _ hδ, hdone _ _ hσ, htarget, hprocedure, hassign⟩

/-- A judgement outlasts whatever is typed later. -/
theorem HasType.mono {c : Context} {a b : Typing} {id : NodeId} {shape : Shape} {τ : Ty}
    (h : HasType c a id shape τ) (hdone : ∀ x τ, a.Done x τ → b.Done x τ)
    (hliteral : b.literal? id = a.literal? id) : HasType c b id shape τ := by
  cases h with
  | module => exact .module
  | block => exact .block
  | struct => exact .struct
  | field => exact .field
  | enum => exact .enum
  | variant => exact .variant
  | binaryOp => exact .binaryOp
  | signOp => exact .signOp
  | procedure => exact .procedure
  | constant h => exact .constant (hdone _ _ h)
  | var hty hinit h => exact .var (hdone _ _ hty) (hdone _ _ hinit) h
  | varDeclared h => exact .varDeclared (hdone _ _ h)
  | varInferred h => exact .varInferred (hdone _ _ h)
  | exprStmt h => exact .exprStmt (hdone _ _ h)
  | assign h => exact .assign (h.mono hdone)
  | parallel hlength h => exact .parallel hlength fun pair hpair => (h pair hpair).mono hdone
  | retFree hresult h =>
    refine .retFree hresult fun v hv => ?_
    obtain ⟨σ, hσ⟩ := h v hv
    exact ⟨σ, hdone _ _ hσ⟩
  | retNothing hresult h => exact .retNothing hresult (hdone _ _ h)
  | retValue hresult hρ hσ h => exact .retValue hresult (hdone _ _ hρ) (hdone _ _ hσ) h
  | decimal hspelled h => exact .decimal hspelled (hliteral.trans h)
  | octal hspelled h => exact .octal hspelled (hliteral.trans h)
  | float hspelled h => exact .float hspelled (hliteral.trans h)
  | char h => exact .char (hliteral.trans h)
  | text => exact .text
  | ident hdecl h => exact .ident hdecl (hdone _ _ h)
  | binary hleft hright h => exact .binary (hdone _ _ hleft) (hdone _ _ hright) h
  | signed hop hx h => exact .signed hop (hdone _ _ hx) h
  | group h => exact .group (hdone _ _ h)
  | callTyped hcallee hresult h => exact .callTyped (hdone _ _ hcallee) hresult (hdone _ _ h)
  | callEmpty hcallee hresult => exact .callEmpty (hdone _ _ hcallee) hresult
  | cast hx hy h => exact .cast (hdone _ _ hx) (hdone _ _ hy) h
  | nativeSilent h =>
    refine .nativeSilent fun input hinput => ?_
    obtain ⟨τ, hτ⟩ := h input hinput
    exact ⟨τ, hdone _ _ hτ⟩
  | native hinputs h htarget =>
    refine .native (fun input hinput => ?_) (hdone _ _ h) htarget
    obtain ⟨τ, hτ⟩ := hinputs input hinput
    exact ⟨τ, hdone _ _ hτ⟩
  | slot h hτ => exact .slot (hdone _ _ h) hτ
  | typeName h => exact .typeName h

end Typing

end MiddleEnd
