import MiddleEnd.Proofs.Lowering.Layout
import MiddleEnd.Proofs.Tree.WellFormed
import MiddleEnd.Proofs.Typing.Kinds

/-!
# What nodes are lowered to

The code of a node, told by the layout before it and without the state of lowering.  One case per
way in which a node without problems can be lowered: a rule says which code the nodes below have,
and which lines come after it.

## Main definitions

* `LowerContext.Valued` — the nodes that have a value in a register.
* `Linkage` — the pools and procedures of the finished program, which the code refers to.
* `EmitsRule` — one case per shape, over the code of the nodes below.
* `LowerContext.Fits` — the nodes that may be lowered below one of a given shape.
* `Emits` — the code of a node with the register of its value and the layout after it.
* `Compiles` — a procedure whose code is that of a body, with the conversion of the value written
  last.

## Main results

* `EmitsRule.mono` — **in a well-formed tree, the code of a node is made of the code of nodes that
  fit.**
* `Emits.induction` — what all rules pass on holds of the code of every node.
* `Emits.item_induction`, `Emits.expr_induction` — the same for what stands in a scope and for
  expressions.
-/

namespace MiddleEnd

/-! ### Values -/

namespace Shape

/-- Shapes that no code belongs to. -/
def isInert : Shape → Bool
  | struct _ | enum _ | field _ _ | variant _ | binaryOp _ | signOp _ | typeName _ | array _ _ =>
    true
  | _ => false

/-- Shapes that have no value, whatever is below them. -/
def isVoid : Shape → Bool
  | module _ | block _ | procedure _ _ | exprStmt _ | assign _ _ | parallel _ _ | ret _
  | native _ _ none => true
  | s => s.isInert

end Shape

namespace LowerContext

variable (c : LowerContext)

/-- What typing looked up. -/
def typingContext : Typing.Context := ⟨c.tree, c.links, c.resolution⟩

/-- The declared result type of the procedure around a node. -/
def resultTy? (id : NodeId) : Option Ty := (c.typingContext.resultNode? id).map c.typeOf

/-- The nodes that have a value in a register: definitions have none, names have the one of what
they are bound to, and native code has one if it has an output. -/
inductive Valued : NodeId → Prop
  /-- A literal. -/
  | literal {id : NodeId} {lit : Literal} (hshape : c.tree.shape id = .literal lit) : Valued id
  /-- A name that is bound to something with a value in a register. -/
  | ident {id decl : NodeId} {name : String} (hshape : c.tree.shape id = .ident name)
      (hdecl : c.resolution.declaration? id = some decl) (hty : c.typeOf decl ≠ .procedure)
      (h : Valued decl) : Valued id
  /-- An arithmetic expression. -/
  | binary {id left op right : NodeId} (hshape : c.tree.shape id = .binary left op right) :
      Valued id
  /-- An expression with a sign in front. -/
  | signed {id op x : NodeId} (hshape : c.tree.shape id = .signed op x) : Valued id
  /-- Parentheses around something with a value. -/
  | group {id x : NodeId} (hshape : c.tree.shape id = .group x) (h : Valued x) : Valued id
  /-- A call. -/
  | call {id callee : NodeId} (hshape : c.tree.shape id = .call callee) : Valued id
  /-- A cast of something with a value. -/
  | cast {id x y : NodeId} (hshape : c.tree.shape id = .cast x y) (h : Valued x) : Valued id
  /-- Native code with an output. -/
  | native {id output : NodeId} {source : String} {inputs : List NodeId}
      (hshape : c.tree.shape id = .native source inputs (some output)) : Valued id
  /-- A slot of native code that is tied to something with a value. -/
  | slot {id target : NodeId} {offset : Nat} (hshape : c.tree.shape id = .slot target offset)
      (h : Valued target) : Valued id
  /-- A constant whose definition has a value. -/
  | constant {id x : NodeId} {name : String} (hshape : c.tree.shape id = .constant name x)
      (h : Valued x) : Valued id
  /-- A variable whose initial value has a register. -/
  | var {id x : NodeId} {name : String} {ty : Option NodeId}
      (hshape : c.tree.shape id = .var name ty (some x)) (h : Valued x) : Valued id
  /-- A variable without an initial value, which gets a register of its own. -/
  | varFresh {id : NodeId} {name : String} {ty : Option NodeId}
      (hshape : c.tree.shape id = .var name ty none) : Valued id

variable {c} {id x decl : NodeId}

theorem valued_group_iff (hshape : c.tree.shape id = .group x) : c.Valued id ↔ c.Valued x := by
  refine ⟨fun h => ?_, .group hshape⟩
  cases h <;> simp_all

theorem valued_cast_iff {y : NodeId} (hshape : c.tree.shape id = .cast x y) :
    c.Valued id ↔ c.Valued x := by
  refine ⟨fun h => ?_, .cast hshape⟩
  cases h <;> simp_all

theorem valued_constant_iff {name : String} (hshape : c.tree.shape id = .constant name x) :
    c.Valued id ↔ c.Valued x := by
  refine ⟨fun h => ?_, .constant hshape⟩
  cases h <;> simp_all

theorem valued_var_iff {name : String} {ty : Option NodeId}
    (hshape : c.tree.shape id = .var name ty (some x)) : c.Valued id ↔ c.Valued x := by
  refine ⟨fun h => ?_, .var hshape⟩
  cases h <;> simp_all

theorem valued_ident_iff {name : String} (hshape : c.tree.shape id = .ident name)
    (hdecl : c.resolution.declaration? id = some decl) :
    c.Valued id ↔ c.typeOf decl ≠ .procedure ∧ c.Valued decl := by
  refine ⟨fun h => ?_, fun h => .ident hshape hdecl h.1 h.2⟩
  cases h <;> simp_all

theorem valued_of_ungroup (h : c.Valued (c.tree.ungroup x)) : c.Valued x := by
  induction x using Nat.strongRecOn with
  | ind x ih =>
    rw [Tree.ungroup] at h
    split at h
    · next y hshape =>
      have hy : y ∈ c.tree.children x := by
        unfold Tree.children
        rw [hshape]
        exact List.mem_singleton_self y
      exact .group hshape (ih y (c.tree.child_lt hy) h)
    · exact h

/-- A constant that stands for a literal has a value. -/
theorem valued_of_literalConstant {lit : Literal}
    (h : Lower.literalConstant? c.tree decl = some (x, lit)) : c.Valued decl := by
  unfold Lower.literalConstant? at h
  split at h
  · next name y hshape =>
    split at h
    · next lit' hlit => exact .constant hshape (valued_of_ungroup (.literal hlit))
    · cases h
  · cases h

/-- Scopes, definitions, statements and native code without an output have no value. -/
theorem not_valued (h : (c.tree.shape id).isVoid = true) : ¬c.Valued id := by
  intro hvalued
  cases hvalued <;> simp_all [Shape.isVoid, Shape.isInert]

end LowerContext

/-- What code refers to by index. -/
structure Linkage where
  /-- The pool of constants. -/
  constants : Array Word
  /-- The table of native code. -/
  natives : Array NativeCall
  /-- The index of each procedure. -/
  targets : Std.TreeMap NodeId Nat

/-! ### Rules -/

/-- The code of nodes: the layout before it, its lines, the register of the value, the layout
after. -/
abbrev Emission := NodeId → Layout → List CodeLine → Option Register → Layout → Prop

section Rules

variable (c : LowerContext) (ℓ : Linkage) (emits : Emission)

/-- The code of a list of nodes, a piece for each of them. -/
inductive EmitsItems : List NodeId → Layout → List (List CodeLine) → Layout → Prop
  /-- There are no nodes. -/
  | nil {l : Layout} : EmitsItems [] l [] l
  /-- The code of the first node, and then that of the others. -/
  | cons {x : NodeId} {xs : List NodeId} {l l₁ l' : Layout} {code : List CodeLine}
      {pieces : List (List CodeLine)} {v : Option Register} (h : emits x l code v l₁)
      (hrest : EmitsItems xs l₁ pieces l') : EmitsItems (x :: xs) l (code :: pieces) l'

/-- A value that is converted to another type. -/
inductive EmitsAs (x : NodeId) (dest : Ty) (span : Span) (l : Layout) :
    List CodeLine → Register → Layout → Prop
  /-- The code of the node and the conversion of its value. -/
  | converted {code : List CodeLine} {r : Register} {l₁ : Layout} {p : Piece}
      (h : emits x l code (some r) l₁) (hp : p = l₁.convert r (c.typeOf x) dest span) :
      EmitsAs x dest span l (code ++ p.code) p.value p.layout

/-- A declaration with an initial value. -/
inductive EmitsDeclare (id init : NodeId) (l : Layout) :
    List CodeLine → Option Register → Layout → Prop
  /-- The initial value has no register, and so the declaration has none. -/
  | missing {code : List CodeLine} {l' : Layout} (h : emits init l code none l') :
      EmitsDeclare id init l code none l'
  /-- The value is converted and tied to the declaration, which had no register before. -/
  | tied {code : List CodeLine} {r : Register} {l₁ : Layout} {p : Piece}
      (h : EmitsAs c emits init (c.typeOf id) (c.span id) l code r l₁)
      (hnew : l₁.registers[id]? = none) (hp : p = l₁.tie id (c.typeOf id) r (c.span id)) :
      EmitsDeclare id init l (code ++ p.code) (some p.value) p.layout

/-- The values of a parallel assignment, out of the way of its stores. -/
inductive EmitsStages :
    List NodeId → Layout → List CodeLine → List (Option Register) → Layout → Prop
  /-- There are no values. -/
  | nil {l : Layout} : EmitsStages [] l [] [] l
  /-- The first value has no register. -/
  | missing {x : NodeId} {xs : List NodeId} {l l₁ l' : Layout} {code rest : List CodeLine}
      {vs : List (Option Register)} (h : emits x l code none l₁)
      (hrest : EmitsStages xs l₁ rest vs l') :
      EmitsStages (x :: xs) l (code ++ rest) (none :: vs) l'
  /-- The first value has one, and it is copied if that is a home. -/
  | staged {x : NodeId} {xs : List NodeId} {l l₁ l' : Layout} {code rest : List CodeLine}
      {r : Register} {vs : List (Option Register)} {p : Piece} (h : emits x l code (some r) l₁)
      (hp : p = l₁.stage r (c.typeOf x) (c.span x)) (hrest : EmitsStages xs p.layout rest vs l') :
      EmitsStages (x :: xs) l (code ++ p.code ++ rest) (some p.value :: vs) l'

/-- The inputs of native code. -/
inductive EmitsInputs : List NodeId → Layout → List CodeLine → List NativeSlot → Layout → Prop
  /-- There are no inputs. -/
  | nil {l : Layout} : EmitsInputs [] l [] [] l
  /-- The code of what the first slot is tied to, and then that of the others. -/
  | cons {input target : NodeId} {offset : Nat} {rest : List NodeId} {l l₁ l' : Layout}
      {code lines : List CodeLine} {r : Register} {slots : List NativeSlot}
      (hslot : c.tree.shape input = .slot target offset) (h : emits target l code (some r) l₁)
      (hrest : EmitsInputs rest l₁ lines slots l') :
      EmitsInputs (input :: rest) l (code ++ lines)
        (⟨Lower.slotName c target, offset, r⟩ :: slots) l'

/-- The code of a node with a given shape. -/
inductive EmitsRule (id : NodeId) : Shape → Layout → List CodeLine → Option Register → Layout → Prop
  /-- The code of the items. -/
  | module {items : List NodeId} {l l' : Layout} {pieces : List (List CodeLine)}
      (h : EmitsItems emits items l pieces l') :
      EmitsRule id (.module items) l pieces.flatten none l'
  /-- The code of the statements. -/
  | block {items : List NodeId} {l l' : Layout} {pieces : List (List CodeLine)}
      (h : EmitsItems emits items l pieces l') :
      EmitsRule id (.block items) l pieces.flatten none l'
  /-- What stands for no code has none. -/
  | inert {shape : Shape} {l : Layout} (h : shape.isInert = true) : EmitsRule id shape l [] none l
  /-- A procedure has its code elsewhere. -/
  | procedure {result : Option NodeId} {body : NodeId} {l : Layout} :
      EmitsRule id (.procedure result body) l [] none l
  /-- The code of the definition, whose value is tied to the constant. -/
  | constant {name : String} {x : NodeId} {l l' : Layout} {code : List CodeLine}
      {v : Option Register} (h : EmitsDeclare c emits id x l code v l') :
      EmitsRule id (.constant name x) l code v l'
  /-- The code of the initial value, which is tied to the variable. -/
  | var {name : String} {ty : Option NodeId} {x : NodeId} {l l' : Layout} {code : List CodeLine}
      {v : Option Register} (h : EmitsDeclare c emits id x l code v l') :
      EmitsRule id (.var name ty (some x)) l code v l'
  /-- A variable without an initial value gets the next register. -/
  | varFresh {name : String} {ty : Option NodeId} {l : Layout} {p : Piece}
      (hnew : l.registers[id]? = none)
      (hp : p = l.reserved.tie id (c.typeOf id) l.next (c.span id)) :
      EmitsRule id (.var name ty none) l p.code (some p.value) p.layout
  /-- The code of the expression. -/
  | exprStmt {x : NodeId} {l l' : Layout} {code : List CodeLine} {v : Option Register}
      (h : emits x l code v l') : EmitsRule id (.exprStmt x) l code none l'
  /-- A value without a register is not stored. -/
  | assignMissing {target value : NodeId} {l l' : Layout} {code : List CodeLine}
      (h : emits value l code none l') : EmitsRule id (.assign target value) l code none l'
  /-- The code of the value, converted to the type of the target, and the store. -/
  | assign {target value : NodeId} {l l₁ : Layout} {code : List CodeLine} {r : Register} {p : Piece}
      (h : EmitsAs c emits value (c.typeOf target) (c.span value) l code r l₁)
      (hp : p = l₁.store (l₁.home c target) r (c.typeOf target) (c.span id)) :
      EmitsRule id (.assign target value) l (code ++ p.code) none p.layout
  /-- The code of all values, and then the stores in order. -/
  | parallel {targets values : List NodeId} {l l₁ : Layout} {code : List CodeLine}
      {vs : List (Option Register)} {lines : List CodeLine} {l' : Layout}
      (h : EmitsStages c emits values l code vs l₁)
      (hp : l₁.storeAll c (targets.zip (values.zip vs)) = (lines, l')) :
      EmitsRule id (.parallel targets values) l (code ++ lines) none l'
  /-- A return of nothing. -/
  | retBare {l : Layout} :
      EmitsRule id (.ret none) l [(⟨.ret, .none, .none, .none⟩, c.span id)] none l
  /-- A value without a register is not returned. -/
  | retMissing {x : NodeId} {l l' : Layout} {code : List CodeLine} (h : emits x l code none l')
      (hkind : (c.typeOf x).hasKind = false) : EmitsRule id (.ret (some x)) l code none l'
  /-- The code of the value, converted to the result type, and the return. -/
  | ret {x : NodeId} {l l₁ : Layout} {code : List CodeLine} {r : Register} {p : Piece}
      (h : emits x l code (some r) l₁)
      (hp : p = l₁.convertResult r (c.typeOf x) (c.resultTy? id) (c.span id)) :
      EmitsRule id (.ret (some x)) l
        (code ++ p.code ++ [(⟨.ret, .none, .register p.value, .none⟩, c.span id)]) none p.layout
  /-- A load of the value of the literal. -/
  | literal {lit : Literal} {value : LiteralValue} {index : Nat} {l : Layout} {p : Piece}
      (hvalue : c.typing.literal? id = some value)
      (hindex : ℓ.constants[index]? = some value.word)
      (hp : p = l.load index (c.typeOf id) (c.span id)) :
      EmitsRule id (.literal lit) l p.code (some p.value) p.layout
  /-- A declaration of the procedure is read where it is. -/
  | identOwn {name : String} {decl : NodeId} {l : Layout} {r : Register}
      (hdecl : c.resolution.declaration? id = some decl) (hty : c.typeOf decl ≠ .procedure)
      (h : l.registers[decl]? = some r) : EmitsRule id (.ident name) l [] (some r) l
  /-- A constant of another procedure that is a literal is loaded again. -/
  | identLiteral {name : String} {decl x : NodeId} {lit : Literal} {value : LiteralValue}
      {index : Nat} {l : Layout} {p : Piece}
      (hdecl : c.resolution.declaration? id = some decl) (hty : c.typeOf decl ≠ .procedure)
      (h : l.registers[decl]? = none)
      (hlit : Lower.literalConstant? c.tree decl = some (x, lit))
      (hvalue : c.typing.literal? x = some value) (hindex : ℓ.constants[index]? = some value.word)
      (hp : p = l.load index (c.typeOf x) (c.span id)) :
      EmitsRule id (.ident name) l p.code (some p.value) p.layout
  /-- A procedure has no register. -/
  | identProcedure {name : String} {decl : NodeId} {l : Layout}
      (hdecl : c.resolution.declaration? id = some decl) (hty : c.typeOf decl = .procedure) :
      EmitsRule id (.ident name) l [] none l
  /-- What never has a value has no register either. -/
  | identAbsent {name : String} {decl : NodeId} {l : Layout}
      (hdecl : c.resolution.declaration? id = some decl) (hty : c.typeOf decl ≠ .procedure)
      (h : l.registers[decl]? = none) (hvalued : ¬c.Valued decl) :
      EmitsRule id (.ident name) l [] none l
  /-- The code of both operands, converted to the kind of the expression, and the operation. -/
  | binary {left op right : NodeId} {sym : BinaryOp} {kind : Kind} {l l₁ l₂ : Layout}
      {code₁ code₂ : List CodeLine} {a b : Register} (hop : c.tree.shape op = .binaryOp sym)
      (hkind : Kind.ofTy? (c.typeOf id) = some kind)
      (hleft : EmitsAs c emits left (c.typeOf id) (c.span left) l code₁ a l₁)
      (hright : EmitsAs c emits right (c.typeOf id) (c.span right) l₁ code₂ b l₂) :
      EmitsRule id (.binary left op right) l
        (code₁ ++ code₂
          ++ [(⟨.binary sym kind, l₂.next, .register a, .register b⟩, c.span id)])
        (some l₂.next) (l₂.computed (c.typeOf id))
  /-- The code of the operand, converted to the type of the expression. -/
  | plus {op x : NodeId} {l l' : Layout} {code : List CodeLine} {r : Register}
      (hop : c.tree.shape op = .signOp .plus)
      (h : EmitsAs c emits x (c.typeOf id) (c.span x) l code r l') :
      EmitsRule id (.signed op x) l code (some r) l'
  /-- A load of the negated literal. -/
  | folded {op x : NodeId} {w : Word} {index : Nat} {l : Layout} {p : Piece}
      (hop : c.tree.shape op = .signOp .minus)
      (hword : Lower.negatedLiteral? c x (c.typeOf id) = some w)
      (hindex : ℓ.constants[index]? = some w) (hp : p = l.load index (c.typeOf id) (c.span id)) :
      EmitsRule id (.signed op x) l p.code (some p.value) p.layout
  /-- The code of the operand, converted to the kind of the expression, and the change of sign. -/
  | minus {op x : NodeId} {kind : Kind} {l l₁ : Layout} {code : List CodeLine} {r : Register}
      (hop : c.tree.shape op = .signOp .minus)
      (hword : Lower.negatedLiteral? c x (c.typeOf id) = none)
      (hkind : Kind.ofTy? (c.typeOf id) = some kind)
      (h : EmitsAs c emits x (c.typeOf id) (c.span x) l code r l₁) :
      EmitsRule id (.signed op x) l
        (code ++ [(⟨.negate kind, l₁.next, .register r, .none⟩, c.span id)]) (some l₁.next)
        (l₁.computed (c.typeOf id))
  /-- The code of what is in parentheses. -/
  | group {x : NodeId} {l l' : Layout} {code : List CodeLine} {v : Option Register}
      (h : emits x l code v l') : EmitsRule id (.group x) l code v l'
  /-- The code of the callee, if it has any, and the call. -/
  | call {callee target index : NodeId} {l l₁ : Layout} {code : List CodeLine} {u : Option Register}
      (hcallee : emits callee l code u l₁)
      (htarget : c.resolution.procedureTarget? c.tree callee = some target)
      (hindex : ℓ.targets[target]? = some index) :
      EmitsRule id (.call callee) l
        (code ++ [(⟨.call, l₁.next, .procedure index, .none⟩, c.span id)]) (some l₁.next)
        (l₁.computed (c.typeOf id))
  /-- There is nothing to convert. -/
  | castMissing {x y : NodeId} {l l' : Layout} {code : List CodeLine} (h : emits x l code none l') :
      EmitsRule id (.cast x y) l code none l'
  /-- The code of the operand, converted to the target. -/
  | cast {x y : NodeId} {l l' : Layout} {code : List CodeLine} {r : Register}
      (h : EmitsAs c emits x (c.typeOf id) (c.span id) l code r l') :
      EmitsRule id (.cast x y) l code (some r) l'
  /-- The code of the inputs, and a call that writes nothing. -/
  | nativeSilent {source : String} {inputs : List NodeId} {slots : List NativeSlot} {index : Nat}
      {l l' : Layout} {code : List CodeLine} (h : EmitsInputs c emits inputs l code slots l')
      (hindex : ℓ.natives[index]? = some ⟨source, slots, none⟩) :
      EmitsRule id (.native source inputs none) l
        (code ++ [(⟨.callNative, .none, .native index, .none⟩, c.span id)]) none l'
  /-- The code of the inputs, and a call that writes the home of the output. -/
  | native {source : String} {inputs : List NodeId} {slots : List NativeSlot} {index : Nat}
      {output target : NodeId} {offset : Nat} {r : Register} {l l₁ : Layout} {code : List CodeLine}
      (h : EmitsInputs c emits inputs l code slots l₁)
      (hslot : c.tree.shape output = .slot target offset) (hhome : l₁.home c target = some r)
      (hindex : ℓ.natives[index]?
        = some ⟨source, slots, some ⟨Lower.slotName c target, offset, r⟩⟩) :
      EmitsRule id (.native source inputs (some output)) l
        (code ++ [(⟨.callNative, r, .native index, .none⟩, c.span id)]) (some r)
        (l₁.wrote r (c.typeOf output))
  /-- The code of what the slot is tied to. -/
  | slot {target : NodeId} {offset : Nat} {l l' : Layout} {code : List CodeLine}
      {v : Option Register} (h : emits target l code v l') :
      EmitsRule id (.slot target offset) l code v l'

variable {c ℓ emits} {emits' : Emission} {x : NodeId} {xs : List NodeId} {l l' : Layout}
  {code : List CodeLine} {v : Option Register}

theorem EmitsItems.mono {pieces : List (List CodeLine)}
    (hbelow : ∀ x ∈ xs, ∀ l code v l', emits x l code v l' → emits' x l code v l')
    (h : EmitsItems emits xs l pieces l') : EmitsItems emits' xs l pieces l' := by
  induction h with
  | nil => exact .nil
  | cons h _ ih =>
    exact .cons (hbelow _ (.head _) _ _ _ _ h) (ih fun x hx => hbelow x (.tail _ hx))

theorem EmitsAs.mono {dest : Ty} {span : Span} {r : Register}
    (hbelow : ∀ l code v l', emits x l code v l' → emits' x l code v l')
    (h : EmitsAs c emits x dest span l code r l') : EmitsAs c emits' x dest span l code r l' := by
  cases h with
  | converted h hp => exact .converted (hbelow _ _ _ _ h) hp

theorem EmitsDeclare.mono {id : NodeId}
    (hbelow : ∀ l code v l', emits x l code v l' → emits' x l code v l')
    (h : EmitsDeclare c emits id x l code v l') : EmitsDeclare c emits' id x l code v l' := by
  cases h with
  | missing h => exact .missing (hbelow _ _ _ _ h)
  | tied h hnew hp => exact .tied (h.mono hbelow) hnew hp

theorem EmitsStages.mono {vs : List (Option Register)}
    (hbelow : ∀ x ∈ xs, ∀ l code v l', emits x l code v l' → emits' x l code v l')
    (h : EmitsStages c emits xs l code vs l') : EmitsStages c emits' xs l code vs l' := by
  induction h with
  | nil => exact .nil
  | missing h _ ih =>
    exact .missing (hbelow _ (.head _) _ _ _ _ h) (ih fun x hx => hbelow x (.tail _ hx))
  | staged h hp _ ih =>
    exact .staged (hbelow _ (.head _) _ _ _ _ h) hp (ih fun x hx => hbelow x (.tail _ hx))

theorem EmitsInputs.mono {slots : List NativeSlot}
    (hbelow : ∀ input ∈ xs, ∀ target offset, c.tree.shape input = .slot target offset →
      ∀ l code v l', emits target l code v l' → emits' target l code v l')
    (h : EmitsInputs c emits xs l code slots l') : EmitsInputs c emits' xs l code slots l' := by
  induction h with
  | nil => exact .nil
  | cons hslot h _ ih =>
    exact .cons hslot (hbelow _ (.head _) _ _ hslot _ _ _ _ h)
      (ih fun x hx => hbelow x (.tail _ hx))

end Rules

/-! ### Classes of the nodes below -/

/-- A node that may be lowered below one of the given shape, as a child or as the name in a slot.
In a scope it is anything that stands there, elsewhere it is an expression. -/
structure LowerContext.Fits (c : LowerContext) (shape : Shape) (x : NodeId) : Prop where
  /-- The node is in the tree. -/
  mem : x ∈ c.tree.preorder c.root
  /-- It hangs below the other one, or is what a slot below it is tied to. -/
  below : x ∈ shape.children ∨ ∃ y ∈ shape.children, ∃ offset, c.tree.shape y = .slot x offset
  /-- It is something that has a place in a scope or is an expression. -/
  item : (c.tree.shape x).isItem = true
  /-- Outside of scopes it is an expression. -/
  expr : shape.isScope = false → (c.tree.shape x).isExpr = true

/-- **In a well-formed tree, the code of a node is made of the code of nodes that fit**: a rule is
kept by what keeps the code of these. -/
theorem EmitsRule.mono {c : LowerContext} {ℓ : Linkage} {emits emits' : Emission} {id : NodeId}
    {l l' : Layout} {code : List CodeLine} {v : Option Register} (ht : c.tree.WellFormed c.root)
    (hid : id ∈ c.tree.preorder c.root)
    (hbelow : ∀ x, c.Fits (c.tree.shape id) x → ∀ l code v l', emits x l code v l' →
      emits' x l code v l')
    (h : EmitsRule c ℓ emits id (c.tree.shape id) l code v l') :
    EmitsRule c ℓ emits' id (c.tree.shape id) l code v l' := by
  -- What a rule asks of the nodes below is what well-formedness says of the children.
  have hfits := ht.fits id hid
  have item {x : NodeId} (hchild : x ∈ (c.tree.shape id).children)
      (hscope : (c.tree.shape id).isScope = true) (hx : (c.tree.shape x).isItem = true) :=
    hbelow x ⟨ht.child hid hchild, .inl hchild, hx, fun hno => by rw [hno] at hscope; cases hscope⟩
  have expr {x : NodeId} (hchild : x ∈ (c.tree.shape id).children)
      (hx : (c.tree.shape x).isExpr = true) :=
    hbelow x ⟨ht.child hid hchild, .inl hchild, Shape.isItem_of_isExpr hx, fun _ => hx⟩
  -- The slots of native code are names.
  have slot {x : NodeId} (hchild : x ∈ (c.tree.shape id).children) (target : NodeId) (offset : Nat)
      (hslot : c.tree.shape x = .slot target offset) (l code v l') (h : emits target l code v l') :
      emits' target l code v l' := by
    obtain ⟨htarget, name, hname⟩ := ht.slot_ident (ht.child hid hchild) hslot
    exact hbelow target ⟨htarget, .inr ⟨x, hchild, offset, hslot⟩, by rw [hname]; rfl,
      fun _ => by rw [hname]; rfl⟩ _ _ _ _ h
  unfold Tree.fits at hfits
  generalize c.tree.shape id = shape at h hfits item expr slot
  cases h with
  -- Rules that emit the code of no other node.
  | inert h => exact .inert h
  | procedure => exact .procedure
  | varFresh hnew hp => exact .varFresh hnew hp
  | retBare => exact .retBare
  | literal hvalue hindex hp => exact .literal hvalue hindex hp
  | identOwn hdecl hty h => exact .identOwn hdecl hty h
  | identLiteral hdecl hty h hlit hvalue hindex hp =>
    exact .identLiteral hdecl hty h hlit hvalue hindex hp
  | identProcedure hdecl hty => exact .identProcedure hdecl hty
  | identAbsent hdecl hty h hvalued => exact .identAbsent hdecl hty h hvalued
  | folded hop hword hindex hp => exact .folded hop hword hindex hp
  -- Rules for scopes and declarations.
  | module h =>
    exact .module (h.mono fun x hx => item hx rfl (List.all_eq_true.1 hfits x hx))
  | block h => exact .block (h.mono fun x hx => item hx rfl (List.all_eq_true.1 hfits x hx))
  | constant h => exact .constant (h.mono (expr (by simp [Shape.children]) hfits))
  | var h =>
    simp only [Bool.and_eq_true, Option.all_some] at hfits
    exact .var (h.mono (expr (by simp [Shape.children]) hfits.2))
  -- Statements have expressions below them.
  | exprStmt h => exact .exprStmt (expr (by simp [Shape.children]) hfits _ _ _ _ h)
  | assignMissing h =>
    simp only [Bool.and_eq_true] at hfits
    exact .assignMissing (expr (by simp [Shape.children]) hfits.2 _ _ _ _ h)
  | assign h hp =>
    simp only [Bool.and_eq_true] at hfits
    exact .assign (h.mono (expr (by simp [Shape.children]) hfits.2)) hp
  | parallel h hp =>
    simp only [Bool.and_eq_true, List.all_eq_true] at hfits
    exact .parallel (h.mono fun x hx => expr (by simp [Shape.children, hx]) (hfits.2 x hx)) hp
  | retMissing h hkind =>
    exact .retMissing (expr (by simp [Shape.children]) (by simpa using hfits) _ _ _ _ h) hkind
  | ret h hp => exact .ret (expr (by simp [Shape.children]) (by simpa using hfits) _ _ _ _ h) hp
  -- So have expressions.
  | binary hop hkind hleft hright =>
    simp only [Bool.and_eq_true] at hfits
    exact .binary hop hkind (hleft.mono (expr (by simp [Shape.children]) hfits.1.1))
      (hright.mono (expr (by simp [Shape.children]) hfits.2))
  | plus hop h =>
    simp only [Bool.and_eq_true] at hfits
    exact .plus hop (h.mono (expr (by simp [Shape.children]) hfits.2))
  | minus hop hword hkind h =>
    simp only [Bool.and_eq_true] at hfits
    exact .minus hop hword hkind (h.mono (expr (by simp [Shape.children]) hfits.2))
  | group h => exact .group (expr (by simp [Shape.children]) hfits _ _ _ _ h)
  | call h htarget hindex =>
    exact .call (expr (by simp [Shape.children]) hfits _ _ _ _ h) htarget hindex
  | castMissing h =>
    simp only [Bool.and_eq_true] at hfits
    exact .castMissing (expr (by simp [Shape.children]) hfits.1 _ _ _ _ h)
  | cast h =>
    simp only [Bool.and_eq_true] at hfits
    exact .cast (h.mono (expr (by simp [Shape.children]) hfits.1))
  -- Native code emits the code of what its slots are tied to.
  | nativeSilent h hindex =>
    exact .nativeSilent (h.mono fun x hx => slot (by simp [Shape.children, hx])) hindex
  | native h hslot hhome hindex =>
    exact .native (h.mono fun x hx => slot (by simp [Shape.children, hx])) hslot hhome hindex
  | slot h =>
    exact .slot (expr (by simp [Shape.children]) (Shape.isExpr_of_isIdent hfits) _ _ _ _ h)

/-! ### All nodes -/

/-- The code of a node.  The nodes below come before it. -/
def Emits (c : LowerContext) (ℓ : Linkage) (id : NodeId) (l : Layout) (code : List CodeLine)
    (v : Option Register) (l' : Layout) : Prop :=
  (v.isSome = true ↔ c.Valued id)
    ∧ EmitsRule c ℓ
        (fun x l code v l' => ∃ _h : x < id, Emits c ℓ x l code v l') id (c.tree.shape id) l
        code v l'
termination_by id

/-- The code of the nodes before `id`. -/
def EmitsBelow (c : LowerContext) (ℓ : Linkage) (id : NodeId) : Emission :=
  fun x l code v l' => x < id ∧ Emits c ℓ x l code v l'

namespace Emits

variable {c : LowerContext} {ℓ : Linkage} {id : NodeId} {l l' : Layout} {code : List CodeLine}
  {v : Option Register}

theorem rule_iff : Emits c ℓ id l code v l'
    ↔ (v.isSome = true ↔ c.Valued id)
      ∧ EmitsRule c ℓ (EmitsBelow c ℓ id) id (c.tree.shape id) l code v l' := by
  rw [Emits]
  simp only [exists_prop]
  rfl

/-- Induction along code: what every rule passes on from the code of the nodes below holds of the
code of every node. -/
theorem induction {motive : Emission}
    (step : ∀ (emits : Emission) (id : NodeId),
      (∀ x l code v l', emits x l code v l' → Emits c ℓ x l code v l' ∧ motive x l code v l') →
      ∀ l code v l', (v.isSome = true ↔ c.Valued id) →
        EmitsRule c ℓ emits id (c.tree.shape id) l code v l' → motive id l code v l')
    (h : Emits c ℓ id l code v l') : motive id l code v l' := by
  induction id using Nat.strongRecOn generalizing l code v l' with
  | ind id ih =>
    obtain ⟨hvalued, hrule⟩ := rule_iff.1 h
    exact step (EmitsBelow c ℓ id) id (fun x l code v l' hx => ⟨hx.2, ih x hx.1 hx.2⟩) l code v l'
      hvalued hrule

variable (ht : c.tree.WellFormed c.root) (hid : id ∈ c.tree.preorder c.root)

include ht hid

/-- Induction along the code of what stands in a scope of a well-formed tree. -/
theorem item_induction {motive : Emission}
    (step : ∀ (emits : Emission) (id : NodeId), id ∈ c.tree.preorder c.root →
      (c.tree.shape id).isItem = true →
      (∀ x l code v l', emits x l code v l' →
        c.Fits (c.tree.shape id) x ∧ Emits c ℓ x l code v l' ∧ motive x l code v l') →
      ∀ l code v l', Emits c ℓ id l code v l' →
        EmitsRule c ℓ emits id (c.tree.shape id) l code v l' → motive id l code v l')
    (hitem : (c.tree.shape id).isItem = true) (h : Emits c ℓ id l code v l') :
    motive id l code v l' := by
  refine induction
    (motive := fun id l code v l' => Emits c ℓ id l code v l' → id ∈ c.tree.preorder c.root →
      (c.tree.shape id).isItem = true → motive id l code v l')
    (fun emits id ih l code v l' _ hrule hemits hid hitem => ?_) h h hid hitem
  refine step (fun x l code v l' => c.Fits (c.tree.shape id) x ∧ emits x l code v l') id hid hitem
    (fun x l code v l' hx => ?_) l code v l' hemits
    (hrule.mono ht hid fun x hfits l code v l' h => ⟨hfits, h⟩)
  obtain ⟨hfits, hx⟩ := hx
  obtain ⟨hemits, hmotive⟩ := ih x l code v l' hx
  exact ⟨hfits, hemits, hmotive hemits hfits.mem hfits.item⟩

/-- Induction along the code of an expression: what it is made of are expressions. -/
theorem expr_induction {motive : Emission}
    (step : ∀ (emits : Emission) (id : NodeId), id ∈ c.tree.preorder c.root →
      (c.tree.shape id).isExpr = true →
      (∀ x l code v l', emits x l code v l' →
        x ∈ c.tree.preorder c.root ∧ (c.tree.shape x).isExpr = true ∧ Emits c ℓ x l code v l'
          ∧ motive x l code v l') →
      ∀ l code v l', EmitsRule c ℓ emits id (c.tree.shape id) l code v l' → motive id l code v l')
    (hexpr : (c.tree.shape id).isExpr = true) (h : Emits c ℓ id l code v l') :
    motive id l code v l' := by
  refine item_induction ht hid
    (motive := fun id l code v l' => (c.tree.shape id).isExpr = true → motive id l code v l')
    (fun emits id hid _ ih l code v l' _ hrule hexpr => ?_) (Shape.isItem_of_isExpr hexpr) h hexpr
  refine step emits id hid hexpr (fun x l code v l' hx => ?_) l code v l' hrule
  obtain ⟨hfits, hemits, hmotive⟩ := ih x l code v l' hx
  have hx := hfits.expr (Shape.not_isScope_of_isExpr hexpr)
  exact ⟨hfits.mem, hx, hemits, hmotive hx⟩

/-- What the code of an expression is made of. -/
theorem expr_rule (hexpr : (c.tree.shape id).isExpr = true) (h : Emits c ℓ id l code v l') :
    EmitsRule c ℓ
      (fun x l code v l' => x ∈ c.tree.preorder c.root ∧ (c.tree.shape x).isExpr = true
        ∧ Emits c ℓ x l code v l') id (c.tree.shape id) l code v l' :=
  (rule_iff.1 h).2.mono ht hid fun _ hfits _ _ _ _ h =>
    ⟨hfits.mem, hfits.expr (Shape.not_isScope_of_isExpr hexpr), h.2⟩

end Emits

/-- A procedure whose code is that of `body`, with the conversion of the value written last. -/
inductive Compiles (c : LowerContext) (ℓ : Linkage) (body : NodeId) (result : Option Ty)
    (p : Procedure) : Prop
  /-- The instructions are those of the body and of the conversion, and so are their sources, and
  what the procedure remembers is what the layout says at the end. -/
  | body {code : List CodeLine} {v : Option Register} {l : Layout} {last : Piece}
      (h : Emits c ℓ body .initial code v l)
      (hlast : last = l.convertLast result (c.span body))
      (hcode : p.code.toList = (code ++ last.code).map Prod.fst)
      (hspans : p.spans.toList = (code ++ last.code).map Prod.snd)
      (hregisters : p.registers = last.layout.registers)
      (hnext : p.nextRegister = last.layout.next)
      (hlastRegister : p.lastRegister = last.layout.lastRegister)
      (hlastTy : p.lastTy = last.layout.lastTy)

end MiddleEnd
