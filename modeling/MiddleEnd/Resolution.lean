import MiddleEnd.Diagnostic.Basic
import MiddleEnd.Misuse
import MiddleEnd.Tree.Section
import Std.Data.TreeMap

/-!
# Name resolution

Binds identifiers to declarations in one scan over a section.  A declaration is visible from the end
of its subtree on, so that `x := x + 1` reads an outer `x`; a constant that is a procedure is
visible from its own position on, so that it can call itself.  Scopes are searched from the inside
outward, and in one scope the latest declaration of a name counts.

## Main definitions

* `Entry` — a declaration with its scope and the position from which it is visible.
* `Resolution` — the bindings of a section, the visible declarations, and the identifiers that were
  not found.
* `Resolution.lookup` — the declaration of a name that is visible in a scope.
* `Resolution.ofSection` — resolve a section, alone or inside a section resolved before.
* `Resolution.procedureTarget?` — the procedure that a callee denotes.
-/

namespace MiddleEnd

/-- A declaration of a name in a scope, with the position in the section from which it can be
seen. -/
structure Entry where
  /-- The scope it is made in; `none` for a node whose scope is not known. -/
  scope : Option NodeId
  /-- The name that is declared. -/
  name : String
  /-- The node that declares it. -/
  decl : NodeId
  /-- Position in the section from which the declaration is visible. -/
  visibleFrom : Nat
  deriving DecidableEq, Repr

/-- An identifier that was not found where it stands, with a declaration of its name that comes too
late, if there is one. -/
structure Missing where
  /-- The identifier. -/
  ident : NodeId
  /-- A declaration of the name that becomes visible only later. -/
  later : Option NodeId
  deriving DecidableEq, Repr

/-- Bindings and scopes of one section.  A section nested in it is resolved over its entries. -/
structure Resolution where
  /-- The declaration of each identifier that was found. -/
  bindings : Std.TreeMap NodeId NodeId
  /-- The declarations of the section and of those around it, latest first. -/
  entries : List Entry
  /-- Position of each scope of the section. -/
  scopePositions : Std.TreeMap NodeId Nat
  /-- Identifiers that were not found, in order. -/
  missing : List Missing

namespace Resolution

/-- The declaration that an identifier is bound to. -/
def declaration? (r : Resolution) (ident : NodeId) : Option NodeId := r.bindings[ident]?

/-- The latest declaration of `name` among the entries of `scope` itself, which hides those before
it. -/
def latest? (entries : List Entry) (scope : Option NodeId) (name : String) : Option NodeId :=
  (entries.find? fun e => e.scope == scope && e.name == name).map Entry.decl

/-- The declaration of `name` made directly in `scope`. -/
def declaredIn? (r : Resolution) (scope : NodeId) (name : String) : Option NodeId :=
  latest? r.entries (some scope) name

/-- How many identifiers were found. -/
def bindingCount (r : Resolution) : Nat := r.bindings.size

/-- Whether an identifier was not found. -/
def hasErrors (r : Resolution) : Bool := !r.missing.isEmpty

/-- The diagnostic for an identifier that was not found. -/
def diagnosticOf (t : Tree) (name : String) (m : Missing) : Diagnostic :=
  let primary := Label.primary (t.span m.ident) "not found in this scope"
  let (labels, notes) :=
    match m.later with
    | none => ([primary], [])
    | some decl =>
      ([primary, .secondary (t.span decl) s!"`{name}` is declared here"],
        ["names must be declared before they are used"])
  .error .unknownName s!"cannot find `{name}` in this scope" labels notes

/-- One diagnostic for each identifier that was not found, in order. -/
def diagnostics (t : Tree) (r : Resolution) : List Diagnostic :=
  r.missing.map fun m =>
    match t.shape m.ident with
    | .ident name => diagnosticOf t name m
    | _ => diagnosticOf t "" m

/-- The resolution with its diagnostics taken out. -/
def withoutDiagnostics (r : Resolution) : Resolution := { r with missing := [] }

/-! ### Looking names up -/

/-- What a search needs to know about the section, and whether it goes on in the scopes around
it. -/
structure Surroundings where
  /-- The tree that the section lists. -/
  tree : Tree
  /-- The parents of its nodes. -/
  links : Links
  /-- The root of the section. -/
  root : NodeId
  /-- Whether names are searched beyond the root. -/
  searchesOuter : Bool

/-- Search `scope` and at most `steps` scopes around it, innermost first. -/
def lookupWithin (s : Surroundings) (entries : List Entry) (ident : NodeId) (name : String) :
    Nat → Option NodeId → Except Misuse (Option NodeId)
  | 0, _ => .ok none
  | steps + 1, scope =>
    match latest? entries scope name with
    | some decl => .ok (some decl)
    | none =>
      if scope = some s.root ∧ ¬s.searchesOuter then .ok none
      else
        match scope with
        | none => .error (.noScope ident)
        | some inner =>
          match s.links.enclosingScope? s.tree inner with
          | none => .ok none
          | some outer => lookupWithin s entries ident name steps (some outer)

/-- The declaration of `name` that an identifier in `scope` sees.  No scope is searched twice, so
the number of nodes bounds the search. -/
def lookup (s : Surroundings) (entries : List Entry) (scope : Option NodeId) (ident : NodeId)
    (name : String) : Except Misuse (Option NodeId) :=
  lookupWithin s entries ident name (s.tree.size + 1) scope

/-! ### The scan -/

/-- A scan under way: what is bound and visible by now, and the declarations that wait for the end
of their subtree. -/
structure Scan where
  /-- The declaration of each identifier found so far. -/
  bindings : Std.TreeMap NodeId NodeId
  /-- The declarations that are visible by now, latest first. -/
  entries : List Entry
  /-- Position of each scope met so far. -/
  scopePositions : Std.TreeMap NodeId Nat
  /-- Declarations whose subtree the scan has not left, innermost first. -/
  waiting : List Entry
  /-- The scope of each node seen. -/
  scopeOf : Array (Option NodeId)
  /-- Identifiers not found, with scope and name, latest first. -/
  misses : List (NodeId × Option NodeId × String)

/-- Make visible what waits for a position up to `pos`.  The innermost declaration is first in the
list and the first to become visible, so the search stops at one that waits longer. -/
def release (pos : Nat) : List Entry → List Entry → List Entry × List Entry
  | [], entries => ([], entries)
  | e :: waiting, entries =>
    if e.visibleFrom ≤ pos then release pos waiting (e :: entries) else (e :: waiting, entries)

/-- The scope of a node: its parent if that is one, else the scope of its parent. -/
def scopeOfNode (s : Surroundings) (scopeOf : Array (Option NodeId)) (id : NodeId) :
    Except Misuse (Option NodeId) :=
  if id = s.root then .ok (some id)
  else
    match s.links.parent? id with
    | none => .error (.noParent id)
    | some above => .ok (if s.tree.isScope above then some above else scopeOf[above]?.join)

/-- Whether a definition is a procedure, perhaps in parentheses. -/
def isProcedureLiteral (t : Tree) (definition : NodeId) : Bool :=
  (t.shape (t.ungroup definition)).isProcedure

/-- Take one node of the section, whose subtree ends at `stop`: an identifier is looked up, and a
declaration is put where it becomes visible in time. -/
def Scan.step (s : Surroundings) (scan : Scan) (pos stop : Nat) (id : NodeId) :
    Except Misuse Scan := do
  let (waiting, entries) := release pos scan.waiting scan.entries
  let scopePositions :=
    if s.tree.isScope id then scan.scopePositions.insert id pos else scan.scopePositions
  let scope ← scopeOfNode s scan.scopeOf id
  let scan :=
    { scan with
      waiting, entries, scopePositions
      scopeOf := scan.scopeOf.setIfInBounds id scope }
  match s.tree.shape id with
  | .constant name definition =>
    if isProcedureLiteral s.tree definition then
      return { scan with entries := ⟨scope, name, id, pos⟩ :: scan.entries }
    else return { scan with waiting := ⟨scope, name, id, stop⟩ :: scan.waiting }
  | .var name _ _ => return { scan with waiting := ⟨scope, name, id, stop⟩ :: scan.waiting }
  | .ident name =>
    match ← lookup s scan.entries scope id name with
    | some decl => return { scan with bindings := scan.bindings.insert id decl }
    | none => return { scan with misses := (id, scope, name) :: scan.misses }
  | _ => return scan

/-- Take the nodes of the section from position `pos` on. -/
def Scan.run (s : Surroundings) (sec : Section) : Nat → List NodeId → Scan → Except Misuse Scan
  | _, [], scan => .ok scan
  | pos, id :: rest, scan => do
    Scan.run s sec (pos + 1) rest (← scan.step s pos (sec.subtreeEnd pos) id)

/-- The entries of `outer` that are visible at `root`, or all of them if `root` is no scope of that
section.  They are visible in the nested section from its start. -/
def inherited (outer : Resolution) (root : NodeId) : List Entry :=
  let visible : List Entry :=
    match outer.scopePositions[root]? with
    | some pos => outer.entries.filter fun e => e.visibleFrom ≤ pos
    | none => outer.entries
  visible.map fun e => { e with visibleFrom := 0 }

/-- Resolve the identifiers of a section.  `outer` is the resolution of the section around it.  An
identifier that was not found is looked up once more at the end, among all declarations, for the one
that comes too late. -/
def ofSection (t : Tree) (links : Links) (sec : Section) (outer : Option Resolution) :
    Except Misuse Resolution := do
  if !t.isScope sec.root then throw (.rootNotScope sec.root)
  let s : Surroundings := ⟨t, links, sec.root, outer.isSome⟩
  let start : Scan :=
    { bindings := ∅
      entries := (outer.map (inherited · sec.root)).getD []
      scopePositions := ∅
      waiting := []
      scopeOf := Array.replicate t.size none
      misses := [] }
  let scan ← Scan.run s sec 0 sec.nodes.toList start
  let entries := scan.waiting.foldl (fun entries e => e :: entries) scan.entries
  let missing ← scan.misses.reverse.mapM fun (ident, scope, name) => do
    return ⟨ident, ← lookup s entries scope ident name⟩
  return { bindings := scan.bindings, entries, scopePositions := scan.scopePositions, missing }

/-! ### Callees -/

/-- The procedure that an expression denotes, following at most `steps` names. -/
def targetWithin? (t : Tree) (r : Resolution) : Nat → NodeId → Option NodeId
  | 0, _ => none
  | steps + 1, callee =>
    let expr := t.ungroup callee
    match t.shape expr with
    | .procedure _ _ => some expr
    | .ident _ => do
      match t.shape (← r.declaration? expr) with
      | .constant _ definition => targetWithin? t r steps definition
      | .var _ _ init => targetWithin? t r steps (← init)
      | _ => none
    | _ => none

/-- The procedure that a callee denotes: a procedure, or a name declared with one.  No name is
followed twice, so the number of nodes bounds the search. -/
def procedureTarget? (t : Tree) (r : Resolution) (callee : NodeId) : Option NodeId :=
  targetWithin? t r (t.size + 1) callee

end Resolution

end MiddleEnd
