import MiddleEnd.Proofs.Lowering.Grouping
import MiddleEnd.Proofs.Lowering.Implements

/-!
# Programs of trees with more parentheses

A tree that has been compiled is compiled with more parentheses too, and to the same code: the same
constants, instructions with their spans, native code, and registers of top-level names.  A
procedure is named after the constant or variable right above it, so that one in parentheses has no
such name.  Where no procedure is put into parentheses that is all of a definition, names and
symbols are the same too.

## Main definitions

* `Program.SameCode`, `Program.SameNames` — what two programs have in common.
* `Tree.KeepsDefinitions` — no procedure that is all of a definition is put into parentheses.

## Main results

* `LowerContext.Regroups.keepsNames` — names are kept where definitions are.
* `compile_of_ok` — a tree without problems is compiled.
* `compile_regroups` — **parentheses around expressions do not change what a program does.**
-/

namespace MiddleEnd

/-- Programs with the same code: they may differ in the names of procedures, and in the numbers of
the declarations that own registers. -/
structure Program.SameCode (p p' : Program) : Prop where
  /-- They load the same constants. -/
  constants : p'.constants = p.constants
  /-- They call the same native code. -/
  natives : p'.natives = p.natives
  /-- Their variables are found in the same registers. -/
  dataSymbols : p'.dataSymbols = p.dataSymbols
  /-- Their procedures have the same instructions. -/
  code : p'.procedures.map Procedure.code = p.procedures.map Procedure.code
  /-- The instructions have the same sources. -/
  spans : p'.procedures.map Procedure.spans = p.procedures.map Procedure.spans
  /-- The frames have the same sizes. -/
  frames : p'.procedures.map Procedure.frameSize = p.procedures.map Procedure.frameSize

/-- Programs whose procedures have the same names. -/
structure Program.SameNames (p p' : Program) : Prop where
  /-- The procedures have the same names one by one. -/
  names : p'.procedures.map Procedure.name = p.procedures.map Procedure.name
  /-- Names lead to the same procedures. -/
  textSymbols : p'.textSymbols = p.textSymbols

/-- No group has been added around a procedure that is all of what a constant or a variable is
declared with. -/
def Tree.KeepsDefinitions (t t' : Tree) (root' : NodeId) (origin : NodeId → NodeId) : Prop :=
  ∀ d ∈ t'.preorder root', ∀ e ∈ t'.children d, (t'.shape d).isDeclaration = true →
    (t.shape (origin e)).isProcedure = true → t'.adds origin e = false

instance (t t' : Tree) (root' : NodeId) (origin : NodeId → NodeId) :
    Decidable (t.KeepsDefinitions t' root' origin) :=
  inferInstanceAs (Decidable (∀ d ∈ t'.preorder root', ∀ e ∈ t'.children d, _ → _ → _))

/-! ### Names -/

namespace LowerContext.Regroups

variable {c c' : LowerContext} {origin : NodeId → NodeId} (h : c.Regroups c' origin)

include h

/-- The parent of a node is the same, if no group has been added between the two. -/
theorem parent?_eq {x y : NodeId} (hy : y ∈ c'.tree.preorder c'.root)
    (hkept : c'.tree.adds origin y = false) (hx : x ∈ c'.tree.children y) :
    c.links.parent? (origin x) = some (origin y) :=
  h.rooted.parent _ (h.tree.origin_mem hy) _ (h.tree.child_mem hy hkept hx)

/-- **Names are kept where definitions are.** -/
theorem keepsNames (hkeeps : c.tree.KeepsDefinitions c'.tree c'.root origin) :
    c.KeepsNames c' origin := by
  intro p hp hproc
  have hne : p ≠ c'.root := by
    rintro rfl
    have hscope := h.wellFormed'.root_scope
    unfold Tree.isScope at hscope
    cases hshape : c'.tree.shape c'.root <;> rw [hshape] at hproc hscope <;>
      first | (cases hproc; done) | cases hscope
  obtain ⟨y, hy, hpy⟩ := Tree.exists_parent hp hne
  unfold Lower.procedureName
  rw [h.rooted'.parent y hy p hpy, h.span hp]
  cases hadds : c'.tree.adds origin y with
  | false =>
    rw [h.parent?_eq hy hadds hpy, Option.map_some, Option.map_some, h.shape ⟨hy, hadds⟩]
    cases c'.tree.shape y <;> rfl
  | true =>
    -- The procedure has no name in either tree: what is above the added groups is no declaration.
    obtain ⟨e', hgroup, -⟩ := Tree.adds_iff.1 hadds
    obtain ⟨z, hz, hkept, e, he, horigin, hadded⟩ :=
      Tree.Regroups.exists_above h.wellFormed' hy hadds
    have horigin : origin e = origin p :=
      horigin.trans (Tree.Regroups.origin_of_adds hadds hpy).symm
    have hother : (c'.tree.shape z).isDeclaration ≠ true := by
      intro hdeclares
      have hno := hkeeps z hz e he hdeclares (by
        rwa [horigin, h.shape ⟨hp, Tree.adds_of_procedure hproc⟩, Shape.isProcedure_rename])
      rw [hadded] at hno
      cases hno
    rw [← horigin, h.parent?_eq hz hkept he, Option.map_some, Option.map_some, hgroup,
      h.shape ⟨hz, hkept⟩]
    cases hshape : c'.tree.shape z <;> rw [hshape] at hother <;>
      first | rfl | exact (hother rfl).elim

end LowerContext.Regroups

/-! ### Programs -/

namespace Lowering.Mirrors

variable {c c' : LowerContext} {origin : NodeId → NodeId} {s s' : Lowering}

theorem start : Lowering.Mirrors c c' origin .start .start where
  constants := rfl
  natives := rfl
  dataSymbols := rfl
  textSymbols _ := rfl
  procedures j := by
    cases hp : Lowering.start.program.procedures[j]? with
    | none => exact .none
    | some p =>
      obtain rfl : p = .empty "start" := by
        have hmem := Array.mem_of_getElem? hp
        simpa [Lowering.start, Program.empty] using hmem
      exact .some (.refl_empty fun _ => rfl)
  size := rfl
  procedureOf _ _ := by simp [Lowering.start]
  ownerOf _ _ := by simp [Lowering.start]
  frame := rfl
  problems := rfl

variable (hs : Lowering.Mirrors c c' origin s s')

include hs

/-- What two procedures have in common is the same along both tables. -/
theorem map_procedures {α : Type} {f : Procedure → α}
    (hf : ∀ p p', Procedure.Mirrors c c' origin p p' → f p' = f p) :
    s'.program.procedures.map f = s.program.procedures.map f := by
  apply Array.ext_getElem?
  intro j
  have hrel := hs.procedures j
  rw [Array.getElem?_map, Array.getElem?_map]
  cases hp : s.program.procedures[j]? <;> cases hp' : s'.program.procedures[j]? <;>
    rw [hp, hp'] at hrel <;> cases hrel
  next hrel => exact congrArg some (hf _ _ hrel)

theorem sameCode : s.program.SameCode s'.program where
  constants := hs.constants
  natives := hs.natives
  dataSymbols := hs.dataSymbols
  code := hs.map_procedures fun _ _ hp => hp.code
  spans := hs.map_procedures fun _ _ hp => hp.spans
  frames := hs.map_procedures fun _ _ hp => hp.nextRegister

theorem sameNames (hnames : c.KeepsNames c' origin) : s.program.SameNames s'.program where
  names := hs.map_procedures fun _ _ hp => hp.name hnames
  textSymbols := hs.textSymbols hnames

end Lowering.Mirrors

/-! ### Compiling -/

/-- **A tree without problems is compiled.** -/
theorem compile_of_ok {t : Tree} {links : Links} {root : NodeId} (source : String)
    {config : CompilerConfig} {a : Analysis} {g : Generated}
    (ha : Analysis.ofTree t links root = .ok a)
    (hmissing : a.resolution.missing = []) (hproblems : a.typing.problems = #[])
    (hg : Generated.ofTree t a.links root a.resolution a.typing config.registerLimit = .ok g)
    (hnone : g.problems = []) :
    compile t links root source config
      = .ok ⟨g.program, (Queue.empty config.queue).finish (t.span root)⟩ := by
  obtain ⟨hlinks, hr, hty⟩ := Analysis.ofTree_ok ha
  have hnames : a.resolution.diagnostics t = [] := by simp [Resolution.diagnostics, hmissing]
  have htypes : a.typing.diagnostics t = [] := by simp [Typing.diagnostics, hproblems]
  have hlowered : g.diagnostics t = [] := by simp [Generated.diagnostics, hnone]
  have hcheck : (Queue.empty config.queue).checkpoint (t.span root) = .ok () := by
    simp [Queue.checkpoint, Queue.errors?, Queue.errorCount, Queue.empty, ErrorReported.ofCount?]
  rw [hlinks] at hg
  unfold compile
  simp only [hr, hty, Except.mapError, bind, Except.bind, hnames, htypes, Queue.addAll,
    List.foldl_nil, hcheck, hg, hlowered]
  rfl

/-- A tree whose root is lowered is generated. -/
theorem Generated.ofTree_of_node {t : Tree} {root : NodeId} {a : Analysis} {limit : Nat}
    {v : Option Register} {s : Lowering}
    (h : Lower.node (a.lowerContext t root limit) root .start = .ok (v, s)) :
    Generated.ofTree t a.links root a.resolution a.typing limit
      = .ok ⟨s.program, s.problems.toList⟩ := by
  have hrun : (Lower.node (a.lowerContext t root limit) root).run .start = .ok (v, s) := h
  unfold Analysis.lowerContext at hrun
  unfold Generated.ofTree
  simp only [hrun]
  rfl

/-- What lowering reads is the same in a tree with more parentheses. -/
theorem Analysis.lowerContext_regroups {t t' : Tree} {links links' : Links} {root root' : NodeId}
    {origin : NodeId → NodeId} {a a' : Analysis} (h : t.Regroups t' root root' origin)
    (ht : t.WellFormed root) (ht' : t'.WellFormed root') (hsize : root < links.size)
    (hsize' : root' < links'.size) (ha : ofTree t links root = .ok a)
    (ha' : ofTree t' links' root' = .ok a') (hmissing : a.resolution.missing = [])
    (hproblems : a.typing.problems = #[]) (limit : Nat) :
    (a.lowerContext t root limit).Regroups (a'.lowerContext t' root' limit) origin := by
  obtain ⟨_, ha₁, hrooted, -⟩ := exists_ofTree ht.arranged hsize
  obtain rfl := Except.ok.inj (ha.symm.trans ha₁)
  obtain ⟨_, ha₁', hrooted', -⟩ := exists_ofTree ht'.arranged hsize'
  obtain rfl := Except.ok.inj (ha'.symm.trans ha₁')
  exact
    { context := context_regroups h ht ht' hsize hsize' ha ha'
      wellFormed := ht
      rooted := hrooted
      rooted' := hrooted'
      typeOf := typeOf_eq h ht ht' hsize hsize' ha ha'
      literal := fun _ hx _ hshape htext =>
        literal?_eq h ht ht' hsize hsize' ha ha' hmissing hproblems hx hshape htext
      limit := rfl }

/-- **Parentheses around expressions do not change what a program does.**  A tree that has been
compiled is compiled with more parentheses too, and to the same code.  Where no procedure is put
into parentheses that is all of a definition, the procedures have the same names. -/
theorem compile_regroups {t t' : Tree} {links links' : Links} {root root' : NodeId}
    {origin : NodeId → NodeId} {source : String} {config : CompilerConfig} {compiled : Compiled}
    (h : t.Regroups t' root root' origin) (ht : t.WellFormed root) (ht' : t'.WellFormed root')
    (hsize : root < links.size) (hsize' : root' < links'.size)
    (hok : compile t links root source config = .ok compiled) :
    ∃ compiled', compile t' links' root' source config = .ok compiled'
      ∧ compiled'.diagnostics = compiled.diagnostics
      ∧ compiled.program.SameCode compiled'.program
      ∧ (t.KeepsDefinitions t' root' origin → compiled.program.SameNames compiled'.program) := by
  -- The passes over the tree with fewer parentheses had nothing to report.
  obtain ⟨a, g, ha, hmissing, hproblems, hg, hnone, -⟩ := compile_ok hok
  obtain rfl := Except.ok.inj ((compile_of_ok source ha hmissing hproblems hg hnone).symm.trans hok)
  -- Nor have those over the other one.
  obtain ⟨a', ha', -⟩ := Analysis.exists_ofTree ht'.arranged hsize'
  obtain ⟨hmissing', hproblems'⟩ :=
    Analysis.no_problems h ht ht' hsize hsize' ha ha' hmissing hproblems
  have hc := Analysis.lowerContext_regroups h ht ht' hsize hsize' ha ha' hmissing hproblems
    config.registerLimit
  obtain ⟨v, s, hnode, rfl⟩ := Generated.ofTree_ok hg
  have hnode : Lower.node (a.lowerContext t root config.registerLimit) (origin root') .start
      = .ok (v, s) := by rwa [h.root_eq]
  -- Lowering goes through both trees alike.
  obtain ⟨s', hnode', hs⟩ :=
    Lower.node_mirrors hc (t'.self_mem_preorder root') .start .start .start v s hnode
  -- It reports as many problems in both, that is none.
  have hnone' : s'.problems.toList = [] := by
    have hnone : s.problems.toList = [] := hnone
    rw [← List.length_eq_zero_iff, Array.length_toList] at hnone ⊢
    exact hs.problems.trans hnone
  refine ⟨_, compile_of_ok source ha' hmissing' hproblems' (Generated.ofTree_of_node hnode') hnone',
    ?_, hs.sameCode, fun hkeeps => hs.sameNames (hc.keepsNames hkeeps)⟩
  -- The span of the whole is the same.
  have hspan := h.span root' (t'.self_mem_preorder root')
  rw [h.root_eq] at hspan
  simp only [hspan]

/-- `f :: proc int { 1 }; x : int = -1; x = f()` -/
def Tree.storesResult : Tree where
  nodes :=
    #[⟨.typeName "int", .nowhere⟩, ⟨.literal (.number "1"), .nowhere⟩, ⟨.exprStmt 1, .nowhere⟩,
      ⟨.block [2], .nowhere⟩, ⟨.procedure (some 0) 3, .nowhere⟩, ⟨.constant "f" 4, .nowhere⟩,
      ⟨.typeName "int", .nowhere⟩, ⟨.signOp .minus, .nowhere⟩, ⟨.literal (.number "1"), .nowhere⟩,
      ⟨.signed 7 8, .nowhere⟩, ⟨.var "x" (some 6) (some 9), .nowhere⟩, ⟨.ident "x", .nowhere⟩,
      ⟨.ident "f", .nowhere⟩, ⟨.call 12, .nowhere⟩, ⟨.assign 11 13, .nowhere⟩,
      ⟨.module [5, 10, 14], .nowhere⟩]
  children_lt := by decide

/-- `f :: proc int { 1 }; x : int = (-(1)); (x) = (f)()` -/
def Tree.storesGrouped : Tree where
  nodes :=
    #[⟨.typeName "int", .nowhere⟩, ⟨.literal (.number "1"), .nowhere⟩, ⟨.exprStmt 1, .nowhere⟩,
      ⟨.block [2], .nowhere⟩, ⟨.procedure (some 0) 3, .nowhere⟩, ⟨.constant "f" 4, .nowhere⟩,
      ⟨.typeName "int", .nowhere⟩, ⟨.signOp .minus, .nowhere⟩, ⟨.literal (.number "1"), .nowhere⟩,
      ⟨.group 8, .nowhere⟩, ⟨.signed 7 9, .nowhere⟩, ⟨.group 10, .nowhere⟩,
      ⟨.var "x" (some 6) (some 11), .nowhere⟩, ⟨.ident "x", .nowhere⟩, ⟨.group 13, .nowhere⟩,
      ⟨.ident "f", .nowhere⟩, ⟨.group 15, .nowhere⟩, ⟨.call 16, .nowhere⟩,
      ⟨.assign 14 17, .nowhere⟩, ⟨.module [5, 12, 18], .nowhere⟩]
  children_lt := by decide

/-- The nodes of `storesResult` that those of `storesGrouped` stand for. -/
def Tree.storesOrigin (x : NodeId) : NodeId :=
  [0, 1, 2, 3, 4, 5, 6, 7, 8, 8, 9, 9, 10, 11, 11, 12, 12, 13, 14, 15].getD x 0

/-- The literal, the target and the callee may be in parentheses. -/
theorem Tree.storesGrouped_same :
    Tree.storesResult.Regroups .storesGrouped 15 19 Tree.storesOrigin
      ∧ ∃ compiled compiled', compile .storesResult (.unset 16) 15 "" .unlimited = .ok compiled
        ∧ compile .storesGrouped (.unset 20) 19 "" .unlimited = .ok compiled'
        ∧ compiled.program.SameCode compiled'.program
        ∧ compiled.program.SameNames compiled'.program := by
  have h : Tree.storesResult.Regroups .storesGrouped 15 19 Tree.storesOrigin := by decide +kernel
  have hkeeps : Tree.storesResult.KeepsDefinitions .storesGrouped 19 Tree.storesOrigin := by
    decide +kernel
  have hok : (compile .storesResult (.unset 16) 15 "" .unlimited).isOk = true := by decide +kernel
  obtain ⟨compiled, hcompiled⟩ := Runs.exists_of_isOk hok
  have hsize' : 19 < (Links.unset 20).size := by decide
  obtain ⟨compiled', hcompiled', -, hcode, hnames⟩ :=
    compile_regroups h (by decide +kernel) (by decide +kernel) (by decide) hsize' hcompiled
  exact ⟨h, compiled, compiled', hcompiled, hcompiled', hcode, hnames hkeeps⟩

/-- `f :: proc {}` -/
def Tree.definesProcedure : Tree where
  nodes :=
    #[⟨.block [], .nowhere⟩, ⟨.procedure none 0, .nowhere⟩, ⟨.constant "f" 1, .nowhere⟩,
      ⟨.module [2], .nowhere⟩]
  children_lt := by decide

/-- `f :: (proc {})` -/
def Tree.definesGrouped : Tree where
  nodes :=
    #[⟨.block [], .nowhere⟩, ⟨.procedure none 0, .nowhere⟩, ⟨.group 1, .nowhere⟩,
      ⟨.constant "f" 2, .nowhere⟩, ⟨.module [3], .nowhere⟩]
  children_lt := by decide

/-- The nodes of `definesProcedure` that those of `definesGrouped` stand for. -/
def Tree.definesOrigin (x : NodeId) : NodeId := [0, 1, 1, 2, 3].getD x 0

/-- The procedure has lost its name: nothing stands for `f` any more. -/
theorem Tree.definesGrouped_not_same :
    Tree.definesProcedure.WellFormed 3 ∧ Tree.definesGrouped.WellFormed 4
      ∧ Tree.definesProcedure.Regroups .definesGrouped 3 4 Tree.definesOrigin
      ∧ ∃ compiled compiled', compile .definesProcedure (.unset 4) 3 "" .unlimited = .ok compiled
        ∧ compile .definesGrouped (.unset 5) 4 "" .unlimited = .ok compiled'
        ∧ compiled.program.textSymbols["f"]? = some 1 ∧ compiled'.program.textSymbols["f"]? = none
        ∧ ¬compiled.program.SameNames compiled'.program := by
  refine ⟨by decide +kernel, by decide +kernel, by decide +kernel, ?_⟩
  have hnamed : (compile .definesProcedure (.unset 4) 3 "" .unlimited).toOption.any (fun compiled =>
      compiled.program.textSymbols["f"]? == some 1) = true := by decide +kernel
  have hunnamed : (compile .definesGrouped (.unset 5) 4 "" .unlimited).toOption.any (fun compiled =>
      compiled.program.textSymbols["f"]? == none) = true := by decide +kernel
  obtain ⟨compiled, hok, hnamed⟩ := Runs.exists_of_any hnamed
  obtain ⟨compiled', hok', hunnamed⟩ := Runs.exists_of_any hunnamed
  rw [beq_iff_eq] at hnamed hunnamed
  refine ⟨compiled, compiled', hok, hok', hnamed, hunnamed, fun hsame => ?_⟩
  rw [hsame.textSymbols, hnamed] at hunnamed
  cases hunnamed

end MiddleEnd
