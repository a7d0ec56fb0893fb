import MiddleEnd.Proofs.Lowering.Progress
import MiddleEnd.Proofs.Typing.Grouping

/-!
# Lowering side by side

A tree and the same tree with more parentheses are lowered side by side.  Their states differ in the
numbers of nodes only, and what one step does to the one state another step does to the other.

## Main definitions

* `LowerContext.Regroups` — the two trees with their names and types.
* `LowerContext.KeepsNames` — procedures have the same names in both trees.
* `Procedure.Mirrors`, `Lowering.Mirrors` — code and states that differ in the numbers of nodes
  only.
* `Lower.Mirrored` — one step of lowering does what another one does.

## Main results

* `Lower.emit_mirrors`, `Lower.fresh_mirrors`, `Lower.load_mirrors`, `Lower.convert_mirrors`,
  `Lower.bind_mirrors` — the steps that add code.
-/

namespace MiddleEnd

open Runs

/-! ### Trees and states -/

/-- The tree of `c'` is that of `c` with more parentheses; names and types are those of the nodes
that the nodes stand for. -/
structure LowerContext.Regroups (c c' : LowerContext) (origin : NodeId → NodeId) : Prop where
  /-- Trees, names and types agree. -/
  context : c.typingContext.Regroups c'.typingContext c.root c'.root origin
  /-- The tree with fewer parentheses is well formed. -/
  wellFormed : c.tree.WellFormed c.root
  /-- Its links lead from every node to its root. -/
  rooted : c.links.Rooted c.tree c.root
  /-- The links of the other tree lead from every node to its root. -/
  rooted' : c'.links.Rooted c'.tree c'.root
  /-- A node has the type of the one it stands for. -/
  typeOf : ∀ x ∈ c'.tree.preorder c'.root, c'.typeOf x = c.typeOf (origin x)
  /-- A literal has the value of the one it stands for. -/
  literal : ∀ x ∈ c'.tree.preorder c'.root, ∀ lit, c'.tree.shape x = .literal lit →
    (∀ s, lit ≠ .text s) → c'.typing.literal? x = c.typing.literal? (origin x)
  /-- The same number of registers may be given out. -/
  limit : c'.registerLimit = c.registerLimit

namespace LowerContext

/-- The nodes that have not been added to the tree. -/
def Keeps (c' : LowerContext) (origin : NodeId → NodeId) (x : NodeId) : Prop :=
  x ∈ c'.tree.preorder c'.root ∧ c'.tree.adds origin x = false

/-- Procedures have the names of those that they stand for. -/
def KeepsNames (c c' : LowerContext) (origin : NodeId → NodeId) : Prop :=
  ∀ p ∈ c'.tree.preorder c'.root, (c'.tree.shape p).isProcedure = true →
    Lower.procedureName c' p = Lower.procedureName c (origin p)

/-- A table has for each node that has not been added what the other one has for the node that it
stands for. -/
def Carries {α : Type} (c' : LowerContext) (origin : NodeId → NodeId)
    (m m' : Std.TreeMap NodeId α) :
    Prop :=
  ∀ x, c'.Keeps origin x → m'[x]? = m[origin x]?

end LowerContext

/-- Procedures that differ in the numbers of nodes only. -/
structure Procedure.Mirrors (c c' : LowerContext) (origin : NodeId → NodeId) (p p' : Procedure) :
    Prop where
  /-- The instructions are the same. -/
  code : p'.code = p.code
  /-- Their sources are the same. -/
  spans : p'.spans = p.spans
  /-- A declaration has the register of the one it stands for. -/
  registers : c'.Carries origin p.registers p'.registers
  /-- As many registers have been given out. -/
  nextRegister : p'.nextRegister = p.nextRegister
  /-- The same register has been written last. -/
  lastRegister : p'.lastRegister = p.lastRegister
  /-- The value written last has the same type. -/
  lastTy : p'.lastTy = p.lastTy
  /-- The name is the same if procedures keep their names. -/
  name : c.KeepsNames c' origin → p'.name = p.name

/-- States that differ in the numbers of nodes only. -/
structure Lowering.Mirrors (c c' : LowerContext) (origin : NodeId → NodeId) (s s' : Lowering) :
    Prop where
  /-- The same constants are loaded. -/
  constants : s'.program.constants = s.program.constants
  /-- The same native code is called. -/
  natives : s'.program.natives = s.program.natives
  /-- Variables are found in the same registers. -/
  dataSymbols : s'.program.dataSymbols = s.program.dataSymbols
  /-- Names lead to the same procedures if procedures keep their names. -/
  textSymbols : c.KeepsNames c' origin → s'.program.textSymbols = s.program.textSymbols
  /-- The procedures agree one by one. -/
  procedures : ∀ j : Nat, Option.Rel (Procedure.Mirrors c c' origin) s.program.procedures[j]?
    s'.program.procedures[j]?
  /-- There are as many of them. -/
  size : s'.program.procedures.size = s.program.procedures.size
  /-- A procedure has the index of the one it stands for. -/
  procedureOf : c'.Carries origin s.procedureOf s'.procedureOf
  /-- A declaration has the owner of the one it stands for. -/
  ownerOf : c'.Carries origin s.ownerOf s'.ownerOf
  /-- The same procedure is being lowered. -/
  frame : s'.frame = s.frame
  /-- As much has been refused. -/
  problems : s'.problems.size = s.problems.size

section Steps

variable {c c' : LowerContext} {origin : NodeId → NodeId}

theorem Procedure.Mirrors.refl_empty {name name' : String}
    (hname : c.KeepsNames c' origin → name' = name) :
    Procedure.Mirrors c c' origin (.empty name) (.empty name') where
  code := rfl
  spans := rfl
  registers x _ := by simp [Procedure.empty]
  nextRegister := rfl
  lastRegister := rfl
  lastTy := rfl
  name := hname

namespace LowerContext.Regroups

variable (h : c.Regroups c' origin)

include h

theorem tree : c.tree.Regroups c'.tree c.root c'.root origin := h.context.tree

theorem wellFormed' : c'.tree.WellFormed c'.root := h.context.wellFormed

theorem span {x : NodeId} (hx : x ∈ c'.tree.preorder c'.root) : c'.span x = c.span (origin x) :=
  h.tree.span x hx

theorem shape {x : NodeId} (hx : c'.Keeps origin x) :
    c.tree.shape (origin x) = (c'.tree.shape x).rename origin := h.tree.kept x hx.1 hx.2

/-- Tables go on to agree when a node gets an entry in both. -/
theorem carries_insert {α : Type} {m m' : Std.TreeMap NodeId α} (hm : c'.Carries origin m m')
    {x : NodeId} (hx : c'.Keeps origin x) (v : α) :
    c'.Carries origin (m.insert (origin x) v) (m'.insert x v) := by
  intro y hy
  have hsame := h.tree.origin_eq_iff h.wellFormed.nodup h.wellFormed'.nodup hx.1 hx.2 hy.1 hy.2
  rw [Std.TreeMap.getElem?_insert, Std.TreeMap.getElem?_insert, hm y hy]
  simp only [Nat.compare_eq_eq, hsame]

omit h in
/-- What is inside of all parentheses has not been added. -/
theorem keeps_ungroup {x : NodeId} (hx : x ∈ c'.tree.preorder c'.root) :
    c'.Keeps origin (c'.tree.ungroup x) :=
  ⟨c'.tree.mem_preorder_trans hx (c'.tree.ungroup_mem_preorder x),
    Tree.adds_of_shape (c'.tree.shape_ungroup_ne x)⟩

/-- A declaration that an identifier is bound to has not been added. -/
theorem keeps_declaration {x d : NodeId} (hd : c'.resolution.declaration? x = some d) :
    c'.Keeps origin d := by
  obtain ⟨hmem, hdeclares⟩ := h.context.declares x d hd
  exact ⟨hmem, Tree.adds_of_declaration hdeclares⟩

theorem declaration {x : NodeId} (hx : c'.Keeps origin x) :
    c.resolution.declaration? (origin x) = (c'.resolution.declaration? x).map origin :=
  h.context.bound x hx.1 hx.2

/-- A node is directly in the outermost scope of both trees or of none. -/
theorem outermost_iff {x : NodeId} (hx : x ∈ c'.tree.preorder c'.root) :
    c.links.enclosingScope? c.tree (origin x) = some c.root
      ↔ c'.links.enclosingScope? c'.tree x = some c'.root := by
  have hscope : c.links.enclosingScope? c.tree (origin x)
      = (c'.links.enclosingScope? c'.tree x).map origin :=
    h.tree.ancestor?_eq h.rooted h.rooted' Shape.isScope (fun _ => rfl)
      (fun s => s.isScope_rename origin) hx
  rw [hscope]
  cases henclosing : c'.links.enclosingScope? c'.tree x with
  | none => simp
  | some scope =>
    obtain ⟨hmem, hs⟩ := h.rooted'.mem_of_ancestor? hx henclosing
    rw [Option.map_some, Option.some.injEq, Option.some.injEq, ← h.tree.root_eq]
    exact h.tree.origin_eq_iff h.wellFormed.nodup h.wellFormed'.nodup hmem (Tree.adds_of_scope hs)
      (c'.tree.self_mem_preorder _) (Tree.adds_of_scope h.wellFormed'.root_scope)

end LowerContext.Regroups

namespace Lowering.Mirrors

variable {s s' : Lowering} (hs : Lowering.Mirrors c c' origin s s')

include hs

theorem current : Procedure.Mirrors c c' origin s.current s'.current := by
  have hrel := hs.procedures s.frame.index
  unfold Lowering.current
  rw [hs.frame]
  cases hp : s.program.procedures[s.frame.index]? <;>
    cases hp' : s'.program.procedures[s.frame.index]? <;> rw [hp, hp'] at hrel <;> cases hrel
  · exact .refl_empty fun _ => rfl
  next hrel => exact hrel

theorem onCurrent {f f' : Procedure → Procedure}
    (hf : ∀ p p', Procedure.Mirrors c c' origin p p' →
      Procedure.Mirrors c c' origin (f p) (f' p')) :
    Lowering.Mirrors c c' origin (s.onCurrent f) (s'.onCurrent f') :=
  { hs with
    procedures := fun j => by
      have hrel := hs.procedures j
      rw [getElem?_onCurrent, getElem?_onCurrent, hs.frame]
      split
      · cases hp : s.program.procedures[j]? <;> cases hp' : s'.program.procedures[j]? <;>
          rw [hp, hp'] at hrel <;> cases hrel
        · exact .none
        next hrel => exact .some (hf _ _ hrel)
      · exact hrel
    size := by rw [size_onCurrent, size_onCurrent, hs.size] }

theorem emitted (i : Instruction) (ty : Ty) (span : Span) :
    Lowering.Mirrors c c' origin (s.emitted i ty span) (s'.emitted i ty span) :=
  hs.onCurrent fun p p' hp =>
    { code := by simp [hp.code]
      spans := by simp [hp.spans]
      registers := by simpa using hp.registers
      nextRegister := by simp [hp.nextRegister]
      lastRegister := by simp [Procedure.lastRegister_extend, hp.lastRegister]
      lastTy := by simp [Procedure.lastTy_extend, hp.lastTy]
      name := fun hnames => by
        have hname := hp.name hnames
        unfold Procedure.extend Procedure.push
        split <;> exact hname }

theorem allocated : Lowering.Mirrors c c' origin s.allocated s'.allocated :=
  hs.onCurrent fun _ _ hp =>
    { code := hp.code
      spans := hp.spans
      registers := hp.registers
      nextRegister := congrArg (· + 1) hp.nextRegister
      lastRegister := hp.lastRegister
      lastTy := hp.lastTy
      name := hp.name }

end Lowering.Mirrors

end Steps

namespace Lower

variable {c c' : LowerContext} {origin : NodeId → NodeId} (h : c.Regroups c' origin)

/-- One step of lowering mirrors another one. -/
abbrev Mirrored (c c' : LowerContext) (origin : NodeId → NodeId) {α : Type} (x x' : Lower α) :
    Prop :=
  Runs.Mirrors (Lowering.Mirrors c c' origin) x x'

/-! ### Steps -/

theorem report_mirrors (p p' : LoweringProblem) : Mirrored c c' origin (report p) (report p') :=
  .modify fun s s' hs => { hs with problems := by simp [hs.problems] }

/-- What is refused has no value. -/
theorem refused_mirrors {α : Type} (p p' : LoweringProblem) (v : α) :
    Mirrored c c' origin (report p >>= fun _ => pure v) (report p' >>= fun _ => pure v) :=
  (report_mirrors p p').bind fun _ => .pure v

theorem emit_mirrors (i : Instruction) (ty : Ty) (span : Span) :
    Mirrored c c' origin (emit i ty span) (emit i ty span) := by
  intro s s' hs u s₁ he
  obtain rfl := emit_ok.1 he
  exact ⟨_, emit_ok.2 rfl, hs.emitted i ty span⟩

theorem copy_mirrors (out value : Register) (ty : Ty) (span : Span) :
    Mirrored c c' origin (copy out value ty span) (copy out value ty span) :=
  emit_mirrors _ ty span

theorem isBound_mirrors (r : Register) : Mirrored c c' origin (isBound r) (isBound r) := by
  intro s s' hs b s₁ hb
  obtain ⟨rfl, rfl⟩ := isBound_ok.1 hb
  exact ⟨s', isBound_ok.2 ⟨by rw [hs.frame], rfl⟩, hs⟩

theorem constant_mirrors (w : Word) (span : Span) :
    Mirrored c c' origin (constant w span) (constant w span) := by
  unfold constant
  refine .get fun s s' hs => ?_
  rw [hs.constants]
  refine .ite (fun _ => .throw_bind _) fun _ => ?_
  exact (Mirrors.modify fun s s' hs => { hs with constants := by simp [hs.constants] }).bind
    fun _ => .pure _

theorem addNative_mirrors (call : NativeCall) (span : Span) :
    Mirrored c c' origin (addNative call span) (addNative call span) := by
  unfold addNative
  refine .get fun s s' hs => ?_
  rw [hs.natives]
  refine .ite (fun _ => .throw_bind _) fun _ => ?_
  exact (Mirrors.modify fun s s' hs => { hs with natives := by simp [hs.natives] }).bind
    fun _ => .pure _

theorem modifyCurrent_mirrors {f f' : Procedure → Procedure}
    (hf : ∀ p p', Procedure.Mirrors c c' origin p p' →
      Procedure.Mirrors c c' origin (f p) (f' p')) :
    Mirrored c c' origin (modifyCurrent f) (modifyCurrent f') := by
  intro s s' hs u s₁ hu
  obtain rfl := modifyCurrent_ok.1 hu
  exact ⟨_, modifyCurrent_ok.2 rfl, hs.onCurrent hf⟩

include h

theorem fresh_mirrors (span : Span) : Mirrored c c' origin (fresh c span) (fresh c' span) := by
  intro s s' hs r s₁ hr
  obtain ⟨hle, rfl, rfl⟩ := fresh_ok.1 hr
  have hnext := hs.current.nextRegister
  exact ⟨_, fresh_ok.2 ⟨by rwa [h.limit, hnext], hnext.symm, rfl⟩, hs.allocated⟩

/-- An instruction whose value gets a register of its own. -/
theorem computed_mirrors (op : Opcode) (left right : Operand) (ty : Ty) (span : Span) :
    Mirrored c c' origin
      (fresh c span >>= fun out => emit ⟨op, out, left, right⟩ ty span >>= fun _ => pure (some out))
      (fresh c' span >>= fun out => emit ⟨op, out, left, right⟩ ty span >>= fun _ =>
        pure (some out)) :=
  (fresh_mirrors h span).bind fun _ => (emit_mirrors _ ty span).bind fun _ => .pure _

theorem load_mirrors (w : Word) (ty : Ty) (span : Span) :
    Mirrored c c' origin (load c w ty span) (load c' w ty span) :=
  (constant_mirrors w span).bind fun _ => (fresh_mirrors h span).bind fun _ =>
    (emit_mirrors _ ty span).bind fun _ => .pure _

theorem convert_mirrors (value : Register) (source dest : Ty) (span : Span) :
    Mirrored c c' origin (convert c value source dest span)
      (convert c' value source dest span) := by
  unfold convert
  split
  · split
    · exact .pure _
    · exact (fresh_mirrors h span).bind fun _ => (emit_mirrors _ dest span).bind fun _ => .pure _
  · exact .pure _

theorem bind_mirrors {decl : NodeId} (hdecl : c'.Keeps origin decl) (value : Register)
    (span : Span) :
    Mirrored c c' origin (bind c (origin decl) value span) (bind c' decl value span) := by
  unfold bind
  rw [h.typeOf decl hdecl.1]
  refine (isBound_mirrors value).bind fun b => ?_
  cases b
  on_goal 2 =>
    refine (fresh_mirrors h span).bind fun out => (copy_mirrors out value _ span).bind fun _ => ?_
  -- With or without a copy, the rest ties the register that has been chosen.
  all_goals
    refine (Mirrors.pure _).bind fun register => (Mirrors.modify fun s s' hs => ?_).bind fun _ =>
      (modifyCurrent_mirrors ?_).bind fun _ => .get fun s s' hs => ?_
    · rw [hs.frame]
      exact { hs with ownerOf := h.carries_insert hs.ownerOf hdecl _, frame := rfl }
    · exact fun p p' hp => { hp with registers := h.carries_insert hp.registers hdecl register }
    simp only [hs.frame, h.outermost_iff hdecl.1, h.shape hdecl, Shape.declaredName?_rename]
    refine .ite (fun _ => ?_) fun _ => .pure _
    cases (c'.tree.shape decl).declaredName? with
    | none => exact .pure _
    | some name =>
      exact (Mirrors.modify fun s s' hs => { hs with dataSymbols := by simp [hs.dataSymbols] }).bind
        fun _ => .pure _

end Lower

end MiddleEnd
