import MiddleEnd.Proofs.Lowering.Hosts
import MiddleEnd.Proofs.Lowering.Implements
import MiddleEnd.Proofs.Resolution.Lexical

/-!
# Symbols

The two tables of a program are filled while it is generated, and a later entry takes the place of
an earlier one of the same name.  A procedure is entered when its code begins, wherever it stands,
so that a name stands for the last procedure in the order of the source.  A declaration is entered
when it gets its register, and only in the outermost scope, so that a name stands for the
declaration that is visible at the end.

## Main definitions

* `LowerContext.enters` — whether a procedure is entered under a name.
* `Tree.Defines` — a node is, parentheses aside, the definition of a constant.
* `Tree.DefinesLast` — it is the last procedure to define a constant of that name.
* `Lowering.Enters` — what lowering the listed nodes does to the table of procedures.
* `Lowering.Binds` — what it does to the table of declarations, and to registers.

## Main results

* `Lower.node_enters` — a name stands for the last procedure that has been entered under it.
* `Lower.node_binds` — what is lowered below a node ties and enters nothing else.
* `Lowering.textSymbol_eq` — **a name stands for the last procedure that defines a constant of it**.
* `Lowering.dataSymbol_eq` — **a name stands for the declaration of the outermost scope that is
  visible at the end**.
-/

namespace MiddleEnd

open Runs Lowering

/-- Whether a procedure is entered under a name: it stands right below a constant of that name. -/
def LowerContext.enters (c : LowerContext) (name : String) (q : NodeId) : Bool :=
  (c.tree.shape q).isProcedure && Lower.procedureName c q == (name, true)

/-! ### The table of procedures -/

namespace Lowering

/-- The nodes `ys` have been lowered, in this order: a name stands for the last procedure among them
that is entered under it, and otherwise for what it has stood for before. -/
def Enters (c : LowerContext) (ys : List NodeId) (s s' : Lowering) : Prop :=
  ∀ name, s'.program.textSymbols[name]? = match ys.reverse.find? (c.enters name) with
    | some q => s'.procedureOf[q]?
    | none => s.program.textSymbols[name]?

namespace Enters

variable {c : LowerContext} {ys zs : List NodeId} {x : NodeId} {s s₁ s' : Lowering}

/-- Where there are no procedures, no name gets another meaning. -/
theorem plain (hplain : ∀ y ∈ ys, (c.tree.shape y).isProcedure = false)
    (htexts : s'.program.textSymbols = s.program.textSymbols) : Enters c ys s s' := by
  intro name
  rw [List.find?_eq_none.2 fun y hy => by simp [LowerContext.enters, hplain y (by simpa using hy)],
    htexts]

theorem trans (h : Enters c ys s s₁) (h' : Enters c zs s₁ s')
    (hkeep : ∀ q ∈ ys, s'.procedureOf[q]? = s₁.procedureOf[q]?) : Enters c (ys ++ zs) s s' := by
  intro name
  rw [h' name, List.reverse_append, List.find?_append]
  cases List.find? (c.enters name) zs.reverse with
  | some q => rfl
  | none =>
    rw [h name, Option.none_or]
    cases hfind : List.find? (c.enters name) ys.reverse with
    | none => rfl
    | some q => exact (hkeep q (by simpa using List.mem_of_find?_eq_some hfind)).symm

/-- A node that is no procedure, around what has been lowered. -/
theorem cons (hx : (c.tree.shape x).isProcedure = false) (h : Enters c ys s s') :
    Enters c (x :: ys) s s' := by
  intro name
  rw [h name, List.reverse_cons, List.find?_append,
    show List.find? (c.enters name) [x] = none by simp [LowerContext.enters, hx], Option.or_none]

theorem quiet (h : s.Quiet s₁) (h' : Enters c ys s₁ s') : Enters c ys s s' := by
  intro name
  rw [h' name, h.texts]

theorem step (h : Enters c ys s s₁) (h' : s₁.Quiet s') : Enters c ys s s' := by
  intro name
  rw [h'.texts, h name, h'.procedures]

theorem inFrame (h : Enters c ys s s') (frame : Frame) : Enters c ys s (s'.inFrame frame) := h

end Enters

end Lowering

namespace Lower

section Turns

variable {c : LowerContext} {lower : NodeId → Lower (Option Register)} {id : NodeId}
  {xs ws : List NodeId} {vs : List (NodeId × Option Register)} {s s' : Lowering} (hc : c.Sound)
  (ih : ∀ (x : NodeId) (s s' : Lowering) (v : Option Register), lower x s = .ok (v, s') →
    node c x s = .ok (v, s')
      ∧ (x ∈ c.tree.preorder c.root → s.Sound → s.Hosts c [x] → s.Housed c →
        Enters c (c.tree.preorder x) s s'))
include hc ih

/-- What a walk does to the table of procedures is what the nodes below it do. -/
theorem Walks.enters (hid : id ∈ c.tree.preorder c.root) (hwalk : Walks c lower id xs ws vs s s')
    (h : Hosting c id xs ws s) : Enters c (xs.flatMap c.tree.preorder) s s' := by
  have passes : ∀ (x : NodeId) (s s' : Lowering) (v : Option Register), lower x s = .ok (v, s') →
      x ∈ c.tree.preorder c.root → s.Sound → s.Hosts c [x] → s.Housed c → Passes c [x] s s' :=
    fun x s s' v hx _ hs hhosts hhoused => node_passes hc hs hhosts hhoused (ih x s s' v hx).1
  -- A procedure keeps its index while what comes after it is lowered.
  have keeps {x : NodeId} {xs ws : List NodeId} {vs : List (NodeId × Option Register)}
      {s s₁ s' : Lowering} (h : Hosting c id (x :: xs) ws s) (hx : Passes c [x] s s₁)
      (hwalk : Walks c lower id xs ws vs s₁ s') :
      ∀ q ∈ c.tree.preorder x, s'.procedureOf[q]? = s₁.procedureOf[q]? := by
    intro q hq
    have hnodup := h.hosts.nodup
    rw [List.flatMap_cons, List.nodup_append] at hnodup
    exact (hwalk.passes hc passes hid (h.next hx)).outside q fun hmem =>
      hnodup.2.2 q hq q hmem rfl
  induction hwalk with
  | finish | tie _ _ => exact .plain (fun y hy => (by cases hy)) rfl
  | quiet hquiet _ ihrest => exact (ihrest (h.quiet hquiet)).quiet hquiet
  | skip hplain _ hwalk ihrest =>
    exact (Enters.plain (fun y hy => (hplain y hy).2) rfl).trans (ihrest h.skip)
      (keeps h ⟨.refl h.sound, fun _ _ => rfl, h.housed⟩ hwalk)
  | visit _ hx hwalk ihrest =>
    have hpasses := passes _ _ _ _ hx (h.hosts.inTree _ (.head _)) h.sound h.hosts.head h.housed
    exact ((ih _ _ _ _ hx).2 (h.hosts.inTree _ (.head _)) h.sound h.hosts.head h.housed).trans
      (ihrest (h.next hpasses)) (keeps h hpasses hwalk)
  | slot hslot hx hwalk ihrest =>
    have hpasses := h.passes_slot hc passes hslot hx
    obtain ⟨hmem, hhosts⟩ := h.target hc hslot
    have henters := (ih _ _ _ _ hx).2 (hhosts.inTree _ (.head _)) h.sound hhosts h.housed
    refine Enters.trans ?_ (ihrest (h.next hpasses)) (keeps h hpasses hwalk)
    rw [c.tree.preorder_eq, Tree.children_of_shape hslot]
    simpa [Shape.children] using henters.cons (by rw [hslot]; rfl)
  | write hdecl hplace _ ihrest =>
    have hrest := ihrest (h.write hc hid hdecl hplace)
    cases hplace with
    | unowned _ | own _ => exact hrest
    | outer _ _ => exact hrest
  | miss _ _ ihrest => exact ihrest h.miss

omit hc ih in
theorem ident_enters {name : String} {decl : NodeId} {v : Option Register}
    (hshape : c.tree.shape id = .ident name) (hs : s.Sound) (h : IdentOutcome c id decl s v s') :
    Enters c (c.tree.preorder id) s s' := by
  have htexts : s'.program.textSymbols = s.program.textSymbols := by
    rcases h.quiet_or hs with hquiet | ⟨rfl, -⟩
    · exact hquiet.texts
    · rfl
  refine .plain (fun y hy => ?_) htexts
  rw [c.tree.preorder_eq, Tree.children_of_shape hshape] at hy
  obtain rfl := List.mem_singleton.1 hy
  rw [hshape]
  rfl

omit hc ih in
/-- The procedure whose code begins is entered, if it stands below a constant. -/
theorem opened_enters {name : String} {isConstant : Bool}
    (hname : procedureName c id = (name, isConstant))
    (hprocedure : (c.tree.shape id).isProcedure = true) (frame : Frame) :
    Enters c [id] s ((s.opened id name isConstant).inFrame frame) := by
  intro name'
  have henters : c.enters name' id = (name == name' && isConstant) := by
    unfold LowerContext.enters
    rw [hprocedure, hname]
    cases isConstant <;> simp
  have hself : ((s.opened id name isConstant).inFrame frame).procedureOf[id]?
      = some s.program.procedures.size := by
    show (s.procedureOf.insert id s.program.procedures.size)[id]? = _
    simp
  show (if isConstant then s.program.textSymbols.insert name s.program.procedures.size
    else s.program.textSymbols)[name']? = _
  cases isConstant with
  | false => simp [henters]
  | true =>
    by_cases heq : name = name'
    · simp [henters, heq, ← hself]
    · simp [henters, heq, Std.TreeMap.getElem?_insert]

/-- A procedure is entered before those in its body. -/
theorem procedure_enters {result : Option NodeId} {body : NodeId} {v : Option Register}
    {s₁ s₂ : Lowering} (hshape : c.tree.shape id = .procedure result body)
    (hbody : lower body ((s.opened id (procedureName c id).1 (procedureName c id).2).inFrame
      ⟨s.program.procedures.size, result.map c.typeOf, ∅⟩) = .ok (v, s₁))
    (hlast : s₁.Quiet s₂) (hs : s.Sound) (hhosts : s.Hosts c [id]) (hhoused : s.Housed c) :
    Enters c (c.tree.preorder id) s (s₂.inFrame s.frame) := by
  have hid := hhosts.inTree id (.head _)
  have hmem : body ∈ c.tree.children id := by
    simp [Tree.children_of_shape hshape, Shape.children]
  obtain ⟨hhosts₀, hhoused₀⟩ := Hosts.enter hc hshape hs hhosts hhoused (procedureName c id).1
    (procedureName c id).2 (result.map c.typeOf)
  have hpasses := node_passes hc (entered_sound hs) hhosts₀ hhoused₀ (ih _ _ _ _ hbody).1
  have henters := (ih _ _ _ _ hbody).2 (hc.tree.child hid hmem) (entered_sound hs) hhosts₀ hhoused₀
  have hopened := opened_enters (s := s) (rfl : procedureName c id = _) (by rw [hshape]; rfl)
    ⟨s.program.procedures.size, result.map c.typeOf, ∅⟩
  have htypes : ∀ y ∈ result.toList.flatMap c.tree.preorder,
      (c.tree.shape y).isProcedure = false := by
    intro y hy
    obtain ⟨x, hx, hy⟩ := List.mem_flatMap.1 hy
    have hfits := hc.tree.fits id hid
    simp only [Tree.fits, hshape, Bool.and_eq_true, Option.all_eq_true] at hfits
    refine (hc.plain_of_isType (hc.tree.child hid ?_) (hfits.1 x (Option.mem_toList.1 hx)) y hy).2
    rw [Tree.children_of_shape hshape]
    exact List.mem_append_left _ hx
  -- What is not in the body keeps its index, or still has none.
  have hkeeps : ∀ q, q ∉ c.tree.preorder body → s₂.procedureOf[q]?
      = ((s.opened id (procedureName c id).1 (procedureName c id).2).inFrame
          ⟨s.program.procedures.size, result.map c.typeOf, ∅⟩).procedureOf[q]? := fun q hq => by
    rw [hlast.procedures, hpasses.outside q (by simpa using hq)]
  have hbelow := ((Enters.plain htypes rfl).trans henters fun q hq => ?_).step hlast
  · have hall := hopened.trans hbelow fun q hq => ?_
    · rw [c.tree.preorder_eq, Tree.children_of_shape hshape]
      simpa [Shape.children] using hall.inFrame s.frame
    · obtain rfl := List.mem_singleton.1 hq
      exact hkeeps q fun hmem' => Nat.not_le_of_lt (c.tree.child_lt hmem)
        (c.tree.le_of_mem_preorder hmem')
  · rw [← hlast.procedures]
    refine hkeeps q fun hmem' => ?_
    have hnodup := (Tree.nodup_of_mem hc.tree.nodup hid)
    rw [c.tree.preorder_eq, Tree.children_of_shape hshape] at hnodup
    simp only [Shape.children, List.flatMap_append, List.nodup_cons, List.nodup_append] at hnodup
    exact hnodup.2.2.2 q hq q (by simpa using hmem') rfl

end Turns

/-- **A name stands for the last procedure that has been entered under it.** -/
theorem node_enters {c : LowerContext} (hc : c.Sound) {id : NodeId} {s s' : Lowering}
    {v : Option Register} (hs : s.Sound) (hhosts : s.Hosts c [id]) (hhoused : s.Housed c)
    (h : node c id s = .ok (v, s')) : Enters c (c.tree.preorder id) s s' := by
  refine node_turn_induction hc
    (motive := fun x s _ s' => s.Hosts c [x] → s.Housed c → Enters c (c.tree.preorder x) s s')
    (fun lower id ih s s' v hid hs hturn hhosts hhoused => ?_) (hhosts.inTree id (.head _)) hs h
    hhosts hhoused
  cases hturn with
  | ident hshape _ h => exact ident_enters hshape hs h
  | procedure hshape hbody hlast =>
    exact procedure_enters hc ih hshape hbody hlast hs hhosts hhoused
  | node _ hprocedure hwalk =>
    rw [c.tree.preorder_eq]
    exact (hwalk.enters hc ih hid (.start hc hs hhosts hhoused hprocedure)).cons hprocedure

end Lower

section Defines

/-- `q` is, parentheses aside, the definition of a constant called `name`. -/
def Tree.Defines (t : Tree) (root : NodeId) (name : String) (q : NodeId) : Prop :=
  ∃ d ∈ t.preorder root, ∃ definition, t.shape d = .constant name definition
    ∧ t.ungroup definition = q

/-- `q` is a procedure right below a constant called `name`, and no procedure that comes later in
the source defines one. -/
structure Tree.DefinesLast (t : Tree) (root : NodeId) (name : String) (q : NodeId) : Prop where
  /-- It is a procedure. -/
  isProcedure : (t.shape q).isProcedure = true
  /-- It is what the constant is defined as, without parentheses. -/
  constant : ∃ d ∈ t.preorder root, t.shape d = .constant name q
  /-- No procedure after it defines a constant of that name. -/
  last : ∃ before after, t.preorder root = before ++ q :: after
    ∧ ∀ y ∈ after, (t.shape y).isProcedure = true → ¬t.Defines root name y

theorem Tree.ungroup_of_isProcedure {t : Tree} {q : NodeId} (h : (t.shape q).isProcedure = true) :
    t.ungroup q = q :=
  Tree.ungroup_of_not_group fun e hshape => by
    rw [hshape] at h
    cases h

variable {c : LowerContext} (hc : c.Sound) {name : String} {d q : NodeId}
include hc

/-- A procedure is entered under the name of the constant that it stands right below. -/
theorem LowerContext.Sound.enters_of_constant (hd : d ∈ c.tree.preorder c.root)
    (hshape : c.tree.shape d = .constant name q) (hq : (c.tree.shape q).isProcedure = true) :
    c.enters name q = true := by
  have hmem : q ∈ c.tree.children d := by
    simp [Tree.children_of_shape hshape, Shape.children]
  unfold LowerContext.enters Lower.procedureName
  rw [hc.analysis.rooted.parent d hd q hmem, hq]
  simp [hshape]

/-- What is entered under a name defines a constant of it. -/
theorem LowerContext.Sound.defines_of_enters (hq : q ∈ c.tree.preorder c.root)
    (h : c.enters name q = true) :
    (c.tree.shape q).isProcedure = true ∧ c.tree.Defines c.root name q := by
  unfold LowerContext.enters Lower.procedureName at h
  rw [Bool.and_eq_true, beq_iff_eq] at h
  obtain ⟨hprocedure, h⟩ := h
  -- The root is a scope, and a scope is no procedure.
  have hne : q ≠ c.root := by
    rintro rfl
    have hscope := hc.tree.root_scope
    unfold Tree.isScope at hscope
    cases hshape : c.tree.shape c.root <;> rw [hshape] at hscope hprocedure <;>
      first | (cases hscope; done) | cases hprocedure
  obtain ⟨d, hd, hqd⟩ := Tree.exists_parent hq hne
  rw [hc.analysis.rooted.parent d hd q hqd, Option.map_some] at h
  refine ⟨hprocedure, d, hd, q, ?_, Tree.ungroup_of_isProcedure hprocedure⟩
  -- Of the three shapes only a constant gives its procedure a name.
  split at h
  · next name' definition hshape =>
    obtain ⟨rfl, -⟩ := Prod.mk.inj h
    have hshape := Option.some.inj hshape
    rw [Tree.children_of_shape hshape] at hqd
    obtain rfl := List.mem_singleton.1 hqd
    exact hshape
  · simp at h
  · simp at h

/-- **A name stands for the last procedure that defines a constant of it**, wherever that is
declared. -/
theorem Lowering.textSymbol_eq {v : Option Register} {s : Lowering}
    (hnode : Lower.node c c.root Lowering.start = .ok (v, s))
    (hq : c.tree.DefinesLast c.root name q) :
    s.program.textSymbols[name]? = s.procedureOf[q]? := by
  obtain ⟨d, hd, hshape⟩ := hq.constant
  obtain ⟨before, after, hlisting, hlast⟩ := hq.last
  have henters := Lower.node_enters hc Sound.start (.start hc) .start hnode name
  have hnone : after.reverse.find? (c.enters name) = none := by
    refine List.find?_eq_none.2 fun y hy henters => ?_
    have hy : y ∈ after := List.mem_reverse.1 hy
    obtain ⟨hprocedure, hdefines⟩ := hc.defines_of_enters
      (by rw [hlisting]; exact List.mem_append_right _ (.tail _ hy)) henters
    exact hlast y hy hprocedure hdefines
  rw [hlisting, List.reverse_append, List.reverse_cons, List.append_assoc, List.find?_append, hnone,
    Option.none_or, List.singleton_append, List.find?_cons,
    hc.enters_of_constant hd hshape hq.isProcedure] at henters
  exact henters

end Defines

/-! ### The table of declarations -/

/-- `y` declares `name` in the outermost scope. -/
def LowerContext.Outermost (c : LowerContext) (name : String) (y : NodeId) : Prop :=
  c.links.enclosingScope? c.tree y = some c.root ∧ (c.tree.shape y).declaredName? = some name

namespace Lowering

/-- No declaration outside `P` has been tied, and none outside it has been entered. -/
structure Binds (c : LowerContext) (P : NodeId → Prop) (s s' : Lowering) : Prop where
  /-- A name that no outermost declaration in `P` has leads to the same register as before. -/
  symbols : ∀ name, (∀ y, P y → ¬c.Outermost name y) →
    s'.program.dataSymbols[name]? = s.program.dataSymbols[name]?
  /-- A declaration outside of `P` has the same register. -/
  registers : ∀ d, ¬P d → s'.current.registers[d]? = s.current.registers[d]?
  /-- A declaration outside of `P` has the same owner. -/
  owners : ∀ d, ¬P d → s'.ownerOf[d]? = s.ownerOf[d]?

namespace Binds

variable {c : LowerContext} {P Q : NodeId → Prop} {s s₁ s' : Lowering}

theorem quiet (h : s.Quiet s') : Binds c P s s' where
  symbols name _ := by rw [h.data]
  registers d _ := by rw [h.registers]
  owners d _ := by rw [h.owners]

theorem trans (h : Binds c P s s₁) (h' : Binds c P s₁ s') : Binds c P s s' where
  symbols name hname := (h'.symbols name hname).trans (h.symbols name hname)
  registers d hd := (h'.registers d hd).trans (h.registers d hd)
  owners d hd := (h'.owners d hd).trans (h.owners d hd)

theorem mono (h : Binds c P s s') (hPQ : ∀ y, P y → Q y) : Binds c Q s s' where
  symbols name hname := h.symbols name fun y hy => hname y (hPQ y hy)
  registers d hd := h.registers d fun hy => hd (hPQ d hy)
  owners d hd := h.owners d fun hy => hd (hPQ d hy)

theorem withProblem (s : Lowering) (p : LoweringProblem) : Binds c P s (s.withProblem p) :=
  ⟨fun _ _ => rfl, fun _ _ => rfl, fun _ _ => rfl⟩

theorem tie (hs : s.Sound) {id : NodeId} {r : Register} (hid : P id) :
    Binds c P s (s.tie c id r) where
  symbols name hname := by
    show (s.symbolsWith c id r)[name]? = _
    unfold symbolsWith
    split
    · next hroot =>
      split
      · next name' hname' =>
        have hne : name' ≠ name := fun heq => hname id hid ⟨hroot.2, heq ▸ hname'⟩
        simp [Std.TreeMap.getElem?_insert, hne]
      · rfl
    · rfl
  registers d hd := by
    have hne : id ≠ d := fun heq => hd (heq ▸ hid)
    rw [current_tie hs.frame]
    simp [Std.TreeMap.getElem?_insert, hne]
  owners d hd := by
    have hne : id ≠ d := fun heq => hd (heq ▸ hid)
    show (s.ownerOf.insert id s.frame.index)[d]? = _
    simp [Std.TreeMap.getElem?_insert, hne]

end Binds

/-- The last thing that has happened is that `id` was tied. -/
def Ties (c : LowerContext) (id : NodeId) (s s' : Lowering) : Prop :=
  ∃ (s₀ : Lowering) (r : Register), s₀.Sound ∧ s₀.frame.index = s.frame.index ∧ s' = s₀.tie c id r

theorem Ties.of_index {c : LowerContext} {id : NodeId} {s s₁ s' : Lowering} (h : Ties c id s₁ s')
    (hindex : s₁.frame.index = s.frame.index) : Ties c id s s' := by
  obtain ⟨s₀, r, hs₀, hindex₀, htie⟩ := h
  exact ⟨s₀, r, hs₀, hindex₀.trans hindex, htie⟩

end Lowering

namespace Lower

section Turns

variable {c : LowerContext} {lower : NodeId → Lower (Option Register)} {id : NodeId}
  {xs ws : List NodeId} {vs : List (NodeId × Option Register)} {s s' : Lowering} (hc : c.Sound)
  (ih : ∀ (x : NodeId) (s s' : Lowering) (v : Option Register), lower x s = .ok (v, s') →
    node c x s = .ok (v, s')
      ∧ (x ∈ c.tree.preorder c.root → s.Sound → Binds c (· ∈ c.tree.preorder x) s s'))
include hc ih

/-- What a walk ties is below its node, or is the node itself. -/
theorem Walks.binds (hwalk : Walks c lower id xs ws vs s s') (hs : s.Sound)
    (hxs : ∀ x ∈ xs, x ∈ c.tree.preorder c.root) :
    Binds c (fun y => y = id ∨ y ∈ xs.flatMap c.tree.preorder) s s' := by
  induction hwalk with
  | finish => exact .quiet (.refl hs)
  -- A step that ties nothing leaves the claim to the rest.
  | quiet hquiet _ ihrest => exact (Binds.quiet hquiet).trans (ihrest hquiet.sound hxs)
  | skip _ _ _ ihrest =>
    exact (ihrest hs fun y hy => hxs y (.tail _ hy)).mono fun y hy =>
      hy.imp_right (List.mem_append_right _)
  | visit _ hx _ ihrest =>
    obtain ⟨hnode, hbinds⟩ := ih _ _ _ _ hx
    refine ((hbinds (hxs _ (.head _)) hs).mono fun y hy => ?_).trans
      ((ihrest (node_advances hs hnode).sound fun y hy => hxs y (.tail _ hy)).mono fun y hy => ?_)
    · exact .inr (List.mem_append_left _ hy)
    · exact hy.imp_right (List.mem_append_right _)
  -- The walk goes on below the target of the slot.
  | @slot x target _ _ _ _ _ _ _ _ hslot hx _ ihrest =>
    obtain ⟨hnode, hbinds⟩ := ih _ _ _ _ hx
    have hmem : target ∈ c.tree.children x := by
      rw [Tree.children_of_shape hslot]
      exact .head _
    refine ((hbinds (hc.tree.child (hxs _ (.head _)) hmem) hs).mono fun y hy => ?_).trans
      ((ihrest (node_advances hs hnode).sound fun y hy => hxs y (.tail _ hy)).mono fun y hy => ?_)
    · exact .inr (List.mem_append_left _ (c.tree.mem_preorder_of_child hmem hy))
    · exact hy.imp_right (List.mem_append_right _)
  | write _ hplace _ ihrest =>
    cases hplace with
    | unowned _ | own _ => exact ihrest hs hxs
    | outer _ _ => exact (Binds.withProblem _ _).trans (ihrest (hs.withProblem _) hxs)
  | miss _ _ ihrest => exact ihrest hs hxs
  | tie _ _ => exact .tie hs (.inl rfl)

end Turns

/-- **What is lowered below a node ties and enters nothing else.** -/
theorem node_binds {c : LowerContext} (hc : c.Sound) {id : NodeId} {s s' : Lowering}
    {v : Option Register} (hid : id ∈ c.tree.preorder c.root) (hs : s.Sound)
    (h : node c id s = .ok (v, s')) : Binds c (· ∈ c.tree.preorder id) s s' := by
  refine node_turn_induction hc
    (motive := fun x s _ s' => Binds c (· ∈ c.tree.preorder x) s s')
    (fun lower id ih s s' v hid hs hturn => ?_) hid hs h
  cases hturn with
  | ident _ _ h =>
    rcases h.quiet_or hs with hquiet | ⟨rfl, -⟩
    · exact .quiet hquiet
    · exact .withProblem s _
  | @procedure result body v s₁ s₂ hshape hbody hlast =>
    -- In its frame there is nothing to see for the procedure around it.
    have hmem : body ∈ c.tree.children id := by
      simp [Tree.children_of_shape hshape, Shape.children]
    obtain ⟨hnode, hbinds⟩ := ih _ _ _ _ hbody
    have hbelow := (hbinds (hc.tree.child hid hmem) (entered_sound hs)).trans (.quiet hlast)
    have hgrows := (node_advances (entered_sound hs) hnode).grows.trans hlast.grows
    refine Binds.mono (P := (· ∈ c.tree.preorder body)) ?_ fun y hy =>
      c.tree.mem_preorder_of_child hmem hy
    exact ⟨hbelow.symbols, fun d _ => by rw [around_current hs hgrows], hbelow.owners⟩
  | node _ _ hwalk =>
    refine (hwalk.binds hc ih hs fun x hx => hc.tree.child hid hx).mono fun y hy => ?_
    rw [c.tree.preorder_eq]
    exact List.mem_cons.2 hy

/-- A node that gets an owner is tied at the end of its walk. -/
theorem Walks.tied {c : LowerContext} (hc : c.Sound) {lower : NodeId → Lower (Option Register)}
    {id : NodeId} {xs ws : List NodeId} {vs : List (NodeId × Option Register)} {s s' : Lowering}
    (hlower : ∀ (x : NodeId) (s s' : Lowering) (v : Option Register),
      lower x s = .ok (v, s') → node c x s = .ok (v, s'))
    (hwalk : Walks c lower id xs ws vs s s') (hs : s.Sound)
    (hxs : ∀ x ∈ xs, x ∈ c.tree.preorder c.root) (hapart : id ∉ xs.flatMap c.tree.preorder)
    (hnone : s.ownerOf[id]? = none) (hsome : s'.ownerOf[id]?.isSome = true) :
    Ties c id s s' := by
  -- Nothing below the node gives it an owner.
  have below {x y : NodeId} {xs : List NodeId} {v : Option Register} {s s₁ : Lowering}
      (hs : s.Sound) (hy : lower y s = .ok (v, s₁))
      (hsub : ∀ z ∈ c.tree.preorder y, z ∈ c.tree.preorder x) (hx : x ∈ c.tree.preorder c.root)
      (hapart : id ∉ (x :: xs).flatMap c.tree.preorder) (hnone : s.ownerOf[id]? = none) :
      s₁.Sound ∧ s₁.frame.index = s.frame.index ∧ s₁.ownerOf[id]? = none := by
    have hmem := c.tree.mem_preorder_trans hx (hsub y (c.tree.self_mem_preorder y))
    have hadv := node_advances hs (hlower y s s₁ v hy)
    refine ⟨hadv.sound, hadv.grows.index, ?_⟩
    rw [(node_binds hc hmem hs (hlower y s s₁ v hy)).owners id fun hid =>
      hapart (List.mem_append_left _ (hsub id hid)), hnone]
  induction hwalk with
  | finish =>
    rw [hnone] at hsome
    cases hsome
  | quiet hquiet _ ihrest =>
    exact (ihrest hquiet.sound hxs hapart (by rw [hquiet.owners, hnone]) hsome).of_index
      hquiet.grows.index
  | skip _ _ _ ihrest =>
    exact ihrest hs (fun y hy => hxs y (.tail _ hy))
      (fun hmem => hapart (List.mem_append_right _ hmem)) hnone hsome
  | visit _ hx _ ihrest =>
    obtain ⟨hs₁, hindex₁, hnone₁⟩ := below hs hx (fun _ hz => hz) (hxs _ (.head _)) hapart hnone
    exact (ihrest hs₁ (fun y hy => hxs y (.tail _ hy))
      (fun hmem => hapart (List.mem_append_right _ hmem)) hnone₁ hsome).of_index hindex₁
  | @slot x target _ _ _ _ _ _ _ _ hslot hx _ ihrest =>
    have hmem : target ∈ c.tree.children x := by
      rw [Tree.children_of_shape hslot]
      exact .head _
    obtain ⟨hs₁, hindex₁, hnone₁⟩ := below hs hx
      (fun _ hz => c.tree.mem_preorder_of_child hmem hz) (hxs _ (.head _)) hapart hnone
    exact (ihrest hs₁ (fun y hy => hxs y (.tail _ hy))
      (fun hmem => hapart (List.mem_append_right _ hmem)) hnone₁ hsome).of_index hindex₁
  | write _ hplace _ ihrest =>
    cases hplace with
    | unowned _ | own _ => exact ihrest hs hxs hapart hnone hsome
    | outer _ _ => exact ihrest (hs.withProblem _) hxs hapart hnone hsome
  | miss _ _ ihrest => exact ihrest hs hxs hapart hnone hsome
  | tie _ _ => exact ⟨_, _, hs, rfl, rfl⟩

/-- A declaration that gets an owner is tied when it has been lowered. -/
theorem node_tied {c : LowerContext} (hc : c.Sound) {id : NodeId} {s s' : Lowering}
    {v : Option Register} (hid : id ∈ c.tree.preorder c.root) (hs : s.Sound)
    (hdecl : (c.tree.shape id).isDeclaration = true) (hnone : s.ownerOf[id]? = none)
    (h : node c id s = .ok (v, s')) (hsome : s'.ownerOf[id]?.isSome = true) :
    Ties c id s s' := by
  refine node_turn_induction hc
    (motive := fun x s _ s' => (c.tree.shape x).isDeclaration = true → s.ownerOf[x]? = none →
      s'.ownerOf[x]?.isSome = true → Ties c x s s')
    (fun lower id ih s s' v hid hs hturn hdecl hnone hsome => ?_) hid hs h hdecl hnone hsome
  cases hturn with
  | ident hshape _ _ | procedure hshape _ _ =>
    rw [hshape] at hdecl
    cases hdecl
  | node _ _ hwalk =>
    refine hwalk.tied hc (fun x s s' v hx => (ih x s s' v hx).1) hs
      (fun x hx => hc.tree.child hid hx) (fun hmem => ?_) hnone hsome
    obtain ⟨x, hx, hmem⟩ := List.mem_flatMap.1 hmem
    exact Nat.not_le_of_lt (c.tree.child_lt hx) (c.tree.le_of_mem_preorder hmem)

/-! ### Items of the outermost scope -/

theorem ItemsOutcome.split {lower : NodeId → Lower (Option Register)} {before after : List NodeId}
    {x : NodeId} {s s' : Lowering} (h : ItemsOutcome lower (before ++ x :: after) s s') :
    ∃ s₀ s₁ v, ItemsOutcome lower before s s₀ ∧ lower x s₀ = .ok (v, s₁)
      ∧ ItemsOutcome lower after s₁ s' := by
  induction before generalizing s with
  | nil =>
    cases h with
    | cons hx hrest => exact ⟨s, _, _, .nil, hx, hrest⟩
  | cons y before ih =>
    cases h with
    | cons hy hrest =>
      obtain ⟨s₀, s₁, v, hbefore, hx, hafter⟩ := ih hrest
      exact ⟨s₀, s₁, v, .cons hy hbefore, hx, hafter⟩

theorem ItemsOutcome.mono {lower lower' : NodeId → Lower (Option Register)} {items : List NodeId}
    {s s' : Lowering} (h : ItemsOutcome lower items s s')
    (hlower : ∀ (x : NodeId) (s s' : Lowering) (v : Option Register),
      lower x s = .ok (v, s') → lower' x s = .ok (v, s')) : ItemsOutcome lower' items s s' := by
  induction h with
  | nil => exact .nil
  | cons hx _ ih => exact .cons (hlower _ _ _ _ hx) ih

/-- A scope has its items lowered, one after the other. -/
theorem node_items {c : LowerContext} {id : NodeId} {s s' : Lowering} {v : Option Register}
    (hscope : c.tree.isScope id = true) (h : node c id s = .ok (v, s')) :
    ItemsOutcome (node c) (c.tree.children id) s s' := by
  refine node_induction
    (motive := fun x s _ s' => c.tree.isScope x = true →
      ItemsOutcome (node c) (c.tree.children x) s s')
    (fun lower id ih s s' v houtcome hscope => ?_) h hscope
  have hlower : ∀ x s s' v, lower x s = .ok (v, s') → node c x s = .ok (v, s') :=
    fun x s s' v hx => (ih x s s' v hx).2.1
  unfold Tree.isScope at hscope
  unfold Tree.children
  cases hshape : c.tree.shape id <;> rw [hshape] at hscope houtcome <;>
    first | (cases hscope; done) | skip
  case module items =>
    cases houtcome with
    | module h => exact h.mono hlower
  case block items =>
    cases houtcome with
    | block h => exact h.mono hlower

theorem items_binds {c : LowerContext} (hc : c.Sound) {items : List NodeId} {s s' : Lowering}
    (h : ItemsOutcome (node c) items s s') (hitems : ∀ x ∈ items, x ∈ c.tree.preorder c.root)
    (hs : s.Sound) : Binds c (· ∈ items.flatMap c.tree.preorder) s s' := by
  induction h with
  | nil => exact .quiet (.refl hs)
  | cons hx _ ih =>
    refine ((node_binds hc (hitems _ (.head _)) hs hx).mono fun y hy => ?_).trans
      ((ih (fun y hy => hitems y (.tail _ hy)) (node_advances hs hx).sound).mono fun y hy => ?_)
    · exact List.mem_append_left _ hy
    · exact List.mem_append_right _ hy

end Lower

/-! ### Top-level declarations -/

section Outermost

variable {c : LowerContext} (hc : c.Sound) {name : String} {d x y : NodeId}
include hc

theorem LowerContext.Sound.enclosingScope?_item (hscope : c.tree.isScope x = true)
    (hx : x ∈ c.tree.preorder c.root) (hy : y ∈ c.tree.children x) :
    c.links.enclosingScope? c.tree y = some x :=
  (hc.analysis.rooted.ancestor?_child c.tree.isScope hx hy).trans (if_pos hscope)

/-- Below an item of the outermost scope no other node declares in it. -/
theorem LowerContext.Outermost.eq_item (hx : x ∈ c.tree.children c.root)
    (hy : y ∈ c.tree.preorder x) (h : c.Outermost name y) : y = x := by
  refine Classical.byContradiction fun hne => ?_
  have hmem := hc.tree.child (c.tree.self_mem_preorder c.root) hx
  obtain ⟨z, hz, hyz⟩ := Tree.exists_parent hy hne
  have hzroot := c.tree.mem_preorder_trans hmem hz
  have hscope := hc.tree.declares_in_scopes z hzroot y hyz (by simp [Shape.isDeclaration, h.2])
  obtain rfl : z = c.root :=
    Option.some.inj ((hc.enclosingScope?_item hscope hzroot hyz).symm.trans h.1)
  exact Nat.not_le_of_lt (c.tree.child_lt hx) (c.tree.le_of_mem_preorder hz)

omit hc in
/-- The declaration that is visible at the end is the last item of its name. -/
theorem Tree.declared?_end {t : Tree} {root : NodeId}
    (h : t.declared? root (t.weight root) name root = some d) :
    ∃ before after, t.children root = before ++ d :: after ∧ (t.shape d).declaredName? = some name
      ∧ ∀ y ∈ after, (t.shape y).declaredName? ≠ some name := by
  obtain ⟨hd, later, earlier, hsplit, hlater⟩ := List.find?_eq_some_iff_append.1 h
  have hchildren : t.children root = earlier.reverse ++ d :: later.reverse := by
    simpa using congrArg List.reverse hsplit
  simp only [decide_eq_true_eq] at hd
  refine ⟨_, _, hchildren, hd.1, fun y hy hname => ?_⟩
  have hmem : y ∈ t.preorder root := t.child_mem_preorder (by
    rw [hchildren]
    exact List.mem_append_right _ (.tail _ hy))
  have hnot := hlater y (by simpa using hy)
  simp [hname, Tree.visibleFrom_le_weight hmem] at hnot

/-- **A name stands for the declaration of the outermost scope that is visible at the end**, if that
has a value. -/
theorem Lowering.dataSymbol_eq {v : Option Register} {s : Lowering}
    (hnode : Lower.node c c.root Lowering.start = .ok (v, s))
    (hd : c.tree.declared? c.root (c.tree.weight c.root) name c.root = some d)
    (howned : s.ownerOf[d]?.isSome = true) :
    ∃ r, s.current.registers[d]? = some r ∧ s.program.dataSymbols[name]? = some r := by
  have hroot := c.tree.self_mem_preorder c.root
  obtain ⟨before, after, hchildren, hname, hlast⟩ := Tree.declared?_end hd
  have hitem : ∀ x ∈ before ++ d :: after, x ∈ c.tree.children c.root := fun x hx =>
    hchildren ▸ hx
  have hin : ∀ x ∈ before ++ d :: after, x ∈ c.tree.preorder c.root := fun x hx =>
    hc.tree.child hroot (hitem x hx)
  -- The items are apart, so that nothing but its own item ties the declaration.
  have hnodup : ((before ++ d :: after).flatMap c.tree.preorder).Nodup := by
    have hnodup := hc.tree.nodup
    rw [c.tree.preorder_eq, hchildren] at hnodup
    exact (List.nodup_cons.1 hnodup).2
  simp only [List.flatMap_append, List.flatMap_cons, List.nodup_append] at hnodup
  obtain ⟨-, ⟨-, -, hafter⟩, hbefore⟩ := hnodup
  have hdbefore : d ∉ before.flatMap c.tree.preorder := fun hmem =>
    hbefore d hmem d (List.mem_append_left _ (c.tree.self_mem_preorder d)) rfl
  have hdafter : d ∉ after.flatMap c.tree.preorder := fun hmem =>
    hafter d (c.tree.self_mem_preorder d) d hmem rfl
  -- The items before it, the declaration, and the items after it.
  have hitems := Lower.node_items hc.tree.root_scope hnode
  rw [hchildren] at hitems
  obtain ⟨s₀, s₁, u, hfirst, hdecl, hrest⟩ := hitems.split
  have hadv := Lower.items_advances (fun _ _ _ _ hx hs => Lower.node_advances hs hx) Sound.start
    hfirst
  have hnone : s₀.ownerOf[d]? = none := by
    rw [(Lower.items_binds hc hfirst (fun x hx => hin x (List.mem_append_left _ hx))
      Sound.start).owners d hdbefore]
    simp [Lowering.start]
  -- The later items tie other declarations, and none of this name.
  have hbinds := Lower.items_binds hc hrest
    (fun x hx => hin x (List.mem_append_right _ (.tail _ hx)))
    (Lower.node_advances hadv.sound hdecl).sound
  rw [hbinds.owners d hdafter] at howned
  have hdin := hin d (List.mem_append_right _ (.head _))
  obtain ⟨s₂, r, hs₂, hindex, rfl⟩ := Lower.node_tied hc hdin hadv.sound
    (by simp [Shape.isDeclaration, hname]) hnone hdecl howned
  refine ⟨r, ?_, ?_⟩
  · -- The register stays the one that the declaration was given.
    rw [hbinds.registers d hdafter, current_tie hs₂.frame]
    simp
  · -- The name was entered with that register and is not entered again.
    rw [hbinds.symbols name fun y hy hout => ?_]
    · show (s₂.symbolsWith c d r)[name]? = some r
      have hscope := hc.enclosingScope?_item hc.tree.root_scope hroot
        (hitem d (List.mem_append_right _ (.head _)))
      have hzero : s₂.frame.index = 0 := hindex.trans hadv.grows.index
      unfold symbolsWith
      rw [if_pos ⟨hzero, hscope⟩, hname]
      simp
    · obtain ⟨x, hx, hy⟩ := List.mem_flatMap.1 hy
      obtain rfl := hout.eq_item hc (hitem x (List.mem_append_right _ (.tail _ hx))) hy
      exact hlast y hx hout.2

end Outermost

end MiddleEnd
