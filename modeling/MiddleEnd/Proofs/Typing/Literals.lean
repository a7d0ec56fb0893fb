import MiddleEnd.Proofs.Number.Numerals
import MiddleEnd.Proofs.Typing.Order

/-!
# Literals are typed once

A literal has a type and a value by itself.  Typing other nodes may ask for it at any time, but only
its own rule writes down what there is to say about it, and that rule is run once.  So whatever else
is wrong with a section, a number has the type and the value that it spells, or it is reported once
and has neither.

## Main definitions

* `Typing.Entry` — what a table says about a node as a literal.
* `Typing.Keeps` — a computation that keeps what is said about a node.
* `Typing.SpeaksOf` — what a finished table says about a number.

## Main results

* `Typing.rule_keeps` — the rule of another node keeps what is said about a literal.
* `Typing.nodeWithin_keeps`, `Typing.nodeWithin_types` — so does typing a node, until it is the
  literal.
* `Typing.ofSection_literal` — what a typed section says about a literal.
* `Typing.numbers_exact` — **which numbers are read, and what typing says about them**.
-/

namespace MiddleEnd

/-- Whether it is reported that the number at a node is misspelled. -/
def TypeProblem.misspells (x : NodeId) : TypeProblem → Bool
  | badNumber id _ => id == x
  | _ => false

/-- A misspelled number is reported at its node, and nothing else is for this cause. -/
theorem TypeProblem.misspells_eq (t : Tree) (x : NodeId) (P : TypeProblem) :
    P.misspells x = (P.node == x && (P.diagnostic t).cause == .badNumber) := by
  cases P <;> simp [misspells, node, diagnostic, Diagnostic.error]

/-- What is reported about a literal. -/
def Literal.reports (x : NodeId) : Literal → List TypeProblem
  | number spelling =>
    match Spelled.ofText spelling with
    | .ok _ => []
    | .error e => [.badNumber x e]
  | _ => []

namespace Typing

open Runs

/-- What a table says about a node as a literal, and for how many nodes there is room. -/
structure Entry where
  /-- For how many nodes there is room. -/
  size : Nat
  /-- How far the node has come. -/
  progress : Progress
  /-- Its value. -/
  value : Option LiteralValue
  /-- The reports that it is misspelled. -/
  reports : List TypeProblem

/-- All that the table says about one node. -/
def entry (s : Typing) (x : NodeId) : Entry :=
  ⟨s.progress.size, s.progressOf x, s.literal? x, s.problems.toList.filter (·.misspells x)⟩

namespace Entry

/-- Nothing has been said about a node. -/
def untyped (size : Nat) : Entry := ⟨size, .waiting, none, []⟩

/-- Everything has been said about a literal. -/
def typed (size : Nat) (x : NodeId) (lit : Literal) : Entry :=
  ⟨size, .done lit.ty, lit.value?, lit.reports x⟩

end Entry

/-! ### What is kept -/

section

variable (x : NodeId) (p : Entry → Prop)

/-- Wherever the computation ends, `p` holds of what is said about `x` if it did before. -/
def Keeps {β : Type} (m : Infer β) : Prop :=
  ∀ s : Typing, p (s.entry x) → Meets (fun _ => True) m s fun _ s' => p (s'.entry x)

end

variable {x id : NodeId} {p : Entry → Prop} {β γ : Type} {m : Infer β} {k : β → Infer γ}

namespace Keeps

theorem pure (v : β) : Keeps x p (pure v) := fun _ hs => meets_pure.2 hs

theorem bind (hm : Keeps x p m) (hk : ∀ a, Keeps x p (k a)) : Keeps x p (m >>= k) := fun s hs =>
  (hm s hs).bind fun a s' hs' => hk a s' hs'

theorem throw (e : Misuse) : Keeps x p (throw e : Infer β) := fun _ _ => meets_throw.2 trivial

theorem discard (hm : Keeps x p m) : Keeps x p (discard m) := fun s hs => (hm s hs).discard

theorem forM {ι : Type} {xs : List ι} {m : ι → Infer Unit} (hm : ∀ y ∈ xs, Keeps x p (m y)) :
    Keeps x p (xs.forM m) := by
  induction xs with
  | nil => exact .pure _
  | cons y xs ih => exact (hm y (.head _)).bind fun _ => ih fun z hz => hm z (.tail _ hz)

theorem report {P : TypeProblem} (hP : P.misspells x = false) : Keeps x p (report P) := by
  intro s hs
  refine meets_modify.2 ?_
  have hsame : entry { s with problems := s.problems.push P } x = s.entry x := by
    simp [entry, progressOf, literal?, hP]
  exact hsame.symm ▸ hs

theorem refuse {P : TypeProblem} (hP : P.misspells x = false) : Keeps x p (refuse P) :=
  (report hP).bind fun _ => .pure _

/-- A check that may fail, before the result is given. -/
theorem check {b : Prop} [Decidable b] {P : TypeProblem} (hP : P.misspells x = false) (v : β) :
    Keeps x p (if b then (Typing.report P >>= fun _ => Pure.pure v) else Pure.pure v) := by
  split
  · exact (report hP).bind fun _ => .pure _
  · exact .pure _

/-- A check that may fail. -/
theorem check_last {b : Prop} [Decidable b] {P : TypeProblem} (hP : P.misspells x = false) :
    Keeps x p (if b then Typing.report P else Pure.pure ⟨⟩) := by
  split
  · exact .report hP
  · exact .pure _

theorem record (hne : id ≠ x) (v : LiteralValue) : Keeps x p (record id v) := by
  intro s hs
  refine meets_modify.2 ?_
  have hsame : entry { s with literals := s.literals.insert id v } x = s.entry x := by
    have hvalue : (s.literals.insert id v)[x]? = s.literals[x]? := by
      rw [Std.TreeMap.getElem?_insert, if_neg (by simpa using hne)]
    simp [entry, progressOf, literal?, hvalue]
  exact hsame.symm ▸ hs

theorem mark (hne : id ≠ x) (q : Progress) : Keeps x p (mark id q) := by
  intro s hs
  refine meets_modify.2 ?_
  have hsame : entry (s.marked id q) x = s.entry x := by
    unfold entry
    rw [size_marked, progressOf_marked_of_ne hne.symm]
    rfl
  exact hsame.symm ▸ hs

end Keeps

/-! ### Rules of other nodes -/

section Rules

variable {c : Context} {infer : NodeId → Infer Ty}

theorem literalRule_keeps (hne : id ≠ x) (lit : Literal) : Keeps x p (literalRule id lit) := by
  cases lit with
  | number spelling =>
    unfold literalRule
    simp only
    cases Spelled.ofText spelling with
    | error e => exact .refuse (by simpa [TypeProblem.misspells] using hne)
    | ok value => cases value <;> exact (Keeps.record hne _).bind fun _ => .pure _
  | char ch => exact (Keeps.record hne _).bind fun _ => .pure _
  | text contents => exact .pure _

theorem typeNameRule_keeps (name : String) : Keeps x p (typeNameRule id name) := by
  unfold typeNameRule
  split
  · exact .pure _
  · exact (Keeps.report rfl).bind fun _ => .pure _

theorem isWritable_keeps (target : NodeId) : Keeps x p (isWritable c target) := by
  unfold isWritable
  simp only
  split
  · split
    · exact .pure _
    · split
      · exact .pure _
      · exact (Keeps.report rfl).bind fun _ => .pure _
      · exact .throw _
  · exact (Keeps.report rfl).bind fun _ => .pure _

variable (hinfer : ∀ y, Keeps x p (infer y))

include hinfer

theorem optionalRule_keeps (y : Option NodeId) : Keeps x p (optionalRule infer y) := by
  cases y with
  | none => exact .pure _
  | some y => exact (hinfer y).bind fun _ => .pure _

theorem varRule_keeps (name : String) (ty init : Option NodeId) :
    Keeps x p (varRule infer id name ty init) := by
  unfold varRule
  refine (optionalRule_keeps hinfer ty).bind fun declared => ?_
  refine (optionalRule_keeps hinfer init).bind fun initial => ?_
  split
  · cases init with
    | none =>
      simp only
      split <;> exact .pure _
    | some init => exact .check rfl _
  · exact .pure _
  · exact .pure _
  · exact .refuse rfl

theorem binaryRule_keeps (left op right : NodeId) :
    Keeps x p (binaryRule infer id left op right) := by
  unfold binaryRule
  refine (hinfer left).bind fun leftTy => (hinfer op).bind fun _ =>
    (hinfer right).bind fun rightTy => ?_
  exact .check rfl _

theorem signedRule_keeps (op operand : NodeId) : Keeps x p (signedRule c infer id op operand) := by
  unfold signedRule
  refine (hinfer op).bind fun _ => (hinfer operand).bind fun ty => ?_
  split
  · exact .check rfl _
  · exact .throw _

theorem callRule_keeps (callee : NodeId) : Keeps x p (callRule c infer id callee) := by
  unfold callRule
  refine (hinfer callee).bind fun ty => ?_
  split
  · exact .pure _
  split
  · exact .refuse rfl
  split
  · exact hinfer _
  · exact .pure _

theorem castRule_keeps (expr ty : NodeId) : Keeps x p (castRule infer id expr ty) := by
  unfold castRule
  refine (hinfer expr).bind fun source => (hinfer ty).bind fun dest => ?_
  split
  · exact .pure _
  split
  · exact .pure _
  split
  · exact .refuse rfl
  · exact .pure _

theorem nativeRule_keeps (inputs : List NodeId) (output : Option NodeId) :
    Keeps x p (nativeRule c infer inputs output) := by
  unfold nativeRule
  refine (Keeps.forM fun y _ => (hinfer y).discard).bind fun _ => ?_
  cases output with
  | none => exact .pure _
  | some output =>
    refine (hinfer output).bind fun ty => ?_
    split
    · exact (isWritable_keeps _).bind fun _ => .pure _
    · exact .pure _

theorem slotRule_keeps (target : NodeId) : Keeps x p (slotRule infer id target) := by
  unfold slotRule
  exact (hinfer target).bind fun ty => .check rfl _

theorem storeRule_keeps (target value : NodeId) : Keeps x p (storeRule c infer target value) := by
  unfold storeRule
  refine (hinfer target).bind fun dest => (hinfer value).bind fun source => ?_
  refine (isWritable_keeps target).bind fun writable => ?_
  split
  · split
    · exact .report rfl
    · exact .check_last rfl
  · exact .pure _

theorem parallelRule_keeps (targets values : List NodeId) :
    Keeps x p (parallelRule c infer id targets values) := by
  unfold parallelRule
  split
  · exact .forM fun pair _ => storeRule_keeps hinfer pair.1 pair.2
  · exact (Keeps.forM fun y _ => (hinfer y).discard).bind fun _ => .report rfl

theorem returnRule_keeps (value : Option NodeId) : Keeps x p (returnRule c infer id value) := by
  unfold returnRule
  refine (optionalRule_keeps hinfer value).bind fun valueTy => ?_
  split
  · refine (hinfer _).bind fun resultTy => ?_
    split
    · exact .check_last rfl
    · exact .check_last rfl
  · exact .pure _

/-- The rule of another node keeps what is said about a literal. -/
theorem rule_keeps (hne : id ≠ x) : Keeps x p (rule c infer id) := by
  unfold rule
  cases c.tree.shape id with
  | constant name definition => exact hinfer definition
  | var name ty init => exact varRule_keeps hinfer name ty init
  | exprStmt expr => exact (hinfer expr).bind fun _ => .pure _
  | assign target value => exact (storeRule_keeps hinfer target value).bind fun _ => .pure _
  | parallel targets values =>
    exact (parallelRule_keeps hinfer targets values).bind fun _ => .pure _
  | ret value => exact (returnRule_keeps hinfer value).bind fun _ => .pure _
  | literal lit => exact literalRule_keeps hne lit
  | ident name =>
    simp only
    split
    · exact hinfer _
    · exact .pure _
  | binary left op right => exact binaryRule_keeps hinfer left op right
  | signed op operand => exact signedRule_keeps hinfer op operand
  | group expr => exact hinfer expr
  | call callee => exact callRule_keeps hinfer callee
  | cast expr ty => exact castRule_keeps hinfer expr ty
  | native source inputs output => exact nativeRule_keeps hinfer inputs output
  | slot target offset => exact slotRule_keeps hinfer target
  | typeName name => exact typeNameRule_keeps name
  | array elem len => exact .refuse rfl
  | _ => exact .pure _

end Rules

/-! ### The literal itself -/

theorem entry_recorded (s : Typing) (x : NodeId) (v : LiteralValue) :
    entry { s with literals := s.literals.insert x v } x = { s.entry x with value := some v } := by
  simp [entry, progressOf, literal?]

theorem entry_misspelled (s : Typing) (x : NodeId) (e : SpellingError) :
    entry { s with problems := s.problems.push (.badNumber x e) } x
      = { s.entry x with reports := (s.entry x).reports ++ [.badNumber x e] } := by
  simp [entry, progressOf, literal?, TypeProblem.misspells]

theorem entry_marked_self {s : Typing} (hx : x < s.progress.size) (q : Progress) :
    (s.marked x q).entry x = { s.entry x with progress := q } := by
  unfold entry
  rw [size_marked, progressOf_marked_self hx]
  rfl

/-- The rule of a literal gives its type, and writes down its value or reports it. -/
theorem literalRule_types {s : Typing} {lit : Literal} (hvalue : (s.entry x).value = none)
    (hreports : (s.entry x).reports = []) :
    Meets (fun _ => True) (literalRule x lit) s fun τ s' => τ = lit.ty
      ∧ s'.entry x = { s.entry x with value := lit.value?, reports := lit.reports x } := by
  cases lit with
  | number spelling =>
    unfold literalRule Literal.ty Literal.value? Literal.reports
    simp only
    cases Spelled.ofText spelling with
    | error e =>
      refine meets_bind.2 (meets_modify.2 (meets_pure.2 ⟨rfl, ?_⟩))
      rw [entry_misspelled, hreports, hvalue.symm, List.nil_append]
    | ok value =>
      cases value <;>
        · refine meets_bind.2 (meets_modify.2 (meets_pure.2 ⟨rfl, ?_⟩))
          rw [entry_recorded, hreports.symm]
  | char ch =>
    refine meets_bind.2 (meets_modify.2 (meets_pure.2 ⟨rfl, ?_⟩))
    rw [entry_recorded]
    simp only [Literal.value?, Literal.reports, hreports.symm]
  | text contents =>
    refine meets_pure.2 ⟨rfl, ?_⟩
    simp only [Literal.value?, Literal.reports, hvalue.symm, hreports.symm]

section

variable {c : Context} {lit : Literal} (hshape : c.tree.shape x = .literal lit)

include hshape

/-- A literal that is typed for the first time has everything said about it. -/
theorem opened_types {s : Typing} {n : Nat} (hx : x < n) (hs : s.entry x = .untyped n)
    (infer : NodeId → Infer Ty) :
    Meets (fun _ => True)
      (do mark x .active; let τ ← rule c infer x; mark x (.done τ); return τ : Infer Ty) s
      fun _ s' => s'.entry x = .typed n x lit := by
  have hsize : s.progress.size = n := congrArg Entry.size hs
  have hopened : (s.marked x .active).entry x = ⟨n, .active, none, []⟩ := by
    rw [entry_marked_self (hsize ▸ hx), hs]
    rfl
  have hrule : rule c infer x = literalRule x lit := by
    unfold rule
    rw [hshape]
  rw [hrule]
  refine meets_bind.2 (meets_modify.2 ?_)
  refine (literalRule_types (congrArg Entry.value hopened) (congrArg Entry.reports hopened)).bind
    fun τ s' ⟨hτ, hs'⟩ => ?_
  have hs' : s'.entry x = ⟨n, .active, lit.value?, lit.reports x⟩ := hs'.trans
    (congrArg (fun e : Entry => { e with value := lit.value?, reports := lit.reports x }) hopened)
  have hsize' : s'.progress.size = n := congrArg Entry.size hs'
  refine meets_bind.2 (meets_modify.2 (meets_pure.2 ?_))
  show (s'.marked x (.done τ)).entry x = _
  rw [entry_marked_self (hsize' ▸ hx), hs', hτ]
  rfl

/-- Typing a node keeps what holds of a literal, if it still does when the literal is typed. -/
theorem nodeWithin_keeps
    (hp : ∀ e, p e → e.progress = .waiting →
      x < e.size ∧ e = .untyped e.size ∧ p (.typed e.size x lit)) (depth : Nat) (id : NodeId) :
    Keeps x p (nodeWithin c depth id) := by
  induction depth generalizing id with
  | zero => exact .pure _
  | succ depth ih =>
    intro s hs
    refine meets_bind.2 (meets_get.2 ?_)
    cases hprogress : s.progressOf id with
    | done τ => exact meets_pure.2 hs
    | active => exact Keeps.refuse rfl s hs
    | waiting =>
      by_cases hne : id = x
      · subst hne
        obtain ⟨hx, huntyped, htyped⟩ := hp _ hs hprogress
        exact (opened_types hshape hx huntyped _).mono fun _ s' hs' => hs' ▸ htyped
      · exact ((Keeps.mark hne _).bind fun _ => (rule_keeps ih hne).bind fun _ =>
          (Keeps.mark hne _).bind fun _ => .pure _) s hs

/-- A literal about which everything has been said stays as it is. -/
theorem nodeWithin_keeps_typed (n depth : Nat) (id : NodeId) :
    Keeps x (· = .typed n x lit) (nodeWithin c depth id) := by
  refine nodeWithin_keeps hshape ?_ depth id
  rintro _ rfl hwaiting
  cases hwaiting

/-- Nodes typed one after the other, with a literal among them. -/
theorem forM_node_types {n : Nat} (hx : x < n) {xs : List NodeId} (hxs : x ∈ xs) {s : Typing}
    (hs : s.entry x = .untyped n ∨ s.entry x = .typed n x lit) :
    Meets (fun _ => True) (xs.forM fun y => discard (node c y)) s
      fun _ s' => s'.entry x = .typed n x lit := by
  induction xs generalizing s with
  | nil => cases hxs
  | cons y xs ih =>
    refine meets_forM_cons.2 (Meets.discard ?_)
    have hrest {s' : Typing} (hs' : s'.entry x = .typed n x lit) :
        Meets (fun _ => True) (xs.forM fun y => discard (node c y)) s'
          fun _ s'' => s''.entry x = .typed n x lit :=
      Keeps.forM (p := (· = .typed n x lit))
        (fun z _ => (nodeWithin_keeps_typed hshape n _ z).discard) s' hs'
    by_cases hne : y = x
    · subst hne
      refine Meets.mono ?_ fun _ _ => hrest
      rcases hs with hs | hs
      · refine meets_bind.2 (meets_get.2 ?_)
        rw [show s.progressOf y = .waiting from congrArg Entry.progress hs]
        exact opened_types hshape hx hs _
      · exact nodeWithin_keeps_typed hshape n _ y s hs
    · have hkeeps := nodeWithin_keeps (p := fun e => e = .untyped n ∨ e = .typed n x lit) hshape (by
        rintro _ (rfl | rfl) hwaiting
        · exact ⟨hx, rfl, .inr rfl⟩
        · cases hwaiting) (c.tree.size + 1) y
      exact (hkeeps s hs).mono fun _ _ hs' =>
        ih ((List.mem_cons.1 hxs).resolve_left (Ne.symm hne)) hs'

end

/-! ### Sections -/

section

variable {t : Tree} {links : Links} {sec : Section} {r : Resolution} {ty : Typing}

/-- **What a typed section says about a literal**: its type, its value, and at most one report. -/
theorem ofSection_literal (h : ofSection t links sec r = .ok ty) (hx : x ∈ sec.nodes.toList)
    {lit : Literal} (hshape : t.shape x = .literal lit) :
    ty.entry x = .typed t.size x lit := by
  have hlt : x < t.size := by
    refine Classical.byContradiction fun hge => ?_
    have hge : ¬x < t.nodes.size := hge
    rw [Tree.shape, dif_neg hge] at hshape
    cases hshape
  have hstart : (start t.size).entry x = .untyped t.size := by
    unfold entry Entry.untyped start progressOf literal?
    simp only [Array.size_replicate, Array.getElem?_replicate, if_pos hlt, Option.getD_some]
    simp
  unfold ofSection at h
  simp only [bind, Except.bind, StateT.run] at h
  split at h
  · cases h
  · next q hrun =>
    cases h
    exact (forM_node_types (c := ⟨t, links, r⟩) hshape hlt hx (.inl hstart)).of_ok hrun

end

/-- What a table says about a number: the type and the value it spells, or that it is misspelled.
The error is reported at the number, once. -/
structure SpeaksOf (t : Tree) (ty : Typing) (x : NodeId) (text : String) : Prop where
  /-- A decimal number is known with its value. -/
  decimal : ∀ v, Spelled.ofText text = .ok (.decimal v) →
    ty.typeOf x = .anyNumber ∧ ty.literal? x = some (.integer v)
  /-- An octal number is known with its value. -/
  octal : ∀ v, Spelled.ofText text = .ok (.octal v) →
    ty.typeOf x = .anyUnsigned ∧ ty.literal? x = some (.integer v)
  /-- What spells no number has neither a type nor a value. -/
  misspelled : ∀ e, Spelled.ofText text = .error e →
    ty.typeOf x = .uncastable ∧ ty.literal? x = none
  /-- The error is reported once, and nothing else of that kind is. -/
  reports : ty.problems.toList.filter (fun P => P.node == x && (P.diagnostic t).cause == .badNumber)
    = match Spelled.ofText text with
      | .ok _ => []
      | .error e => [.badNumber x e]

theorem speaksOf_of_entry {t : Tree} {ty : Typing} {text : String} {n : Nat}
    (h : ty.entry x = .typed n x (.number text)) : SpeaksOf t ty x text := by
  have hdone : ty.Done x (Literal.number text).ty := congrArg Entry.progress h
  have htype := hdone.typeOf
  have hvalue : ty.literal? x = (Literal.number text).value? := congrArg Entry.value h
  have hreports : ty.problems.toList.filter (·.misspells x) = (Literal.number text).reports x :=
    congrArg Entry.reports h
  simp only [TypeProblem.misspells_eq t] at hreports
  refine ⟨fun v hv => ?_, fun v hv => ?_, fun e he => ?_, hreports⟩
  · rw [htype, hvalue]
    simp [Literal.ty, Literal.value?, hv]
  · rw [htype, hvalue]
    simp [Literal.ty, Literal.value?, hv]
  · rw [htype, hvalue]
    simp [Literal.ty, Literal.value?, he]

/-- **Which numbers are read, and what typing says about them.**  Of the texts without a point and
an exponent, those are read that spell a number, as the number that they spell, and besides them
those with a plus sign in front or behind a leading zero.  Without such a sign the numbers are all
that is read.  A number that is read has its value, and the type that goes with its radix; any other
is reported once and has neither. -/
theorem numbers_exact (text : String) (hplain : ∀ c ∈ text.toList, c ≠ '.' ∧ c ≠ 'e' ∧ c ≠ 'E') :
    let ds := Spelled.digitsOf text
    (∀ s, Spelled.ofText text = .ok s ↔ IsNumber ds ∧ s = numberOf ds ∨ SignedNumber ds s)
      ∧ ((∀ s, Spelled.ofText text = .ok s ↔ IsNumber ds ∧ s = numberOf ds)
        ↔ ∀ s, ¬SignedNumber ds s)
      ∧ (∀ t links sec r ty x, ofSection t links sec r = .ok ty → x ∈ sec.nodes.toList →
        t.shape x = .literal (.number text) → SpeaksOf t ty x text)
      ∧ ∀ (t : Tree) links root x, t.Arranged root → root < links.size → x ∈ t.preorder root →
        t.shape x = .literal (.number text) →
        ∃ a, Analysis.ofTree t links root = .ok a ∧ SpeaksOf t a.typing x text := by
  have hmarks : ∀ c ∈ text.toList, isFloatMark c = false := fun c hc => by
    simp [isFloatMark, hplain c hc]
  have hsection : ∀ t links sec r ty x, ofSection t links sec r = .ok ty → x ∈ sec.nodes.toList →
      t.shape x = .literal (.number text) → SpeaksOf t ty x text :=
    fun t links sec r ty x h hx hshape => speaksOf_of_entry (ofSection_literal h hx hshape)
  refine ⟨fun s => Spelled.ofText_ok_iff hmarks, Spelled.ofText_exact_iff hmarks, hsection,
    fun t links root x ht hsize hx hshape => ?_⟩
  obtain ⟨a, ha, -⟩ := Analysis.exists_ofTree ht hsize
  obtain ⟨-, -, htyping⟩ := Analysis.ofTree_ok ha
  refine ⟨a, ha, hsection _ _ _ _ _ x htyping ?_ hshape⟩
  rw [Section.nodes_ofTree]
  exact hx

end Typing

/-- `x := 0_17; y := 08` -/
def Tree.namesOctals : Tree where
  nodes :=
    #[⟨.literal (.number "0_17"), .nowhere⟩, ⟨.var "x" none (some 0), .nowhere⟩,
      ⟨.literal (.number "08"), .nowhere⟩, ⟨.var "y" none (some 2), .nowhere⟩,
      ⟨.module [1, 3], .nowhere⟩]
  children_lt := by decide

/-- An octal number has its value; a number with a digit that is not octal is reported. -/
theorem Tree.namesOctals_typed :
    (∀ c ∈ "0_17".toList, c ≠ '.' ∧ c ≠ 'e' ∧ c ≠ 'E')
      ∧ (∀ c ∈ "08".toList, c ≠ '.' ∧ c ≠ 'e' ∧ c ≠ 'E')
      ∧ Tree.namesOctals.Arranged 4 ∧ 4 < (Links.unset 5).size
      ∧ ∃ a, Analysis.ofTree .namesOctals (.unset 5) 4 = .ok a
        ∧ a.typing.typeOf 0 = .anyUnsigned ∧ a.typing.literal? 0 = some (.integer 15)
        ∧ a.typing.typeOf 2 = .uncastable ∧ a.typing.literal? 2 = none
        ∧ a.typing.problems.toList.filter
            (fun P => P.node == 2 && (P.diagnostic .namesOctals).cause == .badNumber)
          = [.badNumber 2 (.badDigit 8)] := by
  have hoctal : ∀ c ∈ "0_17".toList, c ≠ '.' ∧ c ≠ 'e' ∧ c ≠ 'E' := by simp
  have hbad : ∀ c ∈ "08".toList, c ≠ '.' ∧ c ≠ 'e' ∧ c ≠ 'E' := by simp
  have ht : Tree.namesOctals.Arranged 4 := by decide +kernel
  have hsize : 4 < (Links.unset 5).size := by decide
  have hoctalRead : Spelled.ofText "0_17" = .ok (.octal 15) := by decide +kernel
  have hbadRead : Spelled.ofText "08" = .error (.badDigit 8) := by decide +kernel
  obtain ⟨a, ha, htyped⟩ :=
    (Typing.numbers_exact "0_17" hoctal).2.2.2 .namesOctals (.unset 5) 4 0 ht
    hsize (by decide +kernel) rfl
  obtain ⟨-, -, htyping⟩ := Analysis.ofTree_ok ha
  have hreported := (Typing.numbers_exact "08" hbad).2.2.1 _ _ _ _ _ 2 htyping
    (by rw [Section.nodes_ofTree]; decide +kernel) rfl
  have hreports := hreported.reports
  rw [hbadRead] at hreports
  exact ⟨hoctal, hbad, ht, hsize, a, ha, (htyped.octal 15 hoctalRead).1,
    (htyped.octal 15 hoctalRead).2,
    (hreported.misspelled _ hbadRead).1, (hreported.misspelled _ hbadRead).2, hreports⟩

/-- A plus sign is read over in front of a number and behind a leading zero, where it belongs to no
number either. -/
theorem Spelled.reads_plus :
    Spelled.ofText "+5" = .ok (.decimal 5) ∧ ¬IsNumber (Spelled.digitsOf "+5")
      ∧ Spelled.ofText "0+7" = .ok (.octal 7) ∧ ¬IsNumber (Spelled.digitsOf "0+7")
      ∧ ¬∀ s, Spelled.ofText "+5" = .ok s
        ↔ IsNumber (Spelled.digitsOf "+5") ∧ s = numberOf (Spelled.digitsOf "+5") := by
  have hread : Spelled.ofText "+5" = .ok (.decimal 5) := by decide +kernel
  have hnumber : ¬IsNumber (Spelled.digitsOf "+5") := by decide +kernel
  refine ⟨hread, hnumber, by decide +kernel, by decide +kernel, fun h => ?_⟩
  exact hnumber ((h _).1 hread).1

end MiddleEnd
