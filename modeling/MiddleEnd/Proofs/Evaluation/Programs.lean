import MiddleEnd.Proofs.Evaluation.Statements
import MiddleEnd.Proofs.Lowering.Implements

/-!
# Programs

A compiled program does what its tree means.  Procedures end as their bodies are evaluated, if their
calls do; so calls do at every depth, and so does the start.

## Main definitions

* `Procedure.Holds` — a frame with the words of all declarations at the end.
* `Machine.EndsAs` — an activation that ends as an evaluation does.

## Main results

* `Compiles.endsAs` — a procedure ends as its body is evaluated.
* `Machine.calls_agree` — calls end as their evaluations do, at any depth.
* `compile_evaluates` — **a compiled program runs as its tree is evaluated**.
-/

namespace MiddleEnd

open RegisterFile

/-- A frame holds the words of all declarations, and zero for those that have none. -/
structure Procedure.Holds (p : Procedure) (words : Std.TreeMap NodeId Word)
    (frame : RegisterFile) : Prop where
  /-- The register of a declaration with a word holds that word. -/
  word : ∀ (d : NodeId) (w : Word), words[d]? = some w →
    ∃ r, p.registers[d]? = some r ∧ frame[r]? = some w
  /-- The register of a declaration without a word holds zero. -/
  zero : ∀ (d : NodeId) (r : Register), p.registers[d]? = some r → words[d]? = none →
    frame[r]? = some 0

namespace Machine

variable {σ : Type} {m : Machine σ} {c : LowerContext} {ℓ : Linkage}
  {call : Option (Procedure → Run σ Word)} {evalCall : NodeId → Span → Except Breakdown Word}
  {p : Procedure} {a : Activation} {fr frame : RegisterFile} {l l' : Layout}
  {exit : Word → Activation → RegisterFile → Prop} {w : Word}

/-- An activation of `p` ends as an evaluation does, and leaves the state as it was. -/
def EndsAs (p : Procedure) (s : MachineState σ)
    (ending : Except Halt (Word × RegisterFile) × MachineState σ) :
    Except Breakdown (Word × Std.TreeMap NodeId Word) → Prop
  | .ok (w, words) => ∃ frame, ending = (.ok (w, frame), s) ∧ p.Holds words frame
  | .error b => ∃ f, ending = (.error (.failure f), s) ∧ f.fault = b.fault ∧ f.span = b.span

/-- Homes that are given out later hold zero. -/
theorem Leaves.holds (hl : l'.Ordered) (hregisters : p.registers = l'.registers)
    (hsize : frame.size = l'.next) (h : Leaves l' w a frame) : p.Holds a.words frame := by
  obtain ⟨l, hrep, hextends⟩ := h
  have read {d : NodeId} {r : Register} (hr : l'.registers[d]? = some r) :
      frame[r]? = some (frame.word r) := by
    have hlt : r < frame.size := hsize ▸ (hl.bound_lt r (hl.bound d r hr)).2
    rw [word, Array.getElem?_eq_getElem hlt, Option.getD_some]
  constructor
  · intro d w hw
    rw [hrep.words] at hw
    obtain ⟨r, hr, rfl⟩ := Option.map_eq_some_iff.1 hw
    have hr' := hextends.homes d r hr
    exact ⟨r, hregisters ▸ hr', read hr'⟩
  · intro d r hr hnone
    rw [hregisters] at hr
    rw [hrep.words, Option.map_eq_none_iff] at hnone
    rw [read hr, hrep.fresh r (hextends.fresh d r hr hnone)]

/-! ### Bodies -/

/-- The conversion of the value written last. -/
theorem Simulates.convertLast (hp : p.WellFormed m.program) (hl : l.Ordered) (result : Option Ty)
    (span : Span) :
    m.Simulates call p a fr (Eval.convert a.last a.lastKind (result.bind Kind.ofTy?)) l
      (l.convertLast result span).code (l.convertLast result span).layout
      (fun v fr' => v = fr'.word (l.convertLast result span).layout.lastRegister) exit := by
  refine .intro fun _ hrep => ?_
  rw [hrep.lastKind, ← hrep.last]
  unfold Layout.convertLast
  by_cases hnone : l.lastRegister = .none
  · simp only [if_pos hnone]
    rw [hl.lastTy hnone]
    exact .pure rfl
  · simp only [if_neg hnone]
    have hvalue : (l.convertResult l.lastRegister l.lastTy result span).value
        = (l.convertResult l.lastRegister l.lastTy result span).layout.lastRegister := by
      rcases l.convertResult_cases l.lastRegister l.lastTy result span with hnone | ⟨_, dest, hone⟩
      · rw [hnone]
      · rw [hone]
        rfl
    rw [← hvalue]
    exact Simulates.convertResult hp hl l.lastRegister l.lastTy result span

end Machine

open Machine

variable {σ : Type} {m : Machine σ} {c : LowerContext} {ℓ : Linkage}
  {call : Option (Procedure → Run σ Word)} {evalCall : NodeId → Span → Except Breakdown Word}
  {p : Procedure} {body : NodeId} {result : Option Ty}

/-- The code of a procedure is that of its body and what comes after it. -/
theorem Procedure.has_of_toList {code : List CodeLine} (hcode : p.code.toList = code.map Prod.fst)
    (hspans : p.spans.toList = code.map Prod.snd) : p.Has 0 code := by
  intro n line hn
  rw [Nat.zero_add, ← Array.getElem?_toList, ← Array.getElem?_toList, hcode, hspans,
    List.getElem?_map, List.getElem?_map, hn]
  exact ⟨rfl, rfl⟩

/-- **A procedure ends as its body is evaluated**, if its calls do. -/
theorem Compiles.endsAs (hc : c.Sound) (hfree : c.tree.NativeFree c.root) (hret : c.ReturnsKinds)
    (hp : p.WellFormed m.program) (hconstants : ℓ.constants = m.program.constants)
    (hcalls : m.CallsAgree c ℓ call evalCall) (hbody : body ∈ c.tree.preorder c.root)
    (hitem : (c.tree.shape body).isItem = true) (h : Compiles c ℓ body result p)
    (s : MachineState σ) :
    EndsAs p s (m.ending call p (.start p s))
      (c.activate evalCall body (result.bind Kind.ofTy?)) := by
  obtain @⟨code, v, l, _, hemits, rfl, hcode, hspans, hregisters, hnext, -, -⟩ := h
  -- The body is simulated first, then the conversion of what it has written last.
  have hinitial := Layout.Ordered.initial
  have hordered := (hemits.extends hc.tree hbody hitem hinitial).1
  have hlast := hordered.convertLast result (c.span body)
  have hnode := hemits.simulatesItem hc hfree hret hp hconstants hcalls hbody hitem hinitial
    ⟨_, .initial⟩ .start (.zeroed p.frameSize)
  have hsimulates : m.Simulates call p .start (.zeroed p.frameSize)
      (Eval.body c evalCall body (result.bind Kind.ofTy?)) .initial
      (code ++ (l.convertLast result (c.span body)).code)
      (l.convertLast result (c.span body)).layout
      (fun w fr => w = fr.word (l.convertLast result (c.span body)).layout.lastRegister)
      (Leaves (l.convertLast result (c.span body)).layout) :=
    .bind (Simulates.mono hnode (fun _ _ h => h) (Leaves.mono hlast.toExtends))
      fun _ a fr _ => .get (Simulates.convertLast hp hordered result (c.span body))
  have hstart : At p .initial .start (Point.start p s) :=
    ⟨by simp [Point.start, zeroed, Procedure.frameSize], rfl, .start p.frameSize⟩
  have hagrees := hsimulates (.start p s) rfl (p.has_of_toList hcode hspans) hstart
  unfold LowerContext.activate
  revert hagrees
  rcases (Eval.body c evalCall body (result.bind Kind.ofTy?)).run .start with ⟨outcome, a⟩
  cases outcome with
  | ok w =>
    -- Behind the conversion there is no code left.
    rintro ⟨κ, hreach, hpc, hstate, hat, hw⟩
    have hsize : p.code.size ≤ κ.pc := by
      rw [hpc, ← Array.length_toList, hcode, List.length_map]
      exact Nat.le_add_left _ _
    have hleaves : Leaves (l.convertLast result (c.span body)).layout w a κ.frame :=
      ⟨_, hat.represents, .refl _⟩
    refine ⟨κ.frame, ?_, hleaves.holds hlast.ordered hregisters (hat.size.trans hnext)⟩
    rw [hreach.ending_eq, ending_of_size_le hsize, hstate, hw, hat.last, hat.represents.last]
    rfl
  | error e =>
    cases e with
    | leave w =>
      rintro ⟨frame, hending, hsize, hleaves⟩
      exact ⟨frame, hending, hleaves.holds hlast.ordered hregisters (hsize.trans hnext)⟩
    | breakdown b => exact id

/-! ### Calls -/

/-- **Calls end as their evaluations do**, at any depth. -/
theorem Machine.calls_agree (hc : c.Sound) (hfree : c.tree.NativeFree c.root)
    (hret : c.ReturnsKinds) (hP : Implements c ℓ m.program) (hm : m.program.WellFormed)
    (depth : Nat) : m.CallsAgree c ℓ (m.calls depth) (c.calls m.maxCallDepth depth) := by
  -- Without depth left both sides report the same; otherwise the callee has one nested call less.
  induction depth with
  | zero => exact fun target index q hindex hproc hq span => .inl ⟨rfl, rfl⟩
  | succ depth ih =>
    intro target index q hindex hproc hq span
    obtain ⟨htarget, result, body, q', hshape, hq', hcompiles⟩ :=
      hP.procedures target index hindex hproc
    obtain rfl := Option.some.inj (hq.symm.trans hq')
    have hbody : body ∈ c.tree.children target := by
      simp [Tree.children_of_shape hshape, Shape.children]
    have hends := hcompiles.endsAs hc hfree hret (hm.procedures index q hq) hP.constants ih
      (hc.tree.child htarget hbody) (hc.tree.isItem_body htarget hshape)
    have hresult : (result.map c.typeOf).bind Kind.ofTy? = result.bind c.kindOf := by
      cases result <;> rfl
    have hevaluated : c.calls m.maxCallDepth (depth + 1) target span
        = (c.activate (c.calls m.maxCallDepth depth) body (result.bind c.kindOf)).map Prod.fst := by
      simp only [LowerContext.calls, hshape]
    rw [hresult] at hends
    rw [hevaluated]
    revert hends
    rcases c.activate (c.calls m.maxCallDepth depth) body (result.bind c.kindOf) with b | ⟨w, words⟩
    · intro hends
      refine .inr ⟨_, rfl, fun s => ?_⟩
      obtain ⟨f, hending, hfailure⟩ := hends s
      refine ⟨f, ?_, hfailure⟩
      rw [nested_run, run_bind, execute_ending, hending]
    · intro hends
      refine ⟨_, rfl, fun s => ?_⟩
      obtain ⟨frame, hending, -⟩ := hends s
      rw [nested_run, run_bind, execute_ending, hending]
      rfl

/-! ### Runs -/

/-- Running a program is one activation of its start, with all calls nested in it that the limit
leaves. -/
theorem Machine.run_ending (hp : m.program.procedures[0]? = some p) (s : MachineState σ) :
    m.run.run s
      = match m.ending (m.calls (m.maxCallDepth - s.openCalls)) p (.start p s) with
        | (.ok (w, registers), s) => (.ok ⟨w, registers⟩, s)
        | (.error h, s) => (.error h, s) := by
  have henter : (m.enter p).run s = (m.execute (m.maxCallDepth - s.openCalls) p).run s := by
    unfold enter
    rw [run_bind]
    rfl
  rw [← execute_ending, ← henter]
  simp only [Machine.run, hp]
  rw [run_bind]
  rcases (m.enter p).run s with ⟨outcome, s'⟩
  cases outcome <;> rfl

/-- **A compiled program runs as its tree is evaluated.**  If there is no native code, and if what
is returned are numbers and characters, then the run of a program ends with the value of the tree,
and the words of all declarations are in their registers; or it fails with the same fault at the
same place.  The state of the machine stays as it was. -/
theorem compile_evaluates {t : Tree} {links : Links} {root : NodeId} {source : String}
    {config : CompilerConfig} {compiled : Compiled} (ht : t.WellFormed root)
    (hfree : t.NativeFree root) (h : compile t links root source config = .ok compiled) :
    ∃ a, Analysis.ofTree t links root = .ok a
      ∧ ((a.lowerContext t root config.registerLimit).ReturnsKinds →
        ∀ (σ : Type) (m : Machine σ), m.program = compiled.program → ∀ s : MachineState σ,
          match (a.lowerContext t root config.registerLimit).evaluate m.maxCallDepth
            (m.maxCallDepth - s.openCalls) with
          | .ok (w, words) => ∃ p registers, compiled.program.procedures[0]? = some p
            ∧ m.run.run s = (.ok ⟨w, registers⟩, s) ∧ p.Holds words registers
          | .error b => ∃ f, m.run.run s = (.error (.failure f), s) ∧ f.fault = b.fault
            ∧ f.span = b.span) := by
  -- The code of every procedure is the one that its body says.
  obtain ⟨a, ha, hc, ℓ, hP⟩ := compile_implements ht h
  refine ⟨a, ha, fun hret σ m hm s => ?_⟩
  have hwell := compile_wellFormed h
  rw [← hm] at hP hwell ⊢
  -- The start of the program has the code of the root.
  obtain ⟨p, hp, hcompiles⟩ := hP.start
  change (a.lowerContext t root config.registerLimit).tree.NativeFree
    (a.lowerContext t root config.registerLimit).root at hfree
  generalize a.lowerContext t root config.registerLimit = c at hc hP hret hfree hcompiles ⊢
  -- All calls agree with their evaluation, at any number of calls that may still be open.
  have hcalls := Machine.calls_agree (m := m) hc hfree hret hP hwell (m.maxCallDepth - s.openCalls)
  have hends := hcompiles.endsAs hc hfree hret (hwell.procedures 0 p hp) hP.constants hcalls
    (c.tree.self_mem_preorder c.root) hc.tree.isItem_root s
  -- The run of the machine is that of the start, from the first line to its end.
  rw [Machine.run_ending hp]
  unfold LowerContext.evaluate
  revert hends
  show EndsAs p s _
    (c.activate (c.calls m.maxCallDepth (m.maxCallDepth - s.openCalls)) c.root none) → _
  rcases c.activate (c.calls m.maxCallDepth (m.maxCallDepth - s.openCalls)) c.root none
    with b | ⟨w, words⟩
  · rintro ⟨f, hending, hfailure⟩
    rw [hending]
    exact ⟨f, rfl, hfailure⟩
  · rintro ⟨registers, hending, hholds⟩
    rw [hending]
    exact ⟨p, registers, hp, rfl, hholds⟩

/-- `k :: 20; f :: proc int8 { return 2 * k }; x := f(); x = -x` -/
def Tree.negatesCall : Tree where
  nodes :=
    #[⟨.literal (.number "20"), .nowhere⟩, ⟨.constant "k" 0, .nowhere⟩,
      ⟨.typeName "int8", .nowhere⟩, ⟨.literal (.number "2"), .nowhere⟩, ⟨.binaryOp .mul, .nowhere⟩,
      ⟨.ident "k", .nowhere⟩, ⟨.binary 3 4 5, .nowhere⟩, ⟨.ret (some 6), .nowhere⟩,
      ⟨.block [7], .nowhere⟩, ⟨.procedure (some 2) 8, .nowhere⟩, ⟨.constant "f" 9, .nowhere⟩,
      ⟨.ident "f", .nowhere⟩, ⟨.call 11, .nowhere⟩, ⟨.var "x" none (some 12), .nowhere⟩,
      ⟨.ident "x", .nowhere⟩, ⟨.ident "x", .nowhere⟩, ⟨.signOp .minus, .nowhere⟩,
      ⟨.signed 16 15, .nowhere⟩, ⟨.assign 14 17, .nowhere⟩, ⟨.module [1, 10, 13, 18], .nowhere⟩]
  children_lt := by decide

/-- What the evaluation of a tree says of it, with two nested calls: its value, and the word of the
declaration `d`. -/
def Tree.evaluatesTo (t : Tree) (root d : NodeId) (w : Word) : Bool :=
  match Analysis.ofTree t (.unset t.size) root with
  | .error _ => false
  | .ok a =>
    let c := a.lowerContext t root Register.maximum
    match c.evaluate 2 2 with
    | .error _ => false
    | .ok (w', words) => decide c.ReturnsKinds && w' == w && words[d]? == some w

/-- The program of `negatesCall` ends with `-40`, which is also in the register of `x`. -/
theorem Tree.negatesCall_evaluates :
    ∃ compiled, compile .negatesCall (.unset 20) 19 "" .unlimited = .ok compiled
      ∧ ∃ p registers r, compiled.program.procedures[0]? = some p
        ∧ (Machine.run ⟨compiled.program, .unavailable Unit, 2⟩).run (.initial ())
          = (.ok ⟨Word.ofInt (-40), registers⟩, .initial ())
        ∧ p.registers[13]? = some r ∧ registers[r]? = some (Word.ofInt (-40)) := by
  -- The tree is compiled, and its evaluation is computed.
  have hok : (compile .negatesCall (.unset 20) 19 "" .unlimited).isOk = true := by decide +kernel
  have hvalue : Tree.negatesCall.evaluatesTo 19 13 (Word.ofInt (-40)) = true := by decide +kernel
  obtain ⟨compiled, h⟩ := Runs.exists_of_isOk hok
  obtain ⟨a, ha, hrun⟩ := compile_evaluates (by decide +kernel) (by decide +kernel) h
  unfold Tree.evaluatesTo at hvalue
  rw [show Tree.negatesCall.size = 20 from rfl, ha] at hvalue
  simp only at hvalue
  split at hvalue
  · cases hvalue
  next w words hevaluate =>
  simp only [Bool.and_eq_true, decide_eq_true_eq, beq_iff_eq] at hvalue
  obtain ⟨⟨hreturns, rfl⟩, hword⟩ := hvalue
  -- What is computed there is what the machine ends with.
  have hends := hrun hreturns Unit ⟨compiled.program, .unavailable Unit, 2⟩ rfl (.initial ())
  change match (a.lowerContext .negatesCall 19 Register.maximum).evaluate 2 2 with
    | .ok (w, words) => _
    | .error b => _ at hends
  rw [hevaluate] at hends
  obtain ⟨p, registers, hp, hmachine, hholds⟩ := hends
  obtain ⟨r, hr, hread⟩ := hholds.word 13 _ hword
  exact ⟨compiled, h, p, registers, r, hp, hmachine, hr, hread⟩

end MiddleEnd
