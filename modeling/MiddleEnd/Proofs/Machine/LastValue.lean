import MiddleEnd.Proofs.Lowering.Last
import MiddleEnd.Proofs.Machine.Results

/-!
# The last expression of a procedure

A procedure without returns hands back the value that it has written last, converted to the declared
result.  This is the value of its last expression, unless the expression is a bare name: a variable
is read where it is, and so what was written before is handed back.

## Main definitions

* `Machine.HandsBackLast` — what completed activations of a procedure hand back.
* `EndsInValue` — a procedure of a program that ends with the value of an expression.

## Main results

* `Machine.ending_convertLast` — what is handed back where only the closing conversion is left.
* `compile_lastValue` — **what a procedure hands back whose last statement is an expression**.
* `Tree.endsInName_passesOver` — a bare name is passed over.
-/

namespace MiddleEnd

/-- Conversion keeps zero. -/
theorem Kind.convert_zero (a b : Kind) : a.convert b 0 = 0 := by
  rcases a with ⟨_ | _, _ | _ | _ | _⟩ | (_ | _) <;> rcases b with
    ⟨_ | _, _ | _ | _ | _⟩ | (_ | _) <;>
    decide +kernel

theorem Kind.converted_zero (source dest : Option Kind) : Kind.converted source dest 0 = 0 := by
  unfold converted
  split
  · split
    · rfl
    · exact Kind.convert_zero _ _
  · rfl

/-- The closing conversion of a procedure is one instruction, if there is something to convert. -/
theorem Layout.convertLast_cases (l : Layout) (τ : Ty) (span : Span) :
    ((l.convertLast (some τ) span).code = []
        ∧ (l.lastRegister = .none ∨ ∀ w, Kind.converted (Kind.ofTy? l.lastTy) (Kind.ofTy? τ) w = w))
      ∨ ∃ a b, l.lastRegister ≠ .none
        ∧ (l.convertLast (some τ) span).code
          = [(⟨.convert a b, l.next, .register l.lastRegister, .none⟩, span)]
        ∧ ∀ w, Kind.converted (Kind.ofTy? l.lastTy) (Kind.ofTy? τ) w = a.convert b w := by
  by_cases hnone : l.lastRegister = .none
  · exact .inl ⟨by rw [Layout.convertLast, if_pos hnone], .inl hnone⟩
  · rw [show l.convertLast (some τ) span = l.convert l.lastRegister l.lastTy τ span from
      if_neg hnone]
    rcases l.converted_cases l.lastRegister l.lastTy τ span with
      ⟨hsame, hvalue⟩ | ⟨a, b, hone, hvalue⟩
    · exact .inl ⟨by rw [hsame], .inr hvalue⟩
    · exact .inr ⟨a, b, hnone, by rw [hone], hvalue⟩

variable {c : LowerContext} {ℓ : Linkage} {body x : NodeId} {p : Procedure}

namespace Machine

variable {σ : Type} {m : Machine σ} {call : Option (Procedure → Run σ Word)} {κ : Point σ}
  {w : Word} {frame : RegisterFile} {s s' : MachineState σ}

/-- **The value written last is handed back as one of the declared result**, where only the closing
conversion is left to execute. -/
theorem ending_convertLast {l : Layout} {τ : Ty} {span : Span}
    (hcode : p.code.toList.drop κ.pc = (l.convertLast (some τ) span).code.map Prod.fst)
    (hzero : l.lastRegister = .none → κ.last = 0)
    (hlast : l.lastRegister ≠ .none → κ.frame[l.lastRegister]? = some κ.last)
    (h : m.ending call p κ = (.ok (w, frame), s')) :
    w = Kind.converted (Kind.ofTy? l.lastTy) (Kind.ofTy? τ) κ.last := by
  rcases l.convertLast_cases τ span with ⟨hnil, hsame⟩ | ⟨a, b, hne, hone, hconverted⟩
  · rw [hnil, List.map_nil, List.drop_eq_nil_iff, Array.length_toList] at hcode
    rw [ending_of_size_le hcode] at h
    cases h
    rcases hsame with hnone | hsame
    · rw [hzero hnone, Kind.converted_zero]
    · exact (hsame κ.last).symm
  · rw [hone, List.map_cons, List.map_nil] at hcode
    -- The conversion is the last instruction, and what it writes is handed back.
    have hi : p.code[κ.pc]? = some ⟨.convert a b, l.next, .register l.lastRegister, .none⟩ := by
      rw [← Array.getElem?_toList, ← List.head?_drop, hcode]
      rfl
    have hsize := congrArg List.length hcode
    rw [List.length_drop, Array.length_toList] at hsize
    rcases step_or_error m call hi (by simp) with ⟨κ', hstep⟩ | ⟨e, s₁, herror⟩
    · have hpc := hstep.pc_eq
      rw [hstep.ending_eq, ending_of_size_le (by simp at hsize; omega)] at h
      cases h
      rw [hconverted]
      cases hstep with
      | skip hi' heffect =>
        obtain rfl := Option.some.inj (hi.symm.trans hi')
        cases performs_of_effect heffect
      | write hi' heffect =>
        obtain rfl := Option.some.inj (hi.symm.trans hi')
        cases performs_of_effect heffect with
        | convert hread =>
          have hword := read_register_ok.1 hread
          rw [hlast hne] at hword
          rw [Option.some.inj hword]
    · rw [herror] at h
      cases h

/-- A completed activation of `p`, whose code computes `x` last, hands back the value written last
when this is done, as one of type `τ`.  It is that of `x`, unless `x` is a bare name and another
register was written last. -/
def HandsBackLast (m : Machine σ) (c : LowerContext) (τ : Ty) (x : NodeId) (p : Procedure)
    (stop : Nat) (r : Register) (l : Layout) : Prop :=
  ∀ (depth : Nat) (s : MachineState σ), m.Activated depth p s →
    ∀ w frame s', (m.execute depth p).run s = (.ok (w, frame), s') →
      ∃ κ v, m.Reaches (m.calls depth) p (.start p s) κ ∧ κ.pc = stop ∧ κ.frame[r]? = some v
        ∧ w = Kind.converted (Kind.ofTy? l.lastTy) (Kind.ofTy? τ) κ.last
        ∧ (¬c.IsBare x ∨ l.lastRegister = r → w = Kind.converted (c.kindOf x) (Kind.ofTy? τ) v)

end Machine

theorem EndsWith.handsBack {σ : Type} {m : Machine σ} {ρ : Option Kind} {τ : Ty} {stop : Nat}
    {r : Register} {l : Layout} (hc : c.Sound) (hbody : c.Within ρ body)
    (h : EndsWith c ℓ body τ x p stop r l)
    (hret : ∀ y ∈ c.tree.statements body, (c.tree.shape y).isRet = false)
    (hkind : (c.typeOf x).hasKind = true) (hm : m.program.WellFormed) :
    m.HandsBackLast c τ x p stop r l := by
  intro depth s hactivated w frame s' hrun
  have hQ := m.trusts_serves
  obtain ⟨hs, hmem⟩ := hactivated.cached hm hQ
  obtain ⟨index, hindex⟩ := Array.getElem?_of_mem hmem
  have hp := hm.procedures index p hindex
  rw [Machine.execute_ending] at hrun
  -- There is no return before the end of the last statement, and so it is reached.
  rcases Machine.crosses m (m.calls depth) (k := .start p s) h.le_size (Nat.zero_le _)
    (fun pc i _ hpc hi => h.straight hc hbody.1 hret hpc hi) with ⟨κ, hreach, hpc⟩ | ⟨e, s₁, herror⟩
  case inr =>
    rw [herror] at hrun
    cases hrun
  have hfitted := hreach.fitted hm hQ hp (Machine.calls_safe hQ hm depth) (.start hs)
  have hlast := hreach.lastAt hm hQ hp (Machine.calls_safe hQ hm depth) (.start hs) .start
  obtain ⟨K, hK, hkept, hlt, hout⟩ := h.kinded hc hbody
  obtain ⟨hzero, hlast⟩ := hlast
  rw [hpc, hout] at hzero hlast
  obtain ⟨v, hv⟩ : ∃ v, κ.frame[r]? = some v :=
    ⟨_, Array.getElem?_eq_getElem (hfitted.size ▸ hlt)⟩
  have hw := Machine.ending_convertLast (hpc ▸ h.drop_eq) hzero hlast (hreach.ending_eq ▸ hrun)
  refine ⟨κ, v, hreach, hpc, hv, hw, fun hwritten => ?_⟩
  -- The register written last is that of the expression, and so its kind is the one of the type.
  have hr : l.lastRegister = r := by
    rcases hwritten with hbare | hr
    · exact (h.isBare_or_last hc hbody.1 hkind).resolve_left hbare
    · exact hr
  have hne : l.lastRegister ≠ .none := hr ▸ hkept.1
  have hkinds := hK.last hne
  rw [hr, hkept.2] at hkinds
  have hvalue := hlast hne
  rw [hr, hv] at hvalue
  rw [hw, Option.some.inj hvalue, Option.some.inj hkinds]

/-- The procedure `id` has its code in the program, which ends with the value of `x`, and this is
how its value comes about in any machine. -/
def EndsInValue (c : LowerContext) (ℓ : Linkage) (P : Program) (id result body x : NodeId) : Prop :=
  ∃ j p stop r l, ℓ.targets[id]? = some j ∧ P.procedures[j]? = some p
    ∧ EndsWith c ℓ body (c.typeOf result) x p stop r l
    ∧ ∀ (σ : Type) (m : Machine σ), m.program = P →
        m.HandsBackLast c (c.typeOf result) x p stop r l

theorem Implements.endsInValue {P : Program} (hc : c.Sound) (hP : Implements c ℓ P)
    (hwell : P.WellFormed) {id result stmt : NodeId} {before : List NodeId}
    (hid : id ∈ c.tree.preorder c.root) (hshape : c.tree.shape id = .procedure (some result) body)
    (hret : ∀ y ∈ c.tree.statements body, (c.tree.shape y).isRet = false)
    (hstatements : c.tree.statements body = before ++ [stmt])
    (hstmt : c.tree.shape stmt = .exprStmt x) (hkind : (c.typeOf x).hasKind = true) :
    EndsInValue c ℓ P id result body x := by
  have hprocedure : (c.tree.shape id).isProcedure = true := by rw [hshape]; rfl
  obtain ⟨j, hj⟩ := hP.targets id hid hprocedure
  obtain ⟨-, result', body', p, hshape', hp, hcompiles⟩ := hP.procedures id j hj hprocedure
  obtain ⟨rfl, rfl⟩ : some result = result' ∧ body = body' := by
    simpa [hshape] using hshape'
  have hbody : BodyOf c ℓ P body (some (c.typeOf result)) p := .procedure hid hshape hj hp
  have hwithin := hbody.within hc
  obtain ⟨stop, r, l, hends⟩ := hcompiles.endsWith hc hwithin.1 hstatements hstmt hkind
  refine ⟨j, p, stop, r, l, hj, hp, hends, fun σ m hm => ?_⟩
  exact hends.handsBack hc hwithin hret hkind (hm ▸ hwell)

/-- **A procedure without returns hands back the value written last**, as one of its declared
result.  If its last statement is an expression of a number or a character, then this is the value
of the expression, unless it is a bare name and another register was written last. -/
theorem compile_lastValue {t : Tree} {links : Links} {root : NodeId} {source : String}
    {config : CompilerConfig} {compiled : Compiled} (ht : t.WellFormed root)
    (h : compile t links root source config = .ok compiled) :
    ∃ a ℓ, Analysis.ofTree t links root = .ok a
      ∧ Implements (a.lowerContext t root config.registerLimit) ℓ compiled.program
      ∧ ∀ id ∈ t.preorder root, ∀ result body, t.shape id = .procedure (some result) body →
          (∀ y ∈ t.statements body, (t.shape y).isRet = false) →
          ∀ before stmt x, t.statements body = before ++ [stmt] → t.shape stmt = .exprStmt x →
            (a.typing.typeOf x).hasKind = true →
            EndsInValue (a.lowerContext t root config.registerLimit) ℓ compiled.program id result
              body x := by
  obtain ⟨a, ha, hc, ℓ, hP⟩ := compile_implements ht h
  refine ⟨a, ℓ, ha, hP, fun id hid result body hshape hret before stmt x hstatements hstmt
    hkind => ?_⟩
  exact hP.endsInValue hc (compile_wellFormed h) hid hshape hret hstatements hstmt hkind

/-- Without a conversion nothing is left to execute where the last statement ends. -/
theorem EndsWith.size_le {τ : Ty} {stop : Nat} {r : Register} {l : Layout}
    (h : EndsWith c ℓ body τ x p stop r l)
    (hcode : ∀ i ∈ p.code, ∀ a b, i.op ≠ .convert a b) : p.code.size ≤ stop := by
  have hdrop := h.drop_eq
  rcases l.convertLast_cases τ (c.span body) with ⟨hnil, -⟩ | ⟨a, b, -, hone, -⟩
  · rwa [hnil, List.map_nil, List.drop_eq_nil_iff, Array.length_toList] at hdrop
  · rw [hone, List.map_cons, List.map_nil] at hdrop
    have hmem := List.head?_eq_some_iff.2 ⟨[], hdrop⟩
    rw [List.head?_drop] at hmem
    exact (hcode _ (Array.mem_toList_iff.1 (List.mem_of_getElem? hmem)) a b rfl).elim

/-- The completed run of a procedure, with two nested calls. -/
def Compiled.completes (compiled : Compiled) (p : Procedure) : Option (Word × RegisterFile) :=
  ((compiled.machine.execute 2 p).run (.initial ())).1.toOption

theorem Compiled.execute_of_completes (compiled : Compiled) {p : Procedure} {w : Word}
    {frame : RegisterFile} (h : compiled.completes p = some (w, frame)) :
    ∃ s', (compiled.machine.execute 2 p).run (.initial ()) = (.ok (w, frame), s') := by
  unfold completes at h
  generalize (compiled.machine.execute 2 p).run (.initial ()) = outcome at h
  obtain ⟨_ | result, s'⟩ := outcome
  · cases h
  · obtain rfl := Option.some.inj h
    exact ⟨s', rfl⟩

/-- The procedure of `callsTyped` hands back 44, the value of its last expression as one of 8
bits. -/
theorem Tree.callsTyped_lastValue :
    ∃ compiled, compile .callsTyped (.unset 10) 9 "" .unlimited = .ok compiled
      ∧ ∃ c ℓ j p stop r l, ℓ.targets[4]? = some j ∧ compiled.program.procedures[j]? = some p
        ∧ EndsWith c ℓ 3 .int8 1 p stop r l
        ∧ ∃ κ v, compiled.machine.Reaches (compiled.machine.calls 2) p (.start p (.initial ())) κ
          ∧ κ.pc = stop ∧ κ.frame[r]? = some v ∧ Kind.converted (some .i64) (some .i8) v = 44 := by
  -- The program and its types, as far as they are computed.
  have hok : (compile .callsTyped (.unset 10) 9 "" .unlimited).toOption.any (fun compiled =>
      compiled.program.procedures.all fun p => (compiled.completes p).map Prod.fst == some 44)
      = true := by decide +kernel
  have htypes : (Analysis.ofTree .callsTyped (.unset 10) 9).toOption.any (fun a =>
      a.typing.typeOf 0 == .int8 && a.typing.typeOf 1 == .anyNumber) = true := by decide +kernel
  obtain ⟨compiled, h, hok⟩ := Runs.exists_of_any hok
  obtain ⟨a, ℓ, ha, -, hlast⟩ := compile_lastValue (by decide +kernel) h
  simp only [ha, Except.toOption, Option.any_some, Bool.and_eq_true, beq_iff_eq] at htypes
  obtain ⟨j, p, stop, r, l, hj, hp, hends, hback⟩ := hlast 4 (by decide +kernel) 0 3 rfl
    (by decide +kernel) [] 2 1 (by decide +kernel) rfl (by rw [htypes.2]; rfl)
  -- The run of the procedure ends with 44.
  have hrun := Array.all_eq_true'.1 hok p (Array.mem_of_getElem? hp)
  obtain ⟨⟨w, frame⟩, hcompletes, hw⟩ := Option.map_eq_some_iff.1 (beq_iff_eq.1 hrun)
  obtain ⟨s', hexecute⟩ := compiled.execute_of_completes hcompletes
  obtain ⟨κ, v, hreach, hpc, hv, -, hvalue⟩ := hback Unit compiled.machine rfl 2 (.initial ())
    (.entered (.initial ()) hp) w frame s' hexecute
  -- A literal is no bare name, so the theorem says what is handed back.
  have hbare : ¬(a.lowerContext .callsTyped 9 Register.maximum).IsBare 1 := by
    intro hbare
    cases hbare with
    | ident hshape | group hshape | plus hshape | cast hshape => cases hshape
  have hvalue := hvalue (.inl hbare)
  change w = Kind.converted (Kind.ofTy? (a.typing.typeOf 1)) (Kind.ofTy? (a.typing.typeOf 0)) v
    at hvalue
  change EndsWith _ ℓ 3 (a.typing.typeOf 0) 1 p stop r l at hends
  rw [htypes.1, htypes.2] at hvalue
  rw [htypes.1] at hends
  exact ⟨compiled, h, _, ℓ, j, p, stop, r, l, hj, hp, hends, κ, v, hreach, hpc, hv,
    hvalue.symm.trans hw⟩

/-- `f :: proc int { x := 1; y := 2; x }; z := f()` -/
def Tree.endsInName : Tree where
  nodes :=
    #[⟨.typeName "int", .nowhere⟩, ⟨.literal (.number "1"), .nowhere⟩,
      ⟨.var "x" none (some 1), .nowhere⟩, ⟨.literal (.number "2"), .nowhere⟩,
      ⟨.var "y" none (some 3), .nowhere⟩, ⟨.ident "x", .nowhere⟩, ⟨.exprStmt 5, .nowhere⟩,
      ⟨.block [2, 4, 6], .nowhere⟩, ⟨.procedure (some 0) 7, .nowhere⟩,
      ⟨.constant "f" 8, .nowhere⟩, ⟨.ident "f", .nowhere⟩, ⟨.call 10, .nowhere⟩,
      ⟨.var "z" none (some 11), .nowhere⟩, ⟨.module [9, 12], .nowhere⟩]
  children_lt := by decide

/-- Every procedure runs to the value `w` without a conversion, and ends with the word `v` in the
register of the variable `d`, if it has one. -/
def Compiled.handsBackBeside (compiled : Compiled) (d : NodeId) (w v : Word) : Bool :=
  compiled.program.procedures.all fun p =>
    (p.code.all fun i => match i.op with | .convert _ _ => false | _ => true)
      && (compiled.completes p).any fun (w', frame) =>
          w' == w && (p.registers[d]?).all fun r => frame[r]? == some v

/-- **A bare name at the end is passed over**: the procedure hands back 2, although `x` is 1 where
its last statement ends. -/
theorem Tree.endsInName_passesOver :
    ∃ compiled, compile .endsInName (.unset 14) 13 "" .unlimited = .ok compiled
      ∧ ∃ c ℓ j p stop r l, Implements c ℓ compiled.program ∧ ℓ.targets[8]? = some j
        ∧ compiled.program.procedures[j]? = some p ∧ EndsWith c ℓ 7 .int 5 p stop r l
        ∧ c.kindOf 5 = some .i64 ∧ compiled.machine.Activated 2 p (.initial ())
        ∧ ∃ κ s', compiled.machine.Reaches (compiled.machine.calls 2) p (.start p (.initial ())) κ
          ∧ κ.pc = stop ∧ κ.frame[r]? = some 1
          ∧ (compiled.machine.execute 2 p).run (.initial ()) = (.ok (2, κ.frame), s') := by
  -- The program and its types, as far as they are computed.
  have hok : (compile .endsInName (.unset 14) 13 "" .unlimited).toOption.any
      (·.handsBackBeside 2 2 1) = true := by decide +kernel
  have htypes : (Analysis.ofTree .endsInName (.unset 14) 13).toOption.any (fun a =>
      a.typing.typeOf 0 == .int && Kind.ofTy? (a.typing.typeOf 5) == some .i64
        && a.resolution.declaration? 5 == some 2) = true := by decide +kernel
  obtain ⟨compiled, h, hok⟩ := Runs.exists_of_any hok
  obtain ⟨a, ha, hc, ℓ, hP⟩ := compile_implements (by decide +kernel) h
  simp only [ha, Except.toOption, Option.any_some, Bool.and_eq_true, beq_iff_eq] at htypes
  obtain ⟨⟨hint, hkind⟩, hdecl⟩ := htypes
  -- The last statement of the body is the bare name.
  have hendsIn : EndsInValue (a.lowerContext .endsInName 13 Register.maximum) ℓ compiled.program
      8 0 7 5 :=
    hP.endsInValue hc (compile_wellFormed h)
      (show 8 ∈ Tree.endsInName.preorder 13 by decide +kernel) rfl
      (show ∀ y ∈ Tree.endsInName.statements 7, (Tree.endsInName.shape y).isRet = false
        by decide +kernel)
      (show Tree.endsInName.statements 7 = [2, 4] ++ [6] by decide +kernel) rfl
      (Option.isSome_of_eq_some hkind)
  obtain ⟨j, p, stop, r, l, hj, hp, hends, hback⟩ := hendsIn
  -- The run of the procedure ends with 2, and some register holds 1.
  have hrun := Array.all_eq_true'.1 hok p (Array.mem_of_getElem? hp)
  simp only [Bool.and_eq_true] at hrun
  obtain ⟨hcode, hrun⟩ := hrun
  obtain ⟨⟨w, frame⟩, hcompletes, hw⟩ := (Option.any_eq_true _ _).1 hrun
  simp only [Bool.and_eq_true, beq_iff_eq] at hw
  obtain ⟨rfl, hregister⟩ := hw
  obtain ⟨s', hexecute⟩ := compiled.execute_of_completes hcompletes
  have hactivated : compiled.machine.Activated 2 p (.initial ()) := .entered (.initial ()) hp
  obtain ⟨κ, v, hreach, hpc, hv, -⟩ := hback Unit compiled.machine rfl 2 (.initial ()) hactivated
    _ frame s' hexecute
  -- There is no conversion, so the run ends where the last statement does.
  have hend : p.code.size ≤ κ.pc := by
    refine hpc ▸ hends.size_le fun i hi a b hop => ?_
    have hnot := Array.all_eq_true'.1 hcode i hi
    rw [hop] at hnot
    cases hnot
  have hending := hexecute
  rw [Machine.execute_ending, hreach.ending_eq, Machine.ending_of_size_le hend] at hending
  obtain rfl : κ.frame = frame := by
    injection hending with hresult
    injection hresult with hresult
    injection hresult
  -- The register of the name is that of the variable.
  have hr := hends.register_of_ident rfl hdecl rfl
  rw [hr, Option.all_some, hv, beq_iff_eq] at hregister
  obtain rfl := Option.some.inj hregister
  change EndsWith _ ℓ 7 (a.typing.typeOf 0) 5 p stop r l at hends
  rw [hint] at hends
  exact ⟨compiled, h, _, ℓ, j, p, stop, r, l, hP, hj, hp, hends, hkind, hactivated, κ, s', hreach,
    hpc, hv, hexecute⟩

end MiddleEnd
