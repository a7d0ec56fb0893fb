import MiddleEnd.Proofs.Lowering.Respects
import MiddleEnd.Proofs.Machine.Kinds

/-!
# What calls give

A procedure that declares a result of some kind hands back a value of this kind at its returns.  One
that ends without a return hands back whatever it has written last, and this is converted only if
its type has a kind: the result of a procedure that declares none has none.

## Main definitions

* `Procedure.Settles` — the procedures that hand back values of their declared kind.
* `Procedure.HandsBack` — the registers that a procedure hands back have a given kind.
* `SettlesAll` — every procedure that declares a result of some kind settles.

## Main results

* `Procedure.Kinded.settles_iff` — which procedures hand back values of their declared kind.
* `Machine.calls_kinded` — calls give canonical words, at any depth.
* `compile_calls` — the same of compiled programs.
-/

namespace MiddleEnd

/-- A procedure that hands back values of its declared kind: it leaves at a return, or it writes
nothing, or the value that it writes last has a type of that kind. -/
def Procedure.Settles (p : Procedure) (k : Kind) : Prop :=
  (∃ i ∈ p.code, i.op = .ret) ∨ p.lastRegister = .none ∨ Kind.ofTy? p.lastTy = some k

/-- Every procedure that declares a result of some kind hands back values of this kind. -/
def SettlesAll (c : LowerContext) (ℓ : Linkage) (P : Program) : Prop :=
  ∀ body τ p k, BodyOf c ℓ P body (some τ) p → Kind.ofTy? τ = some k → p.Settles k

/-- What a procedure hands back was computed as a value of the kind `k`: the register that a return
reads has this kind, or the one written last, if anything has been written. -/
inductive ComputedAs (K : RegisterKinds) (k : Kind) (p : Procedure) (pc : Nat) : Prop
  /-- At a return, the register that it reads has the kind. -/
  | atReturn {i : Instruction} {r : Register} (hi : p.code[pc]? = some i) (hop : i.op = .ret)
      (hleft : i.left = .register r) (hr : K[r]? = some (some k)) : ComputedAs K k p pc
  /-- Behind the last instruction, the register written last has it. -/
  | atEnd (hpc : p.code.size ≤ pc)
      (h : p.lastRegister ≠ .none → K[p.lastRegister]? = some (some k)) : ComputedAs K k p pc

section

variable {c : LowerContext} {ℓ : Linkage} {K : RegisterKinds} {p : Procedure} {k : Kind}

/-- Returns hand back values of the declared kind. -/
theorem Procedure.Kinded.atReturn (hK : p.Kinded c ℓ (some k) K) {i : Instruction}
    (hi : i ∈ p.code) (hop : i.op = .ret) : ∃ r, i.left = .register r ∧ K[r]? = some (some k) := by
  have hkinded := hK.code i hi
  cases hkinded with
  | retNone h => cases h
  | ret h => exact ⟨_, rfl, h k rfl⟩
  | copy | loadConstant | call | nativeSilent | native | binary | negate | convert => cases hop

end

variable {c : LowerContext} {ℓ : Linkage} {P : Program} {body : NodeId} {result : Option Ty}
  {p : Procedure}

/-- A call that gives values of some kind is one of a procedure that declares it. -/
theorem Implements.bodyOf_call (h : Implements c ℓ P) {j : Nat} {k : Kind}
    (hj : c.CallGives ℓ j k) (hp : P.procedures[j]? = some p) :
    ∃ body τ, BodyOf c ℓ P body (some τ) p ∧ Kind.ofTy? τ = some k := by
  obtain ⟨id, result, body, hid, hshape, hk⟩ := hj
  obtain ⟨hmem, -⟩ := h.procedures id j hid (by rw [hshape]; rfl)
  exact ⟨body, _, .procedure hmem hshape hid hp, hk⟩

namespace Machine

variable {σ : Type} {m : Machine σ} {k : Kind}

/-- **A procedure settles exactly if what it hands back was computed as a value of its declared
kind**, wherever an activation of it ends. -/
theorem Ends.computedAs_iff {call : Option (Procedure → Run σ Word)} {K : RegisterKinds}
    {κ : Point σ} {w : Word} {frame : RegisterFile} {s s' : MachineState σ}
    (hends : m.Ends call p κ w frame s') (hreach : m.Reaches call p (.start p s) κ)
    (hK : p.Kinded c ℓ (some k) K) : ComputedAs K k p κ.pc ↔ p.Settles k := by
  constructor
  · intro h
    cases h with
    | atReturn hi hop => exact .inl ⟨_, Array.mem_of_getElem? hi, hop⟩
    | atEnd hpc h =>
      -- The register written last has the kind of the type that it was written with.
      by_cases hnone : p.lastRegister = .none
      · exact .inr (.inl hnone)
      · have hlast := h hnone
        rw [hK.lastKind hnone] at hlast
        exact .inr (.inr (Option.some.inj hlast))
  · intro h
    cases hends with
    | leaves hi hperforms =>
      have hop := hperforms.leaves_iff.1 ⟨w, rfl⟩
      obtain ⟨r, hleft, hr⟩ := hK.atReturn (Array.mem_of_getElem? hi) hop
      exact .atReturn hi hop hleft hr
    | falls hpc =>
      refine .atEnd hpc fun hne => ?_
      rcases h with ⟨i, hi, hop⟩ | hnone | hk
      · -- The end is not reached from before a return.
        obtain ⟨j, hj, hget⟩ := Array.getElem_of_mem hi
        have hle := hreach.pc_le_of_ret (Array.getElem?_eq_some_iff.2 ⟨hj, hget⟩) hop
          (Nat.zero_le j)
        exact (Nat.not_lt_of_le (Nat.le_trans hpc hle) hj).elim
      · exact (hne hnone).elim
      · rw [hK.lastKind hne, hk]

/-- A value that was computed as one of the kind `k` is canonical for it. -/
theorem Ends.isCanonical {call : Option (Procedure → Run σ Word)} {K : RegisterKinds}
    {Q : Nat → NativeFunction → Prop} {κ : Point σ} {w : Word} {frame : RegisterFile}
    {s : MachineState σ} (hends : m.Ends call p κ w frame s) (h : KindedAt Q K p κ)
    (hK : p.Kinded c ℓ (some k) K) (hcomputed : ComputedAs K k p κ.pc) : k.IsCanonical w := by
  cases hends with
  -- The end of the code hands back what was written last.
  | falls hpc =>
    have hlast : lastOut .none (p.code.toList.take κ.pc) = p.lastRegister := by
      rw [List.take_of_length_le (by simpa using hpc), hK.last]
    cases hcomputed with
    | atReturn hi =>
      obtain ⟨hlt, -⟩ := Array.getElem?_eq_some_iff.1 hi
      exact (Nat.not_lt_of_le hpc hlt).elim
    | atEnd _ hkind =>
      by_cases hnone : p.lastRegister = .none
      · rw [h.last_none (hlast.trans hnone)]
        exact k.isCanonical_zero
      · have hget := h.last (hlast ▸ hnone)
        rw [hlast] at hget
        exact h.frame p.lastRegister k _ (hkind hnone) hget
  -- A return hands back its operand.
  | leaves hi hperforms =>
    obtain ⟨r, hleft, hr⟩ :=
      hK.atReturn (Array.mem_of_getElem? hi) (hperforms.leaves_iff.1 ⟨w, rfl⟩)
    generalize heffect : Effect.leave w = e at hperforms
    cases hperforms with
    | retNone => cases hleft
    | ret _ hread =>
      cases heffect
      obtain rfl : _ = Operand.register r := hleft
      exact h.frame r k w hr (read_register_ok.1 hread)
    | noop | copy | loadConstant | call | native | nativeSilent | binary | negate | convert =>
      cases heffect

/-! ### Calls -/

/-- A completed call of `q`, which declares a result of the kind `k`: the callee has ended with `w`,
which was computed as a value of its declared kind exactly if it settles. -/
def HandsBack (m : Machine σ) (c : LowerContext) (ℓ : Linkage) (depth : Nat) (q : Procedure)
    (k : Kind) (s : MachineState σ) (w : Word) : Prop :=
  ∃ K κ frame s', q.Kinded c ℓ (some k) K ∧ m.Reaches (m.calls depth) q (.start q s) κ
    ∧ m.Ends (m.calls depth) q κ w frame s' ∧ (ComputedAs K k q κ.pc ↔ q.Settles k)

section Calls

variable (hc : c.Sound) (hP : Implements c ℓ m.program)

include hc hP

/-- What a call gives is handed back by its callee. -/
theorem handsBack_of_call {depth j : Nat} {f : Procedure → Run σ Word}
    (hf : m.calls (depth + 1) = some f) (hp : m.program.procedures[j]? = some p)
    {s s' : MachineState σ} {w : Word} (hrun : (f p).run s = (.ok w, s'))
    (hgives : c.CallGives ℓ j k) : m.HandsBack c ℓ depth p k s w := by
  obtain ⟨body, τ, hbody, hk⟩ := hP.bodyOf_call hgives hp
  have hwithin := hbody.within hc
  rw [Option.bind_some, hk] at hwithin
  obtain ⟨K, hK⟩ := (hP.compiles hbody).kinded hc hwithin
  cases hf
  simp only [run_nested_ok, run_bind_ok, run_pure_ok] at hrun
  obtain ⟨⟨w', frame⟩, _, hexecute, rfl, rfl⟩ := hrun
  rw [execute_ending] at hexecute
  obtain ⟨κ, hreach, hends⟩ := reaches_end hexecute
  exact ⟨K, κ, frame, _, hK, hreach, hends, hends.computedAs_iff hreach hK⟩

/-- **Calls of a procedure with a result of some kind give canonical words**, at any depth. -/
theorem calls_kinded (hm : m.program.WellFormed) (hnatives : m.NativesKinded c)
    (hsettles : SettlesAll c ℓ m.program) (depth : Nat) :
    m.CallsKinded c ℓ (m.Serving c) (m.calls depth) := by
  -- Calls in the callee are nested one deeper, so what they give is known.
  induction depth with
  | zero => exact fun f hf => by cases hf
  | succ depth ih =>
    intro f hf j q hq s w s' hs hrun k hgives
    have hQ := trusts_serving hnatives
    obtain ⟨body, τ, hbody, hk⟩ := hP.bodyOf_call hgives hq
    obtain ⟨K, κ, frame, s₁, hK, hreach, hends, hcomputed⟩ :=
      handsBack_of_call hc hP hf hq hrun hgives
    have hkinded := hreach.kindedAt hm hQ (calls_safe hQ hm depth) ih hP.constants
      (hm.procedures j q hq) (Array.mem_of_getElem? hq) hK (KindedAt.start hs)
    exact hends.isCanonical hkinded hK (hcomputed.2 (hsettles body τ q k hbody hk))

/-- A call that completes writes what its callee hands back. -/
theorem Step.call_handsBack {depth j : Nat} {q : Procedure} {κ κ' : Point σ} {i : Instruction}
    (hstep : m.Step (m.calls (depth + 1)) p κ κ') (hi : p.code[κ.pc]? = some i) (hop : i.op = .call)
    (hleft : i.left = .procedure j) (hq : m.program.procedures[j]? = some q)
    (hgives : c.CallGives ℓ j k) :
    ∃ w, κ'.frame[i.out]? = some w ∧ κ'.last = w ∧ m.HandsBack c ℓ depth q k κ.state w
      ∧ (m.program.WellFormed → m.NativesKinded c → SettlesAll c ℓ m.program →
          Cached (m.Serving c) κ.state → k.IsCanonical w) := by
  cases hstep with
  -- A call writes a word, so its step is not one that writes nothing.
  | @skip i' s hi' heffect =>
    obtain rfl := Option.some.inj (hi.symm.trans hi')
    have hperforms := performs_of_effect heffect
    cases hperforms with
    | noop | nativeSilent => cases hop
  | @write i' s w frame hi' heffect hframe =>
    obtain rfl := Option.some.inj (hi.symm.trans hi')
    obtain ⟨-, hlt, rfl⟩ := write_ok_iff.1 hframe
    refine ⟨w, Array.getElem?_set_self hlt, rfl, ?_⟩
    have hperforms := performs_of_effect heffect
    cases hperforms with
    | copy | loadConstant | native | binary | negate | convert => cases hop
    -- The word is the one that the callee handed back.
    | call hcallee hf hrun =>
      cases hleft
      obtain rfl := Option.some.inj (hq.symm.trans hcallee)
      refine ⟨handsBack_of_call hc hP hf hq hrun hgives, fun hm hnatives hsettles hs => ?_⟩
      exact calls_kinded hc hP hm hnatives hsettles (depth + 1) _ hf j q hq _ _ _ hs hrun k hgives

end Calls

end Machine

/-- **Calls give values of the declared kind exactly if the callee settles.**  Whenever a call of a
procedure with a numeric result completes, in any history of any machine, its register holds what
the callee has handed back, and this was computed as a value of the declared kind exactly if the
callee settles.  If all procedures settle, then it is canonical for this kind. -/
theorem compile_calls {t : Tree} {links : Links} {root : NodeId} {source : String}
    {config : CompilerConfig} {compiled : Compiled} (ht : t.WellFormed root)
    (h : compile t links root source config = .ok compiled) :
    ∃ a ℓ, Analysis.ofTree t links root = .ok a
      ∧ Implements (a.lowerContext t root config.registerLimit) ℓ compiled.program
      ∧ ∀ (σ : Type) (m : Machine σ), m.program = compiled.program →
        ∀ depth p s, m.Activated (depth + 1) p s →
        ∀ κ κ', m.Reaches (m.calls (depth + 1)) p (.start p s) κ →
          m.Step (m.calls (depth + 1)) p κ κ' →
        ∀ i j q k, p.code[κ.pc]? = some i → i.op = .call → i.left = .procedure j →
          compiled.program.procedures[j]? = some q →
          (a.lowerContext t root config.registerLimit).CallGives ℓ j k →
          ∃ w, κ'.frame[i.out]? = some w ∧ κ'.last = w
            ∧ m.HandsBack (a.lowerContext t root config.registerLimit) ℓ depth q k κ.state w
            ∧ (m.NativesKinded (a.lowerContext t root config.registerLimit) →
                SettlesAll (a.lowerContext t root config.registerLimit) ℓ compiled.program →
                k.IsCanonical w) := by
  obtain ⟨a, ha, hc, ℓ, hP⟩ := compile_implements ht h
  refine ⟨a, ℓ, ha, hP, ?_⟩
  intro σ m hm depth p s hactivated κ κ' hreach hstep i j q k hi hop hleft hq hgives
  have hwell := compile_wellFormed h
  rw [← hm] at hP hwell hq ⊢
  -- What is handed back is stated for any machine with the program.
  obtain ⟨w, hframe, hlast, hback, hcanonical⟩ :=
    hstep.call_handsBack hc hP hi hop hleft hq hgives
  refine ⟨w, hframe, hlast, hback, fun hnatives hsettles => ?_⟩
  -- Words stay canonical where every function that is built gives canonical ones.
  have hQ := Machine.trusts_serving hnatives
  obtain ⟨hs, hp⟩ := hactivated.cached hwell hQ
  obtain ⟨index, hindex⟩ := Array.getElem?_of_mem hp
  have hfitted := hreach.fitted hwell hQ (hwell.procedures index p hindex)
    (Machine.calls_safe hQ hwell _) (Machine.Fitted.start hs)
  exact hcanonical hwell hnatives hsettles hfitted.cached

/-! ### Two programs that make one call -/

/-- A machine without native code that may nest two calls. -/
def Compiled.machine (compiled : Compiled) : Machine Unit :=
  ⟨compiled.program, .unavailable Unit, 2⟩

/-- The start of a program is one call, which gives `w` and whose type has the kind `k`. -/
def Compiled.callsOnce (compiled : Compiled) (k : Kind) (w : Word) : Bool :=
  compiled.program.procedures[0]?.any fun p =>
    p.code.size == 1
      && (p.code[0]?.any fun i => i.op == .call && i.out == p.lastRegister)
      && Kind.ofTy? p.lastTy == some k
      && ((compiled.machine.execute 2 p).run (.initial ())).1.toOption.map Prod.fst == some w

/-- There is a completed call in a program whose start is one call. -/
theorem Compiled.call_of_callsOnce (compiled : Compiled) {c : LowerContext} {ℓ : Linkage}
    {k : Kind} {w : Word} (hc : c.Sound) (hP : Implements c ℓ compiled.program)
    (hm : compiled.program.WellFormed) (h : compiled.callsOnce k w = true) :
    ∃ p κ' i j q, compiled.machine.Activated 2 p (.initial ())
      ∧ compiled.machine.Step (compiled.machine.calls 2) p (.start p (.initial ())) κ'
      ∧ p.code[0]? = some i ∧ i.op = .call ∧ i.left = .procedure j
      ∧ compiled.program.procedures[j]? = some q ∧ c.CallGives ℓ j k ∧ κ'.last = w := by
  obtain ⟨p, hp, hcompiles⟩ := hP.start
  have hwithin := (BodyOf.start (c := c) (ℓ := ℓ) hp).within hc
  obtain ⟨K, hK⟩ := hcompiles.kinded hc hwithin
  unfold callsOnce at h
  simp only [hp, Option.any_some, Bool.and_eq_true, beq_iff_eq] at h
  obtain ⟨⟨⟨hsize, hcall⟩, hlastTy⟩, hvalue⟩ := h
  obtain ⟨i, hi⟩ : ∃ i, p.code[0]? = some i :=
    ⟨_, Array.getElem?_eq_getElem (show 0 < p.code.size by omega)⟩
  simp only [hi, Option.any_some, Bool.and_eq_true, beq_iff_eq] at hcall
  obtain ⟨hop, hout⟩ := hcall
  have hfits := (hm.procedures 0 p hp).fits i (Array.mem_of_getElem? hi)
  have hkinded := hK.code i (Array.mem_of_getElem? hi)
  have hactivated : compiled.machine.Activated 2 p (.initial ()) :=
    .entered (.initial ()) hp
  -- By its kinds the instruction is a call that gives a value of the kind.
  cases hkinded with
  | copy | loadConstant | retNone | ret | nativeSilent | native | binary | negate | convert =>
    cases hop
  | @call out index o hK_out hgives =>
    cases hfits with
    | call hinFrame hindex =>
      have hlast := hK.lastKind (by rw [← hout]; exact hinFrame.ne_none)
      rw [← hout, hlastTy] at hlast
      obtain rfl := Option.some.inj (hK_out.symm.trans hlast)
      have hexecute := Machine.execute_ending compiled.machine 2 p (.initial ())
      -- The call completes, for otherwise the run would have failed.
      rcases Machine.step_or_error compiled.machine (compiled.machine.calls 2)
          (k := .start p (.initial ())) hi (by simp) with ⟨κ', hstep⟩ | ⟨e, s, herror⟩
      · refine ⟨p, κ', _, index, _, hactivated, hstep, hi, rfl, rfl,
          Array.getElem?_eq_getElem hindex, hgives k rfl, ?_⟩
        have hend : p.code.size ≤ κ'.pc := by
          rw [hstep.pc_eq, hsize]
          exact Nat.le_refl 1
        rw [hexecute, hstep.ending_eq, Machine.ending_of_size_le hend] at hvalue
        exact Option.some.inj hvalue
      · rw [hexecute, herror] at hvalue
        cases hvalue

/-- A machine has no native functions to trust if there is no native code. -/
theorem Compiled.nativesKinded (compiled : Compiled) (c : LowerContext)
    (h : compiled.program.natives.size = 0) : compiled.machine.NativesKinded c := by
  intro index call hcall
  rw [show compiled.machine.program = compiled.program from rfl,
    Array.getElem?_eq_none (by omega)] at hcall
  cases hcall

/-- All procedures end with a value of the kind `k`. -/
def Compiled.settlesAt (compiled : Compiled) (k : Kind) : Bool :=
  compiled.program.procedures.all fun p => Kind.ofTy? p.lastTy == some k

/-- All procedures that declare a result declare one of the kind `k`. -/
def Analysis.resultsAre (a : Analysis) (t : Tree) (root : NodeId) (k : Kind) : Bool :=
  (t.preorder root).all fun id =>
    match t.shape id with
    | .procedure (some result) _ => Kind.ofTy? (a.typing.typeOf result) == some k
    | _ => true

theorem Compiled.settlesAll_of_settlesAt (compiled : Compiled) {a : Analysis} {t : Tree}
    {root : NodeId} {limit : Nat} {ℓ : Linkage} {k : Kind} (h : compiled.settlesAt k = true)
    (hresults : a.resultsAre t root k = true) :
    SettlesAll (a.lowerContext t root limit) ℓ compiled.program := by
  intro body τ p k' hbody hk'
  have hlast : Kind.ofTy? p.lastTy = some k := by
    simpa using Array.all_eq_true'.1 h p hbody.mem
  generalize hτ : some τ = result at hbody
  cases hbody with
  | start => cases hτ
  | @procedure id _ result _ _ hid hshape =>
    cases result with
    | none => cases hτ
    | some result =>
      cases hτ
      have hresult := List.all_eq_true.1 hresults id hid
      rw [show t.shape id = .procedure (some result) body from hshape] at hresult
      have hk : Kind.ofTy? (a.typing.typeOf result) = some k := by simpa using hresult
      obtain rfl := Option.some.inj (hk.symm.trans hk')
      exact .inr (.inr hlast)

/-- `f :: proc int8 { 300 }; x := f()` -/
def Tree.callsTyped : Tree where
  nodes :=
    #[⟨.typeName "int8", .nowhere⟩, ⟨.literal (.number "300"), .nowhere⟩, ⟨.exprStmt 1, .nowhere⟩,
      ⟨.block [2], .nowhere⟩, ⟨.procedure (some 0) 3, .nowhere⟩, ⟨.constant "f" 4, .nowhere⟩,
      ⟨.ident "f", .nowhere⟩, ⟨.call 6, .nowhere⟩, ⟨.var "x" none (some 7), .nowhere⟩,
      ⟨.module [5, 8], .nowhere⟩]
  children_lt := by decide

/-- The call gives 300 as a value of 8 bits. -/
theorem Tree.callsTyped_canonical :
    ∃ compiled, compile .callsTyped (.unset 10) 9 "" .unlimited = .ok compiled
      ∧ ∃ p κ' i w, compiled.machine.Step (compiled.machine.calls 2) p (.start p (.initial ())) κ'
        ∧ p.code[0]? = some i ∧ i.op = .call ∧ κ'.frame[i.out]? = some w ∧ w = 44
        ∧ Kind.i8.IsCanonical w := by
  -- The program, its one call, and the types of its results are computed.
  have hok : (compile .callsTyped (.unset 10) 9 "" .unlimited).toOption.any (fun compiled =>
      compiled.callsOnce .i8 44 && compiled.program.natives.size == 0
        && compiled.settlesAt .i8) = true := by decide +kernel
  have hresults : (Analysis.ofTree .callsTyped (.unset 10) 9).toOption.any
      (·.resultsAre .callsTyped 9 .i8) = true := by decide +kernel
  obtain ⟨compiled, h, hok⟩ := Runs.exists_of_any hok
  have ht : Tree.callsTyped.WellFormed 9 := by decide +kernel
  obtain ⟨a, ℓ, ha, hP, hcalls⟩ := compile_calls ht h
  -- The tree has been analysed without a report.
  have hc : (a.lowerContext .callsTyped 9 Register.maximum).Sound := by
    obtain ⟨a', ha', hc, -⟩ := compile_implements ht h
    obtain rfl := Except.ok.inj (ha.symm.trans ha')
    exact hc
  simp only [Bool.and_eq_true, beq_iff_eq] at hok
  obtain ⟨⟨honce, hnatives⟩, hsettles⟩ := hok
  simp only [ha, Except.toOption, Option.any_some] at hresults
  -- The theorem, at the one call of the program.
  obtain ⟨p, κ', i, j, q, hactivated, hstep, hi, hop, hleft, hq, hgives, hlast⟩ :=
    compiled.call_of_callsOnce hc hP (compile_wellFormed h) honce
  obtain ⟨w, hframe, hw, -, hcanonical⟩ := hcalls Unit compiled.machine rfl 1 p (.initial ())
    hactivated _ κ' (.refl _) hstep i j q .i8 hi hop hleft hq hgives
  refine ⟨compiled, h, p, κ', i, w, hstep, hi, hop, hframe, hw.symm.trans hlast, ?_⟩
  exact hcanonical (compiled.nativesKinded _ hnatives)
    (compiled.settlesAll_of_settlesAt hsettles hresults)

/-- `g :: proc { 300 }; f :: proc int8 { g() }; x := f()` -/
def Tree.callsUntyped : Tree where
  nodes :=
    #[⟨.literal (.number "300"), .nowhere⟩, ⟨.exprStmt 0, .nowhere⟩, ⟨.block [1], .nowhere⟩,
      ⟨.procedure none 2, .nowhere⟩, ⟨.constant "g" 3, .nowhere⟩, ⟨.typeName "int8", .nowhere⟩,
      ⟨.ident "g", .nowhere⟩, ⟨.call 6, .nowhere⟩, ⟨.exprStmt 7, .nowhere⟩, ⟨.block [8], .nowhere⟩,
      ⟨.procedure (some 5) 9, .nowhere⟩, ⟨.constant "f" 10, .nowhere⟩, ⟨.ident "f", .nowhere⟩,
      ⟨.call 12, .nowhere⟩, ⟨.var "x" none (some 13), .nowhere⟩, ⟨.module [4, 11, 14], .nowhere⟩]
  children_lt := by decide

/-- **A call does not always give a value of the declared kind**: the one of `f` gives 300, which no
value of 8 bits is. -/
theorem Tree.callsUntyped_not_canonical :
    ∃ compiled, compile .callsUntyped (.unset 16) 15 "" .unlimited = .ok compiled
      ∧ ∃ a ℓ, Analysis.ofTree .callsUntyped (.unset 16) 15 = .ok a
        ∧ Implements (a.lowerContext .callsUntyped 15 Register.maximum) ℓ compiled.program
        ∧ compiled.machine.NativesKinded (a.lowerContext .callsUntyped 15 Register.maximum)
        ∧ ∃ p κ' i j, compiled.machine.Activated 2 p (.initial ())
          ∧ compiled.machine.Step (compiled.machine.calls 2) p (.start p (.initial ())) κ'
          ∧ p.code[0]? = some i ∧ i.op = .call ∧ i.left = .procedure j
          ∧ (a.lowerContext .callsUntyped 15 Register.maximum).CallGives ℓ j .i8
          ∧ κ'.frame[i.out]? = some 300 ∧ ¬Kind.i8.IsCanonical 300 := by
  have hok : (compile .callsUntyped (.unset 16) 15 "" .unlimited).toOption.any (fun compiled =>
      compiled.callsOnce .i8 300 && compiled.program.natives.size == 0) = true := by decide +kernel
  obtain ⟨compiled, h, hok⟩ := Runs.exists_of_any hok
  obtain ⟨a, ha, hc, ℓ, hP⟩ := compile_implements (by decide +kernel) h
  simp only [Bool.and_eq_true, beq_iff_eq] at hok
  obtain ⟨p, κ', i, j, q, hactivated, hstep, hi, hop, hleft, hq, hgives, hlast⟩ :=
    compiled.call_of_callsOnce hc hP (compile_wellFormed h) hok.1
  obtain ⟨w, hframe, hw, -⟩ := hstep.call_handsBack hc hP hi hop hleft hq hgives
  rw [← hw, hlast] at hframe
  exact ⟨compiled, h, a, ℓ, ha, hP, compiled.nativesKinded _ hok.2, p, κ', i, j, hactivated,
    hstep, hi, hop, hleft, hgives, hframe, by decide +kernel⟩

end MiddleEnd
