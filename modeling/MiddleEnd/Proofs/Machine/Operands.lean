import MiddleEnd.Proofs.Lowering.Operands
import MiddleEnd.Proofs.Machine.Literals

/-!
# Values of operands

The left operand of an operator is evaluated before the right one, and its value waits in a register
until both are there.  It is still the same by then, unless native code in the right operand writes
the variable that has the register.

## Main definitions

* `OperatesAt` — where the code of an operator and its operands is in a procedure.
* `KeepsLeft` — when the value of the left operand is kept for the operator.

## Main results

* `Machine.Reaches.frame_size` — frames keep their size.
* `Machine.Traverses.frame_eq` — registers that some code does not write keep their words.
* `compile_operands` — **the operator gets the value that its left operand had, unless native code
  in the right one overwrites it**.
* `Tree.writesAdded_loses` — a variable that is overwritten before it is added.
-/

namespace MiddleEnd

variable {c : LowerContext} {ℓ : Linkage} {id left op right : NodeId} {l l' : Layout}
  {code : List CodeLine} {p : Procedure} {r a b : Register}

/-! ### Frames -/

namespace Machine

variable {σ : Type} {m : Machine σ} {call : Option (Procedure → Run σ Word)} {κ κ' : Point σ}
  {i : Instruction}

namespace Step

theorem frame_size (h : m.Step call p κ κ') : κ'.frame.size = κ.frame.size := by
  cases h with
  | skip => rfl
  | write _ _ hframe =>
    obtain ⟨-, hlt, rfl⟩ := write_ok_iff.1 hframe
    exact Array.size_set hlt

/-- An instruction leaves all registers but its own as they are. -/
theorem frame_eq (h : m.Step call p κ κ') (hi : p.code[κ.pc]? = some i) (hne : i.out ≠ r) :
    κ'.frame[r]? = κ.frame[r]? := by
  cases h with
  | skip => rfl
  | write hi' _ hframe =>
    obtain rfl := Option.some.inj (hi.symm.trans hi')
    obtain ⟨-, hlt, rfl⟩ := write_ok_iff.1 hframe
    exact Array.getElem?_set_ne hlt hne

end Step

/-- Frames keep their size. -/
theorem Reaches.frame_size (h : m.Reaches call p κ κ') : κ'.frame.size = κ.frame.size := by
  induction h with
  | refl => rfl
  | tail _ hstep ih => exact hstep.frame_size.trans ih

/-- Registers that some code does not write keep their words. -/
theorem Traverses.frame_eq (h : m.Traverses call p code κ κ')
    (hcode : ∀ line ∈ code, line.1.out ≠ r) : κ'.frame[r]? = κ.frame[r]? := by
  induction code generalizing κ with
  | nil => rw [h.nil]
  | cons line rest ih =>
    have hcons : m.Traverses call p ([line] ++ rest) κ κ' := h
    obtain ⟨κ₁, hline, hrest⟩ := hcons.append
    have hstep := hline.reaches.step_of_pc hline.pc
    rw [ih hrest fun line hline => hcode line (.tail _ hline)]
    exact hstep.frame_eq hline.has.head.1 (hcode line (.head _))

end Machine

/-! ### Where operators are -/

/-- The code of `left op right` in `p`.  That of the left operand ends at `read` with its value in
`r`, which is converted to the type of the whole in `a` by `mid`.  From there the code of the right
operand goes on to `stop`, with its value in `b` in the end, and the operator reads `a` and `b`. -/
inductive OperatesAt (c : LowerContext) (ℓ : Linkage) (id left op right : NodeId) (p : Procedure) :
    Nat → Nat → Nat → Register → Register → Register → Prop
  /-- The code of the left operand, its conversion, the code of the right operand, and the
  operator. -/
  | code {l l₁ l₂ : Layout} {code₁ code₂ : List CodeLine} {q : Piece} {start : Nat}
      {r b : Register} {sym : BinaryOp} {kind : Kind} (hl : l.Ordered)
      (hop : c.tree.shape op = .binaryOp sym) (hkind : c.kindOf id = some kind)
      (hleft : Emits c ℓ left l code₁ (some r) l₁)
      (hq : q = l₁.convert r (c.typeOf left) (c.typeOf id) (c.span left))
      (hright : EmitsAs c (Emits c ℓ) right (c.typeOf id) (c.span right) q.layout code₂ b l₂)
      (hcode : p.Has start (code₁ ++ q.code ++ code₂
        ++ [(⟨.binary sym kind, l₂.next, .register q.value, .register b⟩, c.span id)])) :
      OperatesAt c ℓ id left op right p (start + code₁.length) (start + (code₁ ++ q.code).length)
        (start + (code₁ ++ q.code ++ code₂).length) r q.value b

variable {P : Program} {read mid stop : Nat}

/-- The code of every operator is in some procedure. -/
theorem Implements.operatesAt (hc : c.Sound) (hP : Implements c ℓ P)
    (hid : id ∈ c.tree.preorder c.root) (hshape : c.tree.shape id = .binary left op right) :
    ∃ body result p read mid stop r a b,
      BodyOf c ℓ P body result p ∧ OperatesAt c ℓ id left op right p read mid stop r a b := by
  obtain ⟨body, result, p, hbody, huses⟩ := hP.used hc hid (by rw [hshape]; rfl)
    (by rw [hshape]; rfl) (by simp [hshape]) (by rw [hshape]; rfl) (by simp [hshape])
  obtain ⟨h, rfl, hcode, hspans, -⟩ := hP.compiles hbody
  obtain ⟨l, part, v, l', hemits, ⟨before, after, rfl⟩, hordered, -⟩ := h.uses huses
  have hhas := (Procedure.has_of_toList hcode hspans).append.1.append.1.append.2
  have hrule := (Emits.rule_iff.1 hemits).2
  rw [hshape] at hrule
  cases hrule with
  | inert hinert => cases hinert
  | binary hop hkind hleft hright =>
    cases hleft with
    | converted hleft hp =>
      subst hp
      cases hright with
      | converted hright hp =>
        exact ⟨body, result, p, _, _, _, _, _, _, hbody, .code (hordered .initial) hop hkind hleft.2
          rfl (.converted hright.2 hp) hhas⟩

/-! ### What operators get -/

/-- The operator at `stop` reads the value of its left operand in `a`, and the code of the right
operand keeps it there unless native code in it overwrites the value. -/
structure KeepsLeft (c : LowerContext) (id left op right : NodeId) (p : Procedure)
    (read mid stop : Nat) (r a b : Register) : Prop where
  /-- The operator reads the two registers. -/
  operator : ∃ sym kind out, c.tree.shape op = .binaryOp sym ∧ c.kindOf id = some kind
    ∧ p.code[stop]? = some ⟨.binary sym kind, out, .register a, .register b⟩
  /-- Only then does the code of the right operand write the register. -/
  written_iff : (∃ pc i, mid ≤ pc ∧ pc < stop ∧ p.code[pc]? = some i ∧ i.out = a)
    ↔ c.Overwrites id left right
  /-- Otherwise every run that has evaluated the left operand comes to the operator, unless it
  fails, and what the operator gets is the value from before, converted to the kind of the whole. -/
  kept : ¬c.Overwrites id left right →
    ∀ (σ : Type) (m : Machine σ) (call : Option (Procedure → Run σ Word)) (s : MachineState σ)
      (κ : Machine.Point σ), m.Reaches call p (.start p s) κ → κ.pc = read →
      ∃ w, κ.frame[r]? = some w
        ∧ ((∃ κ', m.Reaches call p κ κ' ∧ κ'.pc = stop) ∨ ∃ e s, m.ending call p κ = (.error e, s))
        ∧ ∀ κ', m.Reaches call p κ κ' → κ'.pc = stop →
            κ'.frame[a]? = some (Kind.converted (c.kindOf left) (c.kindOf id) w)

namespace OperatesAt

/-- The register of the left operand belongs to the frame, for the operator or a conversion reads
it. -/
theorem inFrame (h : OperatesAt c ℓ id left op right p read mid stop r a b) (hp : p.WellFormed P) :
    Register.InFrame p.nextRegister r := by
  cases h with
  | @code _ l₁ _ _ _ _ _ _ _ _ _ _ _ _ _ hq _ hcode =>
    obtain ⟨hoperands, hoperator⟩ := hcode.append
    subst hq
    rcases l₁.converted_cases r (c.typeOf left) (c.typeOf id) (c.span left) with
      ⟨hsame, -⟩ | ⟨k, k', hone, -⟩
    · have hread := hp.fits _ (Array.mem_of_getElem? hoperator.head.1)
      rw [hsame] at hread
      cases hread with
      | binary _ ha => exact ha
    · have hconvert := hoperands.append.1.append.2
      rw [hone] at hconvert
      have hread := hp.fits _ (Array.mem_of_getElem? hconvert.head.1)
      cases hread with
      | convert _ hr => exact hr

section

variable (hc : c.Sound) (hid : id ∈ c.tree.preorder c.root)
  (hshape : c.tree.shape id = .binary left op right)
  (h : OperatesAt c ℓ id left op right p read mid stop r a b)

include hc hid hshape h

theorem written_iff : (∃ pc i, mid ≤ pc ∧ pc < stop ∧ p.code[pc]? = some i ∧ i.out = a)
    ↔ c.Overwrites id left right := by
  cases h with
  | @code _ _ _ _ _ q _ _ _ _ _ hl _ _ hleft hq hright hcode =>
    have hhas := hcode.append.1.append.2
    rw [← Emits.overwrites_iff hc hid hshape (.converted hleft hq) hright hl,
      ← hhas.exists_iff (P := fun i => i.out = q.value)]
    simp only [List.length_append, Nat.add_assoc]

variable {σ : Type} (m : Machine σ) (call : Option (Procedure → Run σ Word))
  {κ κ' : Machine.Point σ} (hpc : κ.pc = read)

include hpc

/-- The conversion and the code of the right operand are passed, unless the run fails in them. -/
theorem crosses : (∃ κ', m.Reaches call p κ κ' ∧ κ'.pc = stop)
    ∨ ∃ e s, m.ending call p κ = (.error e, s) := by
  have hpart : c.IsPart right := c.isPart_child hc hid (by rw [Tree.isScope, hshape]; rfl)
    (by rw [hshape]; rfl) (by simp [hshape, Shape.children])
  cases h with
  | @code _ _ _ code₁ code₂ q start _ _ _ _ _ _ _ _ hq hright hcode =>
    obtain ⟨hoperands, hoperator⟩ := hcode.append
    rw [List.append_assoc] at hoperands
    have hhas : p.Has κ.pc (q.code ++ code₂) := hpc ▸ hoperands.append.2
    have hstop : start + (code₁ ++ q.code ++ code₂).length = κ.pc + (q.code ++ code₂).length := by
      simp only [hpc, List.length_append, Nat.add_assoc]
    have hstraight : Straight (q.code ++ code₂) := by
      rw [hq]
      exact (Straight.convert _ _ _ _ _).append
        (hright.straight (fun _ _ _ _ _ hx h => h.straight hc hx) hpart)
    have hsize := (Array.getElem?_eq_some_iff.1 hoperator.head.1).1
    rw [hstop] at hsize ⊢
    exact m.crosses_has call hhas (Nat.le_of_lt hsize) hstraight

variable {m call}

/-- Behind them the value of the left operand is where the operator reads it, unless it is
overwritten. -/
theorem value {w : Word} (hkeeps : ¬c.Overwrites id left right) (hw : κ.frame[r]? = some w)
    (hreach : m.Reaches call p κ κ') (hpc' : κ'.pc = stop) :
    κ'.frame[a]? = some (Kind.converted (c.kindOf left) (c.kindOf id) w) := by
  cases h with
  | @code _ _ _ code₁ code₂ q start _ _ _ _ hl _ _ hleft hq hright hcode =>
    have hwritten := Emits.overwrites_iff hc hid hshape (.converted hleft hq) hright hl
    have hhas : p.Has start (code₁ ++ (q.code ++ code₂)) :=
      List.append_assoc code₁ q.code code₂ ▸ hcode.append.1
    have htraverses : m.Traverses call p (q.code ++ code₂) κ κ' := by
      refine ⟨hpc ▸ hhas.append.2, hreach, ?_⟩
      simp only [hpc, hpc', List.length_append, Nat.add_assoc]
    obtain ⟨κ₁, hconvert, hrest⟩ := htraverses.append
    rw [hrest.frame_eq fun line hline hout => hkeeps (hwritten.1 ⟨line, hline, hout⟩)]
    subst hq
    exact hconvert.convert hw

end

/-- **The operator gets the value that its left operand had**, unless it is overwritten. -/
theorem keepsLeft (hc : c.Sound) (hid : id ∈ c.tree.preorder c.root)
    (hshape : c.tree.shape id = .binary left op right) (hp : p.WellFormed P)
    (h : OperatesAt c ℓ id left op right p read mid stop r a b) :
    KeepsLeft c id left op right p read mid stop r a b where
  operator := by
    obtain ⟨-, hop, hkind, -, -, -, hcode⟩ := h
    exact ⟨_, _, _, hop, hkind, hcode.append.2.head.1⟩
  written_iff := h.written_iff hc hid hshape
  kept := by
    intro hkeeps σ m call s κ hreach hpc
    have hsize : r < κ.frame.size := by
      rw [hreach.frame_size]
      simpa [Machine.Point.start, RegisterFile.zeroed, Procedure.frameSize] using (h.inFrame hp).2
    have hw := Array.getElem?_eq_getElem hsize
    exact ⟨κ.frame[r], hw, h.crosses hc hid hshape m call hpc,
      fun κ' hto hpc' => h.value hc hid hshape hpc hkeeps hw hto hpc'⟩

end OperatesAt

/-- A value that has the kind of the whole already is read as it was. -/
theorem KeepsLeft.frame_eq (h : KeepsLeft c id left op right p read mid stop r a b)
    (hkeeps : ¬c.Overwrites id left right) (hkind : c.kindOf left = c.kindOf id) {σ : Type}
    {m : Machine σ} {call : Option (Procedure → Run σ Word)} {s : MachineState σ}
    {κ κ' : Machine.Point σ} (hreach : m.Reaches call p (.start p s) κ) (hpc : κ.pc = read)
    (hto : m.Reaches call p κ κ') (hpc' : κ'.pc = stop) : κ'.frame[a]? = κ.frame[r]? := by
  obtain ⟨w, hw, -, hvalue⟩ := h.kept hkeeps σ m call s κ hreach hpc
  rw [hvalue κ' hto hpc', hw, hkind, Kind.converted_self]

/-- **The operator gets the value that its left operand had, unless native code in the right one
overwrites it.**  Every operator is in the code of some procedure.  Between the evaluation of its
left operand and the operator the register that is read for it is written exactly if native code in
the right operand writes the variable whose register that is. -/
theorem compile_operands {t : Tree} {links : Links} {root : NodeId} {source : String}
    {config : CompilerConfig} {compiled : Compiled} (ht : t.WellFormed root)
    (h : compile t links root source config = .ok compiled) :
    ∃ a ℓ, Analysis.ofTree t links root = .ok a
      ∧ Implements (a.lowerContext t root config.registerLimit) ℓ compiled.program
      ∧ ∀ id ∈ t.preorder root, ∀ left op right, t.shape id = .binary left op right →
          (∃ body result p read mid stop r a' b,
            BodyOf (a.lowerContext t root config.registerLimit) ℓ compiled.program body result p
              ∧ OperatesAt (a.lowerContext t root config.registerLimit) ℓ id left op right p
                read mid stop r a' b)
            ∧ ∀ p ∈ compiled.program.procedures, ∀ read mid stop r a' b,
                OperatesAt (a.lowerContext t root config.registerLimit) ℓ id left op right p
                  read mid stop r a' b →
                KeepsLeft (a.lowerContext t root config.registerLimit) id left op right p read
                  mid stop r a' b := by
  obtain ⟨a, ha, hc, ℓ, hP⟩ := compile_implements ht h
  refine ⟨a, ℓ, ha, hP, fun id hid left op right hshape => ⟨hP.operatesAt hc hid hshape, ?_⟩⟩
  intro p hp read mid stop r a' b hoperates
  obtain ⟨j, hj⟩ := Array.getElem?_of_mem hp
  exact hoperates.keepsLeft hc hid hshape ((compile_wellFormed h).procedures j p hj)

/-- `x := 1; z := 2; y := x + native`, where native code gives `z` another value. -/
def Tree.writesAnother : Tree where
  nodes :=
    #[⟨.literal (.number "1"), .nowhere⟩, ⟨.var "x" none (some 0), .nowhere⟩,
      ⟨.literal (.number "2"), .nowhere⟩, ⟨.var "z" none (some 2), .nowhere⟩,
      ⟨.ident "x", .nowhere⟩, ⟨.ident "z", .nowhere⟩, ⟨.slot 5 0, .nowhere⟩,
      ⟨.native "" [] (some 6), .nowhere⟩, ⟨.binaryOp .add, .nowhere⟩, ⟨.binary 4 8 7, .nowhere⟩,
      ⟨.var "y" none (some 9), .nowhere⟩, ⟨.module [1, 3, 10], .nowhere⟩]
  children_lt := by decide

/-- The native code of `writesAnother` writes `z`, and what is added to it is the value of `x`. -/
theorem Tree.writesAnother_keeps :
    ∃ compiled, compile .writesAnother (.unset 12) 11 "" .unlimited = .ok compiled
      ∧ ∃ c ℓ p read mid stop r a b, p ∈ compiled.program.procedures
        ∧ OperatesAt c ℓ 9 4 8 7 p read mid stop r a b
        ∧ ∀ (σ : Type) (m : Machine σ) (call : Option (Procedure → Run σ Word)) (s : MachineState σ)
            (κ κ' : Machine.Point σ), m.Reaches call p (.start p s) κ → κ.pc = read →
            m.Reaches call p κ κ' → κ'.pc = stop → κ'.frame[a]? = κ.frame[r]? := by
  have hok : (compile .writesAnother (.unset 12) 11 "" .unlimited).isOk = true := by decide +kernel
  have hnames : (Analysis.ofTree .writesAnother (.unset 12) 11).toOption.any (fun a =>
      a.resolution.declaration? 4 == some 1 && a.resolution.declaration? 5 == some 3
        && a.typing.typeOf 4 == a.typing.typeOf 9) = true := by decide +kernel
  obtain ⟨compiled, h⟩ := Runs.exists_of_isOk hok
  obtain ⟨a, ℓ, ha, -, hoperators⟩ := compile_operands (by decide +kernel) h
  simp only [ha, Except.toOption, Option.any_some, Bool.and_eq_true, beq_iff_eq] at hnames
  obtain ⟨⟨hx, hz⟩, htype⟩ := hnames
  obtain ⟨⟨body, result, p, read, mid, stop, r, a', b, hbody, hoperates⟩, hkeeps⟩ :=
    hoperators 9 (by decide +kernel) 4 8 7 rfl
  have hkept : ¬(a.lowerContext .writesAnother 11 Register.maximum).Overwrites 9 4 7 := by
    rintro ⟨d, hreads, -, y, huses, source, inputs, output, target, offset, hshape, hslot, hdecl⟩
    -- The right operand uses nothing but itself, and it writes `z`.
    obtain rfl | ⟨y', hy', -⟩ := huses.cases_head
    · cases hshape
      cases hslot
      rw [Tree.ungroup_of_not_group (fun y hy => by cases hy)] at hdecl
      obtain rfl := Option.some.inj (hz.symm.trans hdecl)
      cases hreads with
      | ident _ hdecl' => cases hx.symm.trans hdecl'
      | native h =>
        obtain ⟨_, _, _, _, _, hshape, -⟩ := h
        cases hshape
      | group hshape | plus hshape | cast hshape => cases hshape
    · exact hy'.elim
  have hkeepsLeft := hkeeps p hbody.mem _ _ _ _ _ _ hoperates
  exact ⟨compiled, h, _, ℓ, p, read, mid, stop, r, a', b, hbody.mem, hoperates,
    fun σ m call s κ κ' => hkeepsLeft.frame_eq hkept (congrArg Kind.ofTy? htype)⟩

/-- `x := 1; y := x + native`, where native code gives `x` another value. -/
def Tree.writesAdded : Tree where
  nodes :=
    #[⟨.literal (.number "1"), .nowhere⟩, ⟨.var "x" none (some 0), .nowhere⟩,
      ⟨.ident "x", .nowhere⟩, ⟨.ident "x", .nowhere⟩, ⟨.slot 3 0, .nowhere⟩,
      ⟨.native "ret0" [] (some 4), .nowhere⟩, ⟨.binaryOp .add, .nowhere⟩, ⟨.binary 2 6 5, .nowhere⟩,
      ⟨.var "y" none (some 7), .nowhere⟩, ⟨.module [1, 8], .nowhere⟩]
  children_lt := by decide

/-- Native code that always has the same result. -/
def Backend.constant (w : Word) : Backend Unit :=
  ⟨fun _ _ => (.ok ⟨0, some fun _ => w, by decide⟩, ())⟩

/-- **A variable that is overwritten before it is added**: what is added is the value that the
native code has given to it, here 0 in the place of 1. -/
theorem Tree.writesAdded_loses :
    ∃ compiled, compile .writesAdded (.unset 10) 9 "" .unlimited = .ok compiled
      ∧ (∃ a ℓ, Analysis.ofTree .writesAdded (.unset 10) 9 = .ok a
        ∧ ∃ p read mid stop r a' b, p ∈ compiled.program.procedures
          ∧ OperatesAt (a.lowerContext .writesAdded 9 Register.maximum) ℓ 7 2 6 5 p read mid
            stop r a' b
          ∧ ∃ pc i, mid ≤ pc ∧ pc < stop ∧ p.code[pc]? = some i ∧ i.out = a')
      ∧ ∃ e s, compileAndRun .writesAdded (.unset 10) 9 "" .unlimited (.constant 0) (.initial ())
          = (.ok e, s) ∧ e.output.symbol? e.program "y" = some 0 := by
  -- What `y` is in the end is computed; so is what the names stand for.
  have hrun : (compileAndRun .writesAdded (.unset 10) 9 "" .unlimited (.constant 0)
      (.initial ())).1.toOption.bind (fun e => e.output.symbol? e.program "y") = some 0 := by
    decide +kernel
  have hok : (compile .writesAdded (.unset 10) 9 "" .unlimited).isOk = true := by decide +kernel
  have hnames : (Analysis.ofTree .writesAdded (.unset 10) 9).toOption.any (fun a =>
      a.resolution.declaration? 2 == some 1 && a.resolution.declaration? 3 == some 1
        && a.typing.typeOf 2 == a.typing.typeOf 7) = true := by decide +kernel
  obtain ⟨compiled, h⟩ := Runs.exists_of_isOk hok
  refine ⟨compiled, h, ?_, ?_⟩
  · obtain ⟨a, ha, hc, ℓ, hP⟩ := compile_implements (by decide +kernel) h
    simp only [ha, Except.toOption, Option.any_some, Bool.and_eq_true, beq_iff_eq] at hnames
    obtain ⟨⟨hleft, hright⟩, htype⟩ := hnames
    -- The theorem, at the sum, whose right operand is native code that writes to the variable.
    have hid : 7 ∈ Tree.writesAdded.preorder 9 := by decide +kernel
    have hshape : Tree.writesAdded.shape 7 = .binary 2 6 5 := rfl
    obtain ⟨body, result, p, read, mid, stop, r, a', b, hbody, hoperates⟩ :=
      hP.operatesAt hc hid hshape
    refine ⟨a, ℓ, ha, p, read, mid, stop, r, a', b, hbody.mem, hoperates, ?_⟩
    rw [hoperates.written_iff hc hid hshape]
    refine ⟨1, .ident rfl hleft, congrArg Kind.ofTy? htype, 5, .refl, "ret0", [], 4, 3, 0, rfl, rfl,
      ?_⟩
    rw [Tree.ungroup_of_not_group (fun y hy => by cases hy)]
    exact hright
  · exact Runs.exists_of_bind hrun

end MiddleEnd
