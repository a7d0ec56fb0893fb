import MiddleEnd.Proofs.Lowering.Origins
import MiddleEnd.Proofs.Lowering.Respects
import MiddleEnd.Proofs.Typing.Families

/-!
# Fractions that are dropped

Typing lets no float into an integer without a cast: not as an operand, not as an initial value, and
neither by a store nor by a return.  So the conversions that drop a fraction are those of casts, and
one more at most in each procedure: the value that is written last is converted to the declared
result, and nothing has compared the two types.

## Main definitions

* `Procedure.DropsAt` — where a procedure converts a float to an integer.
* `CastsAt`, `ClosesAt` — the conversion of a cast, and the one of the value written last.

## Main results

* `LowerContext.Coerces.cast_of_float` — only casts coerce floats to integers.
* `compile_drops` — **fractions are dropped by casts and by the conversion of the value written
  last, and by nothing else**.
* `Tree.endsInFraction_drops` — a procedure that drops a fraction without a cast.
-/

namespace MiddleEnd

/-- The line at position `n` converts a float to an integer. -/
def Procedure.DropsAt (p : Procedure) (f : FloatKind) (k : IntKind) (n : Nat) : Prop :=
  ∃ out left right, p.code[n]? = some ⟨.convert (.float f) (.int k), out, left, right⟩

section

variable (c : LowerContext) (ℓ : Linkage) (p : Procedure)

/-- The line at position `n` converts the operand of a cast from the kind `a` to the kind `b`. -/
inductive CastsAt (a b : Kind) (n : Nat) : Prop
  /-- The line is the conversion of a cast whose operand has the value in the register it reads. -/
  | code {id x y : NodeId} {l : Layout} {r : Register} (hid : id ∈ c.tree.preorder c.root)
      (hshape : c.tree.shape id = .cast x y) (hx : EvaluatedAt c ℓ p x n r l)
      (ha : c.kindOf x = some a) (hb : c.kindOf id = some b)
      (hline : p.code[n]? = some ⟨.convert a b, l.next, .register r, .none⟩) : CastsAt a b n

end

variable {c : LowerContext} {ℓ : Linkage} {p : Procedure} {id x body : NodeId} {n : Nat}
  {result : Option Ty} {P : Program}

/-! ### Conversions -/

/-- **Only casts coerce floats to integers.** -/
theorem LowerContext.Coerces.cast_of_float (hc : c.Sound) (hid : id ∈ c.tree.preorder c.root)
    {τ : Ty}
    {f : FloatKind} {k : IntKind} (h : c.Coerces id x τ) (hx : c.kindOf x = some (.float f))
    (hτ : Kind.ofTy? τ = some (.int k)) : ∃ y, c.tree.shape id = .cast x y ∧ τ = c.typeOf id := by
  refine (h.admits hc hid).resolve_right fun hadmits => ?_
  have herror : τ.isError = false := by cases τ <;> first | rfl | cases hτ
  obtain ⟨f', hfloat⟩ := Ty.isFloat_iff.1 (hadmits.isFloat herror (Ty.isFloat_iff.2 ⟨f, hx⟩))
  rw [hτ] at hfloat
  cases hfloat

/-- **Fractions are dropped by casts and by the closing conversion.** -/
theorem Compiles.dropsAt_iff (hc : c.Sound) (hbody : body ∈ c.tree.preorder c.root)
    (hitem : (c.tree.shape body).isItem = true) (h : Compiles c ℓ body result p) (f : FloatKind)
    (k : IntKind) :
    p.DropsAt f k n ↔ CastsAt c ℓ p (.float f) (.int k) n
      ∨ ∃ σ τ, ClosesAt c ℓ p body result σ τ n ∧ Kind.ofTy? σ = some (.float f)
        ∧ Kind.ofTy? τ = some (.int k) := by
  constructor
  · rintro ⟨out, left, right, hline⟩
    refine (h.convert_cases hc hbody hitem hline).imp_left fun ⟨l, horigin⟩ => ?_
    cases horigin with
    | @convert id x τ _ _ r hid hcoerces hx ha hb =>
      obtain ⟨y, hshape, rfl⟩ := hcoerces.cast_of_float hc hid ha hb
      exact .code hid hshape hx ha hb hline
    | @convertStaged id target value targets values _ _ r hid hshape hpair ha hb =>
      -- A statement is no cast.
      obtain ⟨y, hcast, -⟩ :=
        (LowerContext.Coerces.parallel hshape hpair).cast_of_float hc hid ha hb
      rw [hshape] at hcast
      cases hcast
    | compute _ hop | silent _ hop => exact (hop _ _ rfl).elim
  · rintro (⟨-, -, -, -, -, hline⟩ | ⟨σ, τ, hcloses, hσ, hτ⟩)
    · exact ⟨_, _, _, hline⟩
    · obtain ⟨out, r, hline⟩ := hcloses.line hσ hτ (by simp)
      exact ⟨_, _, _, hline⟩

/-- **A compiled program drops fractions in casts and in closing conversions, and nowhere else.**
The value that a procedure writes last is converted to the declared result without a check, so that
a fraction is lost exactly if the one is a float and the other an integer. -/
theorem compile_drops {t : Tree} {links : Links} {root : NodeId} {source : String}
    {config : CompilerConfig} {compiled : Compiled} (ht : t.WellFormed root)
    (hsize : root < links.size) (h : compile t links root source config = .ok compiled) :
    ∃ a ℓ, Analysis.ofTree t links root = .ok a
      ∧ Implements (a.lowerContext t root config.registerLimit) ℓ compiled.program
      ∧ ∀ p ∈ compiled.program.procedures, ∃ body result,
          BodyOf (a.lowerContext t root config.registerLimit) ℓ compiled.program body result p
            ∧ ∀ (f : FloatKind) (k : IntKind) (n : Nat), p.DropsAt f k n
              ↔ CastsAt (a.lowerContext t root config.registerLimit) ℓ p (.float f) (.int k) n
                ∨ ∃ σ τ, ClosesAt (a.lowerContext t root config.registerLimit) ℓ p body result σ τ n
                    ∧ Kind.ofTy? σ = some (.float f) ∧ Kind.ofTy? τ = some (.int k) := by
  obtain ⟨a, ha, hc, ℓ, hP, hbodies⟩ := compile_bodies ht hsize h
  refine ⟨a, ℓ, ha, hP, fun p hp => ?_⟩
  obtain ⟨body, result, hbody⟩ := hbodies p hp
  exact ⟨body, result, hbody, fun f k _ =>
    (hP.compiles hbody).dropsAt_iff hc (hbody.within hc).1 (hbody.isItem hc) f k⟩

/-- Some procedure of the program converts a float of 64 bits to an integer of 64 bits. -/
def Compiled.drops (compiled : Compiled) : Bool :=
  compiled.program.procedures.any fun p => p.code.any fun i =>
    match i.op with
    | .convert (.float .f64) (.int ⟨true, .w64⟩) => true
    | _ => false

theorem Compiled.exists_dropsAt {compiled : Compiled} (h : compiled.drops = true) :
    ∃ p ∈ compiled.program.procedures, ∃ n, p.DropsAt .f64 ⟨true, .w64⟩ n := by
  obtain ⟨j, hj, h⟩ := Array.any_eq_true.1 h
  obtain ⟨n, hn, h⟩ := Array.any_eq_true.1 h
  refine ⟨_, Array.getElem_mem hj, n, ?_⟩
  have hline := Array.getElem?_eq_getElem hn
  generalize compiled.program.procedures[j].code[n] = i at h hline
  obtain ⟨op, out, left, right⟩ := i
  split at h
  · next hop => exact ⟨out, left, right, hop ▸ hline⟩
  · cases h

/-- `x := 3.5 as int` -/
def Tree.castsFraction : Tree where
  nodes :=
    #[⟨.literal (.number "3.5"), .nowhere⟩, ⟨.typeName "int", .nowhere⟩, ⟨.cast 0 1, .nowhere⟩,
      ⟨.var "x" none (some 2), .nowhere⟩, ⟨.module [3], .nowhere⟩]
  children_lt := by decide

/-- The one fraction that is dropped is dropped by the cast. -/
theorem Tree.castsFraction_drops :
    ∃ compiled, compile .castsFraction (.unset 5) 4 "" .unlimited = .ok compiled
      ∧ ∃ c ℓ, Implements c ℓ compiled.program ∧ ∃ p ∈ compiled.program.procedures, ∃ n,
        p.DropsAt .f64 ⟨true, .w64⟩ n ∧ CastsAt c ℓ p .f64 .i64 n := by
  have hok : (compile .castsFraction (.unset 5) 4 "" .unlimited).toOption.any (·.drops) = true := by
    decide +kernel
  obtain ⟨compiled, h, hok⟩ := Runs.exists_of_any hok
  obtain ⟨p, hp, n, hn⟩ := Compiled.exists_dropsAt hok
  obtain ⟨a, ℓ, -, hP, hdrops⟩ := compile_drops (by decide +kernel) (by decide) h
  obtain ⟨body, result, hbody, hiff⟩ := hdrops p hp
  refine ⟨compiled, h, _, ℓ, hP, p, hp, n, hn, ((hiff _ _ n).1 hn).resolve_right ?_⟩
  rintro ⟨σ, τ, hcloses, -⟩
  -- Nothing but the start has code, and the start has no result.
  cases hbody with
  | start => cases hcloses.result_eq
  | @procedure id body result _ _ hid hshape =>
    have hnone : ∀ id ∈ Tree.castsFraction.preorder 4,
        (Tree.castsFraction.shape id).isProcedure = false := by decide +kernel
    have hprocedure := hnone id hid
    rw [show Tree.castsFraction.shape id = .procedure result body from hshape] at hprocedure
    cases hprocedure

/-- `f :: proc int { 3.5 }; x := f()` -/
def Tree.endsInFraction : Tree where
  nodes :=
    #[⟨.typeName "int", .nowhere⟩, ⟨.literal (.number "3.5"), .nowhere⟩, ⟨.exprStmt 1, .nowhere⟩,
      ⟨.block [2], .nowhere⟩, ⟨.procedure (some 0) 3, .nowhere⟩, ⟨.constant "f" 4, .nowhere⟩,
      ⟨.ident "f", .nowhere⟩, ⟨.call 6, .nowhere⟩, ⟨.var "x" none (some 7), .nowhere⟩,
      ⟨.module [5, 8], .nowhere⟩]
  children_lt := by decide

/-- **The value at the end of a procedure loses its fraction without a cast**: the tree has none. -/
theorem Tree.endsInFraction_drops :
    Tree.endsInFraction.WellFormed 9 ∧ Tree.endsInFraction.CastFree 9
      ∧ ∃ compiled, compile .endsInFraction (.unset 10) 9 "" .unlimited = .ok compiled
        ∧ ∃ p ∈ compiled.program.procedures, ∃ n, p.DropsAt .f64 ⟨true, .w64⟩ n := by
  have hok : (compile .endsInFraction (.unset 10) 9 "" .unlimited).toOption.any (·.drops)
    = true := by
    decide +kernel
  refine ⟨by decide +kernel, by decide +kernel, ?_⟩
  obtain ⟨compiled, h, hok⟩ := Runs.exists_of_any hok
  exact ⟨compiled, h, Compiled.exists_dropsAt hok⟩

end MiddleEnd
