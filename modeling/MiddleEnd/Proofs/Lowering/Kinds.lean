import MiddleEnd.Proofs.Code.Canonical
import MiddleEnd.Proofs.Lowering.Types

/-!
# Kinds of registers

Registers are words, but lowering gives every register one kind for as long as its procedure runs,
and every instruction reads and writes its registers as values of their kinds.  Registers of values
without a kind, such as the result of a procedure that declares none, are no exception: they have no
kind.

## Main definitions

* `RegisterKinds` — the kinds of the registers given out so far.
* `Instruction.Kinded` — an instruction that keeps to the kinds, one case per operation.
* `Instruction.Respects` — the same with what is written spelled out: which words are loaded, what a
  called procedure declares, and which variable native code writes.
* `Layout.Kinded`, `Typed` — the kinds at one place of the code, and from one place to a later one.
* `Procedure.Kinded`, `Procedure.Respects` — a procedure that keeps to the kinds of its registers.

## Main results

* `Emits.typed` — the code of every node keeps to the kinds, and its value has the kind of its type.
* `Compiles.respects`, `Compiles.kinded` — so does every procedure.
-/

namespace MiddleEnd

/-- The kinds of the registers given out so far; `none` for values without a kind. -/
abbrev RegisterKinds := List (Option Kind)

section

variable (c : LowerContext) (ℓ : Linkage) (ρ : Option Kind)

/-- An instruction that keeps to the kinds of the registers, in a procedure whose declared result
has the kind `ρ`. -/
inductive Instruction.Kinded (K : RegisterKinds) (homes : Std.TreeMap NodeId Register) :
    Instruction → Prop
  /-- Both registers have the same kind, or none. -/
  | copy {out r : Register} {o : Option Kind} (hout : K[out]? = some o) (hr : K[r]? = some o) :
      Kinded K homes ⟨.copy, out, .register r, .none⟩
  /-- The word is one of the kind of the register, if it has one. -/
  | loadConstant {out : Register} {index : Nat} {o : Option Kind} (hout : K[out]? = some o)
      (h : ∀ k w, o = some k → ℓ.constants[index]? = some w → k.IsCanonical w) :
      Kinded K homes ⟨.loadConstant, out, .constant index, .none⟩
  /-- The procedure gives values of the kind of the register, if it has one. -/
  | call {out : Register} {index : Nat} {o : Option Kind} (hout : K[out]? = some o)
      (h : ∀ k, o = some k → c.CallGives ℓ index k) :
      Kinded K homes ⟨.call, out, .procedure index, .none⟩
  /-- A return of nothing from a procedure whose result has no kind. -/
  | retNone (h : ρ = none) : Kinded K homes ⟨.ret, .none, .none, .none⟩
  /-- The register has the kind of the result, if that has one. -/
  | ret {r : Register} (h : ∀ k, ρ = some k → K[r]? = some (some k)) :
      Kinded K homes ⟨.ret, .none, .register r, .none⟩
  /-- Native code without an output. -/
  | nativeSilent {index : Nat} : Kinded K homes ⟨.callNative, .none, .native index, .none⟩
  /-- The register is the home of a declaration, and has its kind. -/
  | native {out : Register} {index : Nat} {decl : NodeId} (hhome : homes[decl]? = some out)
      (hout : K[out]? = some (c.kindOf decl)) :
      Kinded K homes ⟨.callNative, out, .native index, .none⟩
  /-- All three registers have the kind of the operation. -/
  | binary {op : BinaryOp} {kind : Kind} {out a b : Register} (hout : K[out]? = some (some kind))
      (ha : K[a]? = some (some kind)) (hb : K[b]? = some (some kind)) :
      Kinded K homes ⟨.binary op kind, out, .register a, .register b⟩
  /-- Both registers have the kind of the operation. -/
  | negate {kind : Kind} {out r : Register} (hout : K[out]? = some (some kind))
      (hr : K[r]? = some (some kind)) :
      Kinded K homes ⟨.negate kind, out, .register r, .none⟩
  /-- The registers have the two kinds of the conversion. -/
  | convert {source target : Kind} {out r : Register} (hout : K[out]? = some (some target))
      (hr : K[r]? = some (some source)) :
      Kinded K homes ⟨.convert source target, out, .register r, .none⟩

/-- An instruction that respects the kinds of the registers: it keeps to them, a loaded word is one
of its kind, a call has the kind that the procedure declares, and a conversion changes the kind. -/
inductive Instruction.Respects (K : RegisterKinds) (homes : Std.TreeMap NodeId Register) :
    Instruction → Prop
  /-- Both registers have the same kind, or none. -/
  | copy {out r : Register} {o : Option Kind} (hout : K[out]? = some o) (hr : K[r]? = some o) :
      Respects K homes ⟨.copy, out, .register r, .none⟩
  /-- The register has a kind, and the word is one of it. -/
  | loadConstant {out : Register} {index : Nat} {k : Kind} {w : Word}
      (hout : K[out]? = some (some k)) (hw : ℓ.constants[index]? = some w) (h : k.IsCanonical w) :
      Respects K homes ⟨.loadConstant, out, .constant index, .none⟩
  /-- The register has the kind that the procedure declares, or none if it declares none. -/
  | call {out : Register} {index : Nat} {o : Option Kind} (hout : K[out]? = some o)
      (h : c.Declares ℓ index o) : Respects K homes ⟨.call, out, .procedure index, .none⟩
  /-- A return of nothing from a procedure whose result has no kind. -/
  | retNone (h : ρ = none) : Respects K homes ⟨.ret, .none, .none, .none⟩
  /-- The register has the kind of the result, if that has one. -/
  | ret {r : Register} (h : ∀ k, ρ = some k → K[r]? = some (some k)) :
      Respects K homes ⟨.ret, .none, .register r, .none⟩
  /-- Native code without an output. -/
  | nativeSilent {index : Nat} {source : String} {slots : List NativeSlot}
      (h : ℓ.natives[index]? = some ⟨source, slots, none⟩) :
      Respects K homes ⟨.callNative, .none, .native index, .none⟩
  /-- The register is the home of the declaration that the output of the code is tied to, and has
  its kind. -/
  | native {out : Register} {index : Nat} {decl : NodeId} (h : c.NativeWrites ℓ index decl out)
      (hhome : homes[decl]? = some out) (hout : K[out]? = some (c.kindOf decl)) :
      Respects K homes ⟨.callNative, out, .native index, .none⟩
  /-- All three registers have the kind of the operation. -/
  | binary {op : BinaryOp} {kind : Kind} {out a b : Register} (hout : K[out]? = some (some kind))
      (ha : K[a]? = some (some kind)) (hb : K[b]? = some (some kind)) :
      Respects K homes ⟨.binary op kind, out, .register a, .register b⟩
  /-- Both registers have the kind of the operation. -/
  | negate {kind : Kind} {out r : Register} (hout : K[out]? = some (some kind))
      (hr : K[r]? = some (some kind)) :
      Respects K homes ⟨.negate kind, out, .register r, .none⟩
  /-- The registers have the two kinds of the conversion, which are different ones. -/
  | convert {source target : Kind} {out r : Register} (hne : source ≠ target)
      (hout : K[out]? = some (some target)) (hr : K[r]? = some (some source)) :
      Respects K homes ⟨.convert source target, out, .register r, .none⟩

/-- The register that code writes last, after one that was written before it. -/
def lastOut (r : Register) (code : List Instruction) : Register :=
  code.foldl (fun r i => if i.out = .none then r else i.out) r

/-- The kinds of the registers at one place of the code. -/
structure Layout.Kinded (K : RegisterKinds) (l : Layout) : Prop where
  /-- There is a kind, or none, for each register given out. -/
  size : K.length = l.next
  /-- The register zero is one of them. -/
  pos : 0 < l.next
  /-- The home of a declaration has its kind. -/
  homes : ∀ (d : NodeId) (r : Register), l.registers[d]? = some r →
    r ≠ .none ∧ K[r]? = some (c.kindOf d)
  /-- The register written last has the kind of the value written last. -/
  last : l.lastRegister ≠ .none → K[l.lastRegister]? = some (Kind.ofTy? l.lastTy)

/-- Code that keeps to the kinds, with the kinds of the registers before and after it. -/
structure Typed (K : RegisterKinds) (l : Layout) (code : List CodeLine) (K' : RegisterKinds)
    (l' : Layout) : Prop where
  /-- The registers given out before have kept their kinds. -/
  kinds : K <+: K'
  /-- Declarations have kept their homes. -/
  homes : ∀ (d : NodeId) (r : Register), l.registers[d]? = some r → l'.registers[d]? = some r
  /-- The kinds afterwards are those of the registers. -/
  layout : l'.Kinded c K'
  /-- Every instruction respects them. -/
  lines : ∀ line ∈ code, line.1.Respects c ℓ ρ K' l'.registers
  /-- The register written last is the one that the last instruction with an output has written. -/
  last : l'.lastRegister = lastOut l.lastRegister (code.map Prod.fst)

/-- A register that holds values of a kind. -/
def KeptAs (K : RegisterKinds) (r : Register) (o : Option Kind) : Prop :=
  r ≠ .none ∧ K[r]? = some o

/-- A piece of code that keeps to the kinds, and whose value has the kind `o`. -/
def Piece.Kinded (K : RegisterKinds) (l : Layout) (o : Option Kind) (p : Piece) : Prop :=
  ∃ K', Typed c ℓ ρ K l p.code K' p.layout ∧ KeptAs K' p.value o

/-- Code that keeps to the kinds of the registers before it, and whose value, if it has one, has the
kind `o`. -/
def TypesAs (K : RegisterKinds) (l : Layout) (o : Option Kind) (code : List CodeLine)
    (v : Option Register) (l' : Layout) : Prop :=
  ∃ K', Typed c ℓ ρ K l code K' l' ∧ ∀ r, v = some r → KeptAs K' r o

/-- The code of a node keeps to the kinds wherever it begins, and its value has the kind of the
node. -/
def TypesNode : Emission := fun id l code v l' =>
  ∀ K, l.Kinded c K → TypesAs c ℓ ρ K l (c.kindOf id) code v l'

end

/-! ### More registers -/

variable {c : LowerContext} {ℓ : Linkage} {ρ o : Option Kind} {K K₁ K' : RegisterKinds}
  {l l₁ l' : Layout} {code code' : List CodeLine} {r : Register}

theorem getElem?_grown (h : K <+: K') (hr : K[r]? = some o) : K'[r]? = some o := by
  obtain ⟨K₁, rfl⟩ := h
  obtain ⟨hlt, -⟩ := List.getElem?_eq_some_iff.1 hr
  rw [List.getElem?_append_left hlt, hr]

theorem KeptAs.mono (h : KeptAs K r o) (hK : K <+: K') : KeptAs K' r o :=
  ⟨h.1, getElem?_grown hK h.2⟩

/-- Code respects the kinds when more registers are given out. -/
theorem Instruction.Respects.mono {i : Instruction} {homes homes' : Std.TreeMap NodeId Register}
    (h : i.Respects c ℓ ρ K homes) (hK : K <+: K')
    (hhomes : ∀ (d : NodeId) (r : Register), homes[d]? = some r → homes'[d]? = some r) :
    i.Respects c ℓ ρ K' homes' := by
  have keep {r : Register} {o : Option Kind} := getElem?_grown (r := r) (o := o) hK
  cases h with
  | copy hout hr => exact .copy (keep hout) (keep hr)
  | loadConstant hout hw h => exact .loadConstant (keep hout) hw h
  | call hout h => exact .call (keep hout) h
  | retNone h => exact .retNone h
  | ret h => exact .ret fun k hk => keep (h k hk)
  | nativeSilent h => exact .nativeSilent h
  | native h hhome hout => exact .native h (hhomes _ _ hhome) (keep hout)
  | binary hout ha hb => exact .binary (keep hout) (keep ha) (keep hb)
  | negate hout hr => exact .negate (keep hout) (keep hr)
  | convert hne hout hr => exact .convert hne (keep hout) (keep hr)

theorem Instruction.Respects.kinded {i : Instruction} {homes : Std.TreeMap NodeId Register}
    (h : i.Respects c ℓ ρ K homes) : i.Kinded c ℓ ρ K homes := by
  cases h with
  | copy hout hr => exact .copy hout hr
  | loadConstant hout hw h =>
    refine .loadConstant hout fun k w hk hw' => ?_
    obtain rfl := Option.some.inj hk
    obtain rfl := Option.some.inj (hw.symm.trans hw')
    exact h
  | call hout h => exact .call hout fun k hk => LowerContext.Declares.gives (hk ▸ h)
  | retNone h => exact .retNone h
  | ret h => exact .ret h
  | nativeSilent => exact .nativeSilent
  | native _ hhome hout => exact .native hhome hout
  | binary hout ha hb => exact .binary hout ha hb
  | negate hout hr => exact .negate hout hr
  | convert _ hout hr => exact .convert hout hr

theorem lastOut_append (r : Register) (code code' : List Instruction) :
    lastOut r (code ++ code') = lastOut (lastOut r code) code' :=
  List.foldl_append

/-! ### Steps -/

namespace Typed

theorem refl (h : l.Kinded c K) : Typed c ℓ ρ K l [] K l :=
  ⟨List.prefix_refl K, fun _ _ h => h, h, fun _ h => (by cases h), rfl⟩

theorem trans (h : Typed c ℓ ρ K l code K₁ l₁) (h' : Typed c ℓ ρ K₁ l₁ code' K' l') :
    Typed c ℓ ρ K l (code ++ code') K' l' where
  kinds := h.kinds.trans h'.kinds
  homes d r hr := h'.homes d r (h.homes d r hr)
  layout := h'.layout
  lines line hline := by
    rcases List.mem_append.1 hline with hline | hline
    · exact (h.lines line hline).mono h'.kinds h'.homes
    · exact h'.lines line hline
  last := by rw [h'.last, h.last, List.map_append, lastOut_append]

/-- Code without a value. -/
theorem noValue (h : Typed c ℓ ρ K l code K' l') : TypesAs c ℓ ρ K l o code none l' :=
  ⟨K', h, fun _ hr => (by cases hr)⟩

theorem withValue (h : Typed c ℓ ρ K l code K' l') (hr : KeptAs K' r o) :
    TypesAs c ℓ ρ K l o code (some r) l' := by
  refine ⟨K', h, fun r' hr' => ?_⟩
  obtain rfl := Option.some.inj hr'
  exact hr

/-- A piece whose value is that of the code before it and of itself. -/
theorem piece {p : Piece} (h : Typed c ℓ ρ K l code K₁ l₁) (hp : p.Kinded c ℓ ρ K₁ l₁ o) :
    TypesAs c ℓ ρ K l o (code ++ p.code) (some p.value) p.layout := by
  obtain ⟨K', hcode, hvalue⟩ := hp
  exact (h.trans hcode).withValue hvalue

end Typed

/-- The value of some code is not needed. -/
theorem TypesAs.dropped {v : Option Register} {o' : Option Kind}
    (h : TypesAs c ℓ ρ K l o code v l') :
    TypesAs c ℓ ρ K l o' code none l' := by
  obtain ⟨K', hcode, -⟩ := h
  exact hcode.noValue

/-- A piece on its own. -/
theorem Piece.Kinded.typesAs {p : Piece} (h : p.Kinded c ℓ ρ K l o) :
    TypesAs c ℓ ρ K l o p.code (some p.value) p.layout := by
  obtain ⟨K', hcode, hvalue⟩ := h
  exact hcode.withValue hvalue

namespace Layout.Kinded

variable (h : l.Kinded c K)

include h

theorem fresh (o : Option Kind) : KeptAs (K ++ [o]) l.next o := by
  refine ⟨Nat.ne_of_gt h.pos, ?_⟩
  rw [← h.size, List.getElem?_concat_length]

variable (ℓ ρ)

/-- The next register gets a kind when it is given out. -/
theorem reserved (o : Option Kind) : Typed c ℓ ρ K l [] (K ++ [o]) l.reserved where
  kinds := List.prefix_append K [o]
  homes _ _ hr := hr
  layout :=
    { size := by rw [List.length_append, h.size]; rfl
      pos := Nat.succ_pos _
      homes := fun d r hr => KeptAs.mono (h.homes d r hr) (List.prefix_append K [o])
      last := fun hlast => getElem?_grown (List.prefix_append K [o]) (h.last hlast) }
  lines _ hline := by cases hline
  last := rfl

/-- An instruction that computes a value of type `ty` into the next register. -/
theorem computed (ty : Ty) (span : Span) {i : Instruction} (hout : i.out = l.next)
    (hi : i.Respects c ℓ ρ (K ++ [Kind.ofTy? ty]) l.registers) :
    Typed c ℓ ρ K l [(i, span)] (K ++ [Kind.ofTy? ty]) (l.computed ty) where
  kinds := List.prefix_append K _
  homes _ _ hr := hr
  layout :=
    { size := (h.reserved ℓ ρ _).layout.size
      pos := Nat.succ_pos _
      homes := (h.reserved ℓ ρ _).layout.homes
      last := fun _ => (h.fresh _).2 }
  lines line hline := by
    obtain rfl := List.mem_singleton.1 hline
    exact hi
  last := by
    simp only [List.map_cons, List.map_nil, lastOut, List.foldl_cons, List.foldl_nil, hout]
    rw [if_neg (show l.next ≠ .none from Nat.ne_of_gt h.pos)]
    rfl

/-- An instruction that writes a value of type `ty` to the register of a declaration. -/
theorem wrote {ty : Ty} (span : Span) {i : Instruction} (hout : KeptAs K i.out (Kind.ofTy? ty))
    (hi : i.Respects c ℓ ρ K l.registers) :
    Typed c ℓ ρ K l [(i, span)] K (l.wrote i.out ty) where
  kinds := List.prefix_refl K
  homes _ _ hr := hr
  layout := ⟨h.size, h.pos, h.homes, fun _ => hout.2⟩
  lines line hline := by
    obtain rfl := List.mem_singleton.1 hline
    exact hi
  last := by
    simp only [List.map_cons, List.map_nil, lastOut, List.foldl_cons, List.foldl_nil]
    rw [if_neg hout.1]
    rfl

/-- An instruction that writes no register. -/
theorem silent (span : Span) {i : Instruction} (hout : i.out = .none)
    (hi : i.Respects c ℓ ρ K l.registers) : Typed c ℓ ρ K l [(i, span)] K l where
  kinds := List.prefix_refl K
  homes _ _ hr := hr
  layout := h
  lines line hline := by
    obtain rfl := List.mem_singleton.1 hline
    exact hi
  last := by
    simp only [List.map_cons, List.map_nil, lastOut, List.foldl_cons, List.foldl_nil]
    rw [if_pos hout]

/-- A declaration gets a register of its kind. -/
theorem withHome {d : NodeId} (hnew : l.registers[d]? = none) (hr : KeptAs K r (c.kindOf d)) :
    Typed c ℓ ρ K l [] K (l.withHome d r) where
  kinds := List.prefix_refl K
  homes d' r' hr' := by
    -- The declaration had no home, so it is none of those that had one.
    have hne : d ≠ d' := fun heq => by
      rw [← heq, hnew] at hr'
      cases hr'
    show (l.registers.insert d r)[d']? = _
    simpa [Std.TreeMap.getElem?_insert, hne] using hr'
  layout :=
    { size := h.size
      pos := h.pos
      homes := fun d' r' hr' => by
        have hget : (l.registers.insert d r)[d']? = some r' := hr'
        rw [Std.TreeMap.getElem?_insert] at hget
        -- The new home is that of the declaration; all others are as they were.
        split at hget
        · next heq =>
          obtain rfl : d = d' := by simpa using heq
          obtain rfl := Option.some.inj hget
          exact hr
        · exact h.homes d' r' hget
      last := h.last }
  lines _ hline := by cases hline
  last := rfl

/-! ### Pieces -/

theorem load {index : Nat} {ty : Ty} {k : Kind} {w : Word} (span : Span)
    (hk : Kind.ofTy? ty = some k) (hindex : ℓ.constants[index]? = some w) (hw : k.IsCanonical w) :
    (l.load index ty span).Kinded c ℓ ρ K l (Kind.ofTy? ty) :=
  ⟨_, h.computed ℓ ρ _ _ rfl (.loadConstant (hk ▸ (h.fresh _).2) hindex hw), h.fresh _⟩

/-- Values are only converted between types that both have a kind, or neither. -/
theorem convert {source dest : Ty} (span : Span) (hr : KeptAs K r (Kind.ofTy? source))
    (hkind : source.hasKind = dest.hasKind) :
    (l.convert r source dest span).Kinded c ℓ ρ K l (Kind.ofTy? dest) := by
  rcases l.convert_cases r source dest span with ⟨hnone, hsame⟩ | ⟨a, b, ha, hb, hab, hone⟩
  · rw [hnone, ← Ty.kind_eq_of_hasKind hkind hsame]
    exact ⟨K, .refl h, hr⟩
  · rw [hone]
    refine ⟨_, h.computed ℓ ρ _ _ rfl (.convert hab ?_ ?_), h.fresh _⟩
    · rw [hb]
      exact (h.fresh _).2
    · rw [← ha]
      exact getElem?_grown (List.prefix_append K _) hr.2

theorem stage {ty : Ty} (span : Span) (hr : KeptAs K r (Kind.ofTy? ty)) :
    (l.stage r ty span).Kinded c ℓ ρ K l (Kind.ofTy? ty) := by
  unfold Layout.stage
  split
  · exact ⟨_, h.computed ℓ ρ _ _ rfl (.copy (h.fresh _).2
      (getElem?_grown (List.prefix_append K _) hr.2)), h.fresh _⟩
  · exact ⟨K, .refl h, hr⟩

theorem tie {d : NodeId} (span : Span) (hnew : l.registers[d]? = none)
    (hr : KeptAs K r (c.kindOf d)) :
    (l.tie d (c.typeOf d) r span).Kinded c ℓ ρ K l (c.kindOf d) := by
  obtain ⟨K', hstage, hvalue⟩ := h.stage ℓ ρ span hr
  have hsame : (l.stage r (c.typeOf d) span).layout.registers = l.registers := by
    unfold Layout.stage
    split <;> rfl
  have htied := hstage.trans (hstage.layout.withHome ℓ ρ (hsame ▸ hnew) hvalue)
  rw [List.append_nil] at htied
  exact ⟨K', htied, hvalue⟩

theorem store {home : Option Register} {ty : Ty} (span : Span)
    (hhome : ∀ r', home = some r' → KeptAs K r' (Kind.ofTy? ty)) (hr : KeptAs K r (Kind.ofTy? ty)) :
    (l.store home r ty span).Kinded c ℓ ρ K l (Kind.ofTy? ty) := by
  unfold Layout.store
  split
  · next r' =>
    have hr' := hhome r' rfl
    exact ⟨K, h.wrote ℓ ρ span hr' (.copy hr'.2 hr.2), hr⟩
  · exact ⟨K, .refl h, hr⟩

theorem convertResult {source : Ty} (span : Span) {τ? : Option Ty}
    (hr : KeptAs K r (Kind.ofTy? source)) (hkind : ∀ τ, τ? = some τ → source.hasKind = τ.hasKind) :
    ∃ K', Typed c ℓ ρ K l (l.convertResult r source τ? span).code K'
        (l.convertResult r source τ? span).layout
      ∧ ∀ τ, τ? = some τ → KeptAs K' (l.convertResult r source τ? span).value (Kind.ofTy? τ) := by
  cases τ? with
  | none => exact ⟨K, .refl h, fun _ h => (by cases h)⟩
  | some τ =>
    obtain ⟨K', hconvert, hvalue⟩ := h.convert ℓ ρ span hr
      (hkind τ rfl)
    refine ⟨K', hconvert, fun σ hσ => ?_⟩
    obtain rfl := Option.some.inj hσ
    exact hvalue

end Layout.Kinded

/-- Code that ends with an instruction that computes a value of type `ty`. -/
theorem Typed.computes (h : Typed c ℓ ρ K l code K₁ l₁) (ty : Ty) (span : Span) {i : Instruction}
    (hout : i.out = l₁.next) (hi : i.Respects c ℓ ρ (K₁ ++ [Kind.ofTy? ty]) l₁.registers) :
    TypesAs c ℓ ρ K l (Kind.ofTy? ty) (code ++ [(i, span)]) (some l₁.next) (l₁.computed ty) :=
  (h.trans (h.layout.computed ℓ ρ ty span hout hi)).withValue (h.layout.fresh _)

/-! ### Rules -/

theorem mem_zip_zip {α β γ : Type} {as : List α} {bs : List β} {cs : List γ} {e : α × β × γ}
    (h : e ∈ as.zip (bs.zip cs)) : (e.1, e.2.1) ∈ as.zip bs ∧ e.2 ∈ bs.zip cs := by
  refine ⟨?_, (List.of_mem_zip h).2⟩
  obtain ⟨n, hn⟩ := List.mem_iff_getElem?.1 h
  rw [List.getElem?_zip_eq_some, List.getElem?_zip_eq_some] at hn
  refine List.mem_iff_getElem?.2 ⟨n, ?_⟩
  rw [List.getElem?_zip_eq_some]
  exact ⟨hn.1, hn.2.1⟩

/-- The nodes of the tree whose procedure has a result of the kind `ρ`. -/
def LowerContext.Within (c : LowerContext) (ρ : Option Kind) (x : NodeId) : Prop :=
  x ∈ c.tree.preorder c.root ∧ c.resultKind? x = ρ

theorem LowerContext.Within.child (hc : c.Sound) {id x : NodeId} (hid : c.Within ρ id)
    (hprocedure : (c.tree.shape id).isProcedure = false) (hx : x ∈ (c.tree.shape id).children) :
    c.Within ρ x := by
  refine ⟨hc.tree.child hid.1 hx, ?_⟩
  rw [← hid.2]
  unfold LowerContext.resultKind?
  rw [Lowering.Before.resultTy?_child hc hid.1 hx hprocedure]

theorem LowerContext.Within.of_shape (hc : c.Sound) {id x : NodeId} {shape : Shape}
    (hid : c.Within ρ id) (hshape : c.tree.shape id = shape)
    (hprocedure : shape.isProcedure = false) (hx : x ∈ shape.children) : c.Within ρ x := by
  subst hshape
  exact hid.child hc hprocedure hx

theorem LowerContext.Within.fits (hc : c.Sound) {id x : NodeId} (hid : c.Within ρ id)
    (hprocedure : (c.tree.shape id).isProcedure = false) (h : c.Fits (c.tree.shape id) x) :
    c.Within ρ x := by
  rcases h.below with hx | ⟨y, hy, offset, hslot⟩
  · exact hid.child hc hprocedure hx
  · exact (hid.child hc hprocedure hy).of_shape hc hslot rfl (by simp [Shape.children])

/-- The home of a variable has the kind of the variable. -/
theorem Layout.Kinded.home (hc : c.Sound) (h : l.Kinded c K) {target : NodeId}
    (htarget : target ∈ c.tree.preorder c.root) (hvariable : c.typingContext.IsVariable target)
    (r : Register) (hr : l.home c target = some r) : KeptAs K r (c.kindOf target) := by
  unfold Layout.home at hr
  obtain ⟨decl, hdecl, hr⟩ := Option.bind_eq_some_iff.1 hr
  have hty := hc.typeOf_home htarget hvariable hdecl
  unfold LowerContext.kindOf
  rw [hty]
  exact h.homes decl r hr

section Rules

variable {emits : Emission} {id x : NodeId} {v : Option Register}
  (hbelow : ∀ x l code v l', c.Within ρ x → emits x l code v l' →
    TypesNode c ℓ ρ x l code v l')

include hbelow

theorem EmitsAs.typed {dest : Ty} {span : Span} (hx : c.Within ρ x)
    (hkind : (c.typeOf x).hasKind = dest.hasKind)
    (h : EmitsAs c emits x dest span l code r l') (hK : l.Kinded c K) :
    ∃ K', Typed c ℓ ρ K l code K' l' ∧ KeptAs K' r (Kind.ofTy? dest) := by
  cases h with
  | converted h hp =>
    subst hp
    obtain ⟨K₁, hcode, hvalue⟩ := hbelow _ _ _ _ _ hx h K hK
    obtain ⟨K', hconvert, hvalue'⟩ := hcode.layout.convert ℓ ρ
      span (hvalue _ rfl) hkind
    exact ⟨K', hcode.trans hconvert, hvalue'⟩

theorem EmitsDeclare.typed (hx : c.Within ρ x)
    (hkind : (c.typeOf x).hasKind = (c.typeOf id).hasKind)
    (h : EmitsDeclare c emits id x l code v l') : TypesNode c ℓ ρ id l code v l' := by
  intro K hK
  cases h with
  | missing h =>
    obtain ⟨K', hcode, -⟩ := hbelow _ _ _ _ _ hx h K hK
    exact ⟨K', hcode, fun r hr => (by cases hr)⟩
  | tied h hnew hp =>
    subst hp
    obtain ⟨K₁, hcode, hvalue⟩ := h.typed hbelow hx hkind hK
    obtain ⟨K', htie, hvalue'⟩ := hcode.layout.tie ℓ ρ (c.span id)
      hnew hvalue
    refine ⟨K', hcode.trans htie, fun r hr => ?_⟩
    obtain rfl := Option.some.inj hr
    exact hvalue'

theorem EmitsItems.typed {xs : List NodeId} {pieces : List (List CodeLine)}
    (hxs : ∀ x ∈ xs, c.Within ρ x) (h : EmitsItems emits xs l pieces l')
    (hK : l.Kinded c K) : ∃ K', Typed c ℓ ρ K l pieces.flatten K' l' := by
  induction h generalizing K with
  | nil => exact ⟨K, .refl hK⟩
  | cons hx _ ih =>
    obtain ⟨K₁, hcode, -⟩ := hbelow _ _ _ _ _ (hxs _ (.head _)) hx K hK
    obtain ⟨K', hrest⟩ := ih (fun x hx => hxs x (.tail _ hx)) hcode.layout
    exact ⟨K', hcode.trans hrest⟩

theorem EmitsInputs.typed {inputs : List NodeId} {slots : List NativeSlot}
    (hinputs : ∀ input ∈ inputs, ∀ target offset, c.tree.shape input = .slot target offset →
      c.Within ρ target) (h : EmitsInputs c emits inputs l code slots l')
    (hK : l.Kinded c K) : ∃ K', Typed c ℓ ρ K l code K' l' := by
  induction h generalizing K with
  | nil => exact ⟨K, .refl hK⟩
  | cons hslot hx _ ih =>
    obtain ⟨K₁, hcode, -⟩ := hbelow _ _ _ _ _ (hinputs _ (.head _) _ _ hslot) hx K hK
    obtain ⟨K', hrest⟩ := ih (fun input hinput => hinputs input (.tail _ hinput)) hcode.layout
    exact ⟨K', hcode.trans hrest⟩

/-- Staged values have the kinds of the values that they are copies of. -/
theorem EmitsStages.typed {values : List NodeId} {vs : List (Option Register)}
    (hvalues : ∀ x ∈ values, c.Within ρ x) (h : EmitsStages c emits values l code vs l')
    (hK : l.Kinded c K) :
    ∃ K', Typed c ℓ ρ K l code K' l'
      ∧ ∀ pair ∈ values.zip vs, ∀ r, pair.2 = some r → KeptAs K' r (c.kindOf pair.1) := by
  -- The kinds known after the first value are those that the others begin with.
  induction h generalizing K with
  | nil => exact ⟨K, .refl hK, fun _ h => (by cases h)⟩
  | missing hx _ ih =>
    -- A value without a register is nothing that a kind could be asked of.
    obtain ⟨K₁, hcode, -⟩ := hbelow _ _ _ _ _ (hvalues _ (.head _)) hx K hK
    obtain ⟨K', hrest, hkinds⟩ := ih (fun x hx => hvalues x (.tail _ hx)) hcode.layout
    refine ⟨K', hcode.trans hrest, fun pair hpair r hr => ?_⟩
    rcases List.mem_cons.1 hpair with rfl | hpair
    · cases hr
    · exact hkinds pair hpair r hr
  -- The copy is of the kind of the value, and keeps it while the others are evaluated.
  | @staged x xs l l₁ l' code rest r vs p hx hp _ ih =>
    subst hp
    obtain ⟨K₁, hcode, hvalue⟩ := hbelow _ _ _ _ _ (hvalues _ (.head _)) hx K hK
    obtain ⟨K₂, hstage, hvalue'⟩ := hcode.layout.stage ℓ ρ
      (c.span x) (hvalue r rfl)
    obtain ⟨K', hrest, hkinds⟩ := ih (fun x hx => hvalues x (.tail _ hx)) hstage.layout
    refine ⟨K', (hcode.trans hstage).trans hrest, fun pair hpair r' hr' => ?_⟩
    rcases List.mem_cons.1 hpair with rfl | hpair
    · obtain rfl := Option.some.inj hr'
      exact hvalue'.mono hrest.kinds
    · exact hkinds pair hpair r' hr'

omit hbelow in
/-- Stores of staged values keep to the kinds. -/
theorem Layout.Kinded.storeAll (hc : c.Sound) {staged : List (NodeId × NodeId × Option Register)}
    (hstaged : ∀ e ∈ staged, e.1 ∈ c.tree.preorder c.root ∧ c.typingContext.IsVariable e.1
      ∧ (c.typeOf e.2.1).hasKind = (c.typeOf e.1).hasKind
      ∧ ∀ r, e.2.2 = some r → KeptAs K r (c.kindOf e.2.1)) (hK : l.Kinded c K) :
    ∃ K', Typed c ℓ ρ K l (l.storeAll c staged).1 K' (l.storeAll c staged).2 := by
  induction staged generalizing l K with
  | nil => exact ⟨K, .refl hK⟩
  | cons e rest ih =>
    obtain ⟨target, value, v⟩ := e
    obtain ⟨htarget, hvariable, hkind, hvalue⟩ := hstaged _ (.head _)
    cases v with
    | none => exact ih (fun e he => hstaged e (.tail _ he)) hK
    | some r =>
      obtain ⟨K₁, hconvert, hvalue'⟩ := hK.convert ℓ ρ
        (c.span target) (hvalue r rfl) hkind
      obtain ⟨K₂, hstore, -⟩ := hconvert.layout.store ℓ ρ
        (c.span target) (hconvert.layout.home hc htarget hvariable) hvalue'
      have hkinds := hconvert.kinds.trans hstore.kinds
      obtain ⟨K', hrest⟩ := ih (K := K₂) (fun e he => by
        obtain ⟨h₁, h₂, h₃, h₄⟩ := hstaged e (.tail _ he)
        exact ⟨h₁, h₂, h₃, fun r hr => (h₄ r hr).mono hkinds⟩) hstore.layout
      exact ⟨K', (hconvert.trans hstore).trans hrest⟩

end Rules

/-- A literal with a value has a kind, and its word is canonical for it. -/
theorem LowerContext.Sound.canonical_literal (hc : c.Sound) {id : NodeId} {lit : Literal}
    {value : LiteralValue} (hid : id ∈ c.tree.preorder c.root)
    (hshape : c.tree.shape id = .literal lit) (hvalue : c.typing.literal? id = some value) :
    ∃ k, c.kindOf id = some k ∧ k.IsCanonical value.word := by
  obtain ⟨τ, hτ, hty⟩ := hc.judged hid hshape
  rw [LowerContext.kindOf, hτ]
  cases hty with
  | decimal => exact ⟨.i64, rfl, IntKind.isCanonical_of_full rfl _⟩
  | octal => exact ⟨.u64, rfl, IntKind.isCanonical_of_full rfl _⟩
  | float => exact ⟨.f64, rfl, Kind.isCanonical_f64 _⟩
  | @char ch h =>
    obtain rfl := Option.some.inj (hvalue.symm.trans h)
    exact ⟨.u32, rfl, Kind.isCanonical_u32 ch.val.toNat_lt_size⟩
  | text =>
    -- A text has no value.
    obtain ⟨lit', hlit, hspelled⟩ := hc.analysis.literals id value hvalue
    rw [hshape] at hlit
    cases hlit
    cases hspelled

/-! ### Nodes -/

namespace TypesNode

variable {emits : Emission} {id x : NodeId} {v : Option Register} (hc : c.Sound)
  (hid : c.Within ρ id)

include hc hid

/-- A literal is loaded from the pool. -/
theorem literal {lit : Literal} {value : LiteralValue} {index : Nat}
    (hshape : c.tree.shape id = .literal lit) (hvalue : c.typing.literal? id = some value)
    (hindex : ℓ.constants[index]? = some value.word) {p : Piece}
    (hp : p = l.load index (c.typeOf id) (c.span id)) :
    TypesNode c ℓ ρ id l p.code (some p.value) p.layout := by
  intro K hK
  subst hp
  obtain ⟨k, hk, hw⟩ := hc.canonical_literal hid.1 hshape hvalue
  exact (hK.load ℓ ρ (c.span id) hk hindex hw).typesAs

/-- A name of a declaration with a register is that register. -/
theorem identOwn {name : String} {decl : NodeId} (hshape : c.tree.shape id = .ident name)
    (hdecl : c.resolution.declaration? id = some decl) (hr : l.registers[decl]? = some r) :
    TypesNode c ℓ ρ id l [] (some r) l := by
  intro K hK
  refine (Typed.refl hK).withValue ?_
  unfold LowerContext.kindOf
  rw [hc.typeOf_ident hid.1 hshape hdecl]
  exact hK.homes _ _ hr

/-- A name of a constant without a register is the literal that the constant stands for. -/
theorem identLiteral {name : String} {decl : NodeId} {lit : Literal} {value : LiteralValue}
    {index : Nat} (hshape : c.tree.shape id = .ident name)
    (hdecl : c.resolution.declaration? id = some decl)
    (hlit : Lower.literalConstant? c.tree decl = some (x, lit))
    (hvalue : c.typing.literal? x = some value) (hindex : ℓ.constants[index]? = some value.word)
    {p : Piece} (hp : p = l.load index (c.typeOf x) (c.span id)) :
    TypesNode c ℓ ρ id l p.code (some p.value) p.layout := by
  intro K hK
  subst hp
  obtain ⟨decl', hdecl', hmem, -⟩ := hc.analysis.bound id name hid.1 hshape
  obtain rfl := Option.some.inj (hdecl.symm.trans hdecl')
  obtain ⟨hx, hxshape, hty⟩ := hc.literalConstant hmem hlit
  have hkind : c.kindOf id = c.kindOf x := by
    unfold LowerContext.kindOf
    rw [hc.typeOf_ident hid.1 hshape hdecl, ← hty]
  obtain ⟨k, hk, hw⟩ := hc.canonical_literal hx hxshape hvalue
  rw [hkind]
  exact (hK.load ℓ ρ (c.span id) hk hindex hw).typesAs

omit hc hid in
/-- The negation of a literal is loaded as a whole only where it is in the range of its kind. -/
theorem folded {w : Word} {index : Nat} (hword : Lower.negatedLiteral? c x (c.typeOf id) = some w)
    (hindex : ℓ.constants[index]? = some w) {p : Piece}
    (hp : p = l.load index (c.typeOf id) (c.span id)) :
    TypesNode c ℓ ρ id l p.code (some p.value) p.layout := by
  intro K hK
  subst hp
  obtain ⟨k, _, n, hk, -, -, -, hlo, rfl⟩ := Lower.negatedLiteral_some hword
  have hw := IntKind.isCanonical_ofInt (IntKind.fits_neg hlo)
  exact (hK.load ℓ ρ (c.span id) hk hindex hw).typesAs

/-- A return without a value stands in a procedure that declares no result. -/
theorem retBare {span : Span} (hshape : c.tree.shape id = .ret none) :
    TypesNode c ℓ ρ id l [(⟨.ret, .none, .none, .none⟩, span)] none l := by
  intro K hK
  refine (hK.silent ℓ ρ span rfl (.retNone ?_)).noValue
  rw [← hid.2]
  exact hc.resultKind?_ret_none hid.1 hshape

variable (hbelow : ∀ x l code v l', c.Within ρ x → emits x l code v l' →
  TypesNode c ℓ ρ x l code v l')

include hbelow

theorem assign {target value : NodeId} (hshape : c.tree.shape id = .assign target value)
    (h : EmitsAs c emits value (c.typeOf target) (c.span value) l code r l₁) {p : Piece}
    (hp : p = l₁.store (l₁.home c target) r (c.typeOf target) (c.span id)) :
    TypesNode c ℓ ρ id l (code ++ p.code) none p.layout := by
  intro K hK
  subst hp
  obtain ⟨hvariable, hkind⟩ := hc.hasKind_assign hid.1 hshape
  have htarget := hid.of_shape hc hshape rfl (x := target) (by simp [Shape.children])
  have hvalue := hid.of_shape hc hshape rfl (x := value) (by simp [Shape.children])
  obtain ⟨K₁, hcode, hr⟩ := h.typed hbelow hvalue hkind hK
  have hhome := hcode.layout.home hc htarget.1 hvariable
  exact (hcode.piece (hcode.layout.store ℓ ρ (c.span id) hhome hr)).dropped

theorem parallel {targets values : List NodeId} {vs : List (Option Register)}
    {lines : List CodeLine} (hshape : c.tree.shape id = .parallel targets values)
    (h : EmitsStages c emits values l code vs l₁)
    (hp : l₁.storeAll c (targets.zip (values.zip vs)) = (lines, l')) :
    TypesNode c ℓ ρ id l (code ++ lines) none l' := by
  intro K hK
  have hchild {x : NodeId} (hx : x ∈ targets ++ values) : c.Within ρ x :=
    hid.of_shape hc hshape rfl (by simpa [Shape.children] using hx)
  obtain ⟨K₁, hcode, hkinds⟩ :=
    h.typed hbelow (fun x hx => hchild (List.mem_append_right targets hx)) hK
  have hstaged : ∀ e ∈ targets.zip (values.zip vs), e.1 ∈ c.tree.preorder c.root
      ∧ c.typingContext.IsVariable e.1 ∧ (c.typeOf e.2.1).hasKind = (c.typeOf e.1).hasKind
      ∧ ∀ r, e.2.2 = some r → KeptAs K₁ r (c.kindOf e.2.1) := by
    intro e he
    obtain ⟨hpair, hvalue⟩ := mem_zip_zip he
    obtain ⟨hvariable, hkind⟩ := hc.hasKind_parallel hid.1 hshape _ hpair
    have htarget := List.mem_append_left values (List.of_mem_zip hpair).1
    exact ⟨(hchild htarget).1, hvariable, hkind, hkinds e.2 hvalue⟩
  obtain ⟨K', hstores⟩ := hcode.layout.storeAll (ℓ := ℓ) (ρ := ρ) hc hstaged
  rw [hp] at hstores
  exact (hcode.trans hstores).noValue

/-- A returned value is converted to the declared result before it is handed back. -/
theorem ret (hshape : c.tree.shape id = .ret (some x)) (h : emits x l code (some r) l₁) {p : Piece}
    (hp : p = l₁.convertResult r (c.typeOf x) (c.resultTy? id) (c.span id)) :
    TypesNode c ℓ ρ id l
      (code ++ p.code ++ [(⟨.ret, .none, .register p.value, .none⟩, c.span id)]) none p.layout := by
  intro K hK
  subst hp
  have hx := hid.of_shape hc hshape rfl (x := x) (by simp [Shape.children])
  obtain ⟨K₁, hcode, hvalue⟩ := hbelow _ _ _ _ _ hx h K hK
  obtain ⟨K', hconvert, hkind⟩ := hcode.layout.convertResult ℓ ρ (c.span id) (hvalue r rfl)
    fun τ hτ => hc.hasKind_ret hid.1 hshape hτ
  refine ((hcode.trans hconvert).trans
    (hconvert.layout.silent ℓ ρ (c.span id) rfl (.ret fun k hk => ?_))).noValue
  -- The kind `k` of the procedure is that of the result that is declared around the return.
  rw [← hid.2] at hk
  obtain ⟨τ, hτ, hk⟩ := Option.bind_eq_some_iff.1 hk
  rw [← hk]
  exact (hkind τ hτ).2

theorem binary {left op right : NodeId} {sym : BinaryOp} {kind : Kind} {l₂ : Layout}
    {code₁ code₂ : List CodeLine} {a b : Register}
    (hshape : c.tree.shape id = .binary left op right) (hkind : c.kindOf id = some kind)
    (hleft : EmitsAs c emits left (c.typeOf id) (c.span left) l code₁ a l₁)
    (hright : EmitsAs c emits right (c.typeOf id) (c.span right) l₁ code₂ b l₂) :
    TypesNode c ℓ ρ id l
      (code₁ ++ code₂ ++ [(⟨.binary sym kind, l₂.next, .register a, .register b⟩, c.span id)])
      (some l₂.next) (l₂.computed (c.typeOf id)) := by
  intro K hK
  obtain ⟨hkleft, hkright⟩ := hc.hasKind_binary hid.1 hshape
  -- Both operands are converted to the kind of the whole.
  have hkid : (c.typeOf id).hasKind = true := by
    unfold Ty.hasKind
    rw [show Kind.ofTy? (c.typeOf id) = some kind from hkind]
    rfl
  obtain ⟨K₁, hcode₁, ha⟩ := hleft.typed hbelow
    (hid.of_shape hc hshape rfl (by simp [Shape.children])) (hkleft.trans hkid.symm) hK
  obtain ⟨K₂, hcode₂, hb⟩ := hright.typed hbelow
    (hid.of_shape hc hshape rfl (by simp [Shape.children])) (hkright.trans hkid.symm) hcode₁.layout
  -- The register of the result is new, so the operands keep the kinds they have.
  have hprefix := List.prefix_append K₂ [c.kindOf id]
  have hfresh := (hcode₂.layout.fresh (c.kindOf id)).2
  refine (hcode₁.trans hcode₂).computes (c.typeOf id) (c.span id) rfl (.binary ?_ ?_ ?_)
  · exact hkind ▸ hfresh
  · exact hkind ▸ ((ha.mono hcode₂.kinds).mono hprefix).2
  · exact hkind ▸ (hb.mono hprefix).2

theorem minus {op : NodeId} {kind : Kind} (hshape : c.tree.shape id = .signed op x)
    (hkind : c.kindOf id = some kind)
    (h : EmitsAs c emits x (c.typeOf id) (c.span x) l code r l₁) :
    TypesNode c ℓ ρ id l (code ++ [(⟨.negate kind, l₁.next, .register r, .none⟩, c.span id)])
      (some l₁.next) (l₁.computed (c.typeOf id)) := by
  intro K hK
  obtain ⟨hkx, hkid⟩ := hc.hasKind_signed hid.1 hshape
  obtain ⟨K₁, hcode, hvalue⟩ := h.typed hbelow
    (hid.of_shape hc hshape rfl (by simp [Shape.children])) (hkx.trans hkid.symm) hK
  refine hcode.computes (c.typeOf id) (c.span id) rfl (.negate ?_ ?_)
  · exact hkind ▸ (hcode.layout.fresh (c.kindOf id)).2
  · exact hkind ▸ (hvalue.mono (List.prefix_append K₁ _)).2

theorem call {callee target index : NodeId} (hshape : c.tree.shape id = .call callee)
    (h : emits callee l code v l₁)
    (htarget : c.resolution.procedureTarget? c.tree callee = some target)
    (hindex : ℓ.targets[target]? = some index) :
    TypesNode c ℓ ρ id l (code ++ [(⟨.call, l₁.next, .procedure index, .none⟩, c.span id)])
      (some l₁.next) (l₁.computed (c.typeOf id)) := by
  intro K hK
  obtain ⟨K₁, hcode, -⟩ :=
    hbelow _ _ _ _ _ (hid.of_shape hc hshape rfl (by simp [Shape.children])) h K hK
  exact hcode.computes (c.typeOf id) (c.span id) rfl
    (.call (hcode.layout.fresh _).2 (hc.declares hid.1 hshape htarget hindex))

/-- The inputs of native code, whose slots are for nodes of the same procedure. -/
theorem nativeInputs {source : String} {inputs : List NodeId} {slots : List NativeSlot}
    {output : Option NodeId} (hshape : c.tree.shape id = .native source inputs output)
    (h : EmitsInputs c emits inputs l code slots l') (hK : l.Kinded c K) :
    ∃ K', Typed c ℓ ρ K l code K' l' :=
  h.typed hbelow (fun input hinput target offset hslot =>
    (hid.of_shape hc hshape rfl (by simp [Shape.children, hinput])).of_shape hc hslot rfl
      (by simp [Shape.children])) hK

/-- Native code writes its output to the home of a variable. -/
theorem native {source : String} {inputs : List NodeId} {slots : List NativeSlot} {index : Nat}
    {output target : NodeId} {offset : Nat}
    (hshape : c.tree.shape id = .native source inputs (some output))
    (h : EmitsInputs c emits inputs l code slots l₁)
    (hslot : c.tree.shape output = .slot target offset) (hhome : l₁.home c target = some r)
    (hindex : ℓ.natives[index]? = some ⟨source, slots, some ⟨Lower.slotName c target, offset, r⟩⟩) :
    TypesNode c ℓ ρ id l (code ++ [(⟨.callNative, r, .native index, .none⟩, c.span id)]) (some r)
      (l₁.wrote r (c.typeOf output)) := by
  intro K hK
  obtain ⟨K', hcode⟩ := nativeInputs hc hid hbelow hshape h hK
  have houtput := hid.of_shape hc hshape rfl (x := output) (by simp [Shape.children])
  have htarget := houtput.of_shape hc hslot rfl (x := target) (by simp [Shape.children])
  obtain ⟨hty, hvariable⟩ := hc.native_output hid.1 hshape hslot
  obtain ⟨decl, hdecl, hregister⟩ := Option.bind_eq_some_iff.1 hhome
  -- The native node, its output, the variable and its declaration have the same type.
  have hkindOutput : c.kindOf output = c.kindOf target :=
    congrArg Kind.ofTy? (hc.typeOf_slot houtput.1 hslot)
  have hkindDecl : c.kindOf target = c.kindOf decl :=
    congrArg Kind.ofTy? (hc.typeOf_home htarget.1 hvariable hdecl)
  have hr := hcode.layout.home hc htarget.1 hvariable r hhome
  rw [← hkindOutput] at hr
  have hwrites : c.NativeWrites ℓ index decl r :=
    ⟨id, source, inputs, output, target, offset, slots, hid.1, hshape, hslot, hdecl, hindex⟩
  have hinstruction : Instruction.Respects c ℓ ρ K' l₁.registers
      ⟨.callNative, r, .native index, .none⟩ :=
    .native hwrites hregister (by rw [← hkindDecl, ← hkindOutput]; exact hr.2)
  refine (hcode.trans (hcode.layout.wrote ℓ ρ (c.span id) hr hinstruction)).withValue ?_
  rw [show c.kindOf id = c.kindOf output from congrArg Kind.ofTy? hty]
  exact hr

end TypesNode

/-- **The code of every node keeps to the kinds**, and its value has the kind of its type. -/
theorem Emits.typed (hc : c.Sound) {id : NodeId} {v : Option Register}
    (hid : c.Within ρ id) (h : Emits c ℓ id l code v l') :
    TypesNode c ℓ ρ id l code v l' := by
  -- By the number of the node; what is inside the same procedure has the same result type.
  refine Emits.induction
    (motive := fun id l code v l' => c.Within ρ id → TypesNode c ℓ ρ id l code v l')
    (fun emits id ih l code v l' _ hrule hid => ?_) h hid
  have hbelow : ∀ x l code v l', c.Within ρ x → emits x l code v l' →
      TypesNode c ℓ ρ x l code v l' := fun x l code v l' hx h => (ih x l code v l' h).2 hx
  generalize hshape : c.tree.shape id = shape at hrule
  have child {x : NodeId} := hid.of_shape hc hshape (x := x)
  cases hrule with
  | module h | block h =>
    intro K hK
    obtain ⟨K', hcode⟩ := h.typed hbelow (fun x hx => child rfl (by simpa [Shape.children])) hK
    exact hcode.noValue
  -- No code, so no register and no kind is added.
  | inert | procedure | identProcedure | identAbsent => exact fun K hK => (Typed.refl hK).noValue
  | constant h =>
    have hkind := congrArg Ty.hasKind (hc.typeOf_constant hid.1 hshape).symm
    exact h.typed hbelow (child rfl (by simp [Shape.children])) hkind
  | var h =>
    exact h.typed hbelow (child rfl (by simp [Shape.children])) (hc.hasKind_var hid.1 hshape)
  -- The register that is given out gets the kind of the variable.
  | varFresh hnew hp =>
    subst hp
    intro K hK
    have hreserved := hK.reserved ℓ ρ (c.kindOf id)
    exact hreserved.piece (hreserved.layout.tie ℓ ρ (c.span id) hnew (hK.fresh (c.kindOf id)))
  -- The value is dropped, but its code keeps to the kinds.
  | exprStmt h =>
    exact fun K hK => (hbelow _ _ _ _ _ (child rfl (by simp [Shape.children])) h K hK).dropped
  | assignMissing h | retMissing h | castMissing h =>
    exact fun K hK => (hbelow _ _ _ _ _ (child rfl (by simp [Shape.children])) h K hK).dropped
  | assign h hp => exact .assign hc hid hbelow hshape h hp
  | parallel h hp => exact .parallel hc hid hbelow hshape h hp
  | retBare => exact .retBare hc hid hshape
  | ret h hp => exact .ret hc hid hbelow hshape h hp
  | literal hvalue hindex hp => exact .literal hc hid hshape hvalue hindex hp
  | identOwn hdecl _ hr => exact .identOwn hc hid hshape hdecl hr
  | identLiteral hdecl _ _ hlit hvalue hindex hp =>
    exact .identLiteral hc hid hshape hdecl hlit hvalue hindex hp
  | binary _ hkind hleft hright => exact .binary hc hid hbelow hshape hkind hleft hright
  | plus _ h =>
    intro K hK
    obtain ⟨hkx, hkid⟩ := hc.hasKind_signed hid.1 hshape
    obtain ⟨K', hcode, hvalue⟩ := h.typed hbelow (child rfl (by simp [Shape.children]))
      (hkx.trans hkid.symm) hK
    exact hcode.withValue hvalue
  | folded _ hword hindex hp => exact .folded hword hindex hp
  | minus _ _ hkind h => exact .minus hc hid hbelow hshape hkind h
  -- Parentheses have the type of what is in them.
  | group h =>
    intro K hK
    rw [show c.kindOf id = _ from congrArg Kind.ofTy? (hc.typeOf_group hid.1 hshape)]
    exact hbelow _ _ _ _ _ (child rfl (by simp [Shape.children])) h K hK
  | call h htarget hindex => exact .call hc hid hbelow hshape h htarget hindex
  -- The conversion leads to the kind of the cast.
  | cast h =>
    intro K hK
    obtain ⟨K', hcode, hvalue⟩ := h.typed hbelow (child rfl (by simp [Shape.children]))
      (hc.hasKind_cast hid.1 hshape) hK
    exact hcode.withValue hvalue
  | nativeSilent h hindex =>
    intro K hK
    obtain ⟨K', hcode⟩ := TypesNode.nativeInputs hc hid hbelow hshape h hK
    exact (hcode.trans (hcode.layout.silent ℓ ρ _ rfl (.nativeSilent hindex))).noValue
  | native h hslot hhome hindex => exact .native hc hid hbelow hshape h hslot hhome hindex
  | slot h =>
    intro K hK
    rw [show c.kindOf id = _ from congrArg Kind.ofTy? (hc.typeOf_slot hid.1 hshape)]
    exact hbelow _ _ _ _ _ (child rfl (by simp [Shape.children])) h K hK

/-! ### Procedures -/

/-- A procedure that keeps to the kinds of its registers. -/
structure Procedure.Kinded (c : LowerContext) (ℓ : Linkage) (ρ : Option Kind) (K : RegisterKinds)
    (p : Procedure) : Prop where
  /-- There is a kind, or none, for each register of the frame. -/
  size : K.length = p.nextRegister
  /-- Every instruction keeps to them. -/
  code : ∀ i ∈ p.code, i.Kinded c ℓ ρ K p.registers
  /-- The register written last is remembered. -/
  last : p.lastRegister = lastOut .none p.code.toList
  /-- It has the kind of the value that is remembered with it. -/
  lastKind : p.lastRegister ≠ .none → K[p.lastRegister]? = some (Kind.ofTy? p.lastTy)

/-- A procedure that respects the kinds of its registers, with a register of its kind for each of
its declarations. -/
structure Procedure.Respects (c : LowerContext) (ℓ : Linkage) (ρ : Option Kind) (K : RegisterKinds)
    (p : Procedure) : Prop where
  /-- There is a kind, or none, for each register of the frame. -/
  size : K.length = p.nextRegister
  /-- Every instruction respects them. -/
  code : ∀ i ∈ p.code, i.Respects c ℓ ρ K p.registers
  /-- The register of a declaration has its kind. -/
  homes : ∀ (d : NodeId) (r : Register), p.registers[d]? = some r →
    r ≠ .none ∧ K[r]? = some (c.kindOf d)
  /-- The register written last is remembered. -/
  last : p.lastRegister = lastOut .none p.code.toList
  /-- It has the kind of the value that is remembered with it. -/
  lastKind : p.lastRegister ≠ .none → K[p.lastRegister]? = some (Kind.ofTy? p.lastTy)

theorem Procedure.Respects.kinded {p : Procedure} (h : p.Respects c ℓ ρ K) : p.Kinded c ℓ ρ K :=
  ⟨h.size, fun i hi => (h.code i hi).kinded, h.last, h.lastKind⟩

theorem Layout.Kinded.initial : Layout.initial.Kinded c [none] where
  size := rfl
  pos := Nat.one_pos
  homes d r h := by simp [Layout.initial] at h
  last h := (h rfl).elim

/-- The value written last is converted, or it stays as it is. -/
theorem Layout.Kinded.convertLast (h : l.Kinded c K) (τ? : Option Ty) (span : Span) :
    ∃ K', Typed c ℓ ρ K l (l.convertLast τ? span).code K' (l.convertLast τ? span).layout := by
  unfold Layout.convertLast Layout.convertResult
  split
  · exact ⟨K, .refl h⟩
  · next hlast =>
    cases τ? with
    | none => exact ⟨K, .refl h⟩
    | some τ =>
      by_cases hkind : l.lastTy.hasKind = τ.hasKind
      · obtain ⟨K', hconvert, -⟩ := h.convert ℓ ρ span ⟨hlast, h.last hlast⟩ hkind
        exact ⟨K', hconvert⟩
      · refine ⟨K, ?_⟩
        rcases l.convert_cases l.lastRegister l.lastTy τ span with ⟨hnone, -⟩ | ⟨a, b, ha, hb, -⟩
        · simp only [hnone]
          exact .refl h
        · exact (hkind (by simp [Ty.hasKind, ha, hb])).elim

/-- **The code of a body respects the kinds of its registers.** -/
theorem Compiles.respects (hc : c.Sound) {body : NodeId} {τ? : Option Ty} {p : Procedure}
    (hbody : c.Within ρ body) (h : Compiles c ℓ body τ? p) : ∃ K, p.Respects c ℓ ρ K := by
  obtain ⟨hemits, rfl, hcode, -, hregisters, hnext, hlastRegister, hlastTy⟩ := h
  obtain ⟨K₁, htyped, -⟩ := Emits.typed hc hbody hemits _ .initial
  obtain ⟨K, hlast⟩ := htyped.layout.convertLast (ℓ := ℓ) (ρ := ρ) τ? (c.span body)
  have hall := htyped.trans hlast
  refine ⟨K, hall.layout.size.trans hnext.symm, fun i hi => ?_, fun d r hr => ?_, ?_, fun hne => ?_⟩
  · rw [← Array.mem_toList_iff, hcode] at hi
    obtain ⟨line, hline, rfl⟩ := List.mem_map.1 hi
    rw [hregisters]
    exact hall.lines line hline
  · rw [hregisters] at hr
    exact hall.layout.homes d r hr
  · rw [hlastRegister, hcode]
    exact hall.last
  · rw [hlastRegister] at hne ⊢
    rw [hlastTy]
    exact hall.layout.last hne

theorem Compiles.kinded (hc : c.Sound) {body : NodeId} {τ? : Option Ty} {p : Procedure}
    (hbody : c.Within ρ body) (h : Compiles c ℓ body τ? p) : ∃ K, p.Kinded c ℓ ρ K := by
  obtain ⟨K, hK⟩ := h.respects hc hbody
  exact ⟨K, hK.kinded⟩

end MiddleEnd
