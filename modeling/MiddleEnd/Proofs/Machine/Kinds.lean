import MiddleEnd.Proofs.Lowering.Implements
import MiddleEnd.Proofs.Lowering.Kinds
import MiddleEnd.Proofs.Machine.Activation

/-!
# Kinds of values at run time

A machine keeps canonical words in the registers that have a kind, if native functions and the calls
of procedures do their part.

## Main definitions

* `Machine.NativesKinded` — native functions give canonical words.
* `Machine.Fitted` — the invariant of any activation of a well-formed procedure.
* `Machine.LastAt` — the value written last is in the register that the code writes last.
* `Machine.KindedAt` — the invariant of an activation whose registers have kinds.
* `Machine.CallsKinded` — the calls of a procedure with a result of some kind give canonical words.

## Main results

* `Machine.Activated.cached` — what holds where an activation begins, in whatever history.
* `Machine.Step.lastAt`, `Machine.Reaches.lastAt` — where the value written last is.
* `Machine.Step.kindedAt`, `Machine.Reaches.kindedAt` — instructions keep the invariant.
-/

namespace MiddleEnd

/-- Native code with a given index writes the variable `decl`. -/
def Program.Writes (P : Program) (index : Nat) (decl : NodeId) : Prop :=
  ∃ p ∈ P.procedures, ∃ i ∈ p.code, i.op = .callNative ∧ i.left = .native index
    ∧ p.registers[decl]? = some i.out

namespace Machine

variable {σ : Type}

/-- All results of a function are canonical for the variables that its native code writes. -/
def GivesKind (m : Machine σ) (c : LowerContext) (index : Nat) (f : NativeFunction) : Prop :=
  ∀ args w, f.call args = .ok (some w) →
    ∀ decl k, m.program.Writes index decl → c.kindOf decl = some k → k.IsCanonical w

/-- Every native function that the backend builds gives words that are canonical for the kind of the
variable which its native code writes. -/
def NativesKinded (m : Machine σ) (c : LowerContext) : Prop :=
  ∀ (index : Nat) (call : NativeCall), m.program.natives[index]? = some call →
    ∀ (s : σ) (f : NativeFunction) (s' : σ), m.backend.compile s call = (.ok f, s') →
      m.GivesKind c index f

/-- What is known of the native functions of a machine. -/
def Serving (m : Machine σ) (c : LowerContext) (index : Nat) (f : NativeFunction) : Prop :=
  m.Serves index f ∧ m.GivesKind c index f

theorem trusts_serving {m : Machine σ} {c : LowerContext} (h : m.NativesKinded c) :
    m.Trusts (m.Serving c) where
  built index call hcall s f s' hbuilt hfits :=
    ⟨m.trusts_serves.built index call hcall s f s' hbuilt hfits, h index call hcall s f s' hbuilt⟩
  fits index call hcall f hf := m.trusts_serves.fits index call hcall f hf.1

variable {m : Machine σ} {Q : Nat → NativeFunction → Prop}
  {call : Option (Procedure → Run σ Word)} {s s' : MachineState σ} {frame frame' : RegisterFile}

/-- What native code gives is the result of a function that serves it. -/
theorem callNative_ok (hQ : m.Trusts Q) (hs : Cached Q s) {site : Site} {index : Nat}
    {r : Option Word} (h : (m.callNative site frame index).run s = (.ok r, s')) :
    ∃ f args, Q index f ∧ f.call args = .ok r := by
  unfold callNative at h
  cases hcall : m.program.natives[index]? with
  | none =>
    rw [hcall] at h
    exact (run_fail_ok.1 h).elim
  | some native =>
    simp only [hcall, run_bind_ok, run_modifyGet_ok] at h
    obtain ⟨built, s₁, hbuilt, h⟩ := h
    have hcached := (nativeFunction_cached hQ hcall hs).2
    rw [hbuilt] at hcached
    cases built with
    | error e => cases e <;> cases h
    | ok f =>
      simp only [run_bind_ok, run_locate_ok, run_pure_ok, mapError_ok_iff] at h
      obtain ⟨args, _, -, result, _, ⟨hresult, -⟩, _, _, -, rfl, -⟩ := h
      exact ⟨f, args, hcached f rfl, hresult⟩

/-! ### The invariant -/

variable {c : LowerContext} {ℓ : Linkage} {ρ : Option Kind} {K : RegisterKinds} {p : Procedure}
  {k k' : Point σ}

/-- Registers with a kind hold canonical words. -/
def FrameKinded (K : RegisterKinds) (frame : RegisterFile) : Prop :=
  ∀ (r : Register) (k : Kind) (w : Word), K[r]? = some (some k) → frame[r]? = some w →
    k.IsCanonical w

/-- The invariant of any activation of `p`: its frame has the size that its code is made for. -/
structure Fitted (Q : Nat → NativeFunction → Prop) (p : Procedure) (k : Point σ) : Prop where
  /-- The frame has a register for each that the code uses. -/
  size : k.frame.size = p.nextRegister
  /-- The functions that have been built have the property. -/
  cached : Cached Q k.state

/-- The value written last is in the register that the code of `p` writes last, and it is zero where
nothing has been written. -/
structure LastAt (p : Procedure) (k : Point σ) : Prop where
  /-- Where no instruction so far has an output, the value is zero. -/
  last_none : lastOut .none (p.code.toList.take k.pc) = .none → k.last = 0
  /-- Elsewhere it is in the register written last. -/
  last : lastOut .none (p.code.toList.take k.pc) ≠ .none →
    k.frame[lastOut .none (p.code.toList.take k.pc)]? = some k.last

/-- The invariant of an activation of `p` whose registers have the kinds `K`: registers with a kind
hold canonical words, and the value written last is in the register that the code writes last. -/
structure KindedAt (Q : Nat → NativeFunction → Prop) (K : RegisterKinds) (p : Procedure)
    (k : Point σ) : Prop extends Fitted Q p k where
  /-- Registers with a kind hold canonical words of it. -/
  frame : FrameKinded K k.frame
  /-- Where no instruction so far has an output, the value written last is zero. -/
  last_none : lastOut .none (p.code.toList.take k.pc) = .none → k.last = 0
  /-- Elsewhere it is in the register written last. -/
  last : lastOut .none (p.code.toList.take k.pc) ≠ .none →
    k.frame[lastOut .none (p.code.toList.take k.pc)]? = some k.last

theorem Fitted.start (hs : Cached Q s) : Fitted Q p (.start p s) :=
  ⟨by simp [Point.start, RegisterFile.zeroed, Procedure.frameSize], hs⟩

theorem LastAt.start : LastAt p (.start p s) := ⟨fun _ => rfl, fun h => (h rfl).elim⟩

theorem KindedAt.start (hs : Cached Q s) : KindedAt Q K p (.start p s) where
  toFitted := .start hs
  frame r k w _ hw := by
    simp only [Point.start, RegisterFile.zeroed, Array.getElem?_replicate] at hw
    split at hw
    · obtain rfl := Option.some.inj hw
      exact k.isCanonical_zero
    · cases hw
  last_none _ := rfl
  last h := (h rfl).elim

/-- An instruction that is passed without writing has no register to write to. -/
theorem out_of_skip (hQ : m.Trusts Q) {i : Instruction} (hi : i.Fits m.program frame.size)
    (hs : Cached Q s) {site : Site} (h : m.Performs call site frame s i .skip s') :
    i.out = .none := by
  cases h with
  | noop => cases hi
  | @nativeSilent _ _ index _ hcall =>
    cases hi with
    | @callNative _ native hindex hinputs houtput =>
      obtain ⟨-, hsafe⟩ := callNative_safe hQ hindex hinputs s hs
      rw [hcall] at hsafe
      have hnone : native.output = none := by
        cases hnative : native.output with
        | none => rfl
        | some slot =>
          rw [hnative] at hsafe
          cases hsafe
      rw [hnone]
      rfl

/-- The register that code writes last, with one more instruction. -/
theorem lastOut_take_succ {pc : Nat} {i : Instruction} (hi : p.code[pc]? = some i) :
    lastOut .none (p.code.toList.take (pc + 1))
      = if i.out = .none then lastOut .none (p.code.toList.take pc) else i.out := by
  rw [List.take_add_one, Array.getElem?_toList, hi, Option.toList_some, lastOut_append]
  rfl

section Fitted

variable (hm : m.program.WellFormed) (hQ : m.Trusts Q) (hp : p.WellFormed m.program)
  (hsafe : ∀ f, call = some f → ∀ q, q.WellFormed m.program → Safe Q (f q) fun _ => True)

include hm hQ hp hsafe

/-- The state after an instruction. -/
theorem Fitted.effect (h : Fitted Q p k) {i : Instruction} (hi : p.code[k.pc]? = some i)
    {e : Effect} (heffect : (m.effect call ⟨p, k.pc⟩ k.frame i).run k.state = (.ok e, s)) :
    Cached Q s := by
  have hfits := hp.fits i (Array.mem_of_getElem? hi)
  rw [← h.size] at hfits
  have hstate : Cached Q ((m.effect call ⟨p, k.pc⟩ k.frame i).run k.state).2 :=
    (effect_safe hQ hm hfits hsafe k.state h.cached).1
  rwa [heffect] at hstate

theorem Step.fitted (hstep : m.Step call p k k') (h : Fitted Q p k) : Fitted Q p k' := by
  cases hstep with
  | skip hi heffect => exact ⟨h.size, h.effect hm hQ hp hsafe hi heffect⟩
  | write hi heffect hframe =>
    refine ⟨?_, h.effect hm hQ hp hsafe hi heffect⟩
    obtain ⟨-, hlt, rfl⟩ := write_ok_iff.1 hframe
    rw [Array.size_set]
    exact h.size

theorem Reaches.fitted (hreach : m.Reaches call p k k') (h : Fitted Q p k) : Fitted Q p k' := by
  induction hreach with
  | refl => exact h
  | tail _ hstep ih => exact hstep.fitted hm hQ hp hsafe ih

omit hm hsafe in
/-- An instruction that writes puts the value written last into its register. -/
theorem Step.lastAt (hstep : m.Step call p k k') (hfitted : Fitted Q p k) (h : LastAt p k) :
    LastAt p k' := by
  cases hstep with
  | @skip i s hi heffect =>
    have hfits := hp.fits i (Array.mem_of_getElem? hi)
    rw [← hfitted.size] at hfits
    have hlast := lastOut_take_succ hi
    rw [if_pos (out_of_skip hQ hfits hfitted.cached (performs_of_effect heffect))] at hlast
    refine ⟨?_, ?_⟩
    · rw [hlast]
      exact h.last_none
    · rw [hlast]
      exact h.last
  | @write i s w frame hi heffect hframe =>
    obtain ⟨hout, hlt, hset⟩ := write_ok_iff.1 hframe
    have hlast := lastOut_take_succ hi
    rw [if_neg hout] at hlast
    refine ⟨fun hnone => ?_, fun _ => ?_⟩
    · rw [hlast] at hnone
      exact (hout hnone).elim
    · rw [hlast, hset]
      exact Array.getElem?_set_self hlt

theorem Reaches.lastAt (hreach : m.Reaches call p k k') (hfitted : Fitted Q p k)
    (h : LastAt p k) : LastAt p k' := by
  induction hreach with
  | refl => exact h
  | tail hreach hstep ih =>
    exact hstep.lastAt hQ hp (Reaches.fitted hm hQ hp hsafe hreach hfitted) ih

end Fitted

/-- The invariant holds where an activation begins, in whatever history. -/
theorem Activated.cached (hm : m.program.WellFormed) (hQ : m.Trusts Q) {depth : Nat}
    (h : m.Activated depth p s) : Cached Q s ∧ p ∈ m.program.procedures := by
  induction h with
  | entered h hp => exact ⟨h.cached hQ hm, Array.mem_of_getElem? hp⟩
  | @called depth p callee s k i index _ hk _ _ _ hcallee ih =>
    obtain ⟨index', hp⟩ := Array.getElem?_of_mem ih.2
    have hfitted := hk.fitted hm hQ (hm.procedures _ p hp) (calls_safe hQ hm _)
      (Fitted.start ih.1)
    exact ⟨hfitted.cached, Array.mem_of_getElem? hcallee⟩

/-- What is known of the calls that a procedure makes. -/
def CallsKinded (m : Machine σ) (c : LowerContext) (ℓ : Linkage) (Q : Nat → NativeFunction → Prop)
    (call : Option (Procedure → Run σ Word)) : Prop :=
  ∀ f, call = some f → ∀ index q, m.program.procedures[index]? = some q →
    ∀ s w s', Cached Q s → (f q).run s = (.ok w, s') →
      ∀ k, c.CallGives ℓ index k → k.IsCanonical w

section Steps

variable (hm : m.program.WellFormed) (hQ : m.Trusts (m.Serving c))
  (hsafe : ∀ f, call = some f → ∀ q, q.WellFormed m.program →
    Safe (m.Serving c) (f q) fun _ => True)
  (hcalls : m.CallsKinded c ℓ (m.Serving c) call)
  (hconstants : ℓ.constants = m.program.constants) (hp : p.WellFormed m.program)
  (hmem : p ∈ m.program.procedures) (hK : p.Kinded c ℓ ρ K)

/-- The registers of a frame after one of them has been written. -/
theorem FrameKinded.write (h : FrameKinded K frame) {out : Register} {w : Word}
    (hw : ∀ k, K[out]? = some (some k) → k.IsCanonical w)
    (hframe : frame.write out w = .ok frame') : FrameKinded K frame' := by
  obtain ⟨-, hlt, rfl⟩ := write_ok_iff.1 hframe
  intro r k w' hr hw'
  rw [Array.getElem?_set] at hw'
  split at hw'
  · next heq =>
    obtain rfl : out = r := heq
    obtain rfl := Option.some.inj hw'
    exact hw k hr
  · exact h r k w' hr hw'

include hQ hcalls hconstants hmem hK in
/-- What an instruction writes is canonical for the kind of the register that it writes to. -/
theorem canonical_of_performs (hs : Cached (m.Serving c) s)
    (hframe : FrameKinded K frame) {site : Site} {i : Instruction} (hi : i ∈ p.code)
    (hne : i.out ≠ .none) {w : Word} (h : m.Performs call site frame s i (.write w) s') :
    ∀ k, K[i.out]? = some (some k) → k.IsCanonical w := by
  intro k hk
  have hkinded := hK.code i hi
  -- The kind of the register is what its instruction says, and its word comes from there.
  generalize heffect : Effect.write w = e at h
  cases h with
  | noop | retNone | ret | nativeSilent => cases heffect
  | copy hread =>
    cases heffect
    cases hkinded with
    | copy hout hr =>
      obtain rfl := Option.some.inj (hout.symm.trans hk)
      exact hframe _ k w hr (read_register_ok.1 hread)
  | loadConstant hw =>
    cases heffect
    cases hkinded with
    | loadConstant hout hcanonical =>
      obtain rfl := Option.some.inj (hout.symm.trans hk)
      exact hcanonical k w rfl (hconstants ▸ hw)
  | call hcallee hf hrun =>
    cases heffect
    cases hkinded with
    | call hout hgives =>
      obtain rfl := Option.some.inj (hout.symm.trans hk)
      exact hcalls _ hf _ _ hcallee _ _ _ hs hrun k (hgives k rfl)
  | native hcall =>
    cases heffect
    obtain ⟨f, args, hserves, hresult⟩ := callNative_ok hQ hs hcall
    cases hkinded with
    -- Code without an output writes to no register.
    | nativeSilent => exact (hne rfl).elim
    | @native _ _ decl hhome hout =>
      refine hserves.2 args w hresult decl k ⟨p, hmem, _, hi, rfl, rfl, hhome⟩ ?_
      exact Option.some.inj (hout.symm.trans hk)
  | binary _ _ happly =>
    cases heffect
    cases hkinded with
    | binary hout _ _ =>
      obtain rfl := Option.some.inj (Option.some.inj (hout.symm.trans hk))
      exact ArithOp.isCanonical_apply happly
  | negate _ happly =>
    cases heffect
    cases hkinded with
    | negate hout _ =>
      obtain rfl := Option.some.inj (Option.some.inj (hout.symm.trans hk))
      exact Kind.isCanonical_negate happly
  | convert _ =>
    cases heffect
    cases hkinded with
    | convert hout _ =>
      obtain rfl := Option.some.inj (Option.some.inj (hout.symm.trans hk))
      exact Kind.isCanonical_convert _ _ _

include hm hQ hsafe hcalls hconstants hp hmem hK in
/-- **An instruction keeps the invariant.** -/
theorem Step.kindedAt (hstep : m.Step call p k k') (h : KindedAt (m.Serving c) K p k) :
    KindedAt (m.Serving c) K p k' := by
  have hfitted := hstep.fitted hm hQ hp hsafe h.toFitted
  obtain ⟨hnone, hlast⟩ := hstep.lastAt hQ hp h.toFitted ⟨h.last_none, h.last⟩
  refine ⟨hfitted, ?_, hnone, hlast⟩
  cases hstep with
  | skip => exact h.frame
  | write hi heffect hframe =>
    exact h.frame.write (canonical_of_performs hQ hcalls hconstants hmem hK h.cached h.frame
      (Array.mem_of_getElem? hi) (write_ok_iff.1 hframe).1 (performs_of_effect heffect)) hframe

include hm hQ hsafe hcalls hconstants hp hmem hK in
theorem Reaches.kindedAt (hreach : m.Reaches call p k k') (h : KindedAt (m.Serving c) K p k) :
    KindedAt (m.Serving c) K p k' := by
  induction hreach with
  | refl => exact h
  | tail _ hstep ih => exact hstep.kindedAt hm hQ hsafe hcalls hconstants hp hmem hK ih

end Steps

end Machine

end MiddleEnd
