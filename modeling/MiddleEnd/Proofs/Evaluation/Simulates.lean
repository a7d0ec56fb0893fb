import MiddleEnd.Proofs.Evaluation.Rules
import MiddleEnd.Proofs.Lowering.Homes
import MiddleEnd.Proofs.Machine.Activation

/-!
# Code that agrees with an evaluation

A frame represents an activation: every declaration has its word in its home, and registers that
have not been given out hold zero.  Code simulates an evaluation if it leads from frames that
represent the activation before it to frames that represent the one after it, leaves with the same
value, or fails with the same fault at the same place.

## Main definitions

* `RegisterFile.word` — the word in a register.
* `Represents` — a frame with the words of an activation.
* `Procedure.Has` — lines of code at a position of a procedure.
* `Machine.Agrees` — an activation of the machine that ends as an evaluation does.
* `Machine.Simulates` — code that agrees with an evaluation.

## Main results

* `Machine.Simulates.bind` — code one after the other simulates evaluations one after the other.
* `Machine.Simulates.silent`, `Machine.Simulates.write`, `Machine.Simulates.leave`,
  `Machine.Simulates.breakdown` — what a single step of an evaluation needs.
-/

namespace MiddleEnd

/-! ### Evaluations -/

namespace Eval

variable {α β : Type}

theorem run_bind (x : Eval α) (f : α → Eval β) (a : Activation) :
    (x >>= f).run a
      = match x.run a with
        | (.ok v, a) => (f v).run a
        | (.error e, a) => (.error e, a) := by
  show (ExceptT.bind x f).run a = _
  simp only [ExceptT.bind, ExceptT.mk, ExceptT.run, Bind.bind, StateT.bind]
  cases h : x a with
  | mk outcome a' => cases outcome <;> rfl

theorem run_map (f : α → β) (x : Eval α) (a : Activation) :
    (f <$> x).run a
      = match x.run a with
        | (.ok v, a) => (.ok (f v), a)
        | (.error e, a) => (.error e, a) := by
  show (ExceptT.map f x).run a = _
  simp only [ExceptT.map, ExceptT.mk, ExceptT.run, Bind.bind, StateT.bind]
  cases h : x a with
  | mk outcome a' => cases outcome <;> rfl

end Eval

/-! ### Frames -/

/-- The word in a register; zero outside of the frame. -/
def RegisterFile.word (frame : RegisterFile) (r : Register) : Word := frame[r]?.getD 0

namespace RegisterFile

variable {frame frame' : RegisterFile} {r out : Register} {w : Word}

theorem word_eq (h : frame[r]? = some w) : frame.word r = w := by
  rw [word, h, Option.getD_some]

theorem word_zeroed (size : Nat) (r : Register) : word (zeroed size) r = 0 := by
  rw [word, zeroed, Array.getElem?_replicate]
  split <;> rfl

theorem read_word (h : Register.InFrame frame.size r) :
    frame.read (.register r) = .ok (frame.word r) := by
  obtain ⟨w, hw⟩ := Machine.read_ok h
  rw [hw, word_eq (Machine.read_register_ok.1 hw)]

theorem word_write (h : frame.write out w = .ok frame') (r : Register) :
    frame'.word r = if r = out then w else frame.word r := by
  obtain ⟨-, hlt, rfl⟩ := Machine.write_ok_iff.1 h
  unfold word
  rw [Array.getElem?_set]
  by_cases hr : out = r
  · rw [if_pos hr, if_pos hr.symm, Option.getD_some]
  · rw [if_neg hr, if_neg (Ne.symm hr)]

end RegisterFile

/-- A frame represents an activation: homes hold the words of their declarations, and registers that
have not been given out hold zero. -/
structure Represents (l : Layout) (a : Activation) (frame : RegisterFile) : Prop where
  /-- The home of a declaration holds its word. -/
  words : ∀ d : NodeId, a.words[d]? = (l.registers[d]?).map frame.word
  /-- What has not been given out holds zero. -/
  fresh : ∀ r, l.next ≤ r → frame.word r = 0
  /-- The register zero holds zero. -/
  zero : frame.word .none = 0
  /-- The register written last holds the value computed last. -/
  last : frame.word l.lastRegister = a.last
  /-- It is of the same kind. -/
  lastKind : a.lastKind = Kind.ofTy? l.lastTy

namespace Represents

variable {l : Layout} {a : Activation} {frame frame' : RegisterFile} {d : NodeId} {r : Register}
  {w : Word}

theorem start (size : Nat) : Represents .initial .start (.zeroed size) where
  words d := by simp [Activation.start, Layout.initial]
  fresh r _ := RegisterFile.word_zeroed size r
  zero := RegisterFile.word_zeroed size _
  last := RegisterFile.word_zeroed size _
  lastKind := rfl

theorem word_home (h : Represents l a frame) (hr : l.registers[d]? = some r) :
    a.words[d]? = some (frame.word r) := by
  rw [h.words, hr, Option.map_some]

theorem word_absent (h : Represents l a frame) (hr : l.registers[d]? = none) :
    a.words[d]? = none := by
  rw [h.words, hr, Option.map_none]

/-- After a value has been computed into the next register. -/
theorem computed (h : Represents l a frame) (hl : l.Ordered) (ty : Ty)
    (hframe : ∀ r, frame'.word r = if r = l.next then w else frame.word r) :
    Represents (l.computed ty) { a with last := w, lastKind := Kind.ofTy? ty } frame' where
  words d := by
    rw [show (l.computed ty).registers = l.registers from rfl]
    refine (h.words d).trans ?_
    cases hr : l.registers[d]? with
    | none => rfl
    | some r =>
      have hne : r ≠ l.next := Nat.ne_of_lt (hl.bound_lt r (hl.bound d r hr)).2
      rw [Option.map_some, Option.map_some, hframe, if_neg hne]
  fresh r hr := by
    have hlt : l.next < r := hr
    rw [hframe, if_neg (Nat.ne_of_gt hlt), h.fresh r (Nat.le_of_lt hlt)]
  zero := by
    have hne : Register.none ≠ l.next := Nat.ne_of_lt hl.pos
    rw [hframe, if_neg hne, h.zero]
  last := by
    show frame'.word l.next = w
    rw [hframe, if_pos rfl]
  lastKind := rfl

/-- After a value has been stored in a home. -/
theorem stored (h : Represents l a frame) (hl : l.Ordered) (ty : Ty) (hr : l.registers[d]? = some r)
    (hframe : ∀ q, frame'.word q = if q = r then w else frame.word q) :
    Represents (l.wrote r ty) ⟨a.words.insert d w, w, Kind.ofTy? ty⟩ frame' where
  words d' := by
    show (a.words.insert d w)[d']? = (l.registers[d']?).map frame'.word
    rw [Std.TreeMap.getElem?_insert]
    split
    · -- The declaration that owns the home has the new word.
      next heq =>
      obtain rfl : d = d' := by simpa using heq
      rw [hr, Option.map_some, hframe, if_pos rfl]
    · -- Every other declaration has a home of its own.
      next hne =>
      rw [h.words]
      cases hq : l.registers[d']? with
      | none => rfl
      | some q =>
        have hqr : q ≠ r := fun heq => hne (by simp [hl.injective d d' r hr (heq ▸ hq)])
        rw [Option.map_some, Option.map_some, hframe, if_neg hqr]
  fresh q hq := by
    have hlt := (hl.bound_lt r (hl.bound d r hr)).2
    rw [hframe, if_neg (Nat.ne_of_gt (Nat.lt_of_lt_of_le hlt hq)), h.fresh q hq]
  zero := by
    have hne : Register.none ≠ r := Nat.ne_of_lt (hl.bound_lt r (hl.bound d r hr)).1
    rw [hframe, if_neg hne, h.zero]
  last := by
    show frame'.word r = w
    rw [hframe, if_pos rfl]
  lastKind := rfl

/-- After a declaration has got its home. -/
theorem withHome (h : Represents l a frame) :
    Represents (l.withHome d r) { a with words := a.words.insert d (frame.word r) } frame where
  words d' := by
    show (a.words.insert d (frame.word r))[d']? = ((l.registers.insert d r)[d']?).map frame.word
    rw [Std.TreeMap.getElem?_insert, Std.TreeMap.getElem?_insert]
    split
    · rfl
    · exact h.words d'
  fresh := h.fresh
  zero := h.zero
  last := h.last
  lastKind := h.lastKind

/-- Giving out a register changes nothing. -/
theorem reserved (h : Represents l a frame) : Represents l.reserved a frame :=
  ⟨h.words, fun r hr => h.fresh r (Nat.le_of_succ_le hr), h.zero, h.last, h.lastKind⟩

end Represents

/-! ### Code of procedures -/

/-- The procedure has these lines of code at a position. -/
def Procedure.Has (p : Procedure) (pc : Nat) (code : List CodeLine) : Prop :=
  ∀ (n : Nat) (line : CodeLine), code[n]? = some line →
    p.code[pc + n]? = some line.1 ∧ p.spans[pc + n]? = some line.2

theorem Procedure.Has.append {p : Procedure} {pc : Nat} {code code' : List CodeLine}
    (h : p.Has pc (code ++ code')) : p.Has pc code ∧ p.Has (pc + code.length) code' := by
  constructor
  · intro n line hn
    obtain ⟨hlt, -⟩ := List.getElem?_eq_some_iff.1 hn
    exact h n line (by rw [List.getElem?_append_left hlt, hn])
  · intro n line hn
    have hline := h (code.length + n) line (by
      rw [List.getElem?_append_right (Nat.le_add_right _ _), Nat.add_sub_cancel_left, hn])
    rwa [← Nat.add_assoc] at hline

theorem Procedure.Has.head {p : Procedure} {pc : Nat} {i : Instruction} {span : Span}
    {code : List CodeLine} (h : p.Has pc ((i, span) :: code)) :
    p.code[pc]? = some i ∧ p.spans[pc]? = some span := h 0 (i, span) rfl

/-- Some instruction between two positions of a procedure is one of the lines there. -/
theorem Procedure.Has.exists_iff {p : Procedure} {pc : Nat} {code : List CodeLine}
    (h : p.Has pc code) {P : Instruction → Prop} :
    (∃ n i, pc ≤ n ∧ n < pc + code.length ∧ p.code[n]? = some i ∧ P i)
      ↔ ∃ line ∈ code, P line.1 := by
  constructor
  · rintro ⟨n, i, hle, hlt, hi, hP⟩
    have hn := List.getElem?_eq_getElem (show n - pc < code.length by omega)
    have hline := (h _ _ hn).1
    rw [Nat.add_sub_cancel' hle, hi] at hline
    obtain rfl := Option.some.inj hline
    exact ⟨_, List.getElem_mem _, hP⟩
  · rintro ⟨line, hline, hP⟩
    obtain ⟨n, hlt, rfl⟩ := List.getElem_of_mem hline
    have hn := (h _ _ (List.getElem?_eq_getElem hlt)).1
    exact ⟨pc + n, _, Nat.le_add_right _ _, Nat.add_lt_add_left hlt pc, hn, hP⟩

/-- A procedure is no shorter than its code. -/
theorem Procedure.Has.length_le {p : Procedure} {code : List CodeLine} (h : p.Has 0 code) :
    code.length ≤ p.code.size := by
  cases hlast : code.getLast? with
  | none =>
    rw [List.getLast?_eq_none_iff.1 hlast]
    exact Nat.zero_le _
  | some line =>
    rw [List.getLast?_eq_getElem?] at hlast
    obtain ⟨hlt, -⟩ := Array.getElem?_eq_some_iff.1 (h _ line hlast).1
    omega

namespace Machine

variable {σ α β : Type} (m : Machine σ) (call : Option (Procedure → Run σ Word)) (p : Procedure)

/-- A point of an activation of `p` whose frame represents `a`. -/
structure At (l : Layout) (a : Activation) (κ : Point σ) : Prop where
  /-- The frame has the size that the procedure asks for. -/
  size : κ.frame.size = p.nextRegister
  /-- The value written last is the one computed last. -/
  last : κ.last = a.last
  /-- The frame holds the words of the activation. -/
  represents : Represents l a κ.frame

/-- The machine goes on from `κ` as an evaluation does: to the position `stop` with the same words,
out of the procedure with the same value, or to the same failure. -/
def Agrees (κ : Point σ) (l' : Layout) (stop : Nat) (post : α → RegisterFile → Prop)
    (exit : Word → Activation → RegisterFile → Prop) : Except Exit α × Activation → Prop
  | (.ok v, a) => ∃ κ', m.Reaches call p κ κ' ∧ κ'.pc = stop ∧ κ'.state = κ.state
      ∧ At p l' a κ' ∧ post v κ'.frame
  | (.error (.leave w), a) => ∃ frame, m.ending call p κ = (.ok (w, frame), κ.state)
      ∧ frame.size = p.nextRegister ∧ exit w a frame
  | (.error (.breakdown b), _) => ∃ f, m.ending call p κ = (.error (.failure f), κ.state)
      ∧ f.fault = b.fault ∧ f.span = b.span

/-- The code simulates the evaluation `x` of the activation `a`, from any point with the frame `fr`
that represents it. -/
def Simulates (a : Activation) (fr : RegisterFile) (x : Eval α) (l : Layout)
    (code : List CodeLine) (l' : Layout) (post : α → RegisterFile → Prop)
    (exit : Word → Activation → RegisterFile → Prop) : Prop :=
  ∀ κ : Point σ, κ.frame = fr → p.Has κ.pc code → At p l a κ →
    m.Agrees call p κ l' (κ.pc + code.length) post exit (x.run a)

variable {m call p} {a a' : Activation} {fr : RegisterFile} {x : Eval α} {l l₁ l' : Layout}
  {code code' : List CodeLine} {post : α → RegisterFile → Prop}
  {exit : Word → Activation → RegisterFile → Prop} {v : α} {w : Word} {i : Instruction}
  {span : Span}

theorem Agrees.of_reaches {κ κ' : Point σ} {stop : Nat} {outcome : Except Exit α × Activation}
    (hreach : m.Reaches call p κ κ') (hstate : κ'.state = κ.state)
    (h : m.Agrees call p κ' l' stop post exit outcome) :
    m.Agrees call p κ l' stop post exit outcome := by
  obtain ⟨result, a⟩ := outcome
  cases result with
  | ok v =>
    obtain ⟨κ₂, hreach₂, hpc, hstate₂, hat, hpost⟩ := h
    exact ⟨κ₂, hreach.trans hreach₂, hpc, hstate₂.trans hstate, hat, hpost⟩
  | error e =>
    cases e with
    | leave w =>
      obtain ⟨frame, hending, hexit⟩ := h
      exact ⟨frame, hreach.ending_eq.trans (hstate ▸ hending), hexit⟩
    | breakdown b =>
      obtain ⟨f, hending, hfailure⟩ := h
      exact ⟨f, hreach.ending_eq.trans (hstate ▸ hending), hfailure⟩

namespace Simulates

/-- What is known of the frame may be used. -/
theorem intro (h : fr.size = p.nextRegister → Represents l a fr →
    m.Simulates call p a fr x l code l' post exit) :
      m.Simulates call p a fr x l code l' post exit :=
  fun κ hframe hhas hat =>
    h (hframe ▸ hat.size) (hframe ▸ hat.represents) κ hframe hhas hat

theorem mono {post' : α → RegisterFile → Prop} {exit' : Word → Activation → RegisterFile → Prop}
    (h : m.Simulates call p a fr x l code l' post exit)
    (hpost : ∀ v fr, post v fr → post' v fr) (hexit : ∀ w a fr, exit w a fr → exit' w a fr) :
    m.Simulates call p a fr x l code l' post' exit' := by
  intro κ hframe hhas hat
  have hagrees := h κ hframe hhas hat
  revert hagrees
  rcases x.run a with ⟨result, a'⟩
  cases result with
  | ok v =>
    rintro ⟨κ', hreach, hpc, hstate, hat', hv⟩
    exact ⟨κ', hreach, hpc, hstate, hat', hpost v _ hv⟩
  | error e =>
    cases e with
    | leave w =>
      rintro ⟨frame, hending, hsize, hw⟩
      exact ⟨frame, hending, hsize, hexit w _ _ hw⟩
    | breakdown b => exact id

/-- A step of an evaluation without code. -/
theorem silent (hrun : x.run a = (.ok v, a')) (hlast : a'.last = a.last)
    (hrep : Represents l a fr → Represents l' a' fr) :
    m.Simulates call p a fr x l [] l' (fun v' fr' => v' = v ∧ fr' = fr) exit := by
  intro κ hframe _ hat
  rw [hrun]
  refine ⟨κ, .refl κ, rfl, rfl, ⟨hat.size, hat.last.trans hlast.symm, ?_⟩, rfl, hframe⟩
  rw [hframe]
  exact hrep (hframe ▸ hat.represents)

theorem pure (h : post v fr) :
    m.Simulates call p a fr (Pure.pure v : Eval α) l [] l post exit :=
  (silent rfl rfl id).mono (fun v' fr' ⟨hv, hfr⟩ => by rw [hv, hfr]; exact h) fun _ _ _ h => h

/-- An evaluation after another one is simulated by code after code. -/
theorem bind {f : α → Eval β} {mid : α → RegisterFile → Prop} {post : β → RegisterFile → Prop}
    (hx : m.Simulates call p a fr x l code l₁ mid exit)
    (hf : ∀ v a₁ fr₁, mid v fr₁ → m.Simulates call p a₁ fr₁ (f v) l₁ code' l' post exit) :
    m.Simulates call p a fr (x >>= f) l (code ++ code') l' post exit := by
  intro κ hframe hhas hat
  obtain ⟨hcode, hcode'⟩ := hhas.append
  have hagrees := hx κ hframe hcode hat
  rw [Eval.run_bind, List.length_append, ← Nat.add_assoc]
  revert hagrees
  rcases x.run a with ⟨result, a₁⟩
  cases result with
  | ok v =>
    rintro ⟨κ₁, hreach, hpc, hstate, hat₁, hmid⟩
    have hrest := hf v a₁ κ₁.frame hmid κ₁ rfl (by rwa [hpc]) hat₁
    rw [hpc] at hrest
    exact hrest.of_reaches hreach hstate
  | error e => cases e <;> exact id

/-- An evaluation may look at its activation. -/
theorem get {f : Activation → Eval α} (h : m.Simulates call p a fr (f a) l code l' post exit) :
    m.Simulates call p a fr (MonadState.get >>= f) l code l' post exit :=
  h

theorem map {f : α → β} {post : β → RegisterFile → Prop}
    (h : m.Simulates call p a fr x l code l' (fun v => post (f v)) exit) :
    m.Simulates call p a fr (f <$> x) l code l' post exit := by
  intro κ hframe hhas hat
  have hagrees := h κ hframe hhas hat
  rw [Eval.run_map]
  revert hagrees
  rcases x.run a with ⟨result, a'⟩
  cases result with
  | ok v => exact id
  | error e => cases e <;> exact id

theorem discarded (h : m.Simulates call p a fr x l code l' post exit) :
    m.Simulates call p a fr (Functor.discard x) l code l' (fun _ _ => True) exit :=
  .map (h.mono (fun _ _ _ => trivial) fun _ _ _ h => h)

/-- A statement has no value. -/
theorem statement (h : m.Simulates call p a fr x l code l' post exit) :
    m.Simulates call p a fr (do let _ ← x; return none : Eval (Option Word)) l code l'
      (fun _ _ => True) exit := by
  rw [← List.append_nil code]
  exact .bind h fun _ _ _ _ => .pure trivial

/-- An instruction may be used as one that fits. -/
theorem of_fits (hp : p.WellFormed m.program)
    (h : i.Fits m.program fr.size → m.Simulates call p a fr x l ((i, span) :: code) l' post exit) :
    m.Simulates call p a fr x l ((i, span) :: code) l' post exit := by
  intro κ hframe hhas hat
  have hfits := hp.fits i (Array.mem_of_getElem? hhas.head.1)
  rw [← hat.size, hframe] at hfits
  exact h hfits κ hframe hhas hat

/-- A step of an evaluation that gives a value is one instruction that writes it. -/
theorem write (hrun : x.run a = (.ok v, a')) (hlast : a'.last = w)
    (hout : Register.InFrame fr.size i.out)
    (hperforms : ∀ site s, m.Performs call site fr s i (.write w) s)
    (hrep : ∀ fr', (∀ r, fr'.word r = if r = i.out then w else fr.word r) → Represents l a fr →
      Represents l' a' fr') :
    m.Simulates call p a fr x l [(i, span)] l'
      (fun v' fr' => v' = v ∧ ∀ r, fr'.word r = if r = i.out then w else fr.word r) exit := by
  intro κ hframe hhas hat
  subst hframe
  obtain ⟨frame', hwrite, hsize⟩ := write_ok w hout
  have hwords := RegisterFile.word_write hwrite
  have hstep : m.Step call p κ ⟨κ.pc + 1, frame', w, κ.state⟩ :=
    .write hhas.head.1 (effect_of_performs (hperforms _ _)) hwrite
  rw [hrun]
  exact ⟨_, .single hstep, rfl, rfl,
    ⟨hsize.trans hat.size, hlast.symm, hrep frame' hwords hat.represents⟩, rfl, hwords⟩

/-- A step of an evaluation that leaves is a return. -/
theorem leave (hrun : x.run a = (.error (.leave w), a'))
    (hperforms : ∀ site s, m.Performs call site fr s i (.leave w) s) (hexit : exit w a' fr) :
    m.Simulates call p a fr x l ((i, span) :: code) l' post exit := by
  intro κ hframe hhas hat
  subst hframe
  rw [hrun]
  refine ⟨κ.frame, ?_, hat.size, hexit⟩
  rw [ending_cons hhas.head.1, effect_of_performs (hperforms _ _)]

/-- A step of an evaluation that breaks down is an instruction that fails. -/
theorem breakdown {b : Breakdown} (hrun : x.run a = (.error (.breakdown b), a'))
    (heffect : ∀ (pc : Nat) (s : MachineState σ), p.spans[pc]? = some span →
      ∃ f, (m.effect call ⟨p, pc⟩ fr i).run s = (.error (.failure f), s) ∧ f.fault = b.fault
        ∧ f.span = b.span) :
    m.Simulates call p a fr x l ((i, span) :: code) l' post exit := by
  intro κ hframe hhas hat
  subst hframe
  obtain ⟨f, hfailure, hfault, hspan⟩ := heffect κ.pc κ.state hhas.head.2
  rw [hrun]
  refine ⟨f, ?_, hfault, hspan⟩
  rw [ending_cons hhas.head.1, hfailure]

end Simulates

end Machine

end MiddleEnd
