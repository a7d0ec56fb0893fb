import MiddleEnd.Proofs.Lowering.Isolation
import MiddleEnd.Proofs.Lowering.Places
import MiddleEnd.Proofs.Lowering.Valued
import MiddleEnd.Proofs.Resolution.Lexical

/-!
# Variables before statements

The code of a body is that of its statements, in their order.  A variable of the same procedure is
declared by one of the statements before those that store to it, so that it has its register where
the code of such a statement begins.

## Main definitions

* `LowerContext.DeclaresEarlier` — names stand behind the declarations that they are bound to.
* `LowerContext.StoresWithin` — statements store to variables of their own procedures.
* `LowerContext.IsBody` — the root, or the body of a procedure.

## Main results

* `Tree.pairwise_statements` — statements stand one behind the other.
* `LowerContext.Sound.mem_before` — the declaration of a variable is among the statements before.
* `EmitsItems.exists_home` — a variable that has been declared has its register.
* `LowerContext.Sound.exists_home` — **what a statement stores to has a register where its code
  begins**.
-/

namespace MiddleEnd

namespace Tree

variable {t : Tree} {root id : NodeId}

/-- **Statements stand one behind the other**, each with all that is below it. -/
theorem pairwise_statements (hnodup : (t.preorder root).Nodup) (hid : id ∈ t.preorder root) :
    (t.statements id).Pairwise fun x y => t.position root x + t.weight x ≤ t.position root y := by
  induction id using Nat.strongRecOn with
  | ind id ih =>
    cases hscope : t.isScope id with
    | false =>
      rw [statements_of_not_scope hscope]
      exact List.pairwise_singleton _ _
    | true =>
      have hchild {x : NodeId} (hx : x ∈ t.children id) : x ∈ t.preorder root :=
        t.mem_preorder_trans hid (t.child_mem_preorder hx)
      rw [statements_of_scope hscope, List.pairwise_flatMap]
      refine ⟨fun x hx => ih x (t.child_lt hx) (hchild hx), ?_⟩
      refine (siblings_apart hnodup hid).imp_of_mem fun hx hy hapart x' hx' y' hy' => ?_
      -- Two items are apart, and what belongs to them is below them.
      have hx' := (of_mem_statements hx').1
      have hy' := (of_mem_statements hy').1
      have hend := end_le_end hnodup (hchild hx) hx'
      have hbegin := ((mem_preorder_iff_position hnodup (hchild hy)
        (t.mem_preorder_trans (hchild hy) hy')).1 hy').1
      omega

/-- Statements are items. -/
theorem WellFormed.isItem_of_mem_statements (ht : t.WellFormed root) {x : NodeId}
    (hid : id ∈ t.preorder root) (hitem : (t.shape id).isItem = true) (hx : x ∈ t.statements id) :
    (t.shape x).isItem = true := by
  induction id using Nat.strongRecOn with
  | ind id ih =>
    cases hscope : t.isScope id with
    | false =>
      rw [statements_of_not_scope hscope] at hx
      exact List.mem_singleton.1 hx ▸ hitem
    | true =>
      rw [statements_of_scope hscope] at hx
      obtain ⟨y, hy, hx⟩ := List.mem_flatMap.1 hx
      refine ih y (t.child_lt hy) (ht.child hid hy) ?_ hx
      have hfits := ht.fits id hid
      unfold isScope at hscope
      unfold Tree.fits at hfits
      unfold children at hy
      cases hshape : t.shape id <;> rw [hshape] at hscope hfits hy <;>
        first | (cases hscope; done) | exact List.all_eq_true.1 hfits y hy

end Tree

namespace LowerContext

/-- Names stand behind the declarations that they are bound to, those of procedures apart. -/
def DeclaresEarlier (c : LowerContext) : Prop :=
  ∀ x ∈ c.tree.preorder c.root, ∀ name d, c.tree.shape x = .ident name →
    c.resolution.declaration? x = some d → c.tree.namesProcedure d = true
      ∨ c.tree.position c.root d + c.tree.weight d ≤ c.tree.position c.root x

/-- Statements store to variables of their own procedures, if the types of these have kinds. -/
def StoresWithin (c : LowerContext) : Prop :=
  ∀ x ∈ c.tree.preorder c.root, ∀ target ∈ c.tree.written x, (c.typeOf target).hasKind = true →
    ∀ d, c.resolution.declaration? (c.tree.ungroup target) = some d → c.around? d = c.around? x

/-- The root, or the body of a procedure. -/
def IsBody (c : LowerContext) (body : NodeId) : Prop :=
  body = c.root ∨ ∃ q ∈ c.tree.preorder c.root, ∃ result, c.tree.shape q = .procedure result body

variable {c : LowerContext} {body id x d target : NodeId} {before after : List NodeId}

/-- The names of a section are bound to earlier declarations. -/
theorem declaresEarlier_of_ofTree {t : Tree} {links : Links} {root : NodeId} {a : Analysis}
    {limit : Nat} (hnodup : (t.preorder root).Nodup) (ha : Analysis.ofTree t links root = .ok a)
    (hmissing : a.resolution.missing = []) : (a.lowerContext t root limit).DeclaresEarlier := by
  intro x hx name d hname hd
  obtain ⟨d', hd', p, hp, -, hend⟩ := Resolution.bound_of_ofSection (Analysis.ofTree_ok ha).2.1
    hmissing hnodup (Tree.getElem?_position hx) hname
  obtain rfl := Option.some.inj (hd.symm.trans hd')
  obtain rfl := Tree.position_eq hnodup hp
  exact hend.symm

/-- Only variables of the same procedure are stored to, if lowering has reported nothing. -/
theorem storesWithin_of_node (hc : c.Sound) {v : Option Register} {s : Lowering}
    (hnode : Lower.node c c.root Lowering.start = .ok (v, s)) (hp : s.problems = #[]) :
    c.StoresWithin := by
  intro x hx target htarget hkind d hd
  obtain ⟨hvariable, hmem, haround⟩ := hc.written hx htarget
  obtain ⟨-, -, -, -, -, -, name, hname⟩ := hvariable
  have hident := c.tree.mem_preorder_trans hmem (c.tree.ungroup_mem_preorder target)
  obtain ⟨d', hd', howner⟩ := Lowering.idents_of_node hc hnode hp hident
    (congrArg Shape.isIdent hname) (hc.typeOf_ungroup hmem ▸ hkind)
  obtain rfl := Option.some.inj (hd.symm.trans hd')
  rcases howner with howner | ⟨-, hwritten⟩
  · exact howner.symm.trans haround
  · exact (hwritten ⟨x, hx, target, htarget, rfl⟩).elim

namespace Sound

variable (hc : c.Sound)

include hc

/-- The statements of a node belong to the same procedure. -/
theorem around?_of_mem_statements (hid : id ∈ c.tree.preorder c.root)
    (hx : x ∈ c.tree.statements id) :
    c.around? x = c.around? id := by
  induction id using Nat.strongRecOn with
  | ind id ih =>
    cases hscope : c.tree.isScope id with
    | false =>
      rw [Tree.statements_of_not_scope hscope] at hx
      rw [List.mem_singleton.1 hx]
    | true =>
      rw [Tree.statements_of_scope hscope] at hx
      obtain ⟨y, hy, hx⟩ := List.mem_flatMap.1 hx
      have hprocedure : (c.tree.shape id).isProcedure = false := by
        unfold Tree.isScope at hscope
        cases hshape : c.tree.shape id <;> rw [hshape] at hscope <;> first | rfl | cases hscope
      rw [ih y (c.tree.child_lt hy) (hc.tree.child hid hy) hx, hc.around?_child hid hy, hprocedure]
      rfl

theorem mem_of_isBody (hbody : c.IsBody body) : body ∈ c.tree.preorder c.root := by
  rcases hbody with rfl | ⟨q, hq, result, hshape⟩
  · exact c.tree.self_mem_preorder c.root
  · exact hc.tree.child hq (by simp [Tree.children_of_shape hshape, Shape.children])

theorem isItem_of_isBody (hbody : c.IsBody body) : (c.tree.shape body).isItem = true := by
  rcases hbody with rfl | ⟨q, hq, result, hshape⟩
  · exact hc.tree.isItem_root
  · exact hc.tree.isItem_body hq hshape

/-- A body belongs to its procedure. -/
theorem around?_body {q : NodeId} {result : Option NodeId} (hq : q ∈ c.tree.preorder c.root)
    (hshape : c.tree.shape q = .procedure result body) : c.around? body = some q := by
  have hchild : body ∈ c.tree.children q := by simp [Tree.children_of_shape hshape, Shape.children]
  rw [hc.around?_child hq hchild, hshape]
  rfl

/-- A declaration that belongs to the procedure of a body is one of its statements. -/
theorem mem_statements_of_around (hbody : c.IsBody body) (hd : d ∈ c.tree.preorder c.root)
    (hdecl : (c.tree.shape d).isDeclaration = true) (haround : c.around? d = c.around? body) :
    d ∈ c.tree.statements body := by
  have hscope : c.tree.isScope d = false := by
    unfold Tree.isScope
    cases hshape : c.tree.shape d <;> rw [hshape] at hdecl <;> first | rfl | cases hdecl
  rcases hc.tree.mem_statements_of_below (c.tree.self_mem_preorder c.root) hd hscope
    (fun y hy hdy => hc.tree.declares_in_scopes y hy d hdy hdecl) with
    hmem | ⟨q', hq', result', body', hshape', hmem⟩
  · rcases hbody with rfl | ⟨q, hq, result, hshape⟩
    · exact hmem
    · rw [hc.around?_of_mem_statements (c.tree.self_mem_preorder c.root) hmem, hc.around?_root,
        hc.around?_body hq hshape] at haround
      cases haround
  · have hmem' := hc.mem_of_isBody (.inr ⟨q', hq', result', hshape'⟩)
    rw [hc.around?_of_mem_statements hmem' hmem, hc.around?_body hq' hshape'] at haround
    rcases hbody with rfl | ⟨q, hq, result, hshape⟩
    · rw [hc.around?_root] at haround
      cases haround
    · rw [hc.around?_body hq hshape] at haround
      obtain rfl := Option.some.inj haround
      cases hshape.symm.trans hshape'
      exact hmem

/-- **The declaration of a variable is among the statements before** those that name it, if it
belongs to the same procedure. -/
theorem mem_before (hearlier : c.DeclaresEarlier) (hbody : c.IsBody body)
    (hstatements : c.tree.statements body = before ++ id :: after) {name : String}
    (hx : x ∈ c.tree.preorder id) (hname : c.tree.shape x = .ident name)
    (hdecl : c.resolution.declaration? x = some d) (hvalue : c.tree.namesProcedure d = false)
    (haround : c.around? d = c.around? id) : d ∈ before := by
  have hmem := hc.mem_of_isBody hbody
  have hid : id ∈ c.tree.statements body := by simp [hstatements]
  have hidmem := c.tree.mem_preorder_trans hmem (Tree.of_mem_statements hid).1
  have hxmem := c.tree.mem_preorder_trans hidmem hx
  have hbegin : c.tree.position c.root d + c.tree.weight d ≤ c.tree.position c.root x := by
    refine (hearlier x hxmem name d hname hdecl).resolve_left fun h => ?_
    rw [hvalue] at h
    cases h
  have hend := ((Tree.mem_preorder_iff_position hc.tree.nodup hidmem hxmem).1 hx).2
  have hd : d ∈ c.tree.statements body := by
    obtain ⟨d', hd', hdmem, hdeclares⟩ := hc.analysis.bound x name hxmem hname
    obtain rfl := Option.some.inj (hdecl.symm.trans hd')
    exact hc.mem_statements_of_around hbody hdmem hdeclares
      (haround.trans (hc.around?_of_mem_statements hmem hid))
  have hapart := Tree.pairwise_statements hc.tree.nodup hmem
  rw [hstatements] at hd hapart
  rcases List.mem_append.1 hd with hd | hd
  · exact hd
  · -- Neither the statement itself nor one behind it ends before a name in it.
    have hweight := c.tree.weight_pos d
    rcases List.mem_cons.1 hd with rfl | hd
    · omega
    · have hbehind := (List.pairwise_cons.1 (List.pairwise_append.1 hapart).2.1).1 d hd
      omega

end Sound

end LowerContext

/-! ### Registers -/

theorem BodyOf.isBody {c : LowerContext} {ℓ : Linkage} {P : Program} {body : NodeId}
    {result : Option Ty} {p : Procedure} (h : BodyOf c ℓ P body result p) : c.IsBody body := by
  cases h with
  | start => exact .inl rfl
  | procedure hid hshape => exact .inr ⟨_, hid, _, hshape⟩

variable {c : LowerContext} {ℓ : Linkage} {d : NodeId} {xs : List NodeId} {l l' : Layout}
  {code : List CodeLine} {v : Option Register}

/-- The code of statements gives registers to new declarations only. -/
theorem EmitsItems.extends_of_statements (hc : c.Sound) {body : NodeId} (hbody : c.IsBody body)
    {pieces : List (List CodeLine)} (hxs : ∀ x ∈ xs, x ∈ c.tree.statements body)
    (h : EmitsItems (Emits c ℓ) xs l pieces l') (hl : l.Ordered) : l'.Ordered ∧ l.Extends l' := by
  refine h.extends (fun x hx l code v l' h => ?_) hl
  have hmem := hc.mem_of_isBody hbody
  exact h.extends hc.tree (c.tree.mem_preorder_trans hmem (Tree.of_mem_statements (hxs x hx)).1)
    (hc.tree.isItem_of_mem_statements hmem (hc.isItem_of_isBody hbody) (hxs x hx))

/-- The code of a variable with a value gives it a register. -/
theorem Emits.exists_home {name : String} {ty init : Option NodeId}
    (hshape : c.tree.shape d = .var name ty init) (hvalued : c.Valued d)
    (h : Emits c ℓ d l code v l') : ∃ r, l'.registers[d]? = some r := by
  obtain ⟨r, rfl⟩ := Option.isSome_iff_exists.1 ((rule_iff.1 h).1.2 hvalued)
  have hrule := (rule_iff.1 h).2
  rw [hshape] at hrule
  have home {l : Layout} {r : Register} : (l.withHome d r).registers[d]? = some r := by
    simp [Layout.withHome]
  generalize hr : some r = v at hrule
  cases hrule with
  | inert hinert => cases hinert
  | varFresh _ hp =>
    subst hp
    exact ⟨_, home⟩
  | var h =>
    cases h with
    | missing => cases hr
    | tied _ _ hp =>
      subst hp
      exact ⟨_, home⟩

/-- **A variable that has been declared has its register.** -/
theorem EmitsItems.exists_home {pieces : List (List CodeLine)} {name : String}
    {ty init : Option NodeId} (hshape : c.tree.shape d = .var name ty init) (hvalued : c.Valued d)
    (h : EmitsItems (Emits c ℓ) xs l pieces l') (hd : d ∈ xs) : ∃ r, l'.registers[d]? = some r := by
  induction h with
  | nil => cases hd
  | cons hx hrest ih =>
    rcases List.mem_cons.1 hd with rfl | hd
    · obtain ⟨r, hr⟩ := hx.exists_home hshape hvalued
      exact ⟨r, hrest.keeps (fun _ _ _ _ _ h => h.keeps) d r hr⟩
    · exact ih hd

/-- **What a statement stores to has a register where its code begins**, if its type has a kind. -/
theorem LowerContext.Sound.exists_home (hc : c.Sound) (hearlier : c.DeclaresEarlier)
    (hwithin : c.StoresWithin) {body id target : NodeId} {before after : List NodeId}
    {pieces : List (List CodeLine)} (hbody : c.IsBody body)
    (hstatements : c.tree.statements body = before ++ id :: after)
    (htarget : target ∈ c.tree.written id) (hbelow : target ∈ c.tree.preorder id)
    (hkind : (c.typeOf target).hasKind = true)
    (h : EmitsItems (Emits c ℓ) before .initial pieces l) :
    ∃ home, l.home c target = some home := by
  have hid : id ∈ c.tree.preorder c.root :=
    c.tree.mem_preorder_trans (hc.mem_of_isBody hbody)
      (Tree.of_mem_statements (by simp [hstatements])).1
  obtain ⟨hvariable, hmem, -⟩ := hc.written hid htarget
  -- The target is the name of a variable.
  obtain ⟨d, name, ty, init, hdecl, hshape, ident, hident⟩ := hvariable
  change c.tree.shape d = .var name ty init at hshape
  have hname := c.tree.ungroup_mem_preorder target
  obtain ⟨d', hd', hdmem, -⟩ :=
    hc.analysis.bound _ ident (c.tree.mem_preorder_trans hmem hname) hident
  obtain rfl := Option.some.inj (hdecl.symm.trans hd')
  -- A variable cannot be used before it has been declared, so its declaration is a statement before
  -- this one.
  have hbefore : d ∈ before :=
    hc.mem_before hearlier hbody hstatements (c.tree.mem_preorder_trans hbelow hname) hident hdecl
      (by simp [Tree.namesProcedure, hshape]) (hwithin id hid target htarget hkind d hdecl)
  -- It has a type with a kind, and so it has a value.
  have hvalued : c.Valued d := by
    rw [hc.typeOf_home hmem (hc.written hid htarget).1 hdecl] at hkind
    exact hc.allValued d hdmem (.inr (by rw [hshape]; rfl)) hkind
  obtain ⟨r, hr⟩ := h.exists_home hshape hvalued hbefore
  exact ⟨r, (congrArg (Option.bind · (l.registers[·]?)) hdecl).trans hr⟩

end MiddleEnd
