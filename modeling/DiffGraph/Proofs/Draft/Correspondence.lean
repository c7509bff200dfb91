import DiffGraph.Proofs.Draft.Addresses

/-!
Nodes of two drafts that stand for the same term. What can be asked of a node without looking at its
position has the same answer for both of them: its type, its kind, whether it is an address, whether
it is a zero or a one, and whether it is the same node as another one (`Same.eq_iff`).

Two operations match, when they are run in drafts with the same operators, types and options, if both
yield results that correspond, or both fail for the same kind of reason (`Matches`). Matching
operations are put together from matching parts.
-/

set_option autoImplicit false

namespace DiffGraph

open List Stateful

variable {first second first' second' : Draft} {args' operands' args : List NodeId}
  {kind kind' : NodeKind} {α β : Type}

/-- Failures of one kind. Their wording may differ, as it names nodes by their positions. -/
def Error.Alike : Error → Error → Prop
  | .typing cause, .typing cause' => cause = cause'
  | error, error' => error.ctorIdx = error'.ctorIdx

theorem Error.Alike.refl (error : Error) : error.Alike error := by
  cases error <;> exact rfl

namespace Draft

/-- Names in two drafts that stand for the same term. -/
structure Same (first second : Draft) (a b : NodeId) : Prop where
  left : first.graph.Owns a
  right : second.graph.Owns b
  term : first.graph.term a = second.graph.term b

/-- Kinds that differ only in the names of corresponding operands. -/
inductive SameKind (first second : Draft) : NodeKind → NodeKind → Prop
  | constant (value : Value) : SameKind first second (.constant value) (.constant value)
  | argument (name : String) (dir : Direction) :
      SameKind first second (.argument name dir) (.argument name dir)
  | read {a b : NodeId} (haddr : Same first second a b) :
      SameKind first second (.read a) (.read b)
  | write {a b v w : NodeId} (haddr : Same first second a b) (hv : Same first second v w) :
      SameKind first second (.write a v) (.write b w)
  | expression (op : Operator) {args args' : List NodeId}
      (hops : Forall₂ (Same first second) args args') :
      SameKind first second (.expression op args) (.expression op args')

section Same

variable {a b : NodeId} {n m : Node}

theorem Same.later (h : Same first second a b) (hfst : first.Precedes first')
    (hsnd : second.Precedes second') :
    Same first' second' a b where
  left := hfst.graph.owns h.left
  right := hsnd.graph.owns h.right
  term := by
    rw [Graph.term_extends hfst.graph h.left, Graph.term_extends hsnd.graph h.right, h.term]

theorem Same.trans {third : Draft} {c : NodeId} (h : Same first second a b)
    (h' : Same second third b c) : Same first third a c :=
  ⟨h.left, h'.right, h.term.trans h'.term⟩

theorem Precedes.same {older newer : Draft} (h : older.Precedes newer)
    (how : older.graph.Owns a) : Same older newer a a :=
  ⟨how, h.graph.owns how, (Graph.term_extends h.graph how).symm⟩

/-- Names correspond one to one. -/
theorem Same.eq_iff (hfst : first.graph.Interned) (hsnd : second.graph.Interned)
    {a' b' : NodeId} (h : Same first second a b) (h' : Same first second a' b') :
    a = a' ↔ b = b' := by
  constructor
  · rintro rfl
    exact hsnd.eq_of_term h.right h'.right (h.term.symm.trans h'.term)
  · rintro rfl
    exact hfst.eq_of_term h.left h'.left (h.term.trans h'.term.symm)

theorem same_of_map_term (hleft : ∀ arg ∈ args, first.graph.Owns arg)
    (hright : ∀ arg ∈ operands', second.graph.Owns arg)
    (h : args.map first.graph.term = operands'.map second.graph.term) :
    Forall₂ (Same first second) args operands' := by
  induction args generalizing operands' with
  | nil =>
    rw [map_nil, eq_comm, map_eq_nil_iff] at h
    subst h
    exact .nil
  | cons a args ih =>
    cases operands' with
    | nil => cases h
    | cons b operands' =>
      obtain ⟨htm, hrs⟩ := cons.inj h
      obtain ⟨hleft, hleft'⟩ := forall_mem_cons.mp hleft
      obtain ⟨hright, hright'⟩ := forall_mem_cons.mp hright
      exact .cons ⟨hleft, hright, htm⟩ (ih hleft' hright' hrs)

theorem map_term_of_same (h : Forall₂ (Same first second) args args') :
    args.map first.graph.term = args'.map second.graph.term := by
  induction h with
  | nil => rfl
  | cons hfst _ ih => rw [map_cons, map_cons, hfst.term, ih]

theorem owns_of_same {ids ids' : List NodeId} (h : Forall₂ (Same first second) ids ids') :
    (∀ id ∈ ids, first.graph.Owns id) ∧ ∀ id ∈ ids', second.graph.Owns id := by
  induction h with
  | nil => exact ⟨forall_mem_nil _, forall_mem_nil _⟩
  | cons hhd _ ih =>
    exact ⟨forall_mem_cons.mpr ⟨hhd.left, ih.1⟩, forall_mem_cons.mpr ⟨hhd.right, ih.2⟩⟩

theorem Same.contents (h : Same first second a b) (ha : first.graph.node? a = some n)
    (hb : second.graph.node? b = some m) : n.type = m.type ∧ SameKind first second n.kind m.kind := by
  have htm := h.term
  rw [Graph.term_of_node? ha, Graph.term_of_node? hb] at htm
  obtain ⟨ht, hhd, hmap⟩ := Term.node.inj htm
  have hops : Forall₂ (Same first second) n.kind.operands m.kind.operands :=
    same_of_map_term (fun _ h ↦ Graph.owns_operand ha h) (fun _ h ↦ Graph.owns_operand hb h) hmap
  refine ⟨ht, ?_⟩
  generalize n.kind = kind at hhd hops
  generalize m.kind = kind' at hhd hops
  cases kind <;> cases kind' <;> cases hhd
  case constant value => exact .constant value
  case argument name direction => exact .argument name direction
  case read => exact .read (forall₂_cons.mp hops).1
  case write =>
    obtain ⟨haddr, hv⟩ := forall₂_cons.mp hops
    exact .write haddr (forall₂_cons.mp hv).1
  case expression => exact .expression _ hops

theorem SameKind.head_eq (h : SameKind first second kind kind') : kind.head = kind'.head := by
  cases h <;> rfl

theorem SameKind.operands (h : SameKind first second kind kind') :
    Forall₂ (Same first second) kind.operands kind'.operands := by
  cases h with
  | constant | argument => exact .nil
  | read haddr => exact .cons haddr .nil
  | write haddr hv => exact .cons haddr (.cons hv .nil)
  | expression op hops => exact hops

/-- Nodes with the same type and the same kind stand for the same term. -/
theorem SameKind.same (h : SameKind first second n.kind m.kind) (ht : n.type = m.type)
    (ha : first.graph.node? a = some n) (hb : second.graph.node? b = some m) :
    Same first second a b := by
  refine ⟨Graph.owns_of_node? ha, Graph.owns_of_node? hb, ?_⟩
  rw [Graph.term_of_node? ha, Graph.term_of_node? hb, ht, h.head_eq, Node.operands, Node.operands,
    map_term_of_same h.operands]

theorem SameKind.later (h : SameKind first second kind kind') (hfst : first.Precedes first')
    (hsnd : second.Precedes second') : SameKind first' second' kind kind' := by
  cases h with
  | constant v => exact .constant v
  | argument name dir => exact .argument name dir
  | read haddr => exact .read (haddr.later hfst hsnd)
  | write haddr hv =>
    exact .write (haddr.later hfst hsnd) (hv.later hfst hsnd)
  | expression op hops =>
    exact .expression op (hops.imp fun _ _ h ↦ h.later hfst hsnd)

theorem Same.nodes (h : Same first second a b) :
    ∃ n m, first.graph.node? a = some n ∧ second.graph.node? b = some m ∧ n.type = m.type ∧
      SameKind first second n.kind m.kind := by
  obtain ⟨n, ha⟩ := Graph.owns_iff_node?.mp h.left
  obtain ⟨m, hb⟩ := Graph.owns_iff_node?.mp h.right
  exact ⟨n, m, ha, hb, h.contents ha hb⟩

theorem SameKind.constant?_eq (h : SameKind first second n.kind m.kind) :
    n.constant? = m.constant? := by
  unfold Node.constant?
  generalize n.kind = kind at h
  generalize m.kind = kind' at h
  cases h <;> rfl

theorem Same.constant?_eq (h : Same first second a b) :
    (first.graph.node? a).bind Node.constant? = (second.graph.node? b).bind Node.constant? := by
  obtain ⟨n, m, ha, hb, -, hk⟩ := h.nodes
  rw [ha, hb, Option.bind_some, Option.bind_some, hk.constant?_eq]

theorem mapM_constant?_eq (h : Forall₂ (Same first second) args args') :
    (args.mapM fun id ↦ (first.graph.node? id).bind Node.constant?) =
      args'.mapM fun id ↦ (second.graph.node? id).bind Node.constant? := by
  induction h with
  | nil => rfl
  | cons hhd _ ih => rw [mapM_cons, mapM_cons, hhd.constant?_eq, ih]

/-- Whether a node is an address can be told from its term. -/
theorem Same.isAddress_eq (hfst : first.Sound) (hsnd : second.Sound)
    (h : Same first second a b) (ha : first.graph.node? a = some n)
    (hb : second.graph.node? b = some m) : n.isAddress = m.isAddress := by
  induction hix : a.index using Nat.strongRecOn generalizing a b n m with
  | ind index ih =>
    obtain ⟨-, hk⟩ := h.contents ha hb
    rw [Bool.eq_iff_iff, hfst.isAddress_iff ha, hsnd.isAddress_iff hb]
    generalize hn : n.kind = kind at hk
    generalize m.kind = kind' at hk
    cases hk with
    | constant | read | write | argument => simp
    | @expression op args args' hops =>
      by_cases hsh : ∃ base, args = [base]
      · obtain ⟨base, rfl⟩ := hsh
        obtain - | ⟨hba, hno⟩ := hops
        cases hno
        obtain ⟨tgt, target', htg, htg', -, -⟩ := hba.nodes
        have hlt : base.index < a.index :=
          Graph.operand_index_lt ha (Node.mem_operands hn mem_cons_self)
        have hsame := ih base.index (hix ▸ hlt) hba htg htg' rfl
        simp [htg, htg', hsame]
      · have ho : ¬∃ base, args' = [base] := by
          rintro ⟨base, rfl⟩
          have hlen := hops.length_eq
          exact hsh (length_eq_one_iff.mp hlen)
        constructor
        · rintro (⟨_, _, h⟩ | ⟨_, base, _, h, -⟩)
          · cases h
          · exact absurd ⟨base, (NodeKind.expression.inj h).2⟩ hsh
        · rintro (⟨_, _, h⟩ | ⟨_, base, _, h, -⟩)
          · cases h
          · exact absurd ⟨base, (NodeKind.expression.inj h).2⟩ ho

end Same

/-- Two drafts in which names stand for terms and operators are the same. -/
structure Kindred (first second : Draft) : Prop where
  left : first.graph.Interned
  right : second.graph.Interned
  operators : second.operators = first.operators

section Conditions

variable {a b : NodeId} {args : List NodeId}

theorem operandAt_map (f : α → β) (items : List α) (pos : Nat) :
    operandAt (items.map f) pos = (operandAt items pos).map f := by
  unfold operandAt
  rw [getElem?_map, length_map]
  cases items[pos]? <;> rfl

/-- The operands at a position correspond, or are both missing. -/
theorem operandAt_cases {R : α → β → Prop} {items : List α} {items' : List β}
    (h : Forall₂ R items items') (pos : Nat) :
    (∃ a b, a ∈ items ∧ R a b ∧ operandAt items pos = .ok a ∧ operandAt items' pos = .ok b) ∨
    ∃ error, operandAt items pos = .error error ∧ operandAt items' pos = .error error := by
  unfold operandAt
  by_cases hlt : pos < items.length
  · have hlt' : pos < items'.length := h.length_eq ▸ hlt
    rw [getElem?_eq_getElem hlt, getElem?_eq_getElem hlt']
    exact .inl ⟨_, _, getElem_mem hlt, h.get hlt hlt', rfl, rfl⟩
  · have hlt' : ¬pos < items'.length := h.length_eq ▸ hlt
    rw [getElem?_eq_none (Nat.le_of_not_lt hlt), getElem?_eq_none (Nat.le_of_not_lt hlt'),
      h.length_eq]
    exact .inr ⟨_, rfl, rfl⟩

/-- A condition on operands has the same outcome on corresponding operands. -/
theorem Kindred.eval_eq (hki : first.Kindred second) (hops : Forall₂ (Same first second) args args')
    (hneutral : ∀ element, ∀ a ∈ args, ∀ b, Same first second a b →
      first.isNeutral element a = second.isNeutral element b) (cond : Condition) :
    cond.eval (args.map first.operandView) = cond.eval (args'.map second.operandView) := by
  induction cond with
  | always => rfl
  | count number =>
    simp only [Condition.eval, length_map, hops.length_eq]
  | isZero i | isOne i | zeroConstant i | oneConstant i =>
    simp only [Condition.eval, operandAt_map]
    rcases operandAt_cases hops i with ⟨a, b, hm, hsame, ha, hb⟩ | ⟨error, ha, hb⟩
    · simp [ha, hb, Except.map, operandView, bind, Except.bind, hneutral _ a hm b hsame,
        hsame.constant?_eq]
    · simp [ha, hb, Except.map, bind, Except.bind]
  | same i j =>
    simp only [Condition.eval, operandAt_map]
    rcases operandAt_cases hops i with ⟨a, b, -, hsame, ha, hb⟩ | ⟨error, ha, hb⟩
    · rcases operandAt_cases hops j with ⟨a', b', -, hsame', ha', hb'⟩ | ⟨error, ha', hb'⟩
      · have heq := hsame.eq_iff hki.left hki.right hsame'
        have hbeq : (a == a') = (b == b') := by
          rw [Bool.eq_iff_iff, beq_iff_eq, beq_iff_eq, heq]
        simp [ha, hb, ha', hb', Except.map, operandView, bind, Except.bind, hbeq]
      · simp [ha, hb, ha', hb', Except.map, bind, Except.bind]
    · simp [ha, hb, Except.map, bind, Except.bind]
  | both _ _ ihp ihq | either _ _ ihp ihq => simp only [Condition.eval, ihp, ihq]

/-- Whether a node is a zero or a one can be told from its term. -/
theorem Kindred.isNeutral_eq (hki : first.Kindred second) (element : Neutral)
    (h : Same first second a b) : first.isNeutral element a = second.isNeutral element b := by
  induction hix : a.index using Nat.strongRecOn generalizing element a b with
  | ind index ih =>
    obtain ⟨n, m, ha, hb, -, hk⟩ := h.nodes
    rw [isNeutral_of_node? element ha, isNeutral_of_node? element hb, hki.operators]
    generalize hn : n.kind = kind at hk
    generalize m.kind = kind' at hk
    cases hk with
    | @expression op args args' hops =>
      cases op with
      | registered name pos =>
        have hneutral : ∀ element, ∀ arg ∈ args, ∀ other, Same first second arg other →
            first.isNeutral element arg = second.isNeutral element other := by
          intro element arg hop other hsame
          have hlt : arg.index < a.index := Graph.operand_index_lt ha (Node.mem_operands hn hop)
          exact ih arg.index (hix ▸ hlt) element hsame rfl
        simp only [Condition.holds, hki.eval_eq hops hneutral]
      | member | index | construct => rfl
    | _ => rfl

end Conditions

/-- Two sound drafts with the same operators, types and options, in which no type changes any more. -/
structure Alike (first second : Draft) : Prop where
  left : first.Sound
  right : second.Sound
  operators : second.operators = first.operators
  types : second.types = first.types
  fixed : first.types.Fixed
  options : second.options = first.options

section Alike

theorem Alike.kindred (h : first.Alike second) : first.Kindred second :=
  ⟨h.left.interned, h.right.interned, h.operators⟩

theorem Alike.later (h : first.Alike second) (hfst : first.Precedes first')
    (hsnd : second.Precedes second') (hleft : first'.Sound) (hright : second'.Sound) :
    first'.Alike second' := by
  have hts : first'.types = first.types := h.fixed.extends_eq hfst.types
  have htypes' : second'.types = second.types :=
    TypeTable.Fixed.extends_eq (h.types ▸ h.fixed) hsnd.types
  refine ⟨hleft, hright, ?_, ?_, ?_, ?_⟩
  · rw [hsnd.operators, hfst.operators, h.operators]
  · rw [htypes', hts, h.types]
  · rw [hts]
    exact h.fixed
  · rw [hsnd.options, hfst.options, h.options]

end Alike

/-- Both operations yield results that correspond, or both fail for the same kind of reason. -/
inductive Matches {α β : Type} (first second : Draft) (x : Build α) (y : Build β)
    (R : Draft → Draft → α → β → Prop) : Prop
  | ok {a : α} {b : β} {d' after' : Draft} (hx : x.run first = (.ok a, d'))
      (hy : y.run second = (.ok b, after')) (hfst : first.Precedes d')
      (hsnd : second.Precedes after') (hal : d'.Alike after') (hres : R d' after' a b)
  | error {e e' : Error} {d' after' : Draft} (hx : x.run first = (.error e, d'))
      (hy : y.run second = (.error e', after')) (hfst : first.Precedes d')
      (hsnd : second.Precedes after') (hal : d'.Alike after') (he : e.Alike e')

/-- The outcomes of the operations match, whatever is said of the drafts they leave behind. -/
inductive Corresponds {α β : Type} (first second : Draft) (x : Build α) (y : Build β)
    (R : Draft → Draft → α → β → Prop) : Prop
  | ok {a : α} {b : β} {d' after' : Draft} (hx : x.run first = (.ok a, d'))
      (hy : y.run second = (.ok b, after')) (hres : R d' after' a b)
  | error {e e' : Error} {d' after' : Draft} (hx : x.run first = (.error e, d'))
      (hy : y.run second = (.error e', after')) (he : e.Alike e')

/-- Results that are the same in both drafts. -/
def Equal {α : Type} (_ _ : Draft) (a b : α) : Prop := a = b

section Matches

variable {γ δ : Type} {x : Build α} {y : Build β} {R : Draft → Draft → α → β → Prop}
  {f : α → Build γ} {g : β → Build δ} {R' : Draft → Draft → γ → δ → Prop}

theorem matches_pure (hal : first.Alike second) {a : α} {b : β} (h : R first second a b) :
    Matches first second (pure a) (pure b) R :=
  .ok (run_pure a first) (run_pure b second) (.refl first) (.refl second) hal h

theorem matches_throw (hal : first.Alike second) {e e' : Error} (h : e.Alike e') :
    Matches first second (throw e) (throw e') R :=
  .error (run_throw e first) (run_throw e' second) (.refl first) (.refl second) hal h

/-- Operations match as soon as what they come to in later drafts does. -/
theorem Matches.of_later {x' : Build α} {y' : Build β} (h : Matches first' second' x' y' R)
    (hx : x.run first = x'.run first') (hy : y.run second = y'.run second')
    (hfst : first.Precedes first') (hsnd : second.Precedes second') :
    Matches first second x y R := by
  cases h with
  | ok hx' hy' hf hs hal hres =>
    exact .ok (hx.trans hx') (hy.trans hy') (hfst.trans hf) (hsnd.trans hs) hal hres
  | error hx' hy' hf hs hal he =>
    exact .error (hx.trans hx') (hy.trans hy') (hfst.trans hf) (hsnd.trans hs) hal he

theorem Matches.bind (h : Matches first second x y R)
    (hnx : ∀ {a b d' after'}, first.Precedes d' → second.Precedes after' →
      d'.Alike after' → R d' after' a b → Matches d' after' (f a) (g b) R') :
    Matches first second (x >>= f) (y >>= g) R' := by
  cases h with
  | error hx hy hfst hsnd hal he =>
    exact .error (run_bind_of_error hx) (run_bind_of_error hy) hfst hsnd hal he
  | ok hx hy hfst hsnd hal hres =>
    exact (hnx hfst hsnd hal hres).of_later (run_bind_of_ok hx) (run_bind_of_ok hy) hfst hsnd

theorem Matches.corresponds (h : Matches first second x y R) : Corresponds first second x y R := by
  cases h with
  | ok hx hy _ _ _ hres => exact .ok hx hy hres
  | error hx hy _ _ _ he => exact .error hx hy he

theorem Corresponds.of_later {x' : Build α} {y' : Build β} (h : Corresponds first' second' x' y' R)
    (hx : x.run first = x'.run first') (hy : y.run second = y'.run second') :
    Corresponds first second x y R := by
  cases h with
  | ok hx' hy' hres => exact .ok (hx.trans hx') (hy.trans hy') hres
  | error hx' hy' he => exact .error (hx.trans hx') (hy.trans hy') he

theorem Matches.then (h : Matches first second x y R)
    (hnx : ∀ {a b d' after'}, first.Precedes d' → second.Precedes after' →
      d'.Alike after' → R d' after' a b → Corresponds d' after' (f a) (g b) R') :
    Corresponds first second (x >>= f) (y >>= g) R' := by
  cases h with
  | error hx hy _ _ _ he => exact .error (run_bind_of_error hx) (run_bind_of_error hy) he
  | ok hx hy hfst hsnd hal hres =>
    exact (hnx hfst hsnd hal hres).of_later (run_bind_of_ok hx) (run_bind_of_ok hy)

/-- Operations that only make elementary changes leave drafts behind that are alike again. -/
theorem Corresponds.matches (h : Corresponds first second x y R) (hal : first.Alike second)
    (hld : first.Leads (x.run first).2) (hleads' : second.Leads (y.run second).2) :
    Matches first second x y R := by
  have hfst := (hld hal.left).precedes
  have hsnd := (hleads' hal.right).precedes
  have hal' := hal.later hfst hsnd (hal.left.steps (hld hal.left))
    (hal.right.steps (hleads' hal.right))
  cases h with
  | ok hx hy hres =>
    rw [hx] at hfst hal'
    rw [hy] at hsnd hal'
    exact .ok hx hy hfst hsnd hal' hres
  | error hx hy he =>
    rw [hx] at hfst hal'
    rw [hy] at hsnd hal'
    exact .error hx hy hfst hsnd hal' he

/-- First parts that leave the drafts as they are. -/
theorem Matches.after_ok {a : α} {b : β} (h : Matches first second (f a) (g b) R')
    (hx : x.run first = (.ok a, first)) (hy : y.run second = (.ok b, second)) :
    Matches first second (x >>= f) (y >>= g) R' :=
  h.of_later (run_bind_of_ok hx) (run_bind_of_ok hy) (.refl first) (.refl second)

theorem Corresponds.after_ok {a : α} {b : β} (h : Corresponds first second (f a) (g b) R')
    (hx : x.run first = (.ok a, first)) (hy : y.run second = (.ok b, second)) :
    Corresponds first second (x >>= f) (y >>= g) R' :=
  h.of_later (run_bind_of_ok hx) (run_bind_of_ok hy)

theorem Matches.mono (h : Matches first second x y R) {R' : Draft → Draft → α → β → Prop}
    (himp : ∀ {a b d' after'}, first.Precedes d' → second.Precedes after' →
      d'.Alike after' → R d' after' a b → R' d' after' a b) :
    Matches first second x y R' := by
  cases h with
  | ok hx hy hfst hsnd hal hres =>
    exact .ok hx hy hfst hsnd hal (himp hfst hsnd hal hres)
  | error hx hy hfst hsnd hal he =>
    exact .error hx hy hfst hsnd hal he

/-- Operations on corresponding items, one after the other. What corresponds goes on to do so. -/
theorem matches_mapM {S : Draft → Draft → α → β → Prop} {R : Draft → Draft → γ → δ → Prop}
    (hS : ∀ {first second first' second' a b}, first.Precedes first' → second.Precedes second' →
      S first second a b → S first' second' a b)
    (hR : ∀ {first second first' second' a b}, first.Precedes first' → second.Precedes second' →
      R first second a b → R first' second' a b)
    {f : α → Build γ} {g : β → Build δ}
    (hstep : ∀ {first second a b}, first.Alike second → S first second a b →
      Matches first second (f a) (g b) R)
    {items : List α} {items' : List β} (hal : first.Alike second)
    (h : Forall₂ (S first second) items items') :
    Matches first second (items.mapM f) (items'.mapM g)
      fun d' after' ↦ Forall₂ (R d' after') := by
  induction items generalizing items' first second with
  | nil =>
    cases h
    rw [mapM_nil, mapM_nil]
    exact matches_pure hal .nil
  | cons a items ih =>
    obtain - | ⟨hhd, htail⟩ := h
    rw [mapM_cons, mapM_cons]
    refine (hstep hal hhd).bind fun hfst hsnd hal' hres ↦ ?_
    refine (ih hal' (htail.imp fun _ _ h ↦ hS hfst hsnd h)).bind
      fun hfirst' hsecond' halike'' hrs ↦ ?_
    exact matches_pure halike'' (.cons (hR hfirst' hsecond' hres) hrs)

end Matches

end Draft

end DiffGraph
