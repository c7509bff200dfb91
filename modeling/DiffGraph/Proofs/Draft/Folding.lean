import DiffGraph.Proofs.Draft.Substitution
import DiffGraph.Proofs.Draft.Uniformity
import DiffGraph.Proofs.Graph.Text

/-!
Substitution depends on terms only. Two nodes that stand for the same term, in drafts that are alike,
become nodes that stand for the same term when the same values are substituted in both
(`substitute_same`), and are evaluated to the same constant (`evaluate_same`).

The two drafts may have numbered their nodes differently, so that the parts of the two expressions are
rebuilt in different orders. What the first rebuilding made of each part is recorded with the draft it
was made in (`Made`), and every part that the second one comes to is compared with the record.
-/

set_option autoImplicit false

namespace DiffGraph

open List Stateful Build Option Std.HashMap

variable {bs bindings bindings' k known₀ : Bindings} {first second d' before second' : Draft}
  {a b res result part part' : NodeId} {args operands args' done writes writes' : List NodeId}
  {env results : List (String × Value)} {found' m : Option NodeId}

namespace Draft

/-- What is bound in one draft is bound in the other one to what stands for the same term. -/
structure SameBindings (first second : Draft) (bs bindings' : Bindings) : Prop where
  forth : ∀ {a v : NodeId}, bs[a]? = some v →
    ∃ b w, Same first second a b ∧ bindings'[b]? = some w ∧ Same first second v w
  back : ∀ {b w : NodeId}, bindings'[b]? = some w →
    ∃ a v, Same first second a b ∧ bs[a]? = some v ∧ Same first second v w

/-- Where the first operation succeeds, the second one does, and the results correspond. -/
def Reproduces {α β : Type} (first second : Draft) (x : Build α) (y : Build β)
    (R : Draft → Draft → α → β → Prop) : Prop :=
  ∀ ⦃a : α⦄ ⦃d' : Draft⦄, x.run first = (.ok a, d') → ∃ b after',
    y.run second = (.ok b, after') ∧ first.Precedes d' ∧ second.Precedes after' ∧
      d'.Alike after' ∧ R d' after' a b

section Reproduces

variable {α β γ δ : Type} {x : Build α} {y : Build β} {R : Draft → Draft → α → β → Prop}
  {f : α → Build γ} {g : β → Build δ} {R' : Draft → Draft → γ → δ → Prop}

theorem Matches.of_ok (h : Matches first second x y R) : Reproduces first second x y R := by
  intro m d' hr
  cases h with
  | ok hx hy hfst hsnd hal hres =>
    rw [hx] at hr
    cases hr
    exact ⟨_, _, hy, hfst, hsnd, hal, hres⟩
  | error hx =>
    rw [hx] at hr
    cases hr

theorem Reproduces.bind (h : Reproduces first second x y R)
    (hnx : ∀ {a b d' after'}, first.Precedes d' → second.Precedes after' →
      d'.Alike after' → R d' after' a b → Reproduces d' after' (f a) (g b) R') :
    Reproduces first second (x >>= f) (y >>= g) R' := by
  intro c d' hr
  obtain ⟨a, s, hx, hrs⟩ := ok_of_run_bind hr
  obtain ⟨b, s', hy, hfst, hsnd, hal, hres⟩ := h hx
  obtain ⟨d, after', hy', hfirst', hsecond', haf⟩ := hnx hfst hsnd hal hres hrs
  exact ⟨d, after', (run_bind_of_ok hy).trans hy', hfst.trans hfirst', hsnd.trans hsecond', haf⟩

theorem Reproduces.after_ok {a : α} {b : β} (h : Reproduces first second (f a) (g b) R')
    (hx : x.run first = (.ok a, first)) (hy : y.run second = (.ok b, second)) :
    Reproduces first second (x >>= f) (y >>= g) R' := by
  intro c d' hr
  rw [run_bind_of_ok hx] at hr
  rw [run_bind_of_ok hy]
  exact h hr

end Reproduces

section Bindings

variable {v w : NodeId}

theorem SameOption.cases (h : SameOption first second m found') :
    (m = Option.none ∧ found' = Option.none) ∨
      ∃ a b, m = Option.some a ∧ found' = Option.some b ∧ Same first second a b := by
  cases h with
  | none => exact .inl ⟨rfl, rfl⟩
  | some h => exact .inr ⟨_, _, rfl, rfl, h⟩

theorem SameOption.bind (h : SameOption first second m found') {f f' : NodeId → Option NodeId}
    (hsame : ∀ {a b}, Same first second a b → SameOption first second (f a) (f' b)) :
    SameOption first second (m.bind f) (found'.bind f') := by
  cases h with
  | none => exact .none
  | some h => exact hsame h

theorem SameBindings.later {first' : Draft}
    (h : SameBindings first second bs bindings') (hfst : first.Precedes first')
    (hsnd : second.Precedes second') : SameBindings first' second' bs bindings' where
  forth hbd := by
    obtain ⟨b, w, hkey, hf, hv⟩ := h.forth hbd
    exact ⟨b, w, hkey.later hfst hsnd, hf, hv.later hfst hsnd⟩
  back hbd := by
    obtain ⟨a, v, hkey, hf, hv⟩ := h.back hbd
    exact ⟨a, v, hkey.later hfst hsnd, hf, hv.later hfst hsnd⟩

theorem SameBindings.left (h : SameBindings first second bindings bindings') :
    SameBindings first first bindings bindings := by
  have hown {a v : NodeId} (hbd : bindings[a]? = some v) :
      Same first first a a ∧ Same first first v v := by
    obtain ⟨b, w, hkey, -, hv⟩ := h.forth hbd
    exact ⟨⟨hkey.left, hkey.left, rfl⟩, hv.left, hv.left, rfl⟩
  exact ⟨fun hbd ↦ ⟨_, _, (hown hbd).1, hbd, (hown hbd).2⟩,
    fun hbd ↦ ⟨_, _, (hown hbd).1, hbd, (hown hbd).2⟩⟩

theorem sameBindings_empty : SameBindings first second ∅ ∅ where
  forth h := by simp at h
  back h := by simp at h

section

variable (h : SameBindings first second bs bindings') (hki : first.Kindred second)
  (hkey : Same first second a b)

include h hki hkey

theorem SameBindings.insert (hv : Same first second v w) :
    SameBindings first second (bs.insert a v) (bindings'.insert b w) where
  forth {a' v'} hbd := by
    rw [Std.HashMap.getElem?_insert] at hbd
    by_cases heq : a = a'
    · subst heq
      rw [if_pos (beq_self_eq_true a)] at hbd
      obtain rfl := some.inj hbd
      exact ⟨b, w, hkey, getElem?_insert_self, hv⟩
    · rw [if_neg (fun h ↦ heq (eq_of_beq h))] at hbd
      obtain ⟨b', w', hkey', hf, hv'⟩ := h.forth hbd
      refine ⟨b', w', hkey', ?_, hv'⟩
      rwa [Std.HashMap.getElem?_insert, if_neg fun h ↦
        heq ((hkey.eq_iff hki.left hki.right hkey').mpr (eq_of_beq h))]
  back {b' w'} hbd := by
    rw [Std.HashMap.getElem?_insert] at hbd
    by_cases heq : b = b'
    · subst heq
      rw [if_pos (beq_self_eq_true b)] at hbd
      obtain rfl := some.inj hbd
      exact ⟨a, v, hkey, getElem?_insert_self, hv⟩
    · rw [if_neg (fun h ↦ heq (eq_of_beq h))] at hbd
      obtain ⟨a', v', hkey', hf, hv'⟩ := h.back hbd
      refine ⟨a', v', hkey', ?_, hv'⟩
      rwa [Std.HashMap.getElem?_insert, if_neg fun h ↦
        heq ((hkey.eq_iff hki.left hki.right hkey').mp (eq_of_beq h))]

theorem SameBindings.get :
    SameOption first second bs[a]? bindings'[b]? := by
  cases hfst : bs[a]? with
  | some v =>
    obtain ⟨b', w, hkey', hf, hv⟩ := h.forth hfst
    obtain rfl := (hkey.eq_iff hki.left hki.right hkey').mp rfl
    rw [hf]
    exact .some hv
  | none =>
    cases hsnd : bindings'[b]? with
    | none => exact .none
    | some w =>
      obtain ⟨a', v, hkey', hf, -⟩ := h.back hsnd
      obtain rfl := (hkey.eq_iff hki.left hki.right hkey').mpr rfl
      rw [hfst] at hf
      cases hf

theorem SameBindings.contains_eq :
    bs.contains a = bindings'.contains b := by
  rw [contains_eq_isSome_getElem?, contains_eq_isSome_getElem?]
  rcases (h.get hki hkey).cases with ⟨ha, hb⟩ | ⟨v, w, ha, hb, -⟩
  · rw [ha, hb]
  · rw [ha, hb]
    rfl

end

end Bindings

section Descent

theorem findIdx?_eq_of_same {ids ids' : List NodeId}
    (h : Forall₂ (Same first second) ids ids') {p p' : NodeId → Bool}
    (hsame : ∀ {a b}, Same first second a b → p a = p' b) : ids.findIdx? p = ids'.findIdx? p' := by
  induction h with
  | nil => rfl
  | cons hhd _ ih => rw [findIdx?_cons, findIdx?_cons, hsame hhd, ih]

theorem SameKind.base? {kind kind' : NodeKind} (h : SameKind first second kind kind') :
    SameOption first second kind.base? kind'.base? := by
  cases h with
  | @expression op args args' hops =>
    cases hops with
    | nil => cases op <;> exact .none
    | cons hhd _ =>
      cases op with
      | member | index => exact .some hhd
      | registered | construct => exact .none
  | _ => exact .none

/-- The ways from two addresses to their arguments correspond. -/
theorem Same.lineage (h : Same first second a b) :
    Forall₂ (Same first second) (first.graph.lineage a) (second.graph.lineage b) := by
  induction hix : a.index using Nat.strongRecOn generalizing a b with
  | ind index ih =>
    obtain ⟨n, m, ha, hb, -, hk⟩ := h.nodes
    have hba := hk.base?
    rcases hba.cases with ⟨hfst, hsnd⟩ | ⟨base, base', hfst, hsnd, hsame⟩
    · rw [Graph.lineage_of_base_none ha hfst, Graph.lineage_of_base_none hb hsnd]
      exact .cons h .nil
    · rw [Graph.lineage_of_base ha hfst, Graph.lineage_of_base hb hsnd]
      have hlt := Graph.operand_index_lt ha (NodeKind.base?_mem_operands hfst)
      exact .cons h (ih base.index (hix ▸ hlt) hsame rfl)

variable (hun : first.operators.Uniform)

include hun

theorem matches_descend {v w : NodeId} {path path' : List NodeId} (hal : first.Alike second)
    (h : Same first second v w) (hpath : Forall₂ (Same first second) path path') :
    Matches first second (Build.descend v path) (Build.descend w path') Same := by
  unfold Build.descend
  induction path generalizing path' first second v w with
  | nil =>
    cases hpath
    exact matches_pure hal h
  | cons part path ih =>
    obtain - | ⟨hp, hpath⟩ := hpath
    rw [foldlM_cons, foldlM_cons]
    refine Matches.bind (R := Same) ?_ fun hf hs hal hres ↦ ?_
    · obtain ⟨n, m, ha, hb, ht, hk, -⟩ := hal.exists_nodes hp
      refine .after_ok ?_ (run_node_of_some ha) (run_node_of_some hb)
      generalize n.kind = kind at hk
      generalize m.kind = kind' at hk
      cases hk with
      | expression op _ =>
        refine .after_ok ?_ (run_typeOf_of_some ha) (run_typeOf_of_some hb)
        rw [ht]
        exact matches_rebuild hun hal op _ (.cons h .nil)
      | _ => exact matches_pure hal h
    · exact ih (hf.operators ▸ hun) hal hres (hpath.imp fun _ _ h ↦ h.later hf hs)

theorem matches_boundValue? (hal : first.Alike second)
    (hbind : SameBindings first second bs bindings') (h : Same first second a b) :
    Matches first second (Build.boundValue? bs a) (Build.boundValue? bindings' b)
      SameOption := by
  refine .after_ok ?_ (run_get first) (run_get second)
  have hdp : ((first.graph.lineage a).findIdx? fun part ↦ bs.contains part) =
      (second.graph.lineage b).findIdx? fun part ↦ bindings'.contains part :=
    findIdx?_eq_of_same h.lineage (hbind.contains_eq hal.kindred)
  dsimp only
  rw [hdp]
  split
  · exact matches_pure hal .none
  next depth _ =>
    have hf : SameOption first second ((first.graph.lineage a)[depth]?.bind fun part ↦ bs[part]?)
        ((second.graph.lineage b)[depth]?.bind fun part ↦ bindings'[part]?) :=
      (getElem?_same h.lineage depth).bind (hbind.get hal.kindred)
    rcases hf.cases with ⟨hno, hnone'⟩ | ⟨v, w, hv, hw, hvalue⟩
    · rw [hno, hnone']
      exact matches_pure hal .none
    · rw [hv, hw]
      have hpath := rel_reverse (forall₂_take depth h.lineage)
      exact (matches_descend hun hal hvalue hpath).some

end Descent

section Parts

variable {rebuilt rebuilt' : Bindings}

/-- Whether an operand changes is the same in both drafts. -/
theorem map_eq_iff_of_same (hki : first.Kindred second) {f f' : NodeId → NodeId}
    (hops : Forall₂ (Same first second) args args')
    (h : ∀ a ∈ args, ∀ b, Same first second a b → Same first second (f a) (f' b)) :
    Forall₂ (Same first second) (args.map f) (args'.map f') ∧
      (args.map f = args ↔ args'.map f' = args') := by
  induction hops with
  | nil => exact ⟨.nil, Iff.rfl⟩
  | cons hhd _ ih =>
    obtain ⟨hfst, hos⟩ := forall_mem_cons.mp h
    obtain ⟨hmap, hiff⟩ := ih hos
    refine ⟨.cons (hfst _ hhd) hmap, ?_⟩
    rw [map_cons, map_cons, cons_eq_cons, cons_eq_cons, hiff,
      (hfst _ hhd).eq_iff hki.left hki.right hhd]

theorem SameNode.isComputed_eq {n m : Node} (h : SameNode first second n m) :
    n.isComputed = m.isComputed := by
  obtain ⟨-, hk, haddr⟩ := h
  unfold Node.isComputed
  rw [haddr]
  generalize n.kind = kind at hk
  generalize m.kind = kind' at hk
  cases hk <;> rfl

/-- What a node becomes depends on what its operands have become. -/
theorem matches_substituteNode (hun : first.operators.Uniform) (hal : first.Alike second)
    (hbind : SameBindings first second bs bindings') (h : Same first second a b)
    (hrebuilt : ∀ node, first.graph.node? a = some node → node.isComputed = true →
      ∀ arg ∈ node.operands, ∀ arg', Same first second arg arg' →
        Same first second (rebuilt.getD arg arg) (rebuilt'.getD arg' arg')) :
    Matches first second (Build.substituteNode bs rebuilt a)
      (Build.substituteNode bindings' rebuilt' b) Same := by
  obtain ⟨n, m, ha, hb, ht, hk, haddr⟩ := hal.exists_nodes h
  have hcomp := hrebuilt n ha
  refine .after_ok ?_ (run_node_of_some ha) (run_node_of_some hb)
  rw [← ht, ← haddr]
  unfold Node.isComputed Node.operands at hcomp
  generalize n.kind = kind at hk hcomp
  generalize m.kind = kind' at hk
  cases hk with
  | constant | argument => exact matches_pure hal h
  | read hrd =>
    refine (matches_boundValue? hun hal hbind hrd).bind fun hf hs hal hfound ↦ ?_
    cases hfound with
    | none => exact matches_pure hal (h.later hf hs)
    | some hv => exact matches_pure hal hv
  | write _ _ =>
    exact .error rfl rfl (.refl _) (.refl _) hal (by exact rfl)
  | @expression op args args' hops =>
    dsimp only
    by_cases hpl : n.isAddress = true
    · rw [if_pos hpl, if_pos hpl]
      exact matches_pure hal h
    · rw [if_neg hpl, if_neg hpl]
      obtain ⟨hmap, hiff⟩ := map_eq_iff_of_same hal.kindred hops (hcomp (by simpa using hpl))
      by_cases hsame : args'.map (fun arg ↦ rebuilt'.getD arg arg) = args'
      · rw [if_pos (hiff.mpr hsame), if_pos hsame]
        exact matches_pure hal h
      · rw [if_neg (fun h ↦ hsame (hiff.mp h)), if_neg hsame]
        exact matches_rebuild hun hal op _ hmap

end Parts

/-- What a part of an expression was made into while the parts were rebuilt one after another: the
draft and the results it was made from, and the result that is kept. -/
structure Made (start final : Draft) (bs results : Bindings) (part : NodeId)
    (before d' : Draft) (k : Bindings) (res : NodeId) : Prop where
  start_before : start.Precedes before
  before_after : before.Precedes d'
  after_final : d'.Precedes final
  sound : before.Sound
  run : (Build.substituteNode bs k part).run before = (.ok res, d')
  kept : results[part]? = some res
  operands : ∀ n, start.graph.node? part = some n → n.isComputed = true →
    ∀ arg ∈ n.operands, ∃ id, k[arg]? = some id ∧ results[arg]? = some id ∧
      before.graph.Owns id

section Walk

variable {start now : Draft} {results : Bindings} {root : NodeId}

theorem Made.insert {left : Draft} {other result' : NodeId}
    (h : Made start now bs k part before left known₀ res) (hl : now.Precedes d')
    (hlt : part.index < other.index) :
    Made start d' bs (k.insert other result') part before left known₀ res where
  __ := h
  after_final := h.after_final.trans hl
  kept := (getElem?_insert_of_lt hlt).trans h.kept
  operands node hn hcomp operand hop := by
    obtain ⟨id, hid, hkept, how⟩ := h.operands node hn hcomp operand hop
    have hbl := Nat.lt_trans (Graph.operand_index_lt hn hop) hlt
    exact ⟨id, hid, (getElem?_insert_of_lt hbl).trans hkept, how⟩

theorem owns_of_run_substituteNode (hun : now.operators.Uniform) (hfx : now.types.Fixed)
    (hnow : now.Sound) (hbind : SameBindings now now bs bs) (how : now.graph.Owns part)
    (hkn : ∀ n, now.graph.node? part = some n → n.isComputed = true → ∀ arg ∈ n.operands, ∃ id, k[arg]? = some id ∧ now.graph.Owns id)
    (hr : (Build.substituteNode bs k part).run now = (.ok result, d')) :
    d'.graph.Owns result := by
  have hmatches : Matches now now (Build.substituteNode bs k part)
      (Build.substituteNode bs k part) Same := by
    refine matches_substituteNode hun ⟨hnow, hnow, rfl, rfl, hfx, rfl⟩ hbind
      ⟨how, how, rfl⟩ fun n hn hcomp arg hop other hsame ↦ ?_
    obtain ⟨id, hid, hidOwns⟩ := hkn n hn hcomp arg hop
    obtain rfl := hnow.interned.eq_of_term hsame.left hsame.right hsame.term
    rw [getD_eq_getD_getElem?, hid]
    exact ⟨hidOwns, hidOwns, rfl⟩
  obtain ⟨_, _, -, -, -, -, hres⟩ := hmatches.of_ok hr
  exact hres.left

/-- All parts of an expression are recorded. -/
theorem made_of_run (hun : start.operators.Uniform) (hfx : start.types.Fixed)
    (hs : start.Sound) (hbind : SameBindings start start bs bs) (how : start.graph.Owns root)
    (hr : (Build.substituteParts bs (start.graph.closure Node.isComputed root) ∅).run start = (.ok results, d')) :
    start.Precedes d' ∧ d'.Sound ∧
      ∀ part ∈ start.graph.closure Node.isComputed root, ∃ before left k result,
        Made start d' bs results part before left k result := by
  have hall := ok_of_run_substituteParts (motive := fun now done k ↦ start.Precedes now ∧
    now.Sound ∧ ∀ part ∈ done, ∃ before left known₀ result,
      Made start now bs k part before left known₀ result ∧ now.graph.Owns result)
    how hs ⟨.refl start, hs, forall_mem_nil _⟩ ?_ (nil_append _).symm hr
  · refine ⟨hall.1, hall.2.1, fun part hp ↦ ?_⟩
    obtain ⟨before, left, k, result, hmade, -⟩ := hall.2.2 part hp
    exact ⟨before, left, k, result, hmade⟩
  rintro now done part rest k result d' hord hbl ⟨hpr, hnow, hdone⟩ hres hl haf
  have hpartOwns := Graph.owns_of_mem_closure how (hord ▸ mem_append_right _ mem_cons_self)
  have hops : ∀ n, start.graph.node? part = some n → n.isComputed = true →
      ∀ arg ∈ n.operands, ∃ id, k[arg]? = some id ∧ now.graph.Owns id := by
    intro n hn hcomp arg hop
    obtain ⟨_, _, _, id, hmade, hid⟩ := hdone arg (Graph.operand_mem_closure how hord hn hcomp hop)
    exact ⟨id, hmade.kept, hid⟩
  have hresultOwns : d'.graph.Owns result := by
    refine owns_of_run_substituteNode (hpr.operators ▸ hun)
      (hfx.extends_eq hpr.types ▸ hfx) hnow (hbind.later hpr hpr)
      (hpr.graph.owns hpartOwns) (fun n hn ↦ ?_) hres
    obtain ⟨m, hf⟩ := Graph.owns_iff_node?.mp hpartOwns
    obtain rfl := some.inj ((hpr.graph.node? hf).symm.trans hn)
    exact hops m hf
  refine ⟨hpr.trans hl, haf, fun other ho ↦ ?_⟩
  rcases mem_append.mp ho with hold | hnew
  · obtain ⟨before, left, known₀, m, hmade, hf⟩ := hdone other hold
    exact ⟨before, left, known₀, m, hmade.insert hl (hbl other hold), hl.graph.owns hf⟩
  · obtain rfl := mem_singleton.mp hnew
    refine ⟨now, d', k, result, ⟨hpr, hl, .refl d', hnow, hres,
      getElem?_insert_self, fun n hn hcomp arg hop ↦ ?_⟩, hresultOwns⟩
    obtain ⟨id, hid, hidOwns⟩ := hops n hn hcomp arg hop
    exact ⟨id, hid, (getElem?_insert_of_lt (Graph.operand_index_lt hn hop)).trans hid, hidOwns⟩

end Walk

section Comparison

variable {final now : Draft} {results : Bindings}

/-- The parts of the second expression have counterparts among those of the first one. -/
theorem exists_counterpart (hfst : first.Sound) (hsnd : second.Sound) (h : Same first second a b)
    (hp : part' ∈ second.graph.closure Node.isComputed b) :
    ∃ part ∈ first.graph.closure Node.isComputed a, Same first second part part' := by
  refine Graph.closure_induction (motive := fun part' ↦
    ∃ part ∈ first.graph.closure Node.isComputed a, Same first second part part') h.right
    ⟨a, Graph.root_mem_closure _ h.left, h⟩ ?_ hp
  rintro user' arg' m ⟨user, huser, hsame⟩ hm hcomp hop'
  obtain ⟨n, hn⟩ := Graph.owns_iff_node?.mp hsame.left
  obtain ⟨ht, hk⟩ := hsame.contents hn hm
  have hcomputed' : n.isComputed = true := by
    rwa [SameNode.isComputed_eq ⟨ht, hk, hsame.isAddress_eq hfst hsnd hn hm⟩]
  obtain ⟨pos, hpos, rfl⟩ := mem_iff_getElem.mp hop'
  have hlt : pos < n.operands.length := hk.operands.length_eq ▸ hpos
  refine ⟨n.operands[pos], ?_, hk.operands.get hlt hpos⟩
  obtain ⟨earlier, later, hord⟩ := append_of_mem huser
  rw [hord]
  refine mem_append_left _ ?_
  exact Graph.operand_mem_closure h.left hord hn hcomputed' (getElem_mem hlt)

/-- What a part of the second expression was made into stands for the same term as what its
counterpart was made into. -/
def Agrees (first second final : Draft) (results : Bindings) (now : Draft)
    (part' result' : NodeId) : Prop :=
  ∃ part res, Same first second part part' ∧ results[part]? = some res ∧
    Same final now res result'

/-- A part is made into the same thing as its counterpart was, wherever the parts below it were. -/
theorem Made.matches {left : Draft}
    (hmade : Made first final bs results part before left known₀ res)
    (hun : first.operators.Uniform) (hal : first.Alike second)
    (hbind : SameBindings first second bs bindings') (h : Same first second part part')
    (hpr : second.Precedes now) (hnow : now.Sound)
    (hprepared : second.Prepares now (Agrees first second final results) k part') :
    Matches before now (Build.substituteNode bs known₀ part)
      (Build.substituteNode bindings' k part') Same := by
  have hsta := hmade.start_before
  have hbf : before.Alike now := hal.later hsta hpr hmade.sound hnow
  refine matches_substituteNode (hsta.operators ▸ hun) hbf
    (hbind.later hsta hpr) (h.later hsta hpr) ?_
  intro node hnode hcomp arg hop arg' hsame
  obtain ⟨n, m, hn, hm, ht, hk⟩ := h.nodes
  obtain rfl := some.inj ((hsta.graph.node? hn).symm.trans hnode)
  have hcomputed' : m.isComputed = true := by
    rwa [← SameNode.isComputed_eq ⟨ht, hk, h.isAddress_eq hal.left hal.right hn hm⟩]
  obtain ⟨pos, hpos, rfl⟩ := mem_iff_getElem.mp hop
  have hlt : pos < m.operands.length := hk.operands.length_eq ▸ hpos
  have hpair : Same first second n.operands[pos] m.operands[pos] := hk.operands.get hpos hlt
  obtain rfl := ((hpair.later hsta hpr).eq_iff hbf.kindred.left hbf.kindred.right hsame).mp rfl
  obtain ⟨found', hkn, counterpart, found, hcounterpart, hres, hf⟩ :=
    hprepared m hm hcomputed' _ (getElem_mem hlt)
  obtain rfl := (hpair.eq_iff hal.kindred.left hal.kindred.right hcounterpart).mpr rfl
  obtain ⟨id, hid, hkept, hidOwns⟩ := hmade.operands n hn hcomp _ hop
  cases hres.symm.trans hkept
  rw [getD_eq_getD_getElem?, getD_eq_getD_getElem?, hid, hkn]
  exact ((hmade.before_after.trans hmade.after_final).same hidOwns).trans hf

/-- Substitution in alike drafts has the same outcome. -/
theorem substitute_same (hun : first.operators.Uniform) (hal : first.Alike second)
    (hbind : SameBindings first second bs bindings') (h : Same first second a b) :
    Reproduces first second (Build.substitute bs a) (Build.substitute bindings' b) Same := by
  intro res d' hr
  obtain ⟨-, results, rfl, hwalk⟩ := ok_of_run_substitute hr
  obtain ⟨hfst, hs, hmade⟩ := made_of_run hun hal.fixed hal.left hbind.left h.left hwalk
  have hwalk' : ∃ result' after', (Build.substitute bindings' b).run second =
      (.ok result', after') ∧ second.Precedes after' ∧ after'.Sound ∧
        Agrees first second d' results after' b result' := by
    refine hal.right.run_substitute_of_parts h.right ?_ ?_
    · rintro now last part' result' hl ⟨part, res, hp, hres, hsame⟩
      exact ⟨part, res, hp, hres, hsame.later (.refl _) hl⟩
    · intro now k part' hpr hnow hpart' hprepared
      obtain ⟨part, hp, hsame⟩ := exists_counterpart hal.left hal.right h hpart'
      obtain ⟨before, left, known₀, res, hmade₀⟩ := hmade part hp
      have hmatches := hmade₀.matches hun hal hbind hsame hpr hnow hprepared
      obtain ⟨result', after', hr, -, hl, hal', hres⟩ := hmatches.of_ok hmade₀.run
      exact ⟨result', after', hr, hl, hal'.right, part, res, hsame, hmade₀.kept,
        hres.later hmade₀.after_final (.refl after')⟩
  obtain ⟨result', after', hr', hsnd, hs', part, res, hp, hres, hsame⟩ := hwalk'
  refine ⟨result', after', hr', hfst, hsnd, hal.later hfst hsnd hs hs', ?_⟩
  obtain rfl := (h.eq_iff hal.kindred.left hal.kindred.right hp).mpr rfl
  rwa [getD_eq_getD_getElem?, hres]

end Comparison

/-- The text of a node can be told from its term. -/
theorem Same.text_eq (h : Same first second a b) : first.graph.text a = second.graph.text b := by
  rw [Graph.text_eq_term, Graph.text_eq_term, h.term]

/-- The arguments of one draft are arguments of the other one. -/
def SameArguments (first second : Draft) : Prop :=
  ∀ ⦃name : String⦄ ⦃id : NodeId⦄, first.arguments.lookup name = some id →
    ∃ id', second.arguments.lookup name = some id' ∧ Same first second id id'

section Evaluation

theorem SameArguments.later (h : SameArguments first second)
    (hfst : first.Precedes d') (hargs : d'.arguments = first.arguments)
    (hsnd : second.Precedes second') (hs : second'.Sound) : SameArguments d' second' := by
  intro name id hlk
  rw [hargs] at hlk
  obtain ⟨id', hlookup', hsame⟩ := h hlk
  refine ⟨id', ?_, hsame.later hfst hsnd⟩
  exact lookup_of_mem hs.arguments_nodup (hsnd.arguments.subset (mem_of_lookup hlookup'))

theorem bind_same (hal : first.Alike second) (hargs : SameArguments first second)
    {known' : Bindings} (hkn : SameBindings first second k known') :
    Reproduces first second (Build.bindEach k env) (Build.bindEach known' env)
      SameBindings := by
  intro bs d' hr
  induction env generalizing first second k known' with
  | nil =>
    obtain ⟨rfl, rfl⟩ := ok_of_run_pure hr
    exact ⟨known', second, rfl, .refl _, .refl _, hal, hkn⟩
  | cons e env ih =>
    obtain ⟨name, v⟩ := e
    obtain ⟨addr, n, id, s, hlk, hn, hc, hrs⟩ := ok_of_run_bindEach_cons hr
    obtain ⟨addr', hlookup', hsame⟩ := hargs hlk
    obtain ⟨n', hn'⟩ := Graph.owns_iff_node?.mp hsame.right
    obtain ⟨id', s', hconstant', hfst, hsnd, hal', hid⟩ := (matches_constant hal n.type v).of_ok hc
    obtain ⟨bindings', after', hrest', hla, hlast', hbind⟩ := ih hal'
      (hargs.later hfst ((constant_keepsRest _ _ _).of_run hc).arguments hsnd hal'.right)
      ((hkn.later hfst hsnd).insert hal'.kindred (hsame.later hfst hsnd) hid) hrs
    rw [(hsame.contents hn hn').1] at hconstant'
    rw [run_bindEach_cons hlookup' hn' hconstant']
    exact ⟨bindings', after', hrest', hfst.trans hla, hsnd.trans hlast', hbind⟩

/-- Nodes that stand for the same term become the same constant. -/
theorem constantUnder_same (hun : first.operators.Uniform) (hal : first.Alike second)
    (hbind : SameBindings first second bs bindings') (h : Same first second a b) :
    Reproduces first second (Build.constantUnder bs a) (Build.constantUnder bindings' b)
      Equal := by
  refine (substitute_same hun hal hbind h).bind fun _ _ hal hsame ↦ ?_
  obtain ⟨n, m, hn, hm, -, hk⟩ := hsame.nodes
  refine .after_ok ?_ (run_node_of_some hn) (run_node_of_some hm)
  rw [hk.constant?_eq]
  split
  next => exact (matches_pure hal rfl).of_ok
  next =>
    intro v d' hr
    cases hr

end Evaluation

end Draft

namespace Build

/-- Adds the value that is written by a node under the text of its address. -/
def evaluateWrite (bs : Bindings) (results : List (String × Value)) (id : NodeId) :
    Build (List (String × Value)) := do
  match (← node id).kind with
  | .write addr v =>
    let res ← constantUnder bs v
    return putResult results ((← get).graph.text addr) res
  | _ => return results

/-- The values of some writes for given arguments, by the text of their addresses. -/
def evaluateThese (env : List (String × Value)) (writes : List NodeId) :
    Build (List (String × Value)) := do
  let bs ← bind env
  writes.foldlM (evaluateWrite bs) []

/-- Binding arguments makes no writes. -/
theorem writes_of_run_bindEach {d : Draft} (h : (bindEach k env).run d = (.ok bs, d')) :
    d'.writes = d.writes := by
  induction env generalizing d k with
  | nil =>
    obtain ⟨-, rfl⟩ := ok_of_run_pure h
    rfl
  | cons e env ih =>
    obtain ⟨addr, n, id, s, -, -, hc, hrs⟩ := Draft.ok_of_run_bindEach_cons h
    exact (ih hrs).trans ((constant_keepsRest _ _ _).of_run hc).writes

/-- All writes are evaluated. -/
theorem run_evaluateWrites (env : List (String × Value)) (draft : Draft) :
    (evaluateWrites env).run draft = (evaluateThese env draft.writes).run draft := by
  unfold evaluateWrites evaluateThese
  rcases hbind : (bind env).run draft with ⟨_ | bindings, d'⟩
  · rw [run_bind_of_error hbind, run_bind_of_error hbind]
  · rw [run_bind_of_ok hbind, run_bind_of_ok hbind, run_get_bind, writes_of_run_bindEach hbind]
    rfl

end Build

namespace Draft

section

variable (hun : first.operators.Uniform) (hal : first.Alike second)

include hun hal

theorem evaluateWrite_same (hbind : SameBindings first second bs bindings')
    (h : Same first second a b) (given : List (String × Value)) :
    Reproduces first second (Build.evaluateWrite bs given a)
      (Build.evaluateWrite bindings' given b) Equal := by
  obtain ⟨n, m, hn, hm, -, hk⟩ := h.nodes
  refine .after_ok ?_ (run_node_of_some hn) (run_node_of_some hm)
  generalize n.kind = kind at hk
  generalize m.kind = kind' at hk
  cases hk with
  | write haddr hv =>
    refine (constantUnder_same hun hal hbind hv).bind fun hf hs hal heq ↦ ?_
    obtain rfl := heq
    refine .after_ok ?_ (run_get _) (run_get _)
    rw [(haddr.later hf hs).text_eq]
    exact (matches_pure hal rfl).of_ok
  | _ => exact (matches_pure hal rfl).of_ok

theorem run_evaluateWrite_same (hbind : SameBindings first second bs bindings')
    (hws : Forall₂ (Same first second) writes writes') (given : List (String × Value)) :
    Reproduces first second (writes.foldlM (Build.evaluateWrite bs) given)
      (writes'.foldlM (Build.evaluateWrite bindings') given) Equal := by
  induction writes generalizing first second writes' given with
  | nil =>
    cases hws
    exact (matches_pure hal rfl).of_ok
  | cons id writes ih =>
    obtain - | ⟨hid, hws⟩ := hws
    rw [foldlM_cons, foldlM_cons]
    refine (evaluateWrite_same hun hal hbind hid given).bind fun hf hs hal heq ↦ ?_
    exact heq ▸ ih (hf.operators ▸ hun) hal (hbind.later hf hs)
      (hws.imp fun _ _ h ↦ h.later hf hs) _

/-- Writes that stand for the same terms store the same values under the same names. -/
theorem evaluateThese_same
    (hargs : SameArguments first second) (hws : Forall₂ (Same first second) writes writes') :
    Reproduces first second (Build.evaluateThese env writes)
      (Build.evaluateThese env writes') Equal := by
  refine (bind_same hal hargs sameBindings_empty).bind fun hf hs hal hbind ↦ ?_
  exact run_evaluateWrite_same (hf.operators ▸ hun) hal hbind
    (hws.imp fun _ _ h ↦ Same.later h hf hs) []

end

end Draft

end DiffGraph
