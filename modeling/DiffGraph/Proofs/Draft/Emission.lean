import DiffGraph.Proofs.Draft.AddressTexts
import DiffGraph.Proofs.Draft.Listing
import DiffGraph.Proofs.Draft.Rendering
import DiffGraph.Proofs.Types.Order

/-!
The body of a function in one pass. While the pass goes through the nodes in order, texts of
expressions wait for the node that uses them, and temporaries keep their names. What waits is what
recursion would render, and every operand position takes a text once; so the body is made of the
same statements as by recursion, an expression is never rendered a second time, and in the end
nothing waits.
-/

set_option autoImplicit false

namespace DiffGraph

open List Dependencies Std.HashMap

variable {id addr address v value : NodeId} {op operator : Operator}
  {args args operands done' : List NodeId} {emission : Emission} {draft : Draft}

namespace Emit

variable {α β : Type}

@[simp] theorem run_fromDraft (answer : Except Error α) (emission : Emission) :
    (fromDraft answer).run emission = answer.map fun a ↦ (a, emission) := by
  cases answer <;> rfl

/-- A part of a pass whose outcome does not depend on the state can be taken out of it. -/
theorem run_bind_of_map {x : Emit α} {f : α → Emit β} {answer : Except Error α} {after : Emission}
    (h : x.run emission = answer.map fun a ↦ (a, after)) :
    (x >>= f).run emission = answer >>= fun a ↦ (f a).run after := by
  rw [StateT.run_bind, h]
  cases answer <;> rfl

/-- Takes a prepared text or writes a node as it is, and leaves expressions that were not prepared
to a fallback. -/
def operandOr (fallback : NodeId → Emit String) (d : Draft) (lang : Language)
    (id : NodeId) : Emit String := do
  match ← take? id with
  | some text => return text
  | none =>
    match d.graph.node? id with
    | none => throw (.foreignAccess id.index d.name)
    | some node =>
      match ← fromDraft (d.outline lang id node) with
      | .text text => return text
      | .application _ => fallback id

/-- Renders an expression from the texts of its operands. -/
def rendering (d : Draft) (lang : Language) (id : NodeId) : Emit String := do
  match d.graph.node? id with
  | none => throw (.foreignAccess id.index d.name)
  | some node =>
    match ← fromDraft (d.outline lang id node) with
    | .text text => return text
    | .application op =>
      let parts ← node.operands.mapM (operand d lang)
      fromDraft (d.combine lang node.type op parts)

theorem operand_eq_operandOr (d : Draft) (language : Language) :
    operand d language = operandOr (rendering d language) d language := by
  funext id
  rw [operand, operandOr]
  congr 1
  funext taken
  cases taken with
  | some text => rfl
  | none =>
    dsimp only
    split
    next hnode => rw [hnode]
    next node hnode =>
      rw [rendering, hnode]
      dsimp only
      cases houtline : d.outline language id node with
      | error error => rfl
      | ok outline =>
        cases outline with
        | text text => rfl
        | application op =>
          have hdone : fromDraft (.ok (.application op)) =
              (pure (.application op) : Emit Draft.Outline) := rfl
          rw [hdone, pure_bind, pure_bind, pure_bind]
          dsimp only
          rw [Draft.mapM_attach node.operands (operand d language)]

/-- The prepared text of a node: the name of a temporary, or else what waits for its use. -/
theorem run_take? (id : NodeId) (emission : Emission) :
    (take? id).run emission = .ok (match emission.temporaries[id]? with
      | some name => (some name, emission)
      | none =>
        match emission.pending[id]? with
        | some text => (some text, { emission with pending := emission.pending.erase id })
        | none => (none, emission)) := rfl

end Emit

namespace Draft

/-- What a pass holds after some nodes in order and after some of the operand positions were met:
names of shared expressions, and the texts of other expressions that were not used yet. -/
structure Holds (d : Draft) (lang : Language) (done used : List NodeId)
    (emission : Emission) : Prop where
  temporaries : ∀ id, emission.temporaries[id]? =
    if id ∈ done ∧ d.isShared id = true then some (d.temporaryName id) else none
  waiting : ∀ id, id ∈ done → d.isSingle id = true → id ∉ used →
    ∃ text, emission.pending[id]? = some text ∧ d.unshared lang id = .ok text
  gone : ∀ id, (id ∈ done → d.isSingle id = true → id ∈ used) → emission.pending[id]? = none

theorem holds_start (d : Draft) (lang : Language) : d.Holds lang [] [] ⟨∅, ∅, #[]⟩ where
  temporaries id := by simp
  waiting id hid := nomatch hid
  gone id _ := by simp

section Operands

variable {language : Language} {done used : List NodeId}

section

variable (h : draft.Holds language done used emission)

include h

theorem Holds.congr {used' : List NodeId}
    (body : Array String) (hdone : ∀ id, draft.isComputed id = true → (id ∈ done' ↔ id ∈ done))
    (hused : ∀ id, draft.isSingle id = true → (id ∈ used' ↔ id ∈ used)) :
    draft.Holds language done' used' { emission with body } where
  temporaries id := by
    cases hsh : draft.isShared id with
    | true =>
      have hcomp : draft.isComputed id = true := (Bool.and_eq_true_iff.mp hsh).1
      have heq := h.temporaries id
      rw [hsh] at heq
      simpa only [hdone id hcomp] using heq
    | false =>
      have heq := h.temporaries id
      rw [hsh] at heq
      simpa using heq
  waiting id hid hsg hunused := by
    refine h.waiting id ((hdone id (isComputed_of_single hsg)).mp hid) hsg ?_
    exact fun hm ↦ hunused ((hused id hsg).mpr hm)
  gone id hgone := by
    refine h.gone id fun hid hsg ↦ ?_
    have hid' := (hdone id (isComputed_of_single hsg)).mpr hid
    exact (hused id hsg).mp (hgone hid' hsg)

/-- The use of a node that does not wait changes nothing. -/
theorem Holds.use
    (hsg : draft.isSingle id = false) : draft.Holds language done (used ++ [id]) emission := by
  refine h.congr emission.body (fun _ _ ↦ .rfl) fun other ho ↦ ?_
  have hne : other ≠ id := fun heq ↦ Bool.false_ne_true (hsg.symm.trans (heq ▸ ho))
  simp [hne]

theorem Holds.take (id : NodeId) : draft.Holds language done (used ++ [id])
      { emission with pending := emission.pending.erase id } where
  temporaries := h.temporaries
  waiting other hdone ho hunused := by
    obtain ⟨hused, hne⟩ := not_or.mp (fun hor ↦ hunused (mem_append.mpr hor))
    obtain ⟨text, hpen, htx⟩ := h.waiting other hdone ho hused
    refine ⟨text, ?_, htx⟩
    rw [getElem?_erase, if_neg, hpen]
    intro heq
    exact hne (mem_singleton.mpr (beq_iff_eq.mp heq).symm)
  gone other hgone := by
    rw [getElem?_erase]
    split
    · rfl
    next hne =>
      refine h.gone other fun hdone ho ↦ ?_
      rcases mem_append.mp (hgone hdone ho) with hused | heq
      · exact hused
      · exact absurd (beq_iff_eq.mpr (mem_singleton.mp heq).symm) hne

end

/-- An operand is ready if it is an expression that was met before and is not used up. -/
structure Ready (d : Draft) (done used : List NodeId) (id : NodeId) : Prop where
  done : d.isComputed id = true → id ∈ done
  unused : d.isSingle id = true → id ∉ used

theorem text_ne_application (answer : Except Error AddressText) (op : Operator) :
    (do return Outline.text (← answer).value) ≠ Except.ok (Outline.application op) := by
  cases answer <;> intro heq <;> cases heq

theorem outline_of_not_computed {n : Node} (hnode : draft.graph.node? id = some n)
    (h : draft.isComputed id = false) (op : Operator) :
    draft.outline language id n ≠ .ok (.application op) := by
  rw [isComputed_of_node? hnode, Node.isComputed] at h
  unfold outline
  cases hk : n.kind with
  | constant v =>
    dsimp only
    split <;> intro heq <;> cases heq
  | argument | read | write => exact text_ne_application _ op
  | expression applied args =>
    rw [hk] at h
    have haddr : n.isAddress = true := by simpa using h
    rw [haddr]
    exact text_ne_application _ op

section

variable (h : draft.Holds language done used emission)

include h

/-- The text of an operand is the one by recursion, whatever the fallback. -/
theorem Holds.run_operandOr (hrd : draft.Ready done used id) :
    ∃ d', draft.Holds language done (used ++ [id]) d' ∧ d'.body = emission.body ∧
      ∀ fallback, (Emit.operandOr fallback draft language id).run emission =
        (draft.reference language id).map fun text ↦ (text, d') := by
  cases hcomp : draft.isComputed id with
  | true =>
    cases hsh : draft.isShared id with
    | true =>
      have hnm : emission.temporaries[id]? = some (draft.temporaryName id) := by
        rw [h.temporaries, if_pos ⟨hrd.done hcomp, hsh⟩]
      refine ⟨emission, h.use (by rw [isSingle, hsh, Bool.not_true, Bool.and_false]), rfl,
        fun fallback ↦ ?_⟩
      have htk : (Emit.take? id).run emission = .ok (some (draft.temporaryName id), emission) := by
        rw [Emit.run_take?, hnm]
      rw [reference, hsh, Emit.operandOr, StateT.run_bind, htk]
      rfl
    | false =>
      have hsg : draft.isSingle id = true := by rw [isSingle, hcomp, hsh]; rfl
      have hnm : emission.temporaries[id]? = none := by
        rw [h.temporaries, if_neg (by rw [hsh]; exact fun hand ↦ Bool.false_ne_true hand.2)]
      obtain ⟨text, hpen, htx⟩ := h.waiting id (hrd.done hcomp) hsg (hrd.unused hsg)
      refine ⟨_, h.take id, rfl, fun fallback ↦ ?_⟩
      have htk : (Emit.take? id).run emission =
          .ok (some text, { emission with pending := emission.pending.erase id }) := by
        rw [Emit.run_take?, hnm, hpen]
      rw [reference, hsh, if_neg Bool.false_ne_true, htx, Emit.operandOr, StateT.run_bind, htk]
      rfl
  | false =>
    have hsh := isShared_of_not_computed hcomp
    have hsg : draft.isSingle id = false := by rw [isSingle, hcomp, Bool.false_and]
    have hnm : emission.temporaries[id]? = none := by
      rw [h.temporaries, if_neg (by rw [hsh]; exact fun hand ↦ Bool.false_ne_true hand.2)]
    have hpen : emission.pending[id]? = none := by
      refine h.gone id fun _ hsingle' ↦ ?_
      rw [hsg] at hsingle'
      cases hsingle'
    have htk : (Emit.take? id).run emission = .ok (none, emission) := by
      rw [Emit.run_take?, hnm, hpen]
    refine ⟨emission, h.use hsg, rfl, fun fallback ↦ ?_⟩
    rw [reference, hsh, if_neg Bool.false_ne_true, Emit.operandOr, StateT.run_bind, htk]
    cases hnode : draft.graph.node? id with
    | none =>
      rw [unshared_of_missing language hnode]
      rfl
    | some node =>
      rw [unshared_of_node? language hnode]
      cases houtline : draft.outline language id node with
      | error error =>
        dsimp only
        rw [houtline]
        rfl
      | ok outline =>
        cases outline with
        | text text =>
          dsimp only
          rw [houtline]
          rfl
        | application op => exact absurd houtline (outline_of_not_computed hnode hcomp _)

theorem Holds.run_mapM {parts : List NodeId}
    (hdone : ∀ part ∈ parts, draft.isComputed part = true → part ∈ done)
    (hunused : ∀ part, draft.isSingle part = true → used.count part + parts.count part ≤ 1) :
    ∃ d', draft.Holds language done (used ++ parts) d' ∧ d'.body = emission.body ∧
      ∀ fallback, (parts.mapM (Emit.operandOr fallback draft language)).run emission =
        (parts.mapM (draft.reference language)).map fun texts ↦ (texts, d') := by
  induction parts generalizing used emission with
  | nil => exact ⟨emission, by rwa [append_nil], rfl, fun _ ↦ rfl⟩
  | cons part parts ih =>
    have hrd : draft.Ready done used part := by
      refine ⟨hdone part mem_cons_self, fun hsg hused ↦ ?_⟩
      have hcount := hunused part hsg
      have hpos := count_pos_iff.mpr hused
      rw [count_cons_self] at hcount
      omega
    obtain ⟨middle, hmid, hbody, hp⟩ := h.run_operandOr hrd
    obtain ⟨d', haf, hbody', hps⟩ := ih hmid
      (fun other ho ↦ hdone other (mem_cons_of_mem _ ho)) (fun other hsg ↦ by
        have hcount := hunused other hsg
        rw [count_append, count_singleton]
        rw [count_cons] at hcount
        omega)
    refine ⟨d', by rwa [append_assoc] at haf, hbody'.trans hbody, fun fallback ↦ ?_⟩
    rw [mapM_cons, mapM_cons, StateT.run_bind, hp fallback]
    cases draft.reference language part with
    | error error => rfl
    | ok text =>
      change (((parts.mapM (Emit.operandOr fallback draft language)) >>= fun texts ↦
        pure (text :: texts)).run middle) = _
      rw [StateT.run_bind, hps fallback]
      cases parts.mapM (draft.reference language) <;> rfl

/-- A shared expression that was declared has a name from now on. -/
theorem Holds.declare (hsh : draft.isShared id = true) :
    draft.Holds language (done ++ [id]) used { emission with
      temporaries := emission.temporaries.insert id (draft.temporaryName id) } where
  temporaries other := by
    rw [Std.HashMap.getElem?_insert, h.temporaries]
    by_cases heq : id = other
    · subst heq
      simp [hsh]
    · simp [heq, Ne.symm heq]
  waiting other ho hsg hunused := by
    rcases mem_append.mp ho with ho | heq
    · exact h.waiting other ho hsg hunused
    · rw [mem_singleton.mp heq, isSingle, hsh] at hsg
      simp at hsg
  gone other hgone := h.gone other fun ho ↦ hgone (mem_append_left _ ho)

/-- An expression that was rendered waits for its use. -/
theorem Holds.wait {text : String} (hsg : draft.isSingle id = true) (hunused : id ∉ used)
    (htx : draft.unshared language id = .ok text) :
    draft.Holds language (done ++ [id]) used { emission with
      pending := emission.pending.insert id text } where
  temporaries other := by
    rw [h.temporaries]
    by_cases heq : other = id
    · subst heq
      simp [isShared_of_single hsg]
    · simp [heq]
  waiting other ho ho' hunused' := by
    rw [Std.HashMap.getElem?_insert]
    by_cases heq : id = other
    · subst heq
      exact ⟨text, by simp, htx⟩
    · rw [if_neg (fun hbeq ↦ heq (beq_iff_eq.mp hbeq))]
      rcases mem_append.mp ho with ho | hla
      · exact h.waiting other ho ho' hunused'
      · exact absurd (mem_singleton.mp hla).symm heq
  gone other hgone := by
    rw [Std.HashMap.getElem?_insert, if_neg]
    · exact h.gone other fun ho ↦ hgone (mem_append_left _ ho)
    · intro hbeq
      obtain rfl := beq_iff_eq.mp hbeq
      exact hunused (hgone (mem_append_right _ mem_cons_self) hsg)

end

end Operands

section Pass

variable {language : Language} {done later : List NodeId} {node : Node}

/-- The step of a pass at a node. -/
def step (d : Draft) (lang : Language) (fallback : NodeId → Emit String) (id : NodeId) :
    Emit Unit :=
  Emit.nodeWith (Emit.operandOr fallback d lang) d lang d.dependencies id

/-- What the step at a node adds to the body. An expression has to have a text whether or not it has
a statement. -/
def addedTexts (d : Draft) (lang : Language) (id : NodeId) : Except Error (List String) := do
  if d.isComputed id then discard (d.unshared lang id)
  d.referenceStatement lang id

/-- A part of the pass ends as its texts do, whatever the fallback. If they are found, the pass holds
what it should when some nodes are done, and the texts are what it has added to the body. -/
inductive Proceeds (d : Draft) (lang : Language) (done : List NodeId) (emission : Emission)
    (part : (NodeId → Emit String) → Emit Unit) : Except Error (List String) → Prop
  | error {error : Error} (h : ∀ fallback, (part fallback).run emission = .error error) :
      Proceeds d lang done emission part (.error error)
  | ok {texts : List String} {after : Emission}
      (h : ∀ fallback, (part fallback).run emission = .ok (⟨⟩, after))
      (hholds : d.Holds lang done (done.flatMap d.graph.operands) after)
      (hbody : after.body.toList = emission.body.toList ++ texts) :
      Proceeds d lang done emission part (.ok texts)

theorem Proceeds.bind {part next : (NodeId → Emit String) → Emit Unit}
    {texts texts' : Except Error (List String)}
    (h : draft.Proceeds language done emission part texts)
    (hnx : ∀ after, draft.Holds language done (done.flatMap draft.graph.operands) after →
      draft.Proceeds language done' after next texts') :
    draft.Proceeds language done' emission (fun fallback ↦ part fallback >>= fun _ ↦ next fallback)
      (do return (← texts) ++ (← texts')) := by
  cases h with
  | error h => exact .error fun fallback ↦ by rw [StateT.run_bind, h fallback]; rfl
  | @ok _ after h hholds hbody =>
    have hrun (fallback : NodeId → Emit String) :
        (part fallback >>= fun _ ↦ next fallback).run emission = (next fallback).run after := by
      rw [StateT.run_bind, h fallback]
      rfl
    cases hnx _ hholds with
    | error h' => exact .error fun fallback ↦ (hrun fallback).trans (h' fallback)
    | ok h' hholds' hbody' =>
      refine .ok (fun fallback ↦ (hrun fallback).trans (h' fallback)) hholds' ?_
      rw [hbody', hbody, append_assoc]

/-- An expression that stands once has not been used before its operands' user is met. -/
theorem count_used_le (horder : draft.order = done ++ id :: later) {part : NodeId}
    (hsg : draft.isSingle part = true) :
    (done.flatMap draft.graph.operands).count part + (draft.graph.operands id).count part ≤ 1 := by
  have hle := count_uses_of_single hsg
  rw [uses, horder, flatMap_append, flatMap_cons, count_append, count_append] at hle
  omega

theorem not_mem_used (horder : draft.order = done ++ id :: later) :
    id ∉ (done ++ [id]).flatMap draft.graph.operands := by
  intro hused
  obtain ⟨user, huser, hop⟩ := mem_flatMap.mp hused
  rcases mem_append.mp huser with huser | huser
  · have hnd := draft.nodup_order
    rw [horder, nodup_append] at hnd
    exact hnd.2.2 id (operands_ahead horder huser hop) id mem_cons_self rfl
  · rw [mem_singleton.mp huser] at hop
    exact absurd (Graph.index_lt_of_mem_operands hop) (Nat.lt_irrefl _)

section Step

variable (hnode : draft.graph.node? id = some node)
include hnode

theorem referenceStatement_of_write (hk : node.kind = .write addr v) :
    draft.referenceStatement language id = (do
      let target ← draft.addressText language .write addr
      return [s!"{target.value} = {← draft.reference language v};"]) := by
  rw [referenceStatement, hnode]
  dsimp only
  rw [hk]

theorem referenceStatement_of_expression (hk : node.kind = .expression op args) :
    draft.referenceStatement language id =
      if draft.isShared id then do
        let text ← draft.unshared language id
        return [Emit.temporaryDeclaration language node.type (draft.temporaryName id) text]
      else return [] := by
  rw [referenceStatement, hnode]
  dsimp only
  rw [hk]

theorem referenceStatement_of_other (hw : node.isWrite = false)
    (hsh : draft.isShared id = false) : draft.referenceStatement language id = .ok [] := by
  rw [referenceStatement, hnode]
  dsimp only
  split
  next hk =>
    rw [Node.isWrite, hk] at hw
    cases hw
  · rw [hsh]
    rfl
  · rfl

theorem addedTexts_of_computed (hcomp : node.isComputed = true) : draft.addedTexts language id =
      draft.unshared language id >>= fun _ ↦ draft.referenceStatement language id := by
  rw [addedTexts, isComputed_of_node? hnode, if_pos hcomp]
  cases draft.unshared language id <;> rfl

theorem addedTexts_of_not_computed (hcomp : node.isComputed = false) :
    draft.addedTexts language id = draft.referenceStatement language id := by
  rw [addedTexts, isComputed_of_node? hnode, hcomp, if_neg Bool.false_ne_true]

theorem unshared_of_expression (lang : Language)
    (hk : node.kind = .expression op args) (hv : node.isAddress = false) :
    draft.unshared lang id = (do
      draft.combine lang node.type op (← args.mapM (draft.reference lang))) := by
  have houtline : draft.outline lang id node = .ok (.application op) := by
    rw [outline, hk]
    dsimp only
    rw [hv]
    rfl
  rw [unshared_of_node? lang hnode, houtline, Node.operands, hk]
  rfl

variable (h : draft.Holds language done (done.flatMap draft.graph.operands) emission)
include h

/-- A node that is neither written nor computed adds nothing. -/
theorem Holds.step_other (hs : draft.Sound) (hcomp : node.isComputed = false)
    (hw : node.isWrite = false) :
    draft.Proceeds language (done ++ [id]) emission (draft.step language · id)
      (draft.addedTexts language id) := by
  have hown : draft.isComputed id = false := (isComputed_of_node? hnode).trans hcomp
  rw [addedTexts_of_not_computed hnode hcomp,
    referenceStatement_of_other hnode hw (isShared_of_not_computed hown)]
  have hrun (fallback : NodeId → Emit String) :
      (draft.step language fallback id).run emission = .ok (⟨⟩, emission) := by
    rw [step, Emit.nodeWith, Emit.run_bind_of_map (Emit.run_fromDraft _ _), Draft.node, hnode]
    refine (pure_bind node _).trans ?_
    split
    next hk =>
      rw [Node.isWrite, hk] at hw
      cases hw
    next hk =>
      rw [Node.isComputed, hk] at hcomp
      have haddr : (!node.isAddress) = false := hcomp
      rw [haddr, if_neg Bool.false_ne_true]
      rfl
    · rfl
  refine .ok hrun (h.congr _ (fun other ho ↦ ?_) fun other hsg ↦ ?_) (append_nil _).symm
  · rw [mem_append, mem_singleton]
    refine ⟨fun hor ↦ hor.resolve_right ?_, .inl⟩
    rintro rfl
    rw [hown] at ho
    cases ho
  · rw [flatMap_append, flatMap_singleton, mem_append]
    refine ⟨fun hor ↦ hor.resolve_right fun hop ↦ ?_, .inl⟩
    rw [Graph.operands_of_node? hnode] at hop
    rw [isSingle, hs.isComputed_operand hnode hcomp hw other hop] at hsg
    cases hsg

variable (horder : draft.order = done ++ id :: later)
include horder

/-- The step at a write takes the text of its value. -/
theorem Holds.step_write (hs : draft.Sound) (hk : node.kind = .write addr value) :
    draft.Proceeds language (done ++ [id]) emission (draft.step language · id)
      (draft.addedTexts language id) := by
  have hops : draft.graph.operands id = [addr, value] := Graph.operands_of_kind hnode hk
  have hahead := operands_inOrder draft.graph draft.writes horder
  have hrd : draft.Ready done (done.flatMap draft.graph.operands) value := by
    refine ⟨fun _ ↦ hahead value ?_, fun hsg hused ↦ ?_⟩
    · rw [hops]
      exact mem_cons_of_mem _ mem_cons_self
    · have hcount := count_used_le horder hsg
      have hpos := count_pos_iff.mpr hused
      have hpos' : 0 < (draft.graph.operands id).count value := by
        rw [hops]
        exact count_pos_iff.mpr (mem_cons_of_mem _ mem_cons_self)
      omega
  obtain ⟨middle, hmid, hbody, hv⟩ := h.run_operandOr hrd
  have hrun (fallback : NodeId → Emit String) : (draft.step language fallback id).run emission = (do
        let target ← draft.addressText language .write addr
        let text ← draft.reference language value
        return (⟨⟩, { middle with body := middle.body.push s!"{target.value} = {text};" })) := by
    rw [step, Emit.nodeWith, Emit.run_bind_of_map (Emit.run_fromDraft _ _), Draft.node, hnode]
    refine (pure_bind node _).trans ?_
    simp only [hk]
    rw [Emit.run_bind_of_map (Emit.run_fromDraft _ _)]
    congr 1
    funext target
    rw [Emit.run_bind_of_map (hv fallback)]
    rfl
  have hcomp : node.isComputed = false := by rw [Node.isComputed, hk]
  rw [addedTexts_of_not_computed hnode hcomp, referenceStatement_of_write hnode hk]
  cases htg : draft.addressText language .write addr with
  | error error => exact .error fun fallback ↦ by rw [hrun fallback, htg]; rfl
  | ok target =>
    cases htx : draft.reference language value with
    | error error => exact .error fun fallback ↦ by rw [hrun fallback, htg, htx]; rfl
    | ok text =>
      refine .ok (fun fallback ↦ by rw [hrun fallback, htg, htx]; rfl)
        (hmid.congr _ (fun other hcomp' ↦ ?_) fun other hsg ↦ ?_) (by rw [Array.toList_push, hbody])
      · rw [mem_append, mem_singleton]
        refine ⟨fun hor ↦ hor.resolve_right ?_, .inl⟩
        rintro rfl
        rw [isComputed_of_node? hnode, hcomp] at hcomp'
        cases hcomp'
      · have ho : other ≠ addr := by
          rintro rfl
          rw [isSingle, hs.isComputed_target hnode hk] at hsg
          cases hsg
        rw [flatMap_append, flatMap_singleton, hops]
        simp [ho]

/-- The step at an expression renders it from the texts of its operands. -/
theorem Holds.step_expression (hk : node.kind = .expression op args) (hv : node.isAddress = false) :
    draft.Proceeds language (done ++ [id]) emission (draft.step language · id)
      (draft.addedTexts language id) := by
  have hops : draft.graph.operands id = args := Graph.operands_of_kind hnode hk
  have hahead := operands_inOrder draft.graph draft.writes horder
  obtain ⟨middle, hmid, hbody, hps⟩ := h.run_mapM (fun part hp _ ↦ hahead part (hops ▸ hp))
    (fun part hsg ↦ hops ▸ count_used_le horder hsg)
  have hmet : done.flatMap draft.graph.operands ++ args =
      (done ++ [id]).flatMap draft.graph.operands := by
    rw [flatMap_append, flatMap_singleton, hops]
  rw [hmet] at hmid
  have hrun (fallback : NodeId → Emit String) : (draft.step language fallback id).run emission = (do
        let text ← draft.unshared language id
        if 1 < draft.dependencies.useCount id then
          let name := draft.temporaryName id
          return (⟨⟩, { middle with
            temporaries := middle.temporaries.insert id name
            body := middle.body.push (Emit.temporaryDeclaration language node.type name text) })
        else return (⟨⟩, { middle with pending := middle.pending.insert id text })) := by
    rw [step, Emit.nodeWith, Emit.run_bind_of_map (Emit.run_fromDraft _ _), Draft.node, hnode]
    refine (pure_bind node _).trans ?_
    simp only [hk]
    rw [hv, Bool.not_false, if_pos rfl, Emit.run_bind_of_map (hps fallback),
      unshared_of_expression hnode language hk hv, bind_assoc]
    congr 1
    funext parts
    rw [Emit.run_bind_of_map (Emit.run_fromDraft _ _)]
    congr 1
    funext text
    split <;> rfl
  have hcomp := Node.isComputed_of_expression hk hv
  rw [addedTexts_of_computed hnode hcomp, referenceStatement_of_expression hnode hk]
  rw [← isComputed_of_node? hnode] at hcomp
  cases htx : draft.unshared language id with
  | error error => exact .error fun fallback ↦ by rw [hrun fallback, htx]; rfl
  | ok text =>
    by_cases hcount : 1 < draft.dependencies.useCount id
    · have hsh : draft.isShared id = true := by
        rw [isShared, hcomp, Bool.true_and]
        exact decide_eq_true hcount
      rw [if_pos hsh]
      exact .ok (fun fallback ↦ by rw [hrun fallback, htx]; exact if_pos hcount)
        ((hmid.declare hsh).congr _ (fun _ _ ↦ .rfl) fun _ _ ↦ .rfl)
        (by rw [Array.toList_push, hbody])
    · have hsg : draft.isSingle id = true := by
        rw [isSingle, isShared, hcomp, Bool.true_and, Bool.true_and, decide_eq_false hcount]
        rfl
      rw [isShared_of_single hsg]
      exact .ok (fun fallback ↦ by rw [hrun fallback, htx]; exact if_neg hcount)
        (hmid.wait hsg (not_mem_used horder) htx) (by rw [append_nil, hbody])

end Step

section

variable (hs : draft.Sound)
  (h : draft.Holds language done (done.flatMap draft.graph.operands) emission)

include hs h

theorem Holds.step (horder : draft.order = done ++ id :: later) :
    draft.Proceeds language (done ++ [id]) emission (draft.step language · id)
      (draft.addedTexts language id) := by
  obtain ⟨node, hnode⟩ := hs.node?_of_mem_order (horder ▸ mem_append_right _ mem_cons_self)
  cases hcomp : node.isComputed with
  | true =>
    obtain ⟨op, args, hk, hv⟩ := kind_of_isComputed hcomp
    exact h.step_expression hnode horder hk hv
  | false =>
    cases hw : node.isWrite with
    | true =>
      obtain ⟨addr, v, hk⟩ := kind_of_isWrite hw
      exact h.step_write hnode horder hs hk
    | false => exact h.step_other hnode hs hcomp hw

/-- From any point in the order on, the pass does not use its fallback. -/
theorem Holds.run (horder : draft.order = done ++ later) :
    draft.Proceeds language draft.order emission
      (fun fallback ↦ later.forM (draft.step language fallback))
      (do return (← later.mapM (draft.addedTexts language)).flatten) := by
  induction later generalizing done emission with
  | nil =>
    rw [append_nil] at horder
    exact .ok (fun _ ↦ rfl) (horder ▸ h) (append_nil _).symm
  | cons id later ih =>
    have htexts : (do return (← (id :: later).mapM (draft.addedTexts language)).flatten) = (do
        return (← draft.addedTexts language id) ++
          (← (do return (← later.mapM (draft.addedTexts language)).flatten))) := by
      rw [mapM_cons]
      cases draft.addedTexts language id with
      | error error => rfl
      | ok texts => cases later.mapM (draft.addedTexts language) <;> rfl
    rw [htexts]
    rw [append_cons] at horder
    exact (h.step hs (append_cons done id later ▸ horder)).bind fun after hafter ↦ ih hafter horder

end

/-- When all nodes were met, no text waits. -/
theorem Holds.pending_isEmpty (hs : draft.Sound)
    (h : draft.Holds language draft.order draft.uses emission) :
    emission.pending.isEmpty = true := by
  rw [isEmpty_iff_forall_not_mem]
  intro id hm
  have hgone := h.gone id fun hid hsg ↦ hs.mem_uses hid (isComputed_of_single hsg)
  rw [mem_iff_isSome_getElem?, hgone] at hm
  cases hm

theorem forM_node_eq (d : Draft) (lang : Language) :
    d.dependencies.inOrder.forM (Emit.node d lang d.dependencies) =
      d.order.forM (d.step lang (Emit.rendering d lang)) := by
  have hnode : Emit.node d lang d.dependencies = d.step lang (Emit.rendering d lang) := by
    funext id
    rw [Emit.node, step, ← Emit.operand_eq_operandOr]
  rw [hnode, Array.forM_eq_forM]
  exact forM_toArray _ _

/-- The pass through all nodes ends as their texts do. -/
theorem Sound.proceeds (hs : draft.Sound) (language : Language) :
    draft.Proceeds language draft.order ⟨∅, ∅, #[]⟩
      (fun fallback ↦ draft.order.forM (draft.step language fallback))
      (do return (← draft.order.mapM (draft.addedTexts language)).flatten) :=
  (draft.holds_start language).run hs (nil_append draft.order).symm

/-- A function is emitted from the texts of its nodes. -/
theorem Sound.emit_eq (hs : draft.Sound) (language : Language) : draft.emit language = (do
      let declarations ← draft.declarations language
      let texts ← draft.order.mapM (draft.addedTexts language)
      let signature := draft.signature language
      return {
        name := draft.name
        language
        signature
        declaration := if language.declaresAhead then some (signature ++ ";") else none
        body := statements language draft.preamble ++ declarations ++ texts.flatten ++
          statements language draft.postamble ++
          (if language = .js then [draft.returnStatement] else [])
        types := draft.types.referenced (draft.mentionedTypes draft.dependencies)
        indent := draft.options.indent }) := by
  have hpass := hs.proceeds language
  unfold emit
  dsimp only
  rw [forM_node_eq]
  congr 1
  funext declarations
  cases htexts : draft.order.mapM (draft.addedTexts language) with
  | error error =>
    rw [htexts] at hpass
    cases hpass with
    | error h =>
      rw [h]
      rfl
  | ok texts =>
    rw [htexts] at hpass
    cases hpass with
    | ok h _ hbody =>
      rw [h]
      exact congrArg Except.ok (by rw [hbody]; rfl)

/-- The statements of an emitted function are found by recursion. -/
theorem Sound.ok_of_emit (hs : draft.Sound) {function : EmittedFunction}
    (h : draft.emit language = .ok function) :
    ∃ declarations texts, draft.declarations language = .ok declarations ∧
      draft.order.mapM (draft.addedTexts language) = .ok texts ∧
      function.signature = draft.signature language ∧
      function.body = statements language draft.preamble ++ declarations ++
        texts.flatten ++ statements language draft.postamble ++
          (if language = .js then [draft.returnStatement] else []) := by
  rw [hs.emit_eq] at h
  cases hdeclarations : draft.declarations language with
  | error error =>
    rw [hdeclarations] at h
    cases h
  | ok declarations =>
    cases htexts : draft.order.mapM (draft.addedTexts language) with
    | error error =>
      rw [hdeclarations, htexts] at h
      cases h
    | ok texts =>
      rw [hdeclarations, htexts] at h
      cases h
      exact ⟨declarations, texts, rfl, rfl, rfl, rfl⟩

theorem exists_ok_of_mapM {α β : Type} {f : α → Except Error β} {l : List α} {results : List β}
    (h : l.mapM f = .ok results) : ∀ a ∈ l, ∃ b, f a = .ok b := by
  induction l generalizing results with
  | nil => exact forall_mem_nil _
  | cons first rest ih =>
    rw [mapM_cons] at h
    cases hfst : f first with
    | error error =>
      rw [hfst] at h
      cases h
    | ok b =>
      cases hrs : rest.mapM f with
      | error error =>
        rw [hfst, hrs] at h
        cases h
      | ok others => exact forall_mem_cons.mpr ⟨⟨b, hfst⟩, ih hrs⟩

/-- Where all texts are found, the body is made of the statements by recursion. -/
theorem referenceStatements_of_texts {texts : List (List String)}
    (h : draft.order.mapM (draft.addedTexts language) = .ok texts) :
    draft.referenceStatements language = .ok texts.flatten := by
  have hsame : draft.order.mapM (draft.referenceStatement language) =
      draft.order.mapM (draft.addedTexts language) := by
    refine mapM_congr_left fun id hid ↦ ?_
    obtain ⟨_, hadded⟩ := exists_ok_of_mapM h id hid
    unfold addedTexts at hadded ⊢
    split
    next hcomp =>
      rw [if_pos hcomp] at hadded
      cases htx : draft.unshared language id with
      | error error =>
        rw [htx] at hadded
        cases hadded
      | ok text => rfl
    · rfl
  change (draft.order.mapM (draft.referenceStatement language) >>= _) = _
  rw [hsame, h]
  rfl

end Pass

/-- The pass writes what recursion would: its part of the body are the declarations of temporaries
and the writes, in order. It is the same pass with any fallback in the place of recursion, and it
leaves no text behind. Every temporary has a name of its own and is declared before it is mentioned,
every recorded write has its statement, and every expression is rendered once. -/
theorem Reachable.emit_eq_recursion {draft : Draft} (hdraft : draft.Reachable)
    {language : Language} {function : EmittedFunction}
    (hemit : draft.emit language = .ok function) :
    ∃ (declarations generated : List String) (emission : Emission),
      draft.referenceStatements language = .ok generated ∧
      draft.declarations language = .ok declarations ∧
      function.body = statements language draft.preamble ++ declarations ++ generated ++
        statements language draft.postamble ++
          (if language = .js then [draft.returnStatement] else []) ∧
      (draft.dependencies.inOrder.forM (Emit.node draft language draft.dependencies)).run
        ⟨∅, ∅, #[]⟩ = .ok (⟨⟩, emission) ∧
      (∀ fallback, (draft.order.forM (draft.step language fallback)).run ⟨∅, ∅, #[]⟩ =
        .ok (⟨⟩, emission)) ∧
      emission.body.toList = generated ∧ emission.pending.isEmpty = true ∧
      ((draft.order.filter draft.isShared).map draft.temporaryName).Nodup ∧
      (∀ earlier id later, draft.order = earlier ++ id :: later →
        ∀ temporary, .temporary temporary ∈ draft.statementOccurrences id →
          temporary ∈ earlier ∧ draft.isShared temporary = true) ∧
      (draft.order.filter fun id ↦ (draft.graph.node? id).any Node.isWrite).Perm draft.writes ∧
      ∀ id ∈ draft.order, draft.isComputed id = true →
        (draft.order.flatMap draft.statementOccurrences).count (.rendering id) = 1 := by
  have hsound := hdraft.sound
  obtain ⟨declarations, texts, hdeclarations, htexts, -, hbody⟩ := hsound.ok_of_emit hemit
  have hpass := hsound.proceeds language
  rw [htexts] at hpass
  change draft.Proceeds _ _ _ _ (.ok texts.flatten) at hpass
  cases hpass with
  | @ok _ emission hrun hholds hgenerated =>
    refine ⟨declarations, texts.flatten, emission, referenceStatements_of_texts htexts,
      hdeclarations, hbody, ?_, hrun, hgenerated.trans (List.nil_append _),
      hholds.pending_isEmpty hsound, hsound.nodup_temporaryNames,
      fun _ _ _ horder _ h ↦ temporary_ahead horder h, hsound.writes_perm,
      fun _ ↦ hsound.count_rendering⟩
    rw [forM_node_eq]
    exact hrun _

/-- A function with a shared expression. -/
theorem Reachable.emit_eq_recursion_minMax :
    ∃ (draft : Draft) (function : EmittedFunction) (generated : List String),
      draft.Reachable ∧ draft.writes = [⟨0, 5⟩] ∧ draft.isShared ⟨0, 3⟩ = true ∧
      draft.emit .c = .ok function ∧ draft.referenceStatements .c = .ok generated ∧
      function.body = statements .c draft.preamble ++ [] ++ generated ++
        statements .c draft.postamble ++ [] := by
  obtain ⟨function, hemit⟩ : ∃ function, (minMaxDraft "x").emit .c = .ok function :=
    exists_of_isOk (by cbv)
  have hreachable : (minMaxDraft "x").Reachable := reachable_requested _
  obtain ⟨_, generated, _, hgenerated, hdeclarations, hbody, -⟩ :=
    hreachable.emit_eq_recursion hemit
  cases hdeclarations
  exact ⟨minMaxDraft "x", function, generated, hreachable, by cbv, by cbv, hemit, hgenerated, hbody⟩

end Draft

end DiffGraph
