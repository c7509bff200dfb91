import DiffGraph.Proofs.Draft.Addresses
import DiffGraph.Proofs.Draft.Emission
import DiffGraph.Proofs.Operator.Standard

/-!
Emission in all languages. Addresses, arguments and operators can be written in every language, so
the only thing that a function may lack is the literal of a constant. The languages miss the same
literals, and their passes meet the nodes in the same order: either every language has the function,
or every language reports the first constant that cannot be written.
-/

set_option autoImplicit false

namespace DiffGraph

open List Option Registry

variable {language : Language} {n node : Node} {draft : Draft} {v value : Value} {arg : NodeId}
  {args : List NodeId} {name : String}

/-- Every operator is rendered in every language. -/
def Registry.RendersEverywhere (registry : Registry) : Prop :=
  ∀ ov ∈ registry.overloads, ∀ language, (ov.rules.render language).isSome = true

theorem Precision.rendersEverywhere (prec : Precision) : ∀ ov ∈ prec.operators, ∀ language,
      (ov.rules.render language).isSome = true := by
  simp only [Precision.operators, forall_mem_cons]
  refine ⟨?_, ?_, ?_, ?_, ?_, ?_, ?_, ?_, ?_, ?_, ?_, ?_, ?_, ?_, ?_, ?_, ?_, ?_, ?_, ?_, ?_,
    forall_mem_nil _⟩ <;> intro language <;> cases language <;> rfl

theorem IntegerArithmetic.rendersEverywhere : ∀ ov ∈ IntegerArithmetic.operators, ∀ language,
      (ov.rules.render language).isSome = true := by
  simp only [IntegerArithmetic.operators, forall_mem_cons]
  exact ⟨fun _ ↦ rfl, fun _ ↦ rfl, fun _ ↦ rfl, fun _ ↦ rfl, forall_mem_nil _⟩

theorem Registry.standard_rendersEverywhere : Registry.standard.RendersEverywhere := by
  intro ov h
  rcases mem_append.mp h with h | h
  · rcases mem_append.mp h with h | h
    · exact Precision.double.rendersEverywhere ov h
    · exact Precision.single.rendersEverywhere ov h
  · exact IntegerArithmetic.rendersEverywhere ov h

namespace Draft

/-- A constant that the writes depend on and that its type cannot write. -/
def Unwritable (d : Draft) (id : NodeId) : Prop :=
  ∃ n v, d.graph.Reaches d.writes id ∧ d.graph.node? id = some n ∧
    n.kind = .constant v ∧ d.types.hasLiteral n.type v = false

/-- The error is that a constant cannot be written, and there is one. -/
def Misses (d : Draft) (error : Error) : Prop :=
  (∃ t v, error = .typing (.literalMismatch t v)) ∧ ∃ id, d.Unwritable id

section Texts

variable {id : NodeId}

theorem Sound.isSome_constant (hs : draft.Sound) (hn : draft.graph.node? id = some n)
    (hk : n.kind = .constant v) : (draft.types.get? n.type).isSome = true := by
  obtain ⟨-, before, defn, hbf, hg, -⟩ := hs.constant hn hk
  rw [hbf.types.isSome_get?, hg]
  rfl

section

variable (hs : draft.Sound) (hren : draft.operators.RendersEverywhere) (lang : Language)
  (hn : draft.graph.node? id = some n)

include hs hren lang hn

/-- Operators that are applied have a rule for rendering. -/
theorem Sound.exists_render {pos : Nat} (hk : n.kind = .expression (.registered name pos) args) :
    ∃ render, ((draft.operators.overload? name pos).bind fun o ↦ o.rules.render lang) =
      some render := by
  obtain ⟨ov, ts, hrv, -⟩ := hs.registered hn hk
  rw [(overload?_of_resolve hrv).1, bind_some]
  exact isSome_iff_exists.mp (hren ov (mem_of_resolve hrv).1 lang)

theorem Sound.exists_combine
    {op : Operator} (hk : n.kind = .expression op args) (parts : List String) :
    ∃ text, draft.combine lang n.type op parts = .ok text := by
  cases op with
  | registered name pos =>
    obtain ⟨render, hrender⟩ := hs.exists_render hren lang hn hk
    rw [combine, hrender]
    exact ⟨_, rfl⟩
  | member | index | construct => exact ⟨_, rfl⟩

end

/-- A constant is written as the literal of its value. -/
theorem unshared_of_constant (lang : Language) (hn : draft.graph.node? id = some n)
    (hk : n.kind = .constant v) :
    draft.unshared lang id = (draft.types.literal lang n.type v).mapError Error.typing := by
  rw [unshared_of_node? lang hn, outline, hk]
  dsimp only
  cases draft.types.literal lang n.type v <;> rfl

/-- Where a node is used, its text or the name of its temporary stands. -/
theorem concurs_reference {found : Bool}
    (h : Concurs draft.Misses (fun language ↦ draft.unshared language id) found) :
    ∃ found, Concurs draft.Misses (fun language ↦ draft.reference language id) found := by
  unfold reference
  split
  · exact ⟨true, concurs_pure fun _ ↦ draft.temporaryName id⟩
  · exact ⟨found, h⟩

theorem Sound.concurs_constant (hs : draft.Sound) (hts : draft.types.Built)
    (hrch : draft.graph.Reaches draft.writes id) (hn : draft.graph.node? id = some n)
    (hk : n.kind = .constant v) :
    Concurs draft.Misses (fun language ↦ draft.unshared language id)
      (draft.types.hasLiteral n.type v) := by
  have hliteral := hts.concurs_literal (hs.isSome_constant hn hk) v
  generalize hhas : draft.types.hasLiteral n.type v = known at hliteral ⊢
  cases hliteral with
  | ok h =>
    refine .ok fun language ↦ ?_
    obtain ⟨text, htx⟩ := h language
    rw [unshared_of_constant language hn hk, htx]
    exact ⟨text, rfl⟩
  | error hexpected h =>
    obtain ⟨t, described, rfl⟩ := hexpected
    refine .error ⟨⟨t, described, rfl⟩, id, n, v, hrch, hn, hk, hhas⟩ fun language ↦ ?_
    rw [unshared_of_constant language hn hk, h language]
    rfl

/-- The text of a node is found in all languages, or the same constant is missed in all. -/
theorem Sound.concurs_unshared (hs : draft.Sound) (hts : draft.types.Built)
    (hren : draft.operators.RendersEverywhere) (hrch : draft.graph.Reaches draft.writes id)
    (hn : draft.graph.node? id = some n) :
    ∃ found, Concurs draft.Misses (fun language ↦ draft.unshared language id) found := by
  induction hix : id.index using Nat.strongRecOn generalizing id n with
  | ind index ih =>
    rcases draft.leaf_cases id n with ⟨v, hk⟩ | hcomp | ⟨place, hplace⟩
    · exact ⟨_, hs.concurs_constant hts hrch hn hk⟩
    · obtain ⟨op, args, hk, hv⟩ := kind_of_isComputed hcomp
      have hp (part : NodeId) (hm : part ∈ args) : Concurs draft.Misses
          (fun language ↦ draft.reference language part) (draft.reference .c part).isOk := by
        have hop : part ∈ draft.graph.operands id := Graph.operands_of_kind hn hk ▸ hm
        have hlt := Graph.index_lt_of_mem_operands hop
        obtain ⟨found, hf⟩ := Graph.owns_iff_node?.mp (hs.owns_of_reaches (hrch.operand hop))
        obtain ⟨_, htx⟩ := ih part.index (by omega) (hrch.operand hop) hf rfl
        obtain ⟨_, hused⟩ := concurs_reference htx
        exact hused.isOk
      refine ⟨_, ((concurs_mapM hp).bind fun parts _ ↦ Concurs.ok fun language ↦
        hs.exists_combine hren language hn hk (parts language)).of_eq
          fun language ↦ unshared_of_expression hn language hk hv⟩
    · refine ⟨true, .ok fun language ↦ ⟨(place.text draft language).value, ?_⟩⟩
      rw [unshared_of_node? language hn, hs.outline_of_leaf language hn hplace]
      rfl

end Texts

section Passes

variable {id : NodeId}

/-- The step at a node finds its texts in all languages or in none. -/
theorem Sound.concurs_addedTexts (hs : draft.Sound) (hts : draft.types.Built)
    (hren : draft.operators.RendersEverywhere) (hid : id ∈ draft.order) :
    ∃ found, Concurs draft.Misses (fun language ↦ draft.addedTexts language id) found := by
  obtain ⟨n, hn⟩ := hs.node?_of_mem_order hid
  have hrch := (Dependencies.mem_inOrder_iff draft.graph draft.writes).mp hid
  cases hcomp : n.isComputed with
  | true =>
    obtain ⟨op, args, hk, -⟩ := kind_of_isComputed hcomp
    obtain ⟨found, htx⟩ := hs.concurs_unshared hts hren hrch hn
    refine ⟨found && true, (htx.bind fun texts htexts ↦ Concurs.ok fun language ↦ ?_).of_eq
      fun language ↦ addedTexts_of_computed hn hcomp⟩
    rw [referenceStatement_of_expression hn hk, htexts language]
    split <;> exact ⟨_, rfl⟩
  | false =>
    simp only [addedTexts_of_not_computed hn hcomp]
    cases hw : n.isWrite with
    | true =>
      obtain ⟨addr, value, hk⟩ := kind_of_isWrite hw
      obtain ⟨-, -, before, hbf, hwrites⟩ := hs.write hn hk
      obtain ⟨tgt, htg, haddr, -⟩ := hwrites.target
      have hop : value ∈ draft.graph.operands id :=
        Graph.operands_of_kind hn hk ▸ mem_cons_of_mem _ mem_cons_self
      obtain ⟨written, hwritten⟩ := Graph.owns_iff_node?.mp (hs.owns_of_reaches (hrch.operand hop))
      obtain ⟨_, htx⟩ := hs.concurs_unshared hts hren (hrch.operand hop) hwritten
      obtain ⟨found, hreference⟩ := concurs_reference htx
      have htarget : Concurs draft.Misses
          (fun language ↦ draft.addressText language .write addr) true :=
        .ok fun language ↦ ⟨_, hs.addressText_eq language .write (hbf.graph.node? htg) haddr⟩
      exact ⟨_, (htarget.bind fun _ _ ↦ hreference.map _).of_eq fun language ↦
        referenceStatement_of_write hn hk⟩
    | false =>
      have hsh := isShared_of_not_computed ((isComputed_of_node? hn).trans hcomp)
      exact ⟨true, .ok fun language ↦ ⟨[], referenceStatement_of_other hn hw hsh⟩⟩

theorem Sound.isSome_returned (hs : draft.Sound) {type : String}
    (h : (name, type) ∈ draft.returned) : (draft.types.get? type).isSome = true := by
  obtain ⟨e, hen, heq⟩ := mem_filterMap.mp h
  obtain ⟨arg, harg, rfl⟩ := mem_map.mp hen
  obtain ⟨n, dir, hn, -, hkn⟩ := hs.arguments (show (arg.1, arg.2) ∈ draft.arguments from harg)
  have ht : n.type = type := by
    dsimp only at heq
    rw [hn] at heq
    split at heq
    · exact (Prod.mk.inj (some.inj heq)).2
    · exact (Prod.mk.inj (some.inj heq)).2
    · cases heq
  exact ht ▸ hkn

theorem mapM_ok {α β : Type} {f : α → Except Error β} {l : List α}
    (h : ∀ a ∈ l, ∃ b, f a = .ok b) : ∃ results, l.mapM f = .ok results := by
  induction l with
  | nil => exact ⟨[], rfl⟩
  | cons a l ih =>
    obtain ⟨⟨b, hb⟩, hrs⟩ := forall_mem_cons.mp h
    obtain ⟨results, hresults⟩ := ih hrs
    rw [mapM_cons, hb, hresults]
    exact ⟨b :: results, rfl⟩

/-- The variables that are returned can be declared. -/
theorem Sound.declarations_ok (hs : draft.Sound) (hts : draft.types.Built)
    (lang : Language) : ∃ texts, draft.declarations lang = .ok texts := by
  unfold declarations
  split
  · refine mapM_ok fun e hen ↦ ?_
    obtain ⟨name, t⟩ := e
    have hkn := hs.isSome_returned hen
    have hz := hts.concurs_literal hkn .zero
    rw [TypeTable.hasLiteral_zero hkn] at hz
    obtain ⟨text, htx⟩ := hz.exists_ok .js
    dsimp only
    rw [htx]
    exact ⟨_, rfl⟩
  · exact ⟨[], rfl⟩

/-- Emission succeeds in all languages, or misses the same constant in all. -/
theorem Sound.concurs_emit (hs : draft.Sound) (hts : draft.types.Built)
    (hren : draft.operators.RendersEverywhere) :
    ∃ found, Concurs draft.Misses draft.emit found := by
  have hdeclarations : Concurs draft.Misses draft.declarations true :=
    .ok fun language ↦ hs.declarations_ok hts language
  have htexts : ∀ id ∈ draft.order, Concurs draft.Misses
      (fun language ↦ draft.addedTexts language id) (draft.addedTexts .c id).isOk := by
    intro id hid
    obtain ⟨_, hadded⟩ := hs.concurs_addedTexts hts hren hid
    exact hadded.isOk
  exact ⟨_, (hdeclarations.bind fun _ _ ↦ (concurs_mapM htexts).map _).of_eq hs.emit_eq⟩

/-- A value is used by an expression or written. -/
theorem Sound.operand_cases (hs : draft.Sound) {user : NodeId}
    (hop : arg ∈ draft.graph.operands user) (hn : draft.graph.node? arg = some n)
    (hv : n.isAddress = false) :
    ∃ owner, draft.graph.node? user = some owner ∧
      (owner.isComputed = true ∨ ∃ address, owner.kind = .write address arg) := by
  have haddr {address : NodeId} (h : ∃ tgt, draft.graph.node? address = some tgt ∧
      tgt.isAddress = true) : arg ≠ address := by
    rintro rfl
    obtain ⟨tgt, htg, hta⟩ := h
    cases hn.symm.trans htg
    exact Bool.false_ne_true (hv.symm.trans hta)
  cases huser : draft.graph.node? user with
  | none =>
    rw [Graph.operands, huser] at hop
    cases hop
  | some owner =>
    refine ⟨owner, rfl, ?_⟩
    cases hcomp : owner.isComputed with
    | true => exact .inl rfl
    | false =>
      cases hw : owner.isWrite with
      | true =>
        obtain ⟨address, v, hk⟩ := kind_of_isWrite hw
        obtain ⟨-, -, before, hbf, hwrites⟩ := hs.write huser hk
        obtain ⟨tgt, htg, hta, -⟩ := hwrites.target
        rw [Graph.operands_of_kind huser hk] at hop
        rcases mem_cons.mp hop with heq | hop
        · exact absurd heq (haddr ⟨tgt, hbf.graph.node? htg, hta⟩)
        · obtain rfl := mem_singleton.mp hop
          exact .inr ⟨address, hk⟩
      | false =>
        rw [Graph.operands_of_node? huser] at hop
        exact absurd rfl (haddr (hs.isAddress_operand huser hcomp hw hop))

/-- The step at a node finds the texts of the values that it uses. -/
theorem Sound.reference_of_addedTexts (hs : draft.Sound) {texts : List String}
    (h : draft.addedTexts language id = .ok texts) (hop : arg ∈ draft.graph.operands id)
    (hn : draft.graph.node? arg = some n) (hv : n.isAddress = false) :
    ∃ text, draft.reference language arg = .ok text := by
  obtain ⟨owner, howner, hcomp | ⟨addr, hk⟩⟩ := hs.operand_cases hop hn hv
  · obtain ⟨op, args, hk, hvalue⟩ := kind_of_isComputed hcomp
    rw [addedTexts_of_computed howner hcomp, unshared_of_expression howner language hk hvalue] at h
    rw [Graph.operands_of_kind howner hk] at hop
    cases hps : args.mapM (draft.reference language) with
    | error error =>
      rw [hps] at h
      cases h
    | ok parts => exact exists_ok_of_mapM hps arg hop
  · rw [addedTexts_of_not_computed howner (by rw [Node.isComputed, hk]),
      referenceStatement_of_write howner hk] at h
    cases htg : draft.addressText language .write addr with
    | error error =>
      rw [htg] at h
      cases h
    | ok tgt =>
      cases htx : draft.reference language arg with
      | error error =>
        rw [htg, htx] at h
        cases h
      | ok text => exact ⟨text, rfl⟩

/-- A function that was emitted has a literal for every constant. -/
theorem Sound.not_unwritable (hs : draft.Sound) (hts : draft.types.Built)
    {function : EmittedFunction} (hemit : draft.emit language = .ok function) (id : NodeId) :
    ¬draft.Unwritable id := by
  rintro ⟨n, v, hrch, hn, hk, hhas⟩
  have hv := (hs.constant hn hk).1
  obtain ⟨_, texts, -, htexts, -⟩ := hs.ok_of_emit hemit
  have hc := hs.concurs_constant hts hrch hn hk
  rw [hhas] at hc
  rcases hrch.cases with hrt | ⟨user, huser, hop⟩
  · obtain ⟨write, _, _, hw, hkind⟩ := hs.writes hrt
    cases hn.symm.trans hw
    cases hk.symm.trans hkind
  · obtain ⟨_, hadded⟩ := exists_ok_of_mapM htexts user
      ((Dependencies.mem_inOrder_iff draft.graph draft.writes).mpr huser)
    obtain ⟨text, htx⟩ := hs.reference_of_addedTexts hadded hop hn hv
    have hcomp : draft.isComputed id = false := by
      rw [isComputed_of_node? hn, Node.isComputed, hk]
    rw [reference, isShared_of_not_computed hcomp, if_neg Bool.false_ne_true] at htx
    cases hc with
    | error _ h => cases (h language).symm.trans htx

end Passes

/-- Every language has the function, or every language reports the same constant that cannot be
written. It comes to that if and only if the writes depend on such a constant. -/
theorem Reachable.emit_uniform {draft : Draft} (hdraft : draft.Reachable)
    (htypes : draft.types.Built) (hrenders : draft.operators.RendersEverywhere) :
    ((∀ language, ∃ function, draft.emit language = .ok function) ∨
      ∃ type value, ∀ language,
        draft.emit language = .error (.typing (.literalMismatch type value))) ∧
    ∀ language, (∃ error, draft.emit language = .error error) ↔ ∃ id, draft.Unwritable id := by
  have hsound := hdraft.sound
  obtain ⟨found, hconcurs⟩ := hsound.concurs_emit htypes hrenders
  cases hconcurs with
  | ok h =>
    refine ⟨.inl h, fun language ↦ ?_⟩
    obtain ⟨function, hemit⟩ := h language
    refine ⟨fun ⟨error, herror⟩ ↦ ?_, fun ⟨id, hid⟩ ↦ ?_⟩
    · cases herror.symm.trans hemit
    · exact absurd hid (hsound.not_unwritable htypes hemit id)
  | error hexpected h =>
    obtain ⟨⟨type, value, rfl⟩, hunwritable⟩ := hexpected
    exact ⟨.inr ⟨type, value, h⟩, fun language ↦ ⟨fun _ ↦ hunwritable, fun _ ↦ ⟨_, h language⟩⟩⟩

/-- A function that writes one half to an integer. -/
def halfDraft : Draft :=
  ((Build.intern "int" (.constant (.float .half)) false).run
    (blank.requested [.declare "y" "int" .output])).2.requested [.write ⟨0, 0⟩ (.node ⟨0, 1⟩)]

theorem exists_half : ∃ draft : Draft, draft.Reachable ∧
    blank.Lists draft [("int", .argument "y" .output, true),
      ("int", .constant (.float .half), false), ("int", .write ⟨0, 0⟩ ⟨0, 1⟩, false)]
      [("y", ⟨0, 0⟩)] [⟨0, 2⟩] := by
  have hre : halfDraft.Reachable :=
    .afterAll ((reachable_requested _).of_constant ⟨"int", .scalar .integer⟩ (by cbv) rfl) _
  exact ⟨halfDraft, hre, .of_listing hre (by cbv)⟩

/-- One half is no integer, so no language has the function. -/
theorem Reachable.emit_uniform_half :
    ∃ draft : Draft, draft.Reachable ∧ draft.types.Built ∧
      draft.operators.RendersEverywhere ∧ draft.Unwritable ⟨0, 1⟩ ∧
      ∃ type value, ∀ language,
        draft.emit language = .error (.typing (.literalMismatch type value)) := by
  obtain ⟨draft, hreachable, hlists⟩ := exists_half
  have htypes : draft.types.Built := hlists.types ▸ TypeTable.Grown.scalars.built
  have hrenders : draft.operators.RendersEverywhere :=
    hlists.operators ▸ Registry.standard_rendersEverywhere
  have hunwritable : draft.Unwritable ⟨0, 1⟩ := by
    obtain ⟨node, hnode, htype, hkind, -⟩ := hlists.node?_blank 1 rfl
    refine ⟨node, _, ?_, hnode, hkind, ?_⟩
    · have hwritten : (⟨0, 2⟩ : NodeId) ∈ draft.writes := hlists.writes ▸ List.mem_cons_self
      refine (Graph.Reaches.root hwritten).operand ?_
      exact hlists.operands 2 rfl ▸ List.mem_cons_of_mem _ List.mem_cons_self
    · rw [htype, hlists.types]
      rfl
  obtain ⟨hall | hmismatch, hfails⟩ := Reachable.emit_uniform hreachable htypes hrenders
  · obtain ⟨error, herror⟩ := (hfails .c).mpr ⟨_, hunwritable⟩
    obtain ⟨function, hfunction⟩ := hall .c
    cases herror.symm.trans hfunction
  · exact ⟨draft, hreachable, htypes, hrenders, hunwritable, hmismatch⟩

end Draft

end DiffGraph
