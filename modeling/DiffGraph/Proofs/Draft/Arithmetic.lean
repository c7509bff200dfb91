import DiffGraph.Proofs.Draft.DualNumbers
import DiffGraph.Proofs.Draft.Operands
import DiffGraph.Proofs.Draft.TypedValues

/-!
Arithmetic terms, built from the leaves up. Each application may come to one of its operands, to a
constant or to a node that was there before. Whatever it comes to, in every field it has the value of
the term (`Reachable.worth_build`). The variables may have any values, and so may the numbers, as
long as zero and one are what they are and the constants that were computed from other constants
agree with them.
-/

set_option autoImplicit false

namespace DiffGraph

open Stateful Registry Option List

variable {ids : List NodeId} {args : List Operand}

inductive ArithmeticOperator where
  | add
  | subtract
  | multiply
  | divide

namespace ArithmeticOperator

def name : ArithmeticOperator → String
  | add => "+"
  | subtract => "-"
  | multiply => "*"
  | divide => "/"

def combine {F : Type} [Field F] : ArithmeticOperator → F → F → F
  | add, x, y => x + y
  | subtract, x, y => x - y
  | multiply, x, y => x * y
  | divide, x, y => x / y

theorem name_mem (op : ArithmeticOperator) : op.name ∈ Interpretation.arithmetic := by
  cases op <;> decide

theorem operate_name {F : Type} [Field F] (I : Interpretation F) (op : ArithmeticOperator)
    (x y : F) : I.operate op.name [x, y] = op.combine x y := by
  cases op <;> rfl

end ArithmeticOperator

/-- A term over addresses and literals. -/
inductive Arithmetic where
  | read (addr : NodeId)
  | literal (number : Binary64)
  | negate (term : Arithmetic)
  | apply (op : ArithmeticOperator) (left right : Arithmetic)

namespace Arithmetic

/-- Each operator is applied to what its operands have come to. -/
def build : Arithmetic → Build Operand
  | read addr => return .node addr
  | literal number => return .float number
  | negate term => do
    let arg ← term.build
    return .node (← Build.apply "-" [arg])
  | apply op left right => do
    let first ← left.build
    let second ← right.build
    return .node (← Build.apply op.name [first, second])

/-- The variables are addresses of numbers. -/
def Over (d : Draft) : Arithmetic → Prop
  | read addr => ∃ n, d.graph.node? addr = some n ∧ n.type = "double" ∧
    n.isAddress = true
  | literal _ => True
  | negate term => term.Over d
  | apply _ left right => left.Over d ∧ right.Over d

def value {F : Type} [Field F] (I : Interpretation F) (g : Graph) : Arithmetic → F
  | read addr => (g.accessPath? addr).elim 0 I.read
  | literal number => I.number number
  | negate term => -term.value I g
  | apply op left right => op.combine (left.value I g) (right.value I g)

theorem Over.later {d newer : Draft} (hl : d.Precedes newer) {term : Arithmetic}
    (h : term.Over d) : term.Over newer := by
  induction term with
  | read addr =>
    obtain ⟨n, hn, hrs⟩ := h
    exact ⟨n, hl.graph.node? hn, hrs⟩
  | literal number => trivial
  | negate term ih => exact ih h
  | apply op left right ihleft ihright => exact ⟨ihleft h.1, ihright h.2⟩

end Arithmetic

namespace Draft

section Worth

variable {d : Draft} {F : Type} [Field F] {I : Interpretation F} {arg operand : Operand} {id : NodeId}

/-- What is read at an address, what a value denotes, or the number of a literal. -/
def worth (d : Draft) (I : Interpretation F) : Operand → F
  | .node id => (d.graph.node? id).elim 0 fun n ↦
    if n.isAddress then (d.graph.accessPath? id).elim 0 I.read
    else d.graph.denote I.model id
  | .float number => I.number number
  | .int number => I.constant (.int number)

theorem HoldsValue.worth {t : String} (h : d.HoldsValue id t) :
    d.worth I (.node id) = d.graph.denote I.model id := by
  obtain ⟨n, hn, -, hv⟩ := h
  rw [Draft.worth, hn, elim_some, if_neg (by rw [hv]; exact Bool.false_ne_true)]

/-- A literal keeps its value when it becomes a constant, which forgets the sign of a zero. -/
theorem constant_normalize_double (number : Binary64) :
    I.constant ((⟨"double", .scalar .double⟩ : TypeDefinition).normalize (.float number)) =
      I.number number := by
  rw [TypeDefinition.normalize, Value.canonical]
  cases hz : number.isZero with
  | false => rfl
  | true =>
    have hv : (Value.float number).isZero = true := hz
    exact (I.constant_zero rfl).trans (I.constant_zero hv).symm

theorem Equipped.denote_of_represents (h : d.Equipped)
    (hrepresents : d.Represents "double" operand id) :
    d.graph.denote I.model id = d.worth I operand := by
  cases operand with
  | node src =>
    obtain ⟨hholds, rfl | ⟨tgt, node, htg, haddr, hn, hk⟩⟩ := hrepresents
    · exact hholds.worth.symm
    · rw [worth, htg, elim_some, if_pos haddr, Graph.denote_of_node? hn, hk]
      rfl
  | float number =>
    obtain ⟨defn, hg, hst⟩ := hrepresents
    have hdouble : d.types.get? "double" = some ⟨"double", .scalar .double⟩ := h.types.scalar rfl
    cases hdouble.symm.trans hg
    exact hst.denote.trans (constant_normalize_double number)
  | int number => exact hrepresents.elim

end Worth

/-- The operand can be used and is worth what the term is. -/
structure ComesTo (d : Draft) (term : Arithmetic) (arg : Operand) : Prop where
  offers : d.Offers "double" arg
  worth : ∀ {last : Draft}, d.Precedes last → last.Equipped → ∀ (F : Type) [Field F]
    (I : Interpretation F), I.model.Exact last "double" Interpretation.arithmetic →
      last.worth I arg = term.value I last.graph

variable {d newer : Draft} {term : Arithmetic} {arg operand : Operand}

theorem ComesTo.later (h : d.ComesTo term operand) (hl : d.Precedes newer) :
    newer.ComesTo term operand :=
  ⟨h.offers.later hl, fun hla ↦ h.worth (hl.trans hla)⟩

theorem Simplifies.holdsValue {type name : String} {id : NodeId}
    (h : d.Simplifies type name ids id) (hequipped : d.Equipped)
    (hids : ∀ arg ∈ ids, d.HoldsValue arg type) : d.HoldsValue id type := by
  refine h.inherits (fun hst ↦ hst.holdsValue) (fun hn ht haddr _ _ ↦ ⟨_, hn, ht, haddr⟩)
    (fun _ _ inner _ _ hn hk hv ↦ ?_) hids
  obtain ⟨m, hf, rfl, -⟩ := hv
  cases hn.symm.trans hf
  obtain ⟨_, -, -, -, -, hinner⟩ := hequipped.registered hn hk
  exact hinner inner mem_cons_self

/-- What operands are taken for denotes what their terms are worth. -/
theorem Equipped.map_denote_eq (h : d.Equipped) {terms : List Arithmetic}
    (htms : List.Forall₂ d.ComesTo terms args)
    (hids : List.Forall₂ (d.Represents "double") args ids) {F : Type} [Field F]
    {I : Interpretation F} (hex : I.model.Exact d "double" Interpretation.arithmetic) :
    ids.map (d.graph.denote I.model) = terms.map fun term ↦ term.value I d.graph := by
  induction htms generalizing ids with
  | nil =>
    cases hids
    rfl
  | cons hfst _ ih =>
    cases hids with
    | cons hid hids =>
    rw [map_cons, map_cons, h.denote_of_represents hid, hfst.worth (.refl d) h F I hex, ih hids]

/-- An operator on numbers can be applied to operands of any form. -/
theorem Equipped.attains_apply_taken (h : d.Equipped) {name : String}
    (hrv : (Registry.standard.resolve name (args.map fun _ ↦ "double")).isSome = true)
    (hoffers : ∀ arg ∈ args, d.Offers "double" arg) :
    d.Attains (Build.apply name args) False fun d' id ↦ ∃ values,
      List.Forall₂ (d'.Represents "double") args values ∧
        d'.Simplifies "double" name values id := by
  have hsup := h.supports (.inl rfl)
  obtain ⟨⟨pos, ov⟩, hrv⟩ := isSome_iff_exists.mp hrv
  have hlen : args.length ≤ 2 := by
    have hts : ∀ t ∈ args.map fun _ ↦ "double", t = Precision.double.type := by
      simp [Precision.double]
    simpa using Precision.length_le_two_of_resolve (.inl rfl) hrv hts
  refine Attains.after_ok ?_ (run_get d)
  refine Build.attains_apply_operands h.sound hsup.calculates hoffers hrv
    fun {values d'} hl hs htaken hrv ↦ ?_
  refine (Build.attains_perform_apply d.options.replacementLimit hs
    (hsup.later hl).calculates (Represents.forall_holdsValue htaken) hrv).mono
    (fun hfew ↦ ?_) fun hla _ hsimplifies ↦
      ⟨values, htaken.imp fun _ _ hrepresents ↦ hrepresents.later hla, hsimplifies⟩
  have := h.limit
  rw [← htaken.length_eq] at hfew
  omega

/-- An application can be made, and it comes to the term that the operator makes of the terms of its
operands. -/
theorem Equipped.attains_comesTo (h : d.Equipped) {name : String}
    {terms : List Arithmetic} (hnm : name ∈ Interpretation.arithmetic)
    (hrv : (Registry.standard.resolve name (args.map fun _ ↦ "double")).isSome = true)
    (htms : List.Forall₂ d.ComesTo terms args)
    (hv : ∀ (F : Type) [Field F] (I : Interpretation F) (g : Graph),
      I.operate name (terms.map fun term ↦ term.value I g) = term.value I g) :
    d.Attains (do return Operand.node (← Build.apply name args)) False fun d' operand ↦
      d'.ComesTo term operand := by
  have hoffers : ∀ operand ∈ args, d.Offers "double" operand := by
    intro operand hop
    obtain ⟨pos, hpos, rfl⟩ := mem_iff_getElem.mp hop
    exact (htms.get (htms.length_eq ▸ hpos) hpos).offers
  refine (h.attains_apply_taken hrv hoffers).bind fun {id d'} hl hs happlied ↦ ?_
  obtain ⟨values, htaken, hsimplifies⟩ := happlied
  have hholds : d'.HoldsValue id "double" :=
    hsimplifies.holdsValue (h.later hl hs) (Represents.forall_holdsValue htaken)
  refine attains_pure hs ⟨?_, fun {last} hla hequipped F _ I hex ↦ ?_⟩
  · obtain ⟨n, hn, ht, -⟩ := hholds
    exact ⟨n, hn, ht⟩
  · calc last.worth I (.node id)
        = last.graph.denote I.model id := (hholds.later hla).worth
      _ = I.operate name (values.map (last.graph.denote I.model)) :=
        (hsimplifies.later hla).denote I.lawful hex hnm
      _ = I.operate name (terms.map fun term ↦ term.value I last.graph) := by
        rw [hequipped.map_denote_eq (htms.imp fun _ _ hcomes ↦ hcomes.later (hl.trans hla))
          (htaken.imp fun _ _ hrepresents ↦ hrepresents.later hla) hex]
      _ = term.value I last.graph := hv F I last.graph

/-- A term can always be built, and what it comes to is worth what the term is. -/
theorem Equipped.attains_build (h : d.Equipped) (htm : term.Over d) :
    d.Attains term.build False fun d' operand ↦ d'.ComesTo term operand := by
  induction term generalizing d with
  | read addr =>
    obtain ⟨n, hn, ht, haddr⟩ := htm
    refine attains_pure h.sound ⟨⟨n, hn, ht⟩, fun hla _ F _ I _ ↦ ?_⟩
    rw [Draft.worth, hla.graph.node? hn, elim_some, if_pos haddr]
    rfl
  | literal number => exact attains_pure h.sound ⟨rfl, fun _ _ F _ I _ ↦ rfl⟩
  | negate term ih =>
    refine (ih h htm).bind fun {d' operand} hl hs hcomes ↦ ?_
    exact (h.later hl hs).attains_comesTo (by decide) rfl (.cons hcomes .nil) fun F _ I g ↦ rfl
  | apply op left right ihleft ihright =>
    refine (ihleft h htm.1).bind fun hl hs hfst ↦ ?_
    have haf := h.later hl hs
    refine (ihright haf (htm.2.later hl)).bind fun {last second} hla hkept hsnd ↦ ?_
    exact (haf.later hla hkept).attains_comesTo op.name_mem
      (Precision.resolve_arithmetic (.inl rfl) _ op.name_mem)
      (.cons (hfst.later hla) (.cons hsnd .nil))
      fun F _ I g ↦ op.operate_name I _ _

/-- What a term comes to has the value of the term in every field. -/
theorem Reachable.worth_build {draft : Draft} (hdraft : draft.Reachable)
    (hoperators : draft.operators = .standard) (htypes : draft.types.Grown)
    (hlimit : 2 ≤ draft.options.replacementLimit) {term : Arithmetic} (hterm : term.Over draft) :
    ∃ operand after, term.build.run draft = (.ok operand, after) ∧
      ∀ (F : Type) [Field F] (I : Interpretation F),
        I.model.Exact after "double" Interpretation.arithmetic →
          after.worth I operand = term.value I after.graph := by
  have hequipped : draft.Equipped := ⟨hdraft.sound, hoperators, htypes, hlimit⟩
  obtain ⟨operand, after, hrun, hgrows, hsound, hcomes⟩ :=
    (hequipped.attains_build hterm).exists_ok
  exact ⟨operand, after, hrun,
    hcomes.worth (.refl after) (hequipped.later hgrows.toPrecedes hsound)⟩

/-- The terms of two variables and a literal: one less the other, the literal times the result. -/
theorem worth_build_secondInput : ∃ (draft after : Draft) (operand : Operand), draft.Reachable ∧
    (Arithmetic.apply .multiply (.literal .two)
      (.apply .subtract (.read ⟨0, 0⟩) (.negate (.read ⟨0, 1⟩)))).build.run draft =
        (.ok operand, after) ∧
      ∀ (F : Type) [Field F] (I : Interpretation F),
        I.model.Exact after "double" Interpretation.arithmetic →
          after.worth I operand = I.number .two *
            ((after.graph.accessPath? ⟨0, 0⟩).elim 0 I.read -
              -(after.graph.accessPath? ⟨0, 1⟩).elim 0 I.read) := by
  have hlists := lists_secondInput
  obtain ⟨x, hx, hxtype, -, hxaddress⟩ := hlists.node?_blank 0 rfl
  obtain ⟨z, hz, hztype, -, hzaddress⟩ := hlists.node?_blank 1 rfl
  obtain ⟨operand, after, hrun, hworth⟩ := hlists.reachable.worth_build hlists.operators
    (hlists.types ▸ .scalars) (by rw [hlists.options]; decide)
    (show Arithmetic.Over secondInputDraft (.apply .multiply (.literal .two)
      (.apply .subtract (.read ⟨0, 0⟩) (.negate (.read ⟨0, 1⟩)))) from
      ⟨trivial, ⟨x, hx, hxtype, hxaddress⟩, z, hz, hztype, hzaddress⟩)
  exact ⟨_, after, operand, hlists.reachable, hrun, hworth⟩

end Draft

end DiffGraph
