import DiffGraph.Draft.Emission
import DiffGraph.Proofs.Draft.Invariant
import DiffGraph.Proofs.Graph.Denotation

/-!
Places of emitted functions. A place is a part of a variable; each language has its text for
variables and for the steps into them. The text of an address is that of its place
(`Sound.addressText_eq`), so every address has a text in every language.
-/

set_option autoImplicit false

namespace DiffGraph

open List Option Graph

variable {base : NodeId}

/-- A variable of an emitted function. An updated argument is two of them. -/
inductive Variable where
  | input (name : String)
  | output (name : String)
  | previous (name : String)
  | next (name : String)
deriving DecidableEq

namespace Variable

/-- The variable that an argument is where it is read or written. -/
def of (access : Access) (name : String) : Direction → Variable
  | .input => .input name
  | .output => .output name
  | .update =>
    match access with
    | .read => .previous name
    | .write => .next name

def text (draft : Draft) (language : Language) : Variable → AddressText
  | .input name => ⟨name, false⟩
  | .output name => ⟨name, language == .c⟩
  | .previous name => ⟨draft.previousName name, false⟩
  | .next name => ⟨draft.nextName name, language == .c⟩

theorem text_of (d : Draft) (lang : Language) (access : Access) (name : String)
    (direction : Direction) : (of access name direction).text d lang =
      d.argumentText lang access name direction := by
  cases direction <;> cases access <;> rfl

end Variable

namespace AddressText

/-- The text of a part of an address. -/
def slot (addr : AddressText) : Operator → AddressText
  | .member field => addr.member field
  | .index pos => addr.index pos
  | .registered .. | .construct => addr

end AddressText

/-- A part of a variable: the operators that take it, the last one first. -/
structure Place where
  root : Variable
  slots : List Operator
deriving DecidableEq

namespace Place

def slot (place : Place) (op : Operator) : Place := ⟨place.root, op :: place.slots⟩

def text (draft : Draft) (language : Language) (place : Place) : AddressText :=
  place.slots.foldr (fun operator address ↦ address.slot operator) (place.root.text draft language)

theorem text_slot (d : Draft) (lang : Language) (place : Place) (operator : Operator) :
    (place.slot operator).text d lang = (place.text d lang).slot operator := rfl

end Place

namespace Graph

/-- The place of an address. -/
def place (g : Graph) (access : Access) (id : NodeId) : Place :=
  ⟨match g.argumentOf? id with
    | some (name, dir) => .of access name dir
    | none => .input "",
    (g.lineage id).filterMap fun part ↦ (g.node? part).bind fun n ↦ n.kind.slot?⟩

variable {g : Graph} {id : NodeId} {n node : Node}

theorem place_of_argument (access : Access) (hn : g.node? id = some n) {name : String}
    {dir : Direction} (hk : n.kind = .argument name dir) :
    g.place access id = ⟨.of access name dir, []⟩ := by
  rw [place, argumentOf?_of_argument hn hk, lineage_of_base_none hn (by rw [hk]; rfl)]
  simp only [filterMap_cons, hn, bind_some, hk, NodeKind.slot?, filterMap_nil]

theorem place_of_projection (access : Access) {operator : Operator}
    {rest : List NodeId} (hn : g.node? id = some n)
    (hk : n.kind = .expression operator (base :: rest)) (hopt : operator.isProjection = true) :
    g.place access id = (g.place access base).slot operator := by
  rw [place, argumentOf?_of_projection hn hk hopt, lineage_of_base hn (base?_of_projection hk hopt)]
  simp only [filterMap_cons, hn, bind_some, slot?_of_projection hk hopt]
  rfl

end Graph

namespace Draft

variable {d draft : Draft} {id base : NodeId} {op : Operator} {n node : Node}

/-- The text of a part continues that of the address around it. -/
theorem addressText_of_part (lang : Language) (access : Access)
    (hnode : draft.graph.node? id = some node) (hk : node.kind = .expression op [base])
    (how : draft.graph.Owns base) (hopt : (∃ field, op = .member field) ∨ ∃ pos, op = .index pos) :
    draft.addressText lang access id = (do
      let addr ← draft.addressText lang access base
      match op with
      | .member field => .ok (addr.member field)
      | .index pos => .ok (addr.index pos)
      | _ => .error (.notAddress "emit" (draft.describe id))) := by
  have hba : node.kind.base? = some base := by
    rw [hk]
    rcases hopt with ⟨field, rfl⟩ | ⟨pos, rfl⟩ <;> rfl
  have hlineage := lineage_of_base hnode hba
  rw [addressText, addressText, hlineage, reverse_cons]
  cases hps : (draft.graph.lineage base).reverse with
  | nil => exact absurd (reverse_eq_nil_iff.mp hps) (lineage_ne_nil how)
  | cons root parts =>
    rw [cons_append]
    dsimp only
    cases (draft.graph.node? root).bind Node.argument? with
    | none => rfl
    | some arg =>
      change foldlM _ _ (parts ++ [id]) = foldlM _ _ parts >>= _
      rw [foldlM_append]
      congr 1
      funext addr
      rw [foldlM_cons, hnode, map_some, hk]
      rcases hopt with ⟨field, rfl⟩ | ⟨pos, rfl⟩ <;> rfl

/-- The text of an address is that of its place. -/
theorem Sound.addressText_eq (hs : d.Sound) (lang : Language) (access : Access)
    (hn : d.graph.node? id = some n) (haddr : n.isAddress = true) :
    d.addressText lang access id = .ok ((d.graph.place access id).text d lang) := by
  induction hix : id.index using Nat.strongRecOn generalizing id n with
  | ind index ih =>
    rcases hs.address_cases hn haddr with
      ⟨name, direction, hk⟩ | ⟨base, tgt, op, htg, hta, hk, hopt⟩
    · have hlineage : d.graph.lineage id = [id] := lineage_of_base_none hn (by rw [hk]; rfl)
      rw [place_of_argument access hn hk, addressText, hlineage, reverse_singleton]
      dsimp only
      rw [hn, bind_some, Node.argument?, hk]
      exact congrArg Except.ok (Variable.text_of d lang access name direction).symm
    · have hm : base ∈ n.operands := Node.mem_operands hk mem_cons_self
      have hlt := operand_index_lt hn hm
      have hproj : op.isProjection = true := by
        rcases hopt with ⟨field, rfl⟩ | ⟨pos, rfl⟩ <;> rfl
      rw [addressText_of_part lang access hn hk (owns_operand hn hm)
        hopt, ih base.index (by omega) htg hta rfl,
        place_of_projection access hn hk hproj, Place.text_slot]
      rcases hopt with ⟨field, rfl⟩ | ⟨pos, rfl⟩ <;> rfl

/-- The place that a node is written as, unless it is a constant or an expression. -/
def leafPlace? (d : Draft) (id : NodeId) (n : Node) : Option Place :=
  match n.kind with
  | .constant _ => none
  | .argument .. => some (d.graph.place .read id)
  | .read addr => some (d.graph.place .read addr)
  | .write addr _ => some (d.graph.place .write addr)
  | .expression .. => if n.isAddress then some (d.graph.place .read id) else none

theorem leaf_cases (d : Draft) (id : NodeId) (n : Node) :
    (∃ v, n.kind = .constant v) ∨ n.isComputed = true ∨
      ∃ place, d.leafPlace? id n = some place := by
  unfold leafPlace?
  cases hk : n.kind with
  | constant v => exact .inl ⟨v, rfl⟩
  | expression op args =>
    cases haddr : n.isAddress with
    | false => exact .inr (.inl (Node.isComputed_of_expression hk haddr))
    | true => exact .inr (.inr ⟨_, rfl⟩)
  | _ => exact .inr (.inr ⟨_, rfl⟩)

/-- Such a node is written the way its place is. -/
theorem Sound.outline_of_leaf (hs : d.Sound) (lang : Language) (hn : d.graph.node? id = some n)
    {place : Place} (h : d.leafPlace? id n = some place) :
    d.outline lang id n = .ok (.text (place.text d lang).value) := by
  have htext {access : Access} {addr : NodeId} {tgt : Node}
      (htg : d.graph.node? addr = some tgt) (hta : tgt.isAddress = true)
      (h : some (d.graph.place access addr) = some place) :
      (do return Outline.text (← d.addressText lang access addr).value) =
        Except.ok (Outline.text (place.text d lang).value) := by
    obtain rfl := some.inj h
    rw [hs.addressText_eq lang access htg hta]
    rfl
  unfold leafPlace? at h
  unfold outline
  cases hk : n.kind with
  | constant v =>
    rw [hk] at h
    cases h
  | argument name dir =>
    rw [hk] at h
    exact htext hn (hs.argument hn hk).1 h
  | read addr =>
    rw [hk] at h
    obtain ⟨-, tgt, htg, haddr, -⟩ := hs.read hn hk
    exact htext htg haddr h
  | write addr v =>
    rw [hk] at h
    obtain ⟨-, -, before, hbf, hw⟩ := hs.write hn hk
    obtain ⟨tgt, htg, haddr, -⟩ := hw.target
    exact htext (hbf.graph.node? htg) haddr h
  | expression op args =>
    rw [hk] at h
    cases haddr : n.isAddress with
    | false =>
      rw [haddr] at h
      cases h
    | true =>
      rw [haddr] at h
      exact htext hn haddr h

end Draft

end DiffGraph
