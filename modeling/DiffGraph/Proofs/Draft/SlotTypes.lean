import DiffGraph.Proofs.Draft.Irreducibility
import DiffGraph.Proofs.Draft.Listing

/-!
Types of slots. A slot that is taken of a value is a node of the type that the slot is declared with,
with one exception: a constructor takes operands of any type, and the slot of a constructed value is
the operand as it is. So a slot has its declared type if and only if it is not the slot of a
constructed value whose operand there has another type (`Draft.Reachable.slot_typed_iff`), and this
decides whether it can be written to an address of the declared type.
-/

set_option autoImplicit false

namespace DiffGraph

open Stateful Build TypeTable Option List

variable {d draft : Draft} {slot : Nat} {t type : String} {n node : Node} {op : Operator}

namespace Draft

/-- A slot is the operand of a constructor, or has the type it is declared with. -/
theorem SlotOf.operand_or_hasType {base id : NodeId} {rest : Nat}
    (h : d.SlotOf op slot t base rest id) (hs : d.Sound) (hn : d.graph.node? base = some n) :
    (∃ parts, n.kind = .expression .construct parts ∧ parts[slot]? = some id) ∨ d.HasType id t ∧
        ∀ parts, n.kind = .expression .construct parts → parts[slot]? = none := by
  cases h with
  | item htg hk _ _ hst =>
    cases hn.symm.trans htg
    obtain ⟨m, hf, ht, -⟩ := hst
    exact .inr ⟨⟨m, hf, ht⟩, fun parts ho ↦ by cases hk.symm.trans ho⟩
  | part htg hk hp =>
    cases hn.symm.trans htg
    exact .inl ⟨_, hk, hp⟩
  | read htg hk hpl _ hplaceType hf hrd =>
    -- What is read has the type of its address.
    cases hn.symm.trans htg
    obtain ⟨-, src, hsrc, -, hsame⟩ := hs.read hf hrd
    cases hpl.symm.trans hsrc
    exact .inr ⟨⟨_, hf, hsame.symm.trans hplaceType⟩, fun parts ho ↦ by cases hk.symm.trans ho⟩
  | formed htg hhides hf _ ht =>
    cases hn.symm.trans htg
    refine .inr ⟨⟨_, hf, ht⟩, fun parts hk ↦ ?_⟩
    rwa [Node.Hides, hk] at hhides

section Writes

variable {addr v : NodeId} {tgt : Node}

/-- A node can be taken as a value. -/
theorem exists_run_valueOf (hn : d.graph.node? v = some n) :
    ∃ src d', (Build.valueOf v).run d = (.ok src, d') := by
  rw [Build.valueOf, run_bind_of_ok (run_node_of_some hn)]
  split
  next haddr =>
    have owned : ∀ operand ∈ (NodeKind.read v).operands, d.graph.Owns operand :=
      forall_mem_singleton.mpr (Graph.owns_of_node? hn)
    exact ⟨_, _, (run_read hn haddr).trans (run_intern owned)⟩
  next => exact ⟨v, d, rfl⟩

/-- Where an address can be written to, a node can be written if it has the type of the address. -/
theorem Sound.exists_run_write_iff (hs : d.Sound)
    (htg : d.graph.node? addr = some tgt) (haddr : tgt.isAddress = true)
    (hrt : ∀ name, ((d.graph.root? addr).bind d.graph.node?).bind Node.argument? ≠
      some (name, .input)) (how : d.graph.Owns v) :
    (∃ written d', (Build.write addr (.node v)).run d = (.ok written, d')) ↔
      d.HasType v tgt.type := by
  obtain ⟨n, hn⟩ := Graph.owns_iff_node?.mp how
  obtain ⟨src, middle, hv⟩ := exists_run_valueOf hn
  have hl := (valueOf_enlarges v d).precedes hv hs
  obtain ⟨m, hf, formed, hformed, ht, -⟩ := ok_of_run_valueOf hs hv
  obtain rfl := some.inj (hf.symm.trans hn)
  have hwritten : (Build.writtenValue tgt.type (.node v)).run d = (.ok src, middle) := by
    rw [Build.writtenValue, run_bind_of_ok (run_checkOwned_of_owns how), hv]
  have hhas : d.HasType v tgt.type ↔ m.type = tgt.type := by
    refine ⟨fun hv ↦ ?_, fun h ↦ ⟨m, hn, h⟩⟩
    obtain ⟨other, ho, h⟩ := hv
    cases ho.symm.trans hn
    exact h
  rw [run_write_of_writable htg haddr hrt, run_bind_of_ok hwritten,
    run_bind_of_ok (run_typeOf_of_some hformed), ht, hhas]
  by_cases hsame : m.type = tgt.type
  · have owned : ∀ operand ∈ (NodeKind.write addr src).operands, middle.graph.Owns operand := by
      refine forall_mem_cons.mpr ⟨?_, forall_mem_singleton.mpr ?_⟩
      · exact hl.graph.owns (Graph.owns_of_node? htg)
      · exact Graph.owns_of_node? hformed
    rw [if_neg (fun hne ↦ hne hsame), run_bind_of_ok (run_intern owned)]
    exact ⟨fun _ ↦ hsame, fun _ ↦ ⟨_, _, rfl⟩⟩
  · rw [if_pos hsame]
    refine ⟨fun hws ↦ ?_, fun h ↦ absurd h hsame⟩
    obtain ⟨written, d', h⟩ := hws
    obtain ⟨_, _, -, hthrow⟩ := ok_of_run_bind h
    cases hthrow

end Writes

/-- How the node that was taken for a slot goes with the type that the slot is declared with. -/
structure SlotTaken (d d' : Draft) (base : Node) (slot : Nat) (t : String)
    (id : NodeId) : Prop where
  /-- Only the operand of a constructor can have another type. -/
  typed_iff : d'.HasType id t ↔ ∀ parts part, base.kind = .expression .construct parts →
    parts[slot]? = some part → d.HasType part t
  /-- What has another type is the operand. -/
  operand : ¬d'.HasType id t →
    ∃ parts, base.kind = .expression .construct parts ∧ parts[slot]? = some id
  written_iff : ∀ addr tgt, d'.graph.node? addr = some tgt →
    tgt.isAddress = true → tgt.type = t →
    (∀ name, ((d'.graph.root? addr).bind d'.graph.node?).bind Node.argument? ≠
      some (name, .input)) →
    ((∃ written last, (Build.write addr (.node id)).run d' = (.ok written, last)) ↔
      d'.HasType id t)

section Projections

variable {d' after : Draft} {base id : NodeId}

theorem Sound.slotTaken (hs : d.Sound) (hr : (Build.slot op base).run d = (.ok id, d')) :
    ∃ n defn slot t, d.graph.node? base = some n ∧
      d'.types.get? n.type = some defn ∧ TakesSlot defn op slot t ∧ d.SlotTaken d' n slot t id := by
  obtain ⟨hl, haf, n, defn, slot, t, hn, hdef, htk, hsl⟩ := hs.slotOf_of_run_slot hr
  have hcases := hsl.operand_or_hasType haf (hl.graph.node? hn)
  have hop {parts : List NodeId} {part : NodeId}
      (hk : n.kind = .expression .construct parts) (hp : parts[slot]? = some part) :
      d.graph.Owns part := by
    refine Graph.owns_operand hn ?_
    rw [Node.operands, hk]
    exact mem_of_getElem? hp
  refine ⟨n, defn, slot, t, hn, hdef, htk,
    ⟨fun hhas parts part hk hp ↦ ?_, fun hps ↦ ?_⟩, fun ho ↦ ?_, ?_⟩
  · rcases hcases with ⟨others, hos, hid⟩ | ⟨-, hno⟩
    · cases hk.symm.trans hos
      cases hp.symm.trans hid
      obtain ⟨m, hf, ht⟩ := hhas
      exact ⟨m, hl.node?_of_owns (hop hk hp) hf, ht⟩
    · cases hp.symm.trans (hno parts hk)
  · rcases hcases with ⟨parts, hk, hid⟩ | ⟨hhas, -⟩
    · exact (hps parts id hk hid).later hl
    · exact hhas
  · rcases hcases with hp | ⟨hhas, -⟩
    · exact hp
    · exact absurd hhas ho
  · rintro addr tgt htg haddr rfl hrt
    refine haf.exists_run_write_iff htg haddr hrt ?_
    rcases hcases with ⟨parts, hk, hid⟩ | ⟨⟨formed, hformed, -⟩, -⟩
    · exact hl.graph.owns (hop hk hid)
    · exact Graph.owns_of_node? hformed

/-- A member has the type of its field, and an element the element type, if and only if it is not
the slot of a constructed value whose operand there has another type. If it is, it is that operand.
Where an address of the declared type can be written to, a slot of the declared type can be written
and any other slot cannot. -/
theorem Reachable.slot_typed_iff (hdraft : draft.Reachable) :
    (∀ field, (Build.member base field).run draft = (.ok id, after) →
      ∃ node definition slot type, draft.graph.node? base = some node ∧
        after.types.get? node.type = some definition ∧
        definition.field? field = some (slot, type) ∧ draft.SlotTaken after node slot type id) ∧
    ∀ position, (Build.index base position).run draft = (.ok id, after) →
      ∃ node definition type, draft.graph.node? base = some node ∧
        after.types.get? node.type = some definition ∧
        definition.element position = .ok type ∧
        draft.SlotTaken after node position type id := by
  refine ⟨fun field hrun ↦ ?_, fun position hrun ↦ ?_⟩
  · obtain ⟨node, definition, slot, type, hnode, hdefinition, htakes, htaken⟩ :=
      hdraft.sound.slotTaken (show (Build.slot (.member field) base).run draft = _ from hrun)
    rcases htakes with ⟨_, hmember, hfield⟩ | ⟨hindex, -⟩
    · cases hmember
      exact ⟨node, definition, slot, type, hnode, hdefinition, hfield, htaken⟩
    · cases hindex
  · obtain ⟨node, definition, slot, type, hnode, hdefinition, htakes, htaken⟩ :=
      hdraft.sound.slotTaken (show (Build.slot (.index position) base).run draft = _ from hrun)
    rcases htakes with ⟨_, hmember, -⟩ | ⟨hindex, helement⟩
    · cases hmember
    · cases hindex
      exact ⟨node, definition, type, hnode, hdefinition, helement, htaken⟩

end Projections

section Sample

/-- Points have two numbers for coordinates. -/
def pointType : TypeDefinition := ⟨"Point", .record [("x", "double"), ("y", "double")] none⟩

/-- The draft of a function that knows points. -/
def plane : Draft :=
  .new 0 "f" .standard ⟨pointType :: TypeTable.scalars.newestFirst⟩ .default

/-- A point with an integer and a number for coordinates. -/
def mixedPointDraft : Draft :=
  plane.requested [.declare "z" "double" .output, .declare "n" "int" .input,
    .declare "r" "double" .input, .read ⟨0, 1⟩, .read ⟨0, 2⟩, .construct "Point" [⟨0, 3⟩, ⟨0, 4⟩]]

theorem reachable_mixedPoint : mixedPointDraft.Reachable := .afterAll (.new ..) _

/-- The second coordinate of the point has its declared type and can be written. -/
theorem Reachable.slot_typed_iff_mixedPoint : ∃ draft : Draft, draft.Reachable ∧
    (Build.member ⟨0, 5⟩ "y").run draft = (.ok ⟨0, 4⟩, draft) ∧
    ∃ node definition slot type, draft.graph.node? ⟨0, 5⟩ = some node ∧
      draft.types.get? node.type = some definition ∧
      definition.field? "y" = some (slot, type) ∧
      draft.SlotTaken draft node slot type ⟨0, 4⟩ := by
  have hrun : (Build.member ⟨0, 5⟩ "y").run mixedPointDraft = (.ok ⟨0, 4⟩, mixedPointDraft) := by
    cbv
  exact ⟨_, reachable_mixedPoint, hrun, (Reachable.slot_typed_iff reachable_mixedPoint).1 "y" hrun⟩

theorem untyped_mixedPoint : ((mixedPointDraft.graph.node? ⟨0, 5⟩).bind fun point ↦
      (mixedPointDraft.types.get? point.type).bind fun defn ↦ defn.field? "x") =
        some (0, "double") ∧
    (Build.member ⟨0, 5⟩ "x").run mixedPointDraft = (.ok ⟨0, 3⟩, mixedPointDraft) ∧
    (mixedPointDraft.graph.node? ⟨0, 3⟩).map Node.type = some "int" ∧
    (mixedPointDraft.graph.node? ⟨0, 0⟩).map Node.type = some "double" ∧
    ((Build.write ⟨0, 0⟩ (.node ⟨0, 3⟩)).run mixedPointDraft).1.toOption = none := by
  refine ⟨?_, ?_, ?_, ?_, ?_⟩ <;> cbv

/-- The first coordinate of the point is an integer where a number is declared, and cannot be
written to a number. -/
theorem exists_untyped_slot : ∃ draft : Draft, draft.Reachable ∧
    (∃ point definition, draft.graph.node? ⟨0, 5⟩ = some point ∧
      draft.types.get? point.type = some definition ∧
      definition.field? "x" = some (0, "double")) ∧
    (Build.member ⟨0, 5⟩ "x").run draft = (.ok ⟨0, 3⟩, draft) ∧ ¬draft.HasType ⟨0, 3⟩ "double" ∧
    draft.HasType ⟨0, 0⟩ "double" ∧
    ¬∃ written after, (Build.write ⟨0, 0⟩ (.node ⟨0, 3⟩)).run draft = (.ok written, after) := by
  obtain ⟨hfield, hpart, hother, hnumber, hfails⟩ := untyped_mixedPoint
  obtain ⟨point, hpoint, hrest⟩ := Option.bind_eq_some_iff.mp hfield
  obtain ⟨definition, hdefinition, hslot⟩ := Option.bind_eq_some_iff.mp hrest
  refine ⟨mixedPointDraft, reachable_mixedPoint, ⟨point, definition, hpoint, hdefinition, hslot⟩,
    hpart, ?_, Option.map_eq_some_iff.mp hnumber, ?_⟩
  · rintro ⟨node, hnode, htype⟩
    rw [hnode, Option.map_some, htype] at hother
    exact absurd hother (by decide)
  · rintro ⟨written, after, hrun⟩
    rw [hrun] at hfails
    cases hfails

end Sample

end Draft

end DiffGraph
