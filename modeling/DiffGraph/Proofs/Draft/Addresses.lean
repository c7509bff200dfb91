import DiffGraph.Proofs.Draft.Listing

/-!
Addresses and directions. Whether a node is an address is stored with it when it is formed and is no
part of what it is found by, so it has to be shown that the mark is always the one that the kind of
the node asks for: arguments are addresses, parts of addresses are, and nothing else is. What is read
is an address, what is written to is part of an output or of an updated argument, and what is
computed from is a value.
-/

set_option autoImplicit false

namespace DiffGraph

variable {op operator : Operator} {args operands : List NodeId}

namespace Draft

section Addresses

variable {d draft : Draft} {id : NodeId} {n node : Node}

/-- A member or an element is an address exactly if what it is taken of is one. -/
theorem Fits.of_projection {t : String} {isAddress : Bool} (hfi : d.Fits op t args isAddress)
    (hproj : op.isProjection = true) :
    ∃ base tgt, args = [base] ∧ d.graph.node? base = some tgt ∧ tgt.isAddress = isAddress := by
  cases hfi with
  | registered => cases hproj
  | member hn | index hn => exact ⟨_, _, rfl, hn, rfl⟩
  | construct => cases hproj

/-- Operators other than member and element take values and give a value. -/
theorem Fits.of_not_projection {t : String} {isAddress : Bool} (hfi : d.Fits op t args isAddress)
    (hproj : op.isProjection = false) : isAddress = false := by
  cases hfi with
  | registered => rfl
  | member | index => cases hproj
  | construct => rfl

theorem Sound.isAddress_iff (hs : d.Sound) (hn : d.graph.node? id = some n) : n.isAddress = true ↔
      (∃ name dir, n.kind = .argument name dir) ∨ ∃ op base target, n.kind = .expression op [base] ∧
          op.isProjection = true ∧ d.graph.node? base = some target ∧ target.isAddress = true := by
  constructor
  · intro haddr
    rcases hs.address_cases hn haddr with
      harg | ⟨base, target, op, htg, hta, hk, hopt⟩
    · exact .inl harg
    · refine .inr ⟨op, base, target, hk, ?_, htg, hta⟩
      rcases hopt with ⟨field, rfl⟩ | ⟨pos, rfl⟩ <;> rfl
  · rintro (⟨name, dir, hk⟩ | ⟨op, base, target, hk, hproj, htg, hta⟩)
    · exact (hs.argument hn hk).1
    · obtain ⟨before, hbf, hfi, -⟩ := hs.expression hn hk
      obtain ⟨base', m, hsame, hf, haddr⟩ := hfi.of_projection hproj
      obtain rfl : base = base' := (List.cons.inj hsame).1
      obtain rfl : m = target := Option.some.inj ((hbf.graph.node? hf).symm.trans htg)
      rw [← haddr, hta]

/-- The arguments are listed under their own names, and nothing else is. -/
theorem Sound.lookup_iff (hs : d.Sound) {name : String} : d.arguments.lookup name = some id ↔
      ∃ n direction, d.graph.node? id = some n ∧ n.kind = .argument name direction := by
  constructor
  · intro hlk
    obtain ⟨n, direction, hn, hk, -⟩ := hs.arguments (mem_of_lookup hlk)
    exact ⟨n, direction, hn, hk⟩
  · rintro ⟨n, direction, hn, hk⟩
    exact lookup_of_mem hs.arguments_nodup (hs.argument hn hk).2

section

variable (hs : d.Sound) (hn : d.graph.node? id = some n)

include hs hn

/-- An address is part of an argument that is listed. -/
theorem Sound.root_listed (haddr : n.isAddress = true) :
    ∃ root arg name dir, d.graph.root? id = some root ∧
      d.graph.node? root = some arg ∧ arg.kind = .argument name dir ∧
        d.arguments.lookup name = some root := by
  obtain ⟨root, arg, name, dir, hrt, harg, hk⟩ := Build.exists_root hs hn haddr
  exact ⟨root, arg, name, dir, hrt, harg, hk, hs.lookup_iff.mpr ⟨arg, dir, harg, hk⟩⟩

/-- A value is written to a part of an argument that is not an input. -/
theorem Sound.write_target {addr v : NodeId} (hk : n.kind = .write addr v) :
    ∃ tgt src root argument name dir, d.graph.node? addr = some tgt ∧ tgt.isAddress = true ∧
      d.graph.node? v = some src ∧ src.isAddress = false ∧
      tgt.type = src.type ∧ d.graph.root? addr = some root ∧
      d.graph.node? root = some argument ∧ argument.kind = .argument name dir ∧ dir ≠ .input := by
  obtain ⟨-, -, before, hbf, hw⟩ := hs.write hn hk
  obtain ⟨tgt, htg, haddr, ht⟩ := hw.target
  obtain ⟨src, hsrc, hsame, hv⟩ := hw.source
  obtain ⟨root, argument, name, dir, hrt, harg, hargumentKind⟩ :=
    Build.exists_root hs (hbf.graph.node? htg) haddr
  refine ⟨tgt, src, root, argument, name, dir, hbf.graph.node? htg, haddr,
    hbf.graph.node? hsrc, hv, ht.trans hsame.symm, hrt, harg, hargumentKind, ?_⟩
  -- The direction was checked when the write was made, and roots do not change.
  rintro rfl
  have how := Graph.owns_of_node? htg
  rw [Graph.root?_extends hbf.graph how] at hrt
  obtain ⟨old, hold⟩ := Graph.owns_iff_node?.mp (Graph.owns_root? how hrt)
  obtain rfl : old = argument := Option.some.inj ((hbf.graph.node? hold).symm.trans harg)
  exact hw.notInput root old name hrt hold hargumentKind

/-- What an operator other than member and element is applied to are values. -/
theorem Sound.operand_isAddress (hk : n.kind = .expression op args)
    (hproj : op.isProjection = false) {arg : NodeId} (hop : arg ∈ args) :
    ∃ src, d.graph.node? arg = some src ∧ src.isAddress = false := by
  obtain ⟨before, hbf, hfi, -⟩ := hs.expression hn hk
  obtain ⟨t, src, hsrc, -, hv⟩ := hfi.value_operand (hfi.of_not_projection hproj) hop
  exact ⟨src, hbf.graph.node? hsrc, hv⟩

end

end Addresses

/-- Addresses are arguments and parts of addresses; every address is part of a listed argument, and
the list has every argument under its name; what is read has the type of its address; what is
written to is no part of an input and has the type of the value; and operators take values. -/
theorem Reachable.address_discipline {draft : Draft} (hdraft : draft.Reachable) :
    (∀ (name : String) (id : NodeId), draft.arguments.lookup name = some id ↔
      ∃ node direction, draft.graph.node? id = some node ∧
        node.kind = .argument name direction) ∧
    (draft.arguments.map Prod.fst).Nodup ∧
    ∀ (id : NodeId) (node : Node), draft.graph.node? id = some node →
      (node.isAddress = true ↔
        (∃ name direction, node.kind = .argument name direction) ∨
          ∃ operator base target, node.kind = .expression operator [base] ∧
            operator.isProjection = true ∧ draft.graph.node? base = some target ∧
              target.isAddress = true) ∧
      (node.isAddress = true →
        ∃ root argument name direction, draft.graph.root? id = some root ∧
          draft.graph.node? root = some argument ∧ argument.kind = .argument name direction ∧
            draft.arguments.lookup name = some root) ∧
      (∀ address, node.kind = .read address →
        ∃ target, draft.graph.node? address = some target ∧ target.isAddress = true ∧
          target.type = node.type) ∧
      (∀ address value, node.kind = .write address value →
        ∃ target source root argument name direction,
          draft.graph.node? address = some target ∧ target.isAddress = true ∧
          draft.graph.node? value = some source ∧ source.isAddress = false ∧
          target.type = source.type ∧ draft.graph.root? address = some root ∧
          draft.graph.node? root = some argument ∧ argument.kind = .argument name direction ∧
            direction ≠ .input) ∧
      (∀ operator operands, node.kind = .expression operator operands →
        operator.isProjection = false → ∀ operand ∈ operands,
          ∃ source, draft.graph.node? operand = some source ∧ source.isAddress = false) := by
  have hsound := hdraft.sound
  refine ⟨fun name id ↦ hsound.lookup_iff, hsound.arguments_nodup, fun id node hnode ↦
    ⟨hsound.isAddress_iff hnode, hsound.root_listed hnode, fun address hkind ↦ ?_,
      fun address value hkind ↦ hsound.write_target hnode hkind,
      fun operator operands hkind hprojection operand hoperand ↦
        hsound.operand_isAddress hnode hkind hprojection hoperand⟩⟩
  exact (hsound.read hnode hkind).2

/-- The last node of the sample writes a value to the output, and its other nodes are marked as
their kinds ask for. -/
theorem Reachable.address_discipline_minMax :
    ∃ draft : Draft, draft.Reachable ∧ draft.arguments.lookup "y" = some ⟨0, 0⟩ ∧
      (∃ node, draft.graph.node? ⟨0, 5⟩ = some node ∧ node.kind = .write ⟨0, 0⟩ ⟨0, 4⟩ ∧
        node.isAddress = false) ∧
      ∃ target source root argument name direction,
        draft.graph.node? ⟨0, 0⟩ = some target ∧ target.isAddress = true ∧
        draft.graph.node? ⟨0, 4⟩ = some source ∧ source.isAddress = false ∧
        target.type = source.type ∧ draft.graph.root? ⟨0, 0⟩ = some root ∧
        draft.graph.node? root = some argument ∧ argument.kind = .argument name direction ∧
          direction ≠ .input := by
  obtain ⟨draft, hdraft, hlists⟩ := exists_minMax
  obtain ⟨node, hnode, -, hkind, hvalue⟩ := hlists.node?_blank 5 rfl
  obtain ⟨y, hy, -, hyKind, -⟩ := hlists.node?_blank 0 rfl
  obtain ⟨hlookup, -, hnodes⟩ := Reachable.address_discipline hdraft
  obtain ⟨-, -, -, hwrites, -⟩ := hnodes _ _ hnode
  exact ⟨draft, hdraft, (hlookup _ _).mpr ⟨y, _, hy, hyKind⟩, ⟨node, hnode, hkind, hvalue⟩,
    hwrites _ _ hkind⟩

end Draft

end DiffGraph
