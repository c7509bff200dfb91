import DiffGraph.Proofs.Draft.UniformEmission
import DiffGraph.Proofs.Draft.UseCounts

/-!
The types that an emitted function lists. Every node has a type that the table knows, because parts
have types that their wholes refer to (`Draft.Sound.isSome_type`). What is listed is therefore the
whole closure of the types of the arguments and of the nodes that the writes depend on, each type once
and in alphabetical order (`Draft.Reachable.mem_emit_types_iff`).
-/

set_option autoImplicit false

namespace DiffGraph

open List Relation Option TypeDefinition

variable {t : TypeDefinition} {name : String}

theorem TypeDefinition.mem_references_of_field? {field : String} {slot : Nat}
    (h : t.field? field = some (slot, name)) : name ∈ t.references := by
  obtain ⟨pos, -, hf⟩ := bind_eq_some_iff.mp h
  obtain ⟨e, hen, heq⟩ := map_eq_some_iff.mp hf
  obtain ⟨-, rfl⟩ := Prod.mk.inj heq
  have hm := List.mem_of_getElem? hen
  unfold fields at hm
  unfold references
  split at hm
  next hsh =>
    rw [hsh]
    exact mem_map_of_mem hm
  next => cases hm

theorem TypeDefinition.mem_references_of_element {pos : Nat} (h : t.element pos = .ok name) :
    name ∈ t.references := by
  unfold element at h
  unfold references
  split at h
  next family parameters length hsh =>
    rw [hsh]
    cases hel : parameters.head? with
    | none =>
      rw [hel] at h
      repeat' split at h
      all_goals cases h
    | some element =>
      rw [hel] at h
      repeat' split at h
      all_goals cases h
      all_goals exact mem_of_mem_head? hel
  next => cases h

namespace TypeTable

variable {ts : TypeTable} {other : String}

theorem refers_of_get? (hg : ts.get? name = some t) (href : other ∈ t.references) :
    ts.Refers name other :=
  ⟨t, mem_of_find?_eq_some hg, get?_name hg, href⟩

theorem Built.isSome_of_refers (h : ts.Built) (href : ts.Refers name other) :
    (ts.get? other).isSome = true :=
  isSome_get?_iff.mpr (mem_names.mp
    (idxOf_lt_length_iff.mp ((h.ordered.idxOf_lt href).trans_le idxOf_le_length)))

end TypeTable

namespace Draft

variable {d : Draft} {id : NodeId} {n node : Node}

/-- An application has a type that is named by its operator, or the type of an operand, or one that
the type of an operand refers to. -/
theorem Sound.isSome_type_expression (hs : d.Sound) (hts : d.types.Built) {op : Operator}
    {args : List NodeId} (hn : d.graph.node? id = some n) (hk : n.kind = .expression op args)
    (hargs : ∀ arg ∈ args, ∀ {m : Node}, d.graph.node? arg = some m →
      (d.types.get? m.type).isSome = true) : (d.types.get? n.type).isSome = true := by
  obtain ⟨before, hbf, hfi, -⟩ := hs.expression hn hk
  revert hargs
  generalize n.type = t at hfi ⊢
  generalize n.isAddress = isAddress at hfi
  intro hargs
  cases hfi with
  | @registered _ _ _ ov ts _ _ _ hres hops =>
    cases hresult : ov.result with
    | named name =>
      rw [hresult] at hres
      obtain ⟨rfl, hkn⟩ := hres
      exact (hbf.types.isSome_get? name).trans hkn
    | sameAs pos =>
      rw [hresult] at hres
      obtain ⟨hlt, rfl⟩ := List.getElem?_eq_some_iff.mp hres
      have hlt' := hops.length_eq ▸ hlt
      obtain ⟨m, hf, ht, -⟩ := hops.get hlt' hlt
      rw [get_eq_getElem] at ht
      exact ht ▸ hargs _ (getElem_mem hlt') (hbf.graph.node? hf)
  | member _ hdef hfd =>
    obtain ⟨wider, hwd, hwn⟩ := hbf.types.get? hdef
    exact hts.isSome_of_refers
      (TypeTable.refers_of_get? hwd (mem_references_of_field? (hwn.field? hfd)))
  | index _ hdef hel =>
    obtain ⟨wider, hwd, hwn⟩ := hbf.types.get? hdef
    exact hts.isSome_of_refers (TypeTable.refers_of_get? hwd
      (mem_references_of_element ((hwn.element _).trans hel)))
  | construct hdef =>
    rw [hbf.types.isSome_get?, hdef]
    rfl

/-- Every node has a type that is known. -/
theorem Sound.isSome_type (hs : d.Sound) (hts : d.types.Built)
    (hn : d.graph.node? id = some n) : (d.types.get? n.type).isSome = true := by
  induction hix : id.index using Nat.strongRecOn generalizing id n with
  | _ index ih =>
    subst hix
    have hargs {arg : NodeId} (hop : arg ∈ n.operands) {m : Node}
        (hf : d.graph.node? arg = some m) : (d.types.get? m.type).isSome = true :=
      ih arg.index (Graph.operand_index_lt hn hop) hf rfl
    cases hk : n.kind with
    | constant v => exact hs.isSome_constant hn hk
    | argument name dir =>
      obtain ⟨m, _, hf, -, hkn⟩ := hs.arguments (hs.argument hn hk).2
      cases hn.symm.trans hf
      exact hkn
    | read addr =>
      obtain ⟨-, tgt, htg, -, ht⟩ := hs.read hn hk
      exact ht ▸ hargs (Node.mem_operands hk mem_cons_self) htg
    | write addr v =>
      obtain ⟨-, -, before, hbf, hw⟩ := hs.write hn hk
      obtain ⟨tgt, htg, -, ht⟩ := hw.target
      exact ht ▸ hargs (Node.mem_operands hk mem_cons_self) (hbf.graph.node? htg)
    | expression op args =>
      exact hs.isSome_type_expression hts hn hk fun arg hop _ ↦ hargs (by rwa [Node.operands, hk])

/-- A type is mentioned if an argument has it or a node that the writes depend on. -/
theorem Sound.mem_mentionedTypes_iff (hs : d.Sound) {type : String} :
    type ∈ d.mentionedTypes d.dependencies ↔ ∃ id n, d.graph.node? id = some n ∧
      ((∃ name, (name, id) ∈ d.arguments) ∨ d.graph.Reaches d.writes id) ∧ n.type = type := by
  have htable : (d.argumentTable.map fun e ↦ e.2.1) =
      d.arguments.map fun e ↦ ((d.graph.node? e.2).map Node.type).getD "" :=
    List.map_map
  have hmentioned : d.mentionedTypes d.dependencies = (d.argumentTable.map fun e ↦ e.2.1) ++
        (d.dependencies.discovered.toList.filterMap fun id ↦
          (d.graph.node? id).map Node.type).eraseDups := rfl
  rw [hmentioned, htable, mem_append, mem_eraseDups]
  constructor
  · rintro (ht | ht)
    · obtain ⟨⟨name, id⟩, hls, rfl⟩ := mem_map.mp ht
      obtain ⟨n, dir, hn, -⟩ := hs.arguments hls
      exact ⟨id, n, hn, .inl ⟨name, hls⟩, by rw [hn]; rfl⟩
    · obtain ⟨id, hid, ht⟩ := mem_filterMap.mp ht
      obtain ⟨n, hn, rfl⟩ := map_eq_some_iff.mp ht
      exact ⟨id, n, hn, .inr ((Dependencies.mem_discovered_iff ..).mp hid), rfl⟩
  · rintro ⟨id, n, hn, ⟨name, hls⟩ | hrch, rfl⟩
    · exact .inl (mem_map.mpr ⟨(name, id), hls, by rw [hn]; rfl⟩)
    · exact .inr (mem_filterMap.mpr ⟨id, (Dependencies.mem_discovered_iff ..).mpr hrch, by
        rw [hn]; rfl⟩)

theorem types_of_emit {lang : Language} {function : EmittedFunction}
    (h : d.emit lang = .ok function) :
    function.types = d.types.referenced (d.mentionedTypes d.dependencies) := by
  unfold emit at h
  simp only [bind, Except.bind] at h
  split at h
  · cases h
  · split at h
    · cases h
    · cases h
      rfl

/-- A function of a line between two points, which writes nothing. -/
def unusedLine : Draft :=
  (Draft.new 0 "f" .standard (TypeTable.scalars.afterAll
    [.record "Point" [("x", "double")], .record "Line" [("from", "Point"), ("to", "Point")]])
    .default).requested [.declare "line" "Line" .input]

end Draft

end DiffGraph
