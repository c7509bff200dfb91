import DiffGraph.Proofs.Draft.Copying
import DiffGraph.Proofs.Draft.Sweeps
import DiffGraph.Proofs.Draft.UniformEmission
import DiffGraph.Proofs.Types.Order

/-!
Values that their records have outgrown. A record that can be extended gains a field when one is
accessed that it does not have. Constructors and constants that were made before still list the
fields of that time. A constructor is checked again when an adjoint copies it, and a constant when it
is written as a literal: from then on, a function that depends on one of them has no adjoint or no
text (`Reachable.member_outgrows`).
-/

set_option autoImplicit false

namespace DiffGraph

open List Option Stateful

/-- A wider definition has no fewer slots. -/
theorem TypeDefinition.Widens.arity_le {older newer : TypeDefinition} (h : older.Widens newer)
    (count : Nat) : older.arity?.getD count ≤ newer.arity?.getD count := by
  unfold arity?
  rcases h.shape with hsame | ⟨fields, more, extension, holder, hnewer⟩
  · rw [hsame]
  · rw [holder, hnewer, getD_some, getD_some, length_append]
    exact Nat.le_add_right _ _

namespace TypeTable

variable {ts older newer : TypeTable} {name : String} {t : TypeDefinition}

/-- Whether there is a literal is up to the definition of the type. -/
theorem hasLiteral_of_get? (h : ts.get? name = some t) (v : Value) :
    ∃ slots, ts.hasLiteral name v = t.hasLiteral slots v := by
  obtain ⟨definitions⟩ := ts
  induction definitions with
  | nil => cases h
  | cons latest earlier ih =>
    by_cases hnm : latest.name = name
    · rw [get?, find?_cons_of_pos (by simpa using hnm)] at h
      cases h
      exact ⟨hasLiteralIn earlier, if_pos hnm⟩
    · rw [get?, find?_cons_of_neg (by simpa using hnm)] at h
      obtain ⟨slots, hv⟩ := ih h
      exact ⟨slots, (if_neg hnm).trans hv⟩

theorem Built.extends (h : older.Built) (hext : older.Extends newer) : newer.Built := by
  induction hext with
  | refl => exact h
  | tail _ hstep ih =>
    obtain ⟨_, _, _, hm⟩ := hstep
    exact ih.member hm

/-- A definition that has changed is a record with more fields. -/
theorem Extends.exists_more (hext : older.Extends newer) (hg : older.get? name = some t)
    (hne : newer.get? name ≠ older.get? name) :
    ∃ wider fields more extension, newer.get? name = some wider ∧
      t.shape = .record fields (some extension) ∧
      wider.shape = .record (fields ++ more) (some extension) ∧ 0 < more.length := by
  obtain ⟨wider, hwd, hname, hshape⟩ := hext.get? hg
  have hchanged (h : wider.shape = t.shape) : False := by
    refine hne (hwd.trans (.trans ?_ hg.symm))
    cases t
    cases wider
    cases hname
    cases h
    rfl
  rcases hshape with hsame | ⟨fields, more, extension, hsh, hshape⟩
  · exact (hchanged hsame).elim
  · refine ⟨wider, fields, more, extension, hwd, hsh, hshape, length_pos_iff.mpr ?_⟩
    rintro rfl
    exact hchanged (by rw [hshape, hsh, append_nil])

end TypeTable

/-- What roots reach is reached in a larger graph too. -/
theorem Graph.Reaches.later {g g' : Graph} {roots roots' : List NodeId} {id : NodeId}
    (h : g.Reaches roots id) (hg : g.Extends g') (hroots : roots ⊆ roots') :
    g'.Reaches roots' id := by
  obtain ⟨root, hrt, hpath⟩ := h
  refine ⟨root, hroots hrt, Relation.ReflTransGen.mono (fun user arg hop ↦ ?_) _ _ hpath⟩
  cases hn : g.node? user with
  | none =>
    rw [Graph.operands, hn] at hop
    cases hop
  | some n => rwa [operands_of_node? (hg.node? hn), ← operands_of_node? hn]

/-- What roots of the smaller graph reach was there before. -/
theorem Graph.Reaches.earlier {g g' : Graph} {roots : List NodeId} {id : NodeId}
    (h : g'.Reaches roots id) (hg : g.Extends g') (howd : ∀ root ∈ roots, g.Owns root) :
    g.Reaches roots id ∧ g.Owns id := by
  obtain ⟨root, hrt, hpath⟩ := h
  induction hpath with
  | refl => exact ⟨.root hrt, howd root hrt⟩
  | tail _ hop ih =>
    obtain ⟨hrch, how⟩ := ih
    obtain ⟨n, hn⟩ := owns_iff_node?.mp how
    rw [operands_of_node? (hg.node? hn), ← operands_of_node? hn] at hop
    exact ⟨hrch.operand hop, owns_operand hn (operands_of_node? hn ▸ hop)⟩

namespace Draft

variable {d now after src p : Draft} {id : NodeId} {n : Node}

/-- While nodes are copied, each of them is copied at some point. -/
theorem Sound.exists_run_copyNode {ids : List NodeId} {copies copies' : Bindings} (hs : now.Sound)
    (hr : (ids.foldlM (fun copies id ↦ (do
      match src.graph.node? id with
      | some node => return copies.insert id (← Build.copyNode node copies)
      | none => throw (.foreignNode id.index) : Build Bindings)) copies).run now =
        (.ok copies', after)) (hid : id ∈ ids) (hn : src.graph.node? id = some n) :
    ∃ copies mid copy last, now.types.Extends mid.types ∧
      (Build.copyNode n copies).run mid = (.ok copy, last) := by
  induction ids generalizing copies now with
  | nil => cases hid
  | cons other ids ih =>
    obtain ⟨next, s, hstep, hrs⟩ := ok_of_run_foldlM_cons hr
    split at hstep
    next m hm =>
      obtain ⟨copy, s', hcp, hinsert⟩ := ok_of_run_bind hstep
      obtain ⟨rfl, rfl⟩ := ok_of_run_pure hinsert
      rcases mem_cons.mp hid with rfl | hid
      · cases hm.symm.trans hn
        exact ⟨_, _, _, _, .refl _, hcp⟩
      · have hld := Build.copyNode_leads m copies now
        obtain ⟨made, mid, copy', last, hext, hmade⟩ := ih (hld.sound hcp hs) hrs hid
        exact ⟨made, mid, copy', last, (hld.precedes hcp hs).types.trans hext, hmade⟩
    next => cases hstep

/-- Where the adjoint can be formed, every constructor that the writes depend on has an operand for
each slot that its type has by now. -/
theorem Sound.arity_of_adjoint {owner : Nat} {ex : List String} {ts : TypeTable} {res : Draft}
    (hs : p.Sound) (h : p.adjoint owner ex = (.ok res, ts)) (hrch : p.graph.Reaches p.writes id)
    (hn : p.graph.node? id = some n) {args : List NodeId}
    (hk : n.kind = .expression .construct args) {defn : TypeDefinition}
    (hdef : p.types.get? n.type = some defn) : defn.arity?.getD args.length ≤ args.length := by
  obtain ⟨run, -⟩ := exists_adjointRun h
  obtain ⟨hsta, -⟩ := hs.ok_of_adjoint_declare run.declare
  obtain ⟨copies, s, hfold, -⟩ := ok_of_run_bind run.copy
  rw [← Array.foldlM_toList] at hfold
  have hid : id ∈ p.order := (Dependencies.mem_inOrder_iff p.graph p.writes).mpr hrch
  obtain ⟨copies, mid, copy, last, hext, hcp⟩ := hsta.sound.exists_run_copyNode hfold hid hn
  have hcp := ok_of_run_copyNode hcp
  rw [hk] at hcp
  obtain ⟨operands, hops, hcp⟩ := hcp
  obtain ⟨wider, hwd, hwn⟩ := (hsta.types.trans hext).get? hdef
  refine (hwn.arity_le _).trans (Nat.le_of_eq ?_)
  rw [hops.length_eq]
  exact (arity_of_run_construct hwd hcp).symm

section Extended

variable (hla : d.Precedes after) (haf : after.Sound) (hts : d.types.Built)

include hla haf hts

/-- A function that can still be emitted has a literal for each constant that it had before. -/
theorem Precedes.hasLiteral_of_emit {lang : Language} {function : EmittedFunction} {v : Value}
    (hemit : after.emit lang = .ok function) (hrch : d.graph.Reaches d.writes id)
    (hn : d.graph.node? id = some n) (hk : n.kind = .constant v) :
    after.types.hasLiteral n.type v = true := by
  by_contra hno
  exact haf.not_unwritable (hts.extends hla.types) hemit id
    ⟨n, v, hrch.later hla.graph hla.writes.subset, hla.graph.node? hn, hk, eq_false_of_ne_true hno⟩

variable (hs : d.Sound)

include hs

/-- If nothing is written in between, literals for these constants are all that it takes. -/
theorem Precedes.emits_iff (hws : after.writes = d.writes)
    (hren : d.operators.RendersEverywhere) (lang : Language) :
    (∃ function, after.emit lang = .ok function) ↔
      ∀ id n v, d.graph.Reaches d.writes id → d.graph.node? id = some n →
        n.kind = .constant v → after.types.hasLiteral n.type v = true := by
  refine ⟨fun ⟨_, hemit⟩ _ _ _ ↦ hla.hasLiteral_of_emit haf hts hemit, fun hliteral ↦ ?_⟩
  obtain ⟨found, hconcurs⟩ := haf.concurs_emit (hts.extends hla.types) (hla.operators ▸ hren)
  cases hconcurs with
  | ok h => exact h lang
  | error hmisses =>
    obtain ⟨-, id, n, v, hrch, hn, hk, hno⟩ := hmisses
    rw [hws] at hrch
    obtain ⟨hrch, how⟩ := hrch.earlier hla.graph fun write hw ↦ by
      obtain ⟨_, _, _, hwn, -⟩ := hs.writes hw
      exact Graph.owns_of_node? hwn
    obtain ⟨m, hm⟩ := Graph.owns_iff_node?.mp how
    cases hn.symm.trans (hla.graph.node? hm)
    cases hno.symm.trans (hliteral id n v hrch hm hk)

variable (hrch : d.graph.Reaches d.writes id) (hn : d.graph.node? id = some n)
  (hext : after.types.get? n.type ≠ d.types.get? n.type)

include hrch hn hext

omit hts in
theorem Precedes.adjoint_fails_of_extended {args : List NodeId}
    (hk : n.kind = .expression .construct args) (owner : Nat) (ex : List String) :
    ∃ error ts, after.adjoint owner ex = (.error error, ts) := by
  rcases hadj : after.adjoint owner ex with ⟨error | res, ts⟩
  · exact ⟨error, ts, rfl⟩
  · obtain ⟨before, hbf, hfi, -⟩ := hs.expression hn hk
    obtain ⟨defn, hdef, harity, -⟩ := hfi.of_construct
    obtain ⟨wider, hwd, hwn⟩ := hbf.types.get? hdef
    obtain ⟨widest, fields, more, extension, hwt, hsh, hshape, hpos⟩ :=
      hla.types.exists_more hwd hext
    have hmade := hwn.arity_le args.length
    have hle := haf.arity_of_adjoint hadj (hrch.later hla.graph hla.writes.subset)
      (hla.graph.node? hn) hk hwt
    rw [← harity, TypeDefinition.arity?, hsh, getD_some] at hmade
    rw [TypeDefinition.arity?, hshape, getD_some, length_append] at hle
    omega

theorem Precedes.emit_fails_of_extended {items : List Value} (hk : n.kind = .constant (.tuple items))
    {lang : Language} {function : EmittedFunction} (hemit : d.emit lang = .ok function)
    (lang' : Language) : ∃ error, after.emit lang' = .error error := by
  cases hemit' : after.emit lang' with
  | error error => exact ⟨error, rfl⟩
  | ok function' =>
    exfalso
    obtain ⟨defn, hdef⟩ := isSome_iff_exists.mp (hs.isSome_constant hn hk)
    obtain ⟨wider, fields, more, extension, hwd, hsh, hshape, hpos⟩ :=
      hla.types.exists_more hdef hext
    have hearlier := (Precedes.refl d).hasLiteral_of_emit hs hts hemit hrch hn hk
    have hlater := hla.hasLiteral_of_emit haf hts hemit' hrch hn hk
    obtain ⟨slots, heq⟩ := TypeTable.hasLiteral_of_get? hdef (.tuple items)
    obtain ⟨slots', heq'⟩ := TypeTable.hasLiteral_of_get? hwd (.tuple items)
    rw [heq, TypeDefinition.hasLiteral, hsh] at hearlier
    rw [heq', TypeDefinition.hasLiteral, hshape] at hlater
    simp only [Bool.and_eq_true, decide_eq_true_eq, length_append] at hearlier hlater
    omega

end Extended

/-- A member access that adds a field to a record undoes what was built from the fields of that
record before. If the writes depend on a constructor of the record, no adjoint can be formed any more;
if they depend on a constant that lists the fields, no language has the function any more. A function
can be emitted after the access if and only if each constant that the writes depend on still has a
literal. -/
theorem Reachable.member_outgrows {draft after : Draft} (hdraft : draft.Reachable)
    (htypes : draft.types.Built) {base part : NodeId} {field : String}
    (haccess : (Build.member base field).run draft = (.ok part, after)) :
    (∀ id node, draft.graph.Reaches draft.writes id → draft.graph.node? id = some node →
      after.types.get? node.type ≠ draft.types.get? node.type →
      (∀ operands, node.kind = .expression .construct operands → ∀ owner excluded,
        ∃ error types, after.adjoint owner excluded = (.error error, types)) ∧
      ∀ items language function, node.kind = .constant (.tuple items) →
        draft.emit language = .ok function → ∀ other, ∃ error, after.emit other = .error error) ∧
    (draft.operators.Builds → draft.operators.RendersEverywhere → ∀ language,
      (∃ function, after.emit language = .ok function) ↔
        ∀ id node value, draft.graph.Reaches draft.writes id → draft.graph.node? id = some node →
          node.kind = .constant value → after.types.hasLiteral node.type value = true) := by
  have hs := hdraft.sound
  have henlarges := Build.serves_request.enlarges (q := .member base field) trivial draft
  have hlater := henlarges.precedes haccess hs
  have hafter := henlarges.sound haccess hs
  refine ⟨fun id node hreaches hnode hgained ↦ ⟨fun _ hkind ↦
    hlater.adjoint_fails_of_extended hafter hs hreaches hnode hgained hkind, fun _ _ _ hkind ↦
    hlater.emit_fails_of_extended hafter htypes hs hreaches hnode hgained hkind⟩, ?_⟩
  intro hbuilds hrenders
  have hretains := ((henlarges hs).2 hbuilds).2.writes
  rw [show ((Build.request (.member base field)).run draft).2 = after from
    congrArg Prod.snd haccess] at hretains
  exact hlater.emits_iff hafter htypes hs hretains hrenders

/-- A function that writes two records with one field, one constructed from an argument and one
constant. -/
def flagged : Draft :=
  (Draft.new 0 "f" .standard (TypeTable.scalars.afterAll
    [.extensibleRecord "Flags" [("set", "bool")] "double"]) .default).requested
    [.declare "y" "Flags" .output, .declare "z" "Flags" .output, .declare "x" "bool" .input,
      .read ⟨0, 2⟩, .construct "Flags" [⟨0, 3⟩], .write ⟨0, 0⟩ (.node ⟨0, 4⟩),
      .constant "Flags" (.tuple [.bool true]), .write ⟨0, 1⟩ (.node ⟨0, 6⟩)]

theorem lists_flagged : (Draft.new 0 "f" .standard (TypeTable.scalars.afterAll
    [.extensibleRecord "Flags" [("set", "bool")] "double"]) .default).Lists flagged
    [("Flags", .argument "y" .output, true), ("Flags", .argument "z" .output, true),
      ("bool", .argument "x" .input, true), ("bool", .read ⟨0, 2⟩, false),
      ("Flags", .expression .construct [⟨0, 3⟩], false), ("Flags", .write ⟨0, 0⟩ ⟨0, 4⟩, false),
      ("Flags", .constant (.tuple [.bool true]), false), ("Flags", .write ⟨0, 1⟩ ⟨0, 6⟩, false)]
    [("y", ⟨0, 0⟩), ("z", ⟨0, 1⟩), ("x", ⟨0, 2⟩)] [⟨0, 5⟩, ⟨0, 7⟩] :=
  .of_listing (.afterAll (.new ..) _) (by cbv)

theorem exists_emit_flagged : ∃ function, flagged.emit .c = .ok function := by
  have hlists := lists_flagged
  obtain ⟨found, hconcurs⟩ := hlists.sound.concurs_emit
    (hlists.types ▸ TypeTable.Grown.scalars.built.afterAll _)
    (hlists.operators ▸ Registry.standard_rendersEverywhere)
  cases hconcurs with
  | ok h => exact h .c
  | error hmisses =>
    obtain ⟨-, id, n, v, -, hn, hk, hhas⟩ := hmisses
    have hm := mem_of_getElem? (hlists.of_node? hn).2
    rw [Node.content, hk] at hm
    obtain ⟨ht, rfl, -⟩ : n.type = "Flags" ∧ v = .tuple [.bool true] ∧ n.isAddress = false := by
      simpa using hm
    rw [ht, hlists.types] at hhas
    cases hhas

theorem run_member_flagged : ((Build.member ⟨0, 0⟩ "count").run flagged).1 = .ok ⟨0, 8⟩ := by cbv

theorem types_flagged : ((Build.member ⟨0, 0⟩ "count").run flagged).2.types.get? "Flags" =
    some ⟨"Flags", .record [("set", "bool"), ("count", "double")] (some "double")⟩ := by cbv

/-- After an access to another field, the function has no adjoint and cannot be emitted. -/
theorem Reachable.member_outgrows_flagged : ∃ (after : Draft) (function : EmittedFunction),
    flagged.Reachable ∧ flagged.types.Built ∧
      (Build.member ⟨0, 0⟩ "count").run flagged = (.ok ⟨0, 8⟩, after) ∧
      flagged.emit .c = .ok function ∧
      (∀ owner excluded, ∃ error types, after.adjoint owner excluded = (.error error, types)) ∧
      ∀ language, ∃ error, after.emit language = .error error := by
  have hlists := lists_flagged
  have htypes : flagged.types.Built :=
    hlists.types ▸ TypeTable.Grown.scalars.built.afterAll _
  obtain ⟨function, hemit⟩ := exists_emit_flagged
  have hgained {type : String} (h : type = "Flags") :
      ((Build.member ⟨0, 0⟩ "count").run flagged).2.types.get? type ≠ flagged.types.get? type := by
    rw [h, types_flagged, hlists.types]
    intro heq
    cases heq
  have hreaches (write value : Nat) {address : NodeId} (hw : ⟨0, write⟩ ∈ flagged.writes)
      (hop : flagged.graph.operands ⟨0, write⟩ = [address, ⟨0, value⟩]) :
      flagged.graph.Reaches flagged.writes ⟨0, value⟩ :=
    (Graph.Reaches.root hw).operand (hop ▸ mem_cons_of_mem _ mem_cons_self)
  obtain ⟨made, hmade, htype, hkind, -⟩ := hlists.node? 4 rfl
  obtain ⟨listed, hlisted, htype', hkind', -⟩ := hlists.node? 6 rfl
  have haccess : (Build.member ⟨0, 0⟩ "count").run flagged =
      (.ok ⟨0, 8⟩, ((Build.member ⟨0, 0⟩ "count").run flagged).2) := Prod.ext run_member_flagged rfl
  obtain ⟨houtgrows, -⟩ := Reachable.member_outgrows hlists.reachable htypes haccess
  refine ⟨_, function, hlists.reachable, htypes, haccess, hemit, ?_, ?_⟩
  · exact (houtgrows _ _ (hreaches 5 4 (hlists.writes ▸ mem_cons_self) (hlists.operands 5 rfl)) hmade
      (hgained htype)).1 _ hkind
  · exact (houtgrows _ _ (hreaches 7 6 (hlists.writes ▸ mem_cons_of_mem _ mem_cons_self)
      (hlists.operands 7 rfl)) hlisted (hgained htype')).2 _ _ _ hkind' hemit

end Draft
end DiffGraph
