import Mathlib.Algebra.Field.Rat
import DiffGraph.Proofs.Draft.Deposits
import DiffGraph.Proofs.Draft.Differentiation
import DiffGraph.Proofs.Draft.Mirroring
import DiffGraph.Proofs.Operator.Uniformity

/-!
Reverse mode agrees with forward mode. The adjoint of a function of numbers writes to the gradient
of an address what comes in at the function's results, each weighted with the derivative of the
written value by the address (`AdjointRun.outputAt`). The derivative is the one that differentiating
the value builds, in every field and for all functions that the operators may stand for.
-/

set_option autoImplicit false

namespace DiffGraph

open List Stateful Option Array

variable {id addr value copy : NodeId} {F : Type} {node : Node} {path way : AccessPath}
  {primal d : Draft} {owner : Nat} {excluded : List String} {other t : String}

section Forward

variable [Field F] (I : Interpretation F)

/-- All operators on numbers, up to a last draft. -/
def Interpretation.setting {last : Draft} (hexact : I.Exact last Precision.names)
    (precision : Precision) (limit : Nat) : Setting F where
  interpretation := I
  last := last
  functions := Precision.names
  exact := hexact.fewer (by decide)
  precision := precision
  limit := limit

/-- The derivative that is built of a number denotes the derivative of what the number denotes. -/
theorem Interpretation.attains_differentiate (hs : d.Sound) (hder : d.Derived) {prec : Precision}
    (hsup : d.Supports prec) (hpl : d.Locates addr t path) (htm : d.Term prec.type id) :
    d.Attains (Build.differentiate addr id) (d.options.replacementLimit < 2)
      fun d' deriv ↦ I.Exact d' Precision.names →
        d'.graph.denote I.model deriv = I.tangent path d.graph id := by
  have hattains {last : Draft} (hexact : I.Exact last Precision.names) :=
    Setting.attains_differentiate
      (S := I.setting hexact prec d.options.replacementLimit) ⟨hs, hsup, rfl⟩
      hder hpl (htm.over_any.mono fun name _ ↦ Precision.calls_subset_names name)
  -- Whether it is built does not depend on the meaning of constants.
  rcases hattains (I.exact_new 0 "" .standard .scalars .default _) with
    ⟨deriv, d', hr, hgr, haf, -⟩ | hfl
  · refine .inl ⟨deriv, d', hr, hgr, haf, fun hexact ↦ ?_⟩
    obtain ⟨-, -, hmeans⟩ := (hattains hexact).of_ok hr
    refine (hmeans.denote (.refl d')).trans ?_
    exact congrArg Prod.snd (Graph.denote_extends hgr.graph htm.holdsValue.owns)
  · exact .inr hfl

end Forward

namespace Draft

section Pullbacks

variable [Field F] (d : Draft) (I : Interpretation F) (excluded : List String)

/-- The gradient that comes in at a place. There is none for arguments that are excluded. -/
def incoming (path : AccessPath) : F :=
  if path.argument ∈ excluded then 0
  else I.read (path.within (d.options.gradientName path.argument))

/-- The gradient that comes in where a node writes, weighted with the derivative of the value that
it writes. -/
def pullback (path : AccessPath) (id : NodeId) : F :=
  match (d.graph.node? id).map Node.kind with
  | some (.write addr value) =>
    (d.graph.accessPath? addr).elim 0 (d.incoming I excluded) *
      I.tangent path d.graph value
  | _ => 0

theorem pullback_of_write (hn : d.graph.node? id = some node) (hk : node.kind = .write addr value)
    (hway : d.graph.accessPath? addr = some way) (path : AccessPath) :
    d.pullback I excluded path id = d.incoming I excluded way * I.tangent path d.graph value := by
  rw [pullback, hn, map_some, hk]
  dsimp only
  rw [hway, elim_some]

end Pullbacks

section Stages

variable (run : primal.AdjointRun owner excluded) (hprimal : primal.Sound)
include hprimal

theorem AdjointRun.precedes_copied : run.declared.Precedes run.copied :=
  (Build.copyWrites_leads primal run.declared).precedes run.copy
    (hprimal.ok_of_adjoint_declare run.declare).1.sound

theorem AdjointRun.options_copied : run.copied.options = primal.options :=
  (run.precedes_copied hprimal).options.trans (hprimal.ok_of_adjoint_declare run.declare).2.2.1

theorem AdjointRun.declares : primal.Declares excluded run.copied := by
  obtain ⟨hcpy, -, -, -, hnames, hdeclared⟩ := hprimal.ok_of_adjoint_declare run.declare
  refine Declares.later ⟨fun e hen ↦ ?_, ?_⟩ (run.precedes_copied hprimal)
  · obtain ⟨id, node, -, hn, ht, hk⟩ := hdeclared e hen
    exact ⟨id, ht ▸ .argument hn (hcpy.sound.argument hn hk).1 hk⟩
  · exact hnames ▸ hcpy.sound.arguments_nodup

end Stages

section Copies

variable [Field F] {copied : Draft}

/-- A draft with copies of the writes of the function. -/
structure Mirrored (model : Model (F × F)) (p copied : Draft) : Prop where
  copying : p.Copying copied
  mirrors : Forall₂ (Mirrors model p copied) p.writes copied.writes

variable {model : Model (F × F)}

theorem Sound.numeric_order (hprimal : primal.Sound) (hopr : primal.operators = .standard)
    (hnum : primal.Numerical) : ∀ id ∈ primal.order, primal.Numeric id := by
  intro id hid
  have hrch := (Dependencies.mem_inOrder_iff _ _).mp hid
  obtain ⟨node, hn⟩ := Graph.owns_iff_node?.mp (hprimal.owns_of_reaches hrch)
  exact hprimal.numeric hopr hnum hrch hn

theorem Sound.numeric_write (hprimal : primal.Sound) (hopr : primal.operators = .standard)
    (hnum : primal.Numerical) (hn : primal.graph.node? id = some node)
    (hk : node.kind = .write addr value) : primal.Numeric id :=
  hprimal.numeric hopr hnum ⟨id, (hprimal.write hn hk).2.1, .refl⟩ hn

section

variable (run : primal.AdjointRun owner excluded) (hprimal : primal.Sound)
  (hopr : primal.operators = .standard) (hnum : primal.Numerical)

include run hprimal hopr hnum

/-- Where no address is written twice there is a copy of every write. -/
theorem AdjointRun.mirrored
    (honce : primal.WritesOnce) (hlaw : model.Lawful) : Mirrored model primal run.copied := by
  obtain ⟨hsta, -, -, hws, -⟩ := hprimal.ok_of_adjoint_declare run.declare
  obtain ⟨hcpy, hmirrors⟩ := hsta.mirrors_of_run_copyWrites hws hprimal hlaw
    (hopr ▸ Registry.standard_uniform) honce
    (hprimal.numeric_order hopr hnum) run.copy
  exact ⟨hcpy, hmirrors⟩

/-- Where all constants are normalized there is a copy of every write. -/
theorem AdjointRun.mirrored_of_normalized (hnormal : primal.Normalized) :
    Mirrored model primal run.copied := by
  obtain ⟨hcpy, hws⟩ := hprimal.ok_of_adjoint_copy (hopr ▸ Registry.standard_uniform) hnormal
    ((run_bind_of_ok run.declare).trans run.copy)
  refine ⟨hcpy, Forall₂.imp (fun id copy hpair ↦ ?_)
    ((forall₂_and_left _ _).mpr ⟨fun _ hid ↦ hid, hws⟩)⟩
  obtain ⟨node, addr, value, hn, hk⟩ := hprimal.writes hpair.1
  exact hpair.2.mirrors hprimal hcpy (hprimal.numeric_write hopr hnum hn hk) hn hk

end

section

variable (h : Mirrored model primal copied)

include h

/-- The copy of a write writes to the same place. -/
theorem Mirrored.locates_write (hprimal : primal.Sound)
    (hmirrors : Mirrors model primal copied id copy) (hn : primal.graph.node? id = some node)
    (hk : node.kind = .write addr value) :
    ∃ n' addr' value' prec way, copied.graph.node? copy = some n' ∧
      n'.kind = .write addr' value' ∧ primal.Supports prec ∧
        primal.Locates addr prec.type way ∧ copied.Locates addr' prec.type way ∧
          Echoes model primal copied prec.type value value' := by
  obtain ⟨n', addr', value', prec, way, hn', hk', hsup, hpl, hsame, hv⟩ := hmirrors.of_write hn hk
  exact ⟨n', addr', value', prec, way, hn', hk', hsup, hpl,
    hsame.place hprimal h.copying.sound h.copying.types hpl, hv⟩

theorem Mirrored.exists_mirrors (hcp : copy ∈ copied.writes) :
    ∃ id ∈ primal.writes, Mirrors model primal copied id copy := by
  obtain ⟨pos, hpos, rfl⟩ := mem_iff_getElem.mp hcp
  have hlt : pos < primal.writes.length := h.mirrors.length_eq ▸ hpos
  exact ⟨_, List.getElem_mem hlt, h.mirrors.get hlt hpos⟩

theorem Mirrored.numeric (hprimal : primal.Sound)
    (hid : id ∈ copied.order) : copied.Numeric id := by
  refine h.copying.sound.numeric_of_mem_order (fun copy hcp ↦ ?_) hid
  obtain ⟨id, -, hmirrors⟩ := h.exists_mirrors hcp
  exact hmirrors.numeric hprimal h.copying

/-- The copies of the writes do not write to gradients. -/
theorem Mirrored.valuesAt_eq_nil (hprimal : primal.Sound)
    (hdeclares : primal.Declares excluded copied)
    (hlk : (primal.gradientNames excluded).deposits.lookup path.argument = some other) :
    copied.valuesAt (path.within other) = [] := by
  refine eq_nil_iff_forall_not_mem.mpr fun value hv ↦ ?_
  obtain ⟨copy, hcp, hf⟩ := mem_filterMap.mp hv
  obtain ⟨id, hid, hmirrors⟩ := h.exists_mirrors hcp
  obtain ⟨node, addr, src, hn, hk⟩ := hprimal.writes hid
  obtain ⟨n', addr', v', prec, way, hn', hk', -, hpl, hplace', -⟩ :=
    h.locates_write hprimal hmirrors hn hk
  rw [valueAt?_of_write hn' hk' hplace'.accessPath?] at hf
  split at hf
  next hsame =>
    obtain ⟨rfl, hincluded, t, hnm⟩ := (primal.lookup_deposits excluded).mp hlk
    obtain ⟨dir, harg⟩ := Graph.argumentOf?_eq_some_of_accessPath? hpl.accessPath?
    obtain ⟨otherType, ho⟩ := hprimal.exists_mem_argumentsOf harg
    have hne : primal.options.gradientName path.argument ≠ way.argument := by
      rcases mem_append.mp hnm with hnm | hnm <;> exact hdeclares.gradientName_ne hnm hincluded ho
    exact hne (congrArg AccessPath.argument hsame).symm
  · cases hf

end

theorem distinct_deposits (p : Draft) (ex : List String) :
    Partners.Distinct (p.gradientNames ex).deposits := by
  intro name name' other hlk hlookup'
  obtain ⟨rfl, -⟩ := (p.lookup_deposits ex).mp hlk
  obtain ⟨hsame, -⟩ := (p.lookup_deposits ex).mp hlookup'
  exact p.options.gradientName_injective hsame

end Copies

end Draft

namespace Setting

open Draft

variable [Field F] {S : Setting F} {copied : Draft}

/-- Written addresses get the gradients of arguments that are not excluded. -/
theorem seedOf_gradientNames (hprimal : primal.Sound) (hn : primal.graph.node? id = some node)
    (hk : node.kind = .write addr value) (hway : primal.graph.accessPath? addr = some way) :
    S.seedOf (primal.gradientNames excluded).seeds way =
      primal.incoming S.interpretation excluded way := by
  obtain ⟨-, -, root, arg, name, dir, -, -, -, -, -, hrt, harg, hargumentKind,
    hdirection⟩ := hprimal.write_target hn hk
  obtain ⟨own, hown⟩ := Graph.argumentOf?_eq_some_of_accessPath? hway
  have hsame : primal.graph.argumentOf? addr = some (name, dir) := by
    rw [Graph.argumentOf?, hrt, bind_some, harg, bind_some]
    exact Build.argument?_eq_some.mpr hargumentKind
  obtain ⟨rfl, rfl⟩ := Prod.mk.inj (some.inj (hsame.symm.trans hown))
  obtain ⟨t, hm⟩ := hprimal.exists_mem_argumentsOf hown
  rw [seedOf, incoming]
  by_cases hexcluded : way.argument ∈ excluded
  · have hnone : (primal.gradientNames excluded).seeds.lookup way.argument = none :=
      eq_none_iff_forall_ne_some.mpr fun other hlk ↦
        ((primal.lookup_seeds excluded).mp hlk).2.1 hexcluded
    rw [if_pos hexcluded, hnone, elim_none]
  · have hlk := (primal.lookup_seeds excluded).mpr ⟨rfl, hexcluded, t, by
      cases dir with
      | input => exact absurd rfl hdirection
      | output => exact mem_append_right _ hm
      | update => exact mem_append_left _ hm⟩
    rw [if_neg hexcluded, hlk, elim_some]

section Sums

variable (h : Mirrored (S.interpretation.dual path) primal copied)
  (hprimal : primal.Sound) (hlater : copied.Precedes S.last)
  (hexact : S.interpretation.Exact S.last Precision.names) {acc : Accumulator}
  (hseeds : ∀ ⦃copy addr value : NodeId⦄ ⦃node : Node⦄, copied.graph.node? copy = some node →
    node.kind = .write addr value →
      S.gathered acc addr = S.seedAt (primal.gradientNames excluded).seeds addr)
include h hprimal hlater hexact hseeds

/-- The copy of a write sends what the write contributes. -/
theorem sent_eq_pullback (hid : id ∈ primal.writes)
    (hmirrors : Mirrors (S.interpretation.dual path) primal copied id copy) :
    S.sent path acc copy = primal.pullback S.interpretation excluded path id := by
  obtain ⟨node, addr, value, hn, hk⟩ := hprimal.writes hid
  obtain ⟨n', addr', v', prec, way, hn', hk', hsup, hpl, hplace',
    hv⟩ := h.locates_write hprimal hmirrors hn hk
  have hslope : S.slopeAt path v' = S.interpretation.tangent path primal.graph value :=
    congrArg Prod.snd ((hv.later hlater).denote
      (Interpretation.exact_dual (hexact hsup.standard) path))
  rw [sent, hlater.graph.node? hn', map_some, hk']
  dsimp only
  rw [hseeds hn' hk', seedAt, (hplace'.later hlater).accessPath?, elim_some,
    seedOf_gradientNames hprimal hn hk hpl.accessPath?, hslope,
    primal.pullback_of_write _ _ hn hk hpl.accessPath?]

/-- What the copies send is what the writes contribute. -/
theorem sum_sent_eq_sum_pullback : (copied.order.map (S.sent path acc)).sum =
    (primal.writes.map (primal.pullback S.interpretation excluded path)).sum := by
  -- Nodes that are not writes send nothing.
  have hos : ((copied.order.filter fun id ↦ ¬ (copied.graph.node? id).any Node.isWrite = true).map
        (S.sent path acc)).sum = 0 := by
    refine sum_eq_zero fun share hshare ↦ ?_
    obtain ⟨id, hid, rfl⟩ := mem_map.mp hshare
    obtain ⟨hid, hw⟩ := mem_filter.mp hid
    obtain ⟨node, hn⟩ := (h.numeric hprimal hid).node?
    rw [sent, hlater.graph.node? hn, map_some]
    split
    next hk =>
      rw [hn, any_some, Node.isWrite, some.inj hk] at hw
      simp at hw
    · rfl
  have hshares : primal.writes.map (primal.pullback S.interpretation excluded path) =
      copied.writes.map (S.sent path acc) := by
    rw [← forall₂_eq_eq_eq, forall₂_map_left_iff, forall₂_map_right_iff]
    refine Forall₂.imp (fun id copy hpair ↦ ?_)
      ((forall₂_and_left _ _).mpr ⟨fun _ hid ↦ hid, h.mirrors⟩)
    exact (sent_eq_pullback h hprimal hlater hexact hseeds hpair.1 hpair.2).symm
  rw [← sum_map_filter_add_sum_map_filter_not
    (fun id ↦ (copied.graph.node? id).any Node.isWrite = true), hos, add_zero, hshares]
  simp only [Bool.decide_eq_true, h.copying.sound.filter_order]

end Sums

section Stages

variable {run : primal.AdjointRun owner excluded}
  (h : Mirrored (S.interpretation.dual path) primal run.copied) (hprimal : primal.Sound)
  (hholds : S.Holds ⟨run.copied, .empty⟩)
include h hprimal hholds

/-- After the sweep the nodes have passed on all there is, and the written addresses still have what
they were given. -/
theorem balanced_of_adjointRun :
    S.Balanced path run.copied.order run.copied.order.reverse run.swept ∧
      run.copied.Grows run.swept.draft ∧ (run.swept.draft.Precedes S.last →
        ∀ ⦃copy addr v : NodeId⦄ ⦃n : Node⦄, run.copied.graph.node? copy = some n →
          n.kind = .write addr v → S.gathered run.swept.accumulator addr =
            S.seedAt (primal.gradientNames excluded).seeds addr) := by
  have hnum (id : NodeId) (hid : id ∈ run.copied.order) := h.numeric hprimal hid
  obtain ⟨addresses, hseeded, hgr, hls⟩ :=
    Seeded.seed hholds rfl (run.declares hprimal).pairs_seeds hnum run.seed
  have hlater := hgr.toPrecedes
  have hops (id : NodeId) (hid : id ∈ run.copied.order.reverse) (arg : NodeId)
      (hop : arg ∈ run.seeded.draft.graph.operands id) : arg ∈ run.copied.order := by
    have hid := mem_reverse.mp hid
    rw [(hnum id hid).operands_eq hlater] at hop
    exact Dependencies.operand_mem_inOrder _ _ hid hop
  have hsw := run.sweep
  rw [array_forM_eq, toList_reverse] at hsw
  obtain ⟨hbalanced, c, hcar⟩ := (hseeded.balanced path run.copied.order).run
    run.copied.nodup_order (fun id hid ↦ (hnum id (mem_reverse.mp hid)).later hlater)
    hops hsw
  refine ⟨hbalanced, hgr.trans hcar.grows, fun hla copy addr v n hn hk ↦ ?_⟩
  have hcp : copy ∈ run.copied.order := by
    have hw : copy ∈ run.copied.writes := (h.copying.sound.write hn hk).2.1
    rw [← h.copying.sound.filter_order] at hw
    exact mem_of_mem_filter hw
  have haddr := hls copy hcp hn hk
  obtain ⟨t, way, hpl⟩ := hseeded.places addr haddr
  rw [hcar.spared hla hpl, hseeded.gathered (hcar.precedes.trans hla), if_pos haddr]

/-- The contributions of the writes land at the gradient of the address. -/
theorem lands_of_adjointRun (hexact : S.interpretation.Exact S.last Precision.names)
    (hla : run.last.draft.Precedes S.last)
    (hlk : (primal.gradientNames excluded).deposits.lookup path.argument = some other) :
    S.Lands run.last.draft (path.within other)
      (primal.writes.map (primal.pullback S.interpretation excluded path)).sum := by
  obtain ⟨hbalanced, hgr, hgathered⟩ := balanced_of_adjointRun h hprimal hholds
  have hdeclares := run.declares hprimal
  have hlater := hgr.toPrecedes
  have hnum (id : NodeId) (hid : id ∈ run.copied.order) : run.swept.draft.Numeric id :=
    (h.numeric hprimal hid).later hlater
  have hperm := reverse_perm run.copied.order
  obtain ⟨effective, hdeposited⟩ := hbalanced.holds.deposit (distinct_deposits primal excluded)
    (hdeclares.pairs_deposits.later hlater) run.copied.nodup_order
    (fun id hid ↦ hnum id (mem_def.mp hid))
    (fun way name hnm ↦ (h.copying.sound.valuesAt_grows hgr _).trans
      (h.valuesAt_eq_nil hprimal hdeclares hnm)) run.deposit
  have hswept := hdeposited.precedes.trans hla
  rw [← sum_sent_eq_sum_pullback h hprimal (hlater.trans hswept) hexact (hgathered hswept)]
  refine hdeposited.lands hbalanced.holds.sound hla hlk
    (fun id addr node t hid hn hk hpl ↦ ?_) fun hunread ↦ ?_
  · exact hbalanced.gathered_read hperm run.copied.nodup_order hnum hswept
      (mem_def.mp hid) hn hk hpl
  · exact hbalanced.sum_sent_eq_zero hperm hnum hswept fun id addr node t hid ↦
      hunread (mem_def.mpr hid)

end Stages

end Setting

namespace Draft

section Agreement

variable [Field F] {adjoint : Draft} {types : TypeTable}

/-- What the adjoint writes to the gradient of an argument that is read. -/
theorem AdjointRun.outputAt (run : primal.AdjointRun owner excluded) (hprimal : primal.Sound)
    (I : Interpretation F) (hexact : I.Exact run.last.draft Precision.names)
    (h : Mirrored (I.dual path) primal run.copied)
    (harg : (path.argument, t) ∈ primal.argumentsOf .input ++ primal.argumentsOf .update)
    (hincluded : path.argument ∉ excluded) :
    (run.last.draft.valuesAt
      (path.within (primal.options.gradientName path.argument))).length ≤ 1 ∧
    run.last.draft.outputAt I.model (path.within (primal.options.gradientName path.argument)) =
      (primal.writes.map (primal.pullback I excluded path)).sum := by
  have hlk := (primal.lookup_deposits excluded).mpr ⟨rfl, hincluded, t, harg⟩
  have hholds : (I.setting hexact .double primal.options.replacementLimit).Holds
      ⟨run.copied, .empty⟩ :=
    ⟨Precision.calls_subset_names, h.copying.sound, congrArg _ (run.options_copied hprimal),
      Accumulator.relates_empty⟩
  have hlands := Setting.lands_of_adjointRun h hprimal hholds hexact (.refl _) hlk
  refine ⟨?_, hlands.outputAt_eq⟩
  rcases hlands with ⟨hnone, -⟩ | ⟨value, hv, -⟩
  · rw [hnone]
    exact Nat.zero_le 1
  · rw [hv]
    exact Nat.le_refl 1

/-- The adjoint of a function of numbers writes to the gradient of an address, at most once, the sum
of the gradients that come in where the function writes, each weighted with the derivative of the
written value by the address. The derivative is the one that differentiating the value builds. -/
theorem Reachable.adjoint_agrees_differentiate (hprimal : primal.Reachable)
    (hoperators : primal.operators = .standard) (hnumerical : primal.Numerical)
    (honce : primal.WritesOnce) (hadjoint : primal.adjoint owner excluded = (.ok adjoint, types))
    (I : Interpretation F) (hexact : I.Exact adjoint Precision.names) {place : NodeId}
    {type : String} {path : AccessPath} {direction : Direction}
    (hplace : primal.Locates place type path)
    (hargument : primal.graph.argumentOf? place = some (path.argument, direction))
    (hdirection : direction ≠ .output) (hincluded : path.argument ∉ excluded) :
    (adjoint.valuesAt (path.within (primal.options.gradientName path.argument))).length ≤ 1 ∧
    adjoint.outputAt I.model (path.within (primal.options.gradientName path.argument)) =
      (primal.writes.map (primal.pullback I excluded path)).sum ∧
    ∀ ⦃id address value : NodeId⦄ ⦃node : Node⦄, primal.graph.node? id = some node →
      node.kind = .write address value →
        primal.Attains (Build.differentiate place value) (primal.options.replacementLimit < 2)
          fun after derivative ↦ I.Exact after Precision.names →
            after.graph.denote I.model derivative = I.tangent path primal.graph value := by
  have hsound := hprimal.sound
  obtain ⟨run, rfl⟩ := exists_adjointRun hadjoint
  obtain ⟨argumentType, hmember⟩ := hsound.exists_mem_argumentsOf hargument
  have hlisted : (path.argument, argumentType) ∈
      primal.argumentsOf .input ++ primal.argumentsOf .update := by
    cases direction with
    | input => exact List.mem_append_left _ hmember
    | update => exact List.mem_append_right _ hmember
    | output => exact absurd rfl hdirection
  obtain ⟨honly, hvalue⟩ := run.outputAt hsound I hexact
    (run.mirrored hsound hoperators hnumerical honce (I.lawful_dual path)) hlisted hincluded
  refine ⟨honly, hvalue, fun id address value node hnode hkind ↦ ?_⟩
  obtain ⟨precision, way, hsupports, -, hterm⟩ :=
    (hsound.numeric_write hoperators hnumerical hnode hkind).of_write hnode hkind
  exact I.attains_differentiate hsound hprimal.derived hsupports hplace hterm

end Agreement

section Constants

variable {start : Draft} {nodes : List (String × NodeKind × Bool)}
  {arguments : List (String × NodeId)} {writes : List NodeId}
  (h : start.Lists d nodes arguments writes)
  (hnone : ∀ e ∈ nodes, ∀ value, e.2.1 ≠ .constant value)
include h hnone

theorem Lists.kind_ne_constant (hn : d.graph.node? id = some node) (value : Value) :
    node.kind ≠ .constant value :=
  hnone node.content (mem_of_getElem? (h.of_node? hn).2) value

theorem Lists.normalized : d.Normalized :=
  fun _ _ value _ hn hk ↦ absurd hk (h.kind_ne_constant hnone hn value)

theorem Lists.exact [Field F] (I : Interpretation F) (names : List String) : I.Exact d names :=
  fun _ _ ↦ Model.exact_of_isEmpty (fun hn ↦ h.kind_ne_constant hnone hn _) _ _

end Constants

section Sample

variable (h : blank.Lists d identity [("y", ⟨0, 0⟩), ("x", ⟨0, 1⟩)] [⟨0, 3⟩])
include h

/-- The last node of the sample is its only write. -/
theorem eq_of_isWrite_identity (hn : d.graph.node? id = some node)
    (hw : node.isWrite = true) : id = ⟨0, 3⟩ := by
  obtain ⟨addr, value, hk⟩ := kind_of_isWrite hw
  obtain ⟨hwr, hcontent⟩ := h.of_node? hn
  obtain ⟨owner, index⟩ := id
  obtain rfl : owner = 0 := hwr
  match index, hcontent with
  | 0, hcontent | 1, hcontent | 2, hcontent => simp [identity, Node.content, hk] at hcontent
  | 3, _ => rfl

theorem writesOnce_identity : d.WritesOnce := by
  intro first second addr value other node n' hn hk hn' hk'
  rw [eq_of_isWrite_identity h hn (by rw [Node.isWrite, hk]),
    eq_of_isWrite_identity h hn' (by rw [Node.isWrite, hk'])]

theorem numerical_identity : d.Numerical := by
  have hls {id : NodeId} {n : Node} (hn : d.graph.node? id = some n) :
      n.content ∈ identity := mem_of_getElem? (h.of_node? hn).2
  have hnb {id : NodeId} {n : Node} (hn : d.graph.node? id = some n) : d.IsNumber n.type := by
    have hts : ∀ e ∈ identity, e.1 = "double" := by decide
    exact ⟨.double, supports_double h.operators h.types, hts _ (hls hn)⟩
  refine ⟨fun _ _ _ _ _ _ _ ↦ hnb, fun _ _ _ _ _ _ _ _ ↦ hnb,
    fun _ _ _ _ hn _ ↦ hnb hn, fun id n args _ hn hk ↦ ?_,
    fun id arg src hrch hop hsrc ↦ ?_⟩
  · have hm := hls hn
    rw [Node.content, hk] at hm
    simp [identity] at hm
  · -- A write that is an operand would stand before another node.
    refine Bool.eq_false_iff.mpr fun hw ↦ ?_
    obtain ⟨n, hn⟩ := Graph.owns_iff_node?.mp (h.sound.owns_of_reaches hrch)
    rw [Graph.operands_of_node? hn] at hop
    obtain rfl := eq_of_isWrite_identity h hsrc hw
    have hlater : 3 < id.index := Graph.operand_index_lt hn hop
    have hbd : id.index < 4 := (List.getElem?_eq_some_iff.mp (h.of_node? hn).2).1
    omega

/-- What its write contributes to the gradient of the input is the gradient of the output. -/
theorem share_identity [Field F] (I : Interpretation F) :
    d.incoming I [] ⟨"y", []⟩ * I.tangent ⟨"x", []⟩ d.graph ⟨0, 2⟩ = I.read ⟨"yGrad", []⟩ := by
  obtain ⟨x, hx, -, hxkind, hxaddress⟩ := h.node?_blank 1 rfl
  obtain ⟨r, hr, -, hrkind, -⟩ := h.node?_blank 2 rfl
  have hpl : d.Locates ⟨0, 1⟩ x.type ⟨"x", []⟩ := .argument hx hxaddress hxkind
  rw [I.tangent_read _ hr hrkind hpl.accessPath?, if_pos rfl, mul_one, incoming,
    if_neg not_mem_nil, h.options]
  rfl

end Sample

/-- The adjoint of a function that writes its input to its output passes the gradient on. -/
theorem outputAt_adjoint_identity : ∃ primal adjoint : Draft, primal.Reachable ∧
    primal.adjoint 1 [] = (.ok adjoint, adjoint.types) ∧ ∀ I : Interpretation ℚ,
      adjoint.outputAt I.model ⟨"xGrad", []⟩ = I.read ⟨"yGrad", []⟩ := by
  obtain ⟨primal, adjoint, hprimal, hlists, hadjoint, hlisted⟩ := exists_adjoint_identity
  obtain ⟨y, hy, -, hykind, hyaddress⟩ := hlists.node?_blank 0 rfl
  obtain ⟨x, hx, -, hxkind, hxaddress⟩ := hlists.node?_blank 1 rfl
  obtain ⟨w, hw, -, hwkind, -⟩ := hlists.node?_blank 3 rfl
  refine ⟨primal, adjoint, hprimal, hadjoint, fun I ↦ ?_⟩
  have hexact : I.Exact adjoint Precision.names := hlisted.exact (by simp [adjointIdentity]) I _
  have hplace : primal.Locates ⟨0, 1⟩ x.type ⟨"x", []⟩ := .argument hx hxaddress hxkind
  have hresult : primal.Locates ⟨0, 0⟩ y.type ⟨"y", []⟩ := .argument hy hyaddress hykind
  have hagrees := (hprimal.adjoint_agrees_differentiate hlists.operators
    (numerical_identity hlists) (writesOnce_identity hlists) hadjoint I hexact hplace
    (Graph.argumentOf?_of_argument hx hxkind) (by decide) List.not_mem_nil).2.1
  rw [hlists.options, hlists.writes, List.map_singleton, List.sum_singleton,
    primal.pullback_of_write I [] hw hwkind hresult.accessPath?, share_identity hlists] at hagrees
  exact hagrees

end Draft

end DiffGraph
