import DiffGraph.Proofs.Draft.SweepOrder
import DiffGraph.Proofs.Draft.TypedCopies

/-!
Adjoints of well-typed functions. A function that computes with numbers, and with records and
templates that are made of numbers, has an adjoint, whatever arguments are excluded, as long as the
names of the gradients do not clash with each other and with the function's own arguments. What the
adjoint writes beside the writes of the function are gradients: values of the types of the addresses
that they are gradients of (`Reachable.exists_typed_adjoint`).
-/

set_option autoImplicit false

namespace DiffGraph

open List Stateful

namespace Draft

section Names

variable {d : Draft}

/-- Every argument has one direction. -/
theorem Sound.argumentsOf_perm (hs : d.Sound) :
    ((d.argumentsOf .output ++ d.argumentsOf .update ++ d.argumentsOf .input).map
      Prod.fst).Perm (d.arguments.map Prod.fst) := by
  have hsignature : d.signatureOf.map Prod.fst = d.arguments.map Prod.fst := by
    rw [signatureOf, map_filterMap, ← filterMap_eq_map]
    refine filterMap_congr fun e hen ↦ ?_
    obtain ⟨n, dir, hn, -⟩ := hs.arguments hen
    simp [hn]
  rw [← hsignature]
  unfold argumentsOf
  generalize d.signatureOf = entries
  refine perm_iff_count.mpr fun name ↦ ?_
  induction entries with
  | nil => rfl
  | cons e entries ih =>
    obtain ⟨first, t, dir⟩ := e
    simp only [map_append, count_append, map_cons, count_cons] at ih ⊢
    cases dir <;> simp [count_cons] <;> omega

/-- The names of the adjoint's arguments. -/
theorem Sound.adjointArguments_perm (hs : d.Sound) (ex : List String) :
    ((d.adjointArguments ex).map Prod.fst).Perm
      (d.arguments.map Prod.fst ++ ((d.arguments.map Prod.fst).filter fun name ↦
        name ∉ ex).map d.options.gradientName) := by
  refine (d.adjointArguments_perm ex).trans (hs.argumentsOf_perm.append ?_)
  have hnames : ((d.argumentsOf .input ++ d.argumentsOf .update ++
      d.argumentsOf .output).map Prod.fst).Perm (d.arguments.map Prod.fst) := by
    refine Perm.trans (Perm.map _ ?_) hs.argumentsOf_perm
    exact (perm_append_comm.append_right _).trans
      (perm_append_comm.trans (.of_eq (append_assoc ..).symm))
  have hincluded := (hnames.filter fun name ↦ name ∉ ex).map d.options.gradientName
  rw [filter_map, map_map] at hincluded
  simpa [Function.comp_def] using hincluded

/-- Arguments with different names can be declared one after another. -/
theorem exists_declareArguments {entries : List (String × String × Direction)}
    (hnd : (d.arguments.map Prod.fst ++ entries.map Prod.fst).Nodup) :
    ∃ d', (entries.forM fun (name, t, dir) ↦ do
      let _ ← Build.declareArgument name t dir : Build Unit).run d = (.ok ⟨⟩, d') := by
  induction entries generalizing d with
  | nil => exact ⟨d, rfl⟩
  | cons e entries ih =>
    obtain ⟨name, t, dir⟩ := e
    have hfr : d.arguments.lookup name = none := by
      refine lookup_eq_none_iff.mpr fun k hkn ↦ ?_
      refine bne_iff_ne.mpr fun hsame ↦ ?_
      exact disjoint_of_nodup_append hnd (mem_map_of_mem hkn) (hsame ▸ mem_cons_self)
    have owned : ∀ operand ∈ (NodeKind.argument name dir).operands,
        d.graph.Owns operand := forall_mem_nil _
    have hdeclare : (Build.declareArgument name t dir).run d = _ :=
      Build.run_declareArgument hfr owned
    rw [Build.run_declareArgument_cons hdeclare]
    refine ih ?_
    rw [map_append, append_assoc]
    exact hnd

end Names

section Totality

variable {p primal : Draft} {owner : Nat} {ex excluded : List String}

/-- The arguments of an adjoint can be declared. -/
theorem Equipped.exists_declared (hpm : p.Equipped)
    (hnames : ((p.adjointArguments ex).map Prod.fst).Nodup) (owner : Nat) :
    ∃ declared, ((p.adjointArguments ex).forM fun (name, t, direction) ↦ do
        let _ ← Build.declareArgument name t direction : Build Unit).run
          (p.adjointStart owner).draft = (.ok ⟨⟩, declared) ∧
      Replayed p ∅ declared ∧ p.Declares ex declared ∧
        ∀ ⦃name other : String⦄, (p.gradientNames ex).deposits.lookup name = some other →
          declared.Writable other := by
  obtain ⟨declared, hr⟩ := @exists_declareArguments (p.adjointStart owner).draft _ hnames
  obtain ⟨hcpy, hts, hopts, hws, -, hentries⟩ := hpm.sound.ok_of_adjoint_declare hr
  have hequipped : declared.Equipped :=
    ⟨hcpy.sound, hcpy.operators.trans hpm.operators, hts ▸ hpm.types, hopts ▸ hpm.limit⟩
  refine ⟨declared, hr, ⟨.empty hcpy, hequipped, ?_⟩, ⟨fun e hen ↦ ?_, hnames⟩, ?_⟩
  · rw [hws]
    exact forall_mem_nil _
  · obtain ⟨id, n, -, hn, ht, hk⟩ := hentries e hen
    exact ⟨id, ht ▸ .argument hn (hcpy.sound.argument hn hk).1 hk⟩
  · intro name other hlk
    obtain ⟨rfl, hincluded, t, hnm⟩ := (p.lookup_deposits ex).mp hlk
    have hdirection : ∃ direction ≠ .output, (name, t) ∈ p.argumentsOf direction := by
      rcases mem_append.mp hnm with hnm | hnm
      · exact ⟨.input, by decide, hnm⟩
      · exact ⟨.update, by decide, hnm⟩
    obtain ⟨direction, hdirection, hnm⟩ := hdirection
    obtain ⟨own, hown, hen⟩ := gradientName_mem_adjointArguments hnm hincluded
    obtain ⟨id, n, -, hn, -, hk⟩ := hentries _ hen
    exact ⟨id, n, own, hn, hk, fun hinput ↦ hdirection (hown hinput)⟩

/-- All stages of the adjoint of a well-typed function are gone through. -/
theorem Equipped.exists_adjointRun (hpm : p.Equipped)
    (hty : ∀ id ∈ p.order, ∀ n, p.graph.node? id = some n → p.WellTyped n)
    (hnames : ((p.adjointArguments ex).map Prod.fst).Nodup) (owner : Nat) :
    ∃ run : p.AdjointRun owner ex, (∀ id ∈ run.copied.writes, Repeats p run.copied id) ∧
        run.copied.Gains (p.gradientNames ex).deposits run.last.draft := by
  obtain ⟨declared, hdeclare, hreplayed, hdeclares, hwritable⟩ := hpm.exists_declared hnames owner
  obtain ⟨copies, copied, hcp, hcd⟩ := hreplayed.run_copyWrites hpm hty
  have hl : declared.Precedes copied :=
    (Build.copyWrites_leads p declared).precedes hcp hreplayed.equipped.sound
  have hdeclares := hdeclares.later hl
  have hpro := hcd.proper
  have hsta : Sweep.Typed ⟨copied, .empty⟩ := ⟨hcd.equipped, Accumulator.relates_empty⟩
  have hstages := (hsta.proceeds_seed hpro hdeclares.pairs_seeds).bind
    fun hseed hseeded _ ↦ (hseeded.proceeds_sweep fun id hid ↦ (hpro id hid).later hseed).bind
      fun hsw hswept _ ↦ hswept.proceeds_deposit
        (fun id hid ↦ (hpro id hid).later (hseed.trans hsw))
        (hdeclares.pairs_deposits.later (hseed.trans hsw))
        fun name other hlk ↦ (hwritable hlk).later (hl.trans (hseed.trans hsw))
  rcases hstages with ⟨⟨⟩, last, hr, hgains, -⟩ | ⟨n, d', he⟩
  · obtain ⟨⟨⟩, seeded, hseed, hr⟩ := ok_of_run_bind hr
    obtain ⟨⟨⟩, swept, hsw, hdeposit⟩ := ok_of_run_bind hr
    exact ⟨⟨declared, copied, seeded, swept, last, hdeclare, hcp, hseed, hsw, hdeposit⟩,
      hcd.writes, hgains⟩
  · -- The sweep visits operands after the nodes that use them, so no gradient comes too late.
    have hpass : p.operators.PassesToOperands := hpm.operators ▸ Registry.standard_passesToOperands
    have hfl : (Reverse.adjoint p ex).run (p.adjointStart owner) =
        (.error (.gradientFinalized n), d') := by
      rw [Reverse.adjoint, run_bind_of_ok (Reverse.run_onDraft
        ((run_bind_of_ok hdeclare).trans hcp)), run_get_bind]
      exact he
    exact absurd (hpm.sound.run_adjoint_ordinary hpass hfl) id

/-- Adjoints of well-typed functions are total. A function with the standard operators, whose nodes
have types that are made of numbers and whose constructors take values of the types of their slots,
has an adjoint, if the names of its arguments and of their gradients are different; two nested
replacements are enough. Every write to another argument than the function's own stores a value of
the type of the address that it mirrors. -/
theorem Reachable.exists_typed_adjoint (hprimal : primal.Reachable)
    (hoperators : primal.operators = .standard) (htypes : primal.types.Grown)
    (hlimit : 2 ≤ primal.options.replacementLimit)
    (htyped : ∀ id ∈ primal.order, ∀ node, primal.graph.node? id = some node →
      primal.WellTyped node) (owner : Nat)
    (hexcluded : ∀ name ∈ excluded, name ∈ primal.arguments.map Prod.fst)
    (hnames : (primal.arguments.map Prod.fst ++ ((primal.arguments.map Prod.fst).filter
      fun name ↦ name ∉ excluded).map primal.options.gradientName).Nodup) :
    ∃ result, primal.adjoint owner excluded = (.ok result, result.types) ∧
      ∀ ⦃id node target value way⦄, id ∈ result.writes → result.graph.node? id = some node →
        node.kind = .write target value → result.graph.accessPath? target = some way →
          way.argument ∉ primal.arguments.map Prod.fst →
            ∃ address type path, path.argument ∈ primal.arguments.map Prod.fst ∧
              path.argument ∉ excluded ∧
                way = path.within (primal.options.gradientName path.argument) ∧
                  result.Locates address type path ∧ result.Locates target type way ∧
                    result.HoldsValue value type := by
  have hequipped : primal.Equipped := ⟨hprimal.sound, hoperators, htypes, hlimit⟩
  have hnodup := (hprimal.sound.adjointArguments_perm excluded).nodup_iff.mpr hnames
  obtain ⟨run, hrepeats, hgains⟩ := hequipped.exists_adjointRun htyped hnodup owner
  have hdeclared : excluded.find? (fun name ↦ (primal.arguments.lookup name).isNone) = none := by
    refine List.find?_eq_none.mpr fun name hname hnone ↦ ?_
    obtain ⟨entry, hentry, rfl⟩ := List.mem_map.mp (hexcluded name hname)
    have hdifferent := List.lookup_eq_none_iff.mp (Option.isNone_iff_eq_none.mp hnone) entry hentry
    exact bne_iff_ne.mp hdifferent rfl
  refine ⟨run.last.draft, run.adjoint_eq hdeclared, ?_⟩
  intro id node target value way hid hnode hkind hway hother
  rcases hgains.gained id hid with hcopied | hgradient
  · obtain ⟨-, found, address, source, type, path, hfound, hfoundKind, hplace, hargument⟩ :=
      (hrepeats id hcopied).later hgains.toPrecedes
    cases hnode.symm.trans hfound
    cases hkind.symm.trans hfoundKind
    cases hway.symm.trans hplace.accessPath?
    exact absurd hargument hother
  · obtain ⟨found, place, amount, address, type, path, other, hfound, hfoundKind, haddress, hlookup,
      hplace, hvalue⟩ := hgradient
    cases hnode.symm.trans hfound
    cases hkind.symm.trans hfoundKind
    cases hway.symm.trans hplace.accessPath?
    obtain ⟨rfl, hincluded, argumentType, hargument⟩ := (primal.lookup_deposits excluded).mp hlookup
    refine ⟨address, type, path, ?_, hincluded, rfl, haddress, hplace, hvalue⟩
    refine hprimal.sound.argumentsOf_perm.mem_iff.mp (List.mem_map.mpr
      ⟨(path.argument, argumentType), ?_, rfl⟩)
    rcases List.mem_append.mp hargument with hargument | hargument
    all_goals exact mem_of_mem_argumentsOf hargument

/-- Listed nodes that are numbers and no constructors are well typed. -/
theorem Lists.wellTyped {start d : Draft} {nodes : List (String × NodeKind × Bool)}
    {arguments : List (String × NodeId)} {writes : List NodeId}
    (h : start.Lists d nodes arguments writes)
    (hns : ∀ e ∈ nodes, e.1 ∈ TypeTable.numbers ∧ ∀ args, e.2.1 ≠ .expression .construct args)
    {id : NodeId} {node : Node} (hn : d.graph.node? id = some node) : d.WellTyped node := by
  have hls : node.content ∈ nodes := by
    unfold Graph.node? at hn
    split at hn
    next =>
      have hm := Array.mem_toList_iff.mpr (Array.mem_of_getElem? hn)
      exact h.nodes ▸ mem_map_of_mem hm
    next => cases hn
  obtain ⟨hnb, hk⟩ := hns _ hls
  exact ⟨.number hnb, fun args _ _ hconstruct ↦ absurd hconstruct (hk args)⟩

/-- The adjoint of the identity writes a gradient of the type of its input. -/
theorem Reachable.exists_typed_adjoint_identity : ∃ primal result : Draft, primal.Reachable ∧
    primal.writes = [⟨0, 3⟩] ∧ primal.adjoint 1 [] = (.ok result, result.types) ∧
      result.writes = [⟨1, 5⟩, ⟨1, 7⟩] ∧ ∃ address type, result.Locates address type ⟨"x", []⟩ ∧
        result.Locates ⟨1, 1⟩ type ⟨"xGrad", []⟩ ∧ result.HoldsValue ⟨1, 6⟩ type := by
  obtain ⟨primal, listed, hprimal, hlists, hlisted, hresult⟩ := exists_adjoint_identity
  have hoptions : primal.options = .default := hlists.options
  have hnames : primal.arguments.map Prod.fst = ["y", "x"] := by rw [hlists.arguments]; rfl
  obtain ⟨result, hadjoint, hwrites⟩ := hprimal.exists_typed_adjoint hlists.operators
    (by rw [hlists.types]; exact .scalars) (by rw [hoptions]; decide)
    (fun id _ node hnode ↦ hlists.wellTyped (by simp [identity, TypeTable.numbers]) hnode) 1
    (List.forall_mem_nil _) (by rw [hnames, hoptions]; decide)
  cases hlisted.symm.trans hadjoint
  obtain ⟨node, hnode, -, hkind, -⟩ := hresult.node?_blankAdjoint 7 rfl
  obtain ⟨target, htarget, -, htargetKind, -⟩ := hresult.node?_blankAdjoint 1 rfl
  have hwritten : (⟨1, 7⟩ : NodeId) ∈ listed.writes := by rw [hresult.writes]; decide
  obtain ⟨address, type, ⟨argument, slots⟩, hargument, -, hway, haddress, hplace, hvalue⟩ :=
    hwrites hwritten hnode hkind (Graph.accessPath?_of_argument htarget htargetKind)
      (by rw [hnames]; decide)
  obtain ⟨hgradient, rfl⟩ := AccessPath.mk.inj hway
  have hinput : argument = "x" := by
    rw [hnames] at hargument
    rw [hoptions] at hgradient
    rcases List.mem_cons.mp hargument with rfl | hargument
    · exact absurd hgradient (by decide)
    · exact List.mem_singleton.mp hargument
  subst hinput
  exact ⟨primal, listed, hprimal, hlists.writes, hadjoint, hresult.writes, address, type, haddress,
    hplace, hvalue⟩

end Totality

end Draft

end DiffGraph
