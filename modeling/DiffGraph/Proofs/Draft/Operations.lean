import DiffGraph.Proofs.Draft.Building
import DiffGraph.Proofs.Draft.Walks

/-!
All operations on drafts as chains of elementary changes: derivatives, substitution, evaluation,
sums of gradients and the adjoint. A draft is reachable if operations lead to it from a new draft,
or if it is the adjoint of a reachable one; failures on the way are admitted. What every elementary
change keeps therefore holds of every reachable draft.
-/

set_option autoImplicit false

namespace DiffGraph

open List Stateful Draft Build Option

variable {d draft older newer p : Draft} {ex : List String} {owner : Nat}
  {e : String × String × Direction} {ts : TypeTable}

namespace Draft

/-- How derivatives came to be known. At first there are none, and a draft that grows keeps them. A
derivative that is not known yet is built from those that are, and noted down. -/
inductive Derived : Draft → Prop
  | none {d : Draft} (hempty : d.derivatives = ∅) : Derived d
  | later {older newer : Draft} (hder : Derived older) (hs : older.Sound)
      (h : older.Precedes newer) (hsame : newer.derivatives = older.derivatives) : Derived newer
  | record {d d' : Draft} {addr id deriv : NodeId} (hder : Derived d)
      (hs : d.Sound) (haddr : d.graph.Owns addr)
      (hnew : d.derivatives[(addr, id)]? = Option.none)
      (hr : (Build.differentiateNode addr id).run d = (.ok deriv, d'))
      (hsts : Steps d d') :
      Derived { d' with derivatives := d'.derivatives.insert (addr, id) deriv }

/-- From a sound draft with derivatives in order, more of the same. -/
def Continues (older newer : Draft) : Prop :=
  older.Sound → older.Derived → older.Evolves newer ∧ newer.Sound ∧ newer.Derived

/-- The same, without a change to the function if rules only build expressions. -/
def Ponders (older newer : Draft) : Prop :=
  older.Sound → older.Derived →
    (older.Evolves newer ∧ newer.Sound ∧ newer.Derived) ∧ older.Retains newer

instance : IsPreorder Draft Ponders where
  refl draft hs hder := ⟨⟨.refl draft, hs, hder⟩, .refl draft⟩
  trans _ _ _ hfst hla hs hder := by
    obtain ⟨⟨hevolves, hs', hderived'⟩, hretains⟩ := hfst hs hder
    obtain ⟨⟨hevolves', hrs⟩, hretains'⟩ := hla hs' hderived'
    exact ⟨⟨hevolves.trans hevolves', hrs⟩, IsTrans.trans _ _ _ hretains hretains'⟩

/-- The same, as far as derivatives with respect to a node of the draft are concerned. -/
def PondersOn (addr : NodeId) (older newer : Draft) : Prop :=
  older.graph.Owns addr → older.Ponders newer

instance (addr : NodeId) : IsPreorder Draft (PondersOn addr) where
  refl draft _ := refl draft
  trans _ _ _ hfst hla how hs hder := by
    have howns' := (hfst how hs hder).1.1.precedes.graph.owns how
    exact IsTrans.trans (r := Ponders) _ _ _ (hfst how) (hla howns') hs hder

theorem Leads.continues (h : older.Leads newer) : older.Continues newer := by
  intro hs hder
  have hsts := h hs
  exact ⟨hsts.evolves, hs.steps hsts, hder.later hs hsts.precedes hsts.derivatives⟩

theorem Enlarges.ponders (h : older.Enlarges newer) : older.Ponders newer :=
  fun hs hder ↦ ⟨h.leads.continues hs hder, (h hs).2⟩

theorem Ponders.continues (h : older.Ponders newer) : older.Continues newer :=
  fun hs hder ↦ (h hs hder).1

/-- What is noted down about derivatives changes nothing else. -/
theorem precedes_record (d : Draft) (addr id deriv : NodeId) : d.Precedes { d with
      derivatives := d.derivatives.insert (addr, id) deriv } :=
  { Precedes.refl d with }

end Draft

namespace Build

/-- Requests for expressions enlarge drafts. -/
theorem watches_enlarges (d : Draft) : Watches d.Enlarges fun _ ↦ d.Enlarges where
  allows _ _ _ h := h
  request _ hbld := keeps_of_moves fun s _ ↦ serves_request.enlarges hbld s
  types _ _ _ _ _ h hm := IsTrans.trans _ _ _ h (.types hm)

/-- So do operations that are made of them. -/
theorem enlarges {α : Type} {x : Build α}
    (h : ∀ {cond failing}, Watches cond failing → Keeps cond failing x)
    (d : Draft) : d.Enlarges (x.run d).2 :=
  (h (watches_enlarges d)).moves

theorem oversees_leads (d : Draft) : Oversees d.Leads fun _ ↦ d.Leads where
  allows _ _ _ h := h
  request wanted _ := keeps_of_moves fun s _ ↦ request_leads wanted s
  types _ _ _ _ _ h hm := IsTrans.trans _ _ _ h (.of_step (.types hm))
  write address value := keeps_of_moves fun s _ ↦ write_leads address value s
  gradient _ _ _ _ _ _ _ _ := keeps_of_moves fun s _ ↦ carryOut_leads _ s
  final _ _ h := h

section Derivatives

theorem differentiateNode_enlarges (addr id : NodeId) (d : Draft) :
    Enlarges d ((differentiateNode addr id).run d).2 := by
  refine .of_sound fun hsound ↦ Keeps.moves ((watches_enlarges d).differentiateNode
    (fun before name pos rule hbf hru args tangents ↦ ?_) addr id)
  obtain ⟨ov, hov, hderivative⟩ := bind_eq_some_iff.mp hru
  refine keeps_of_moves fun s hs ↦ ?_
  have hopr : s.operators = before.operators :=
    (hs hsound).1.precedes.operators.trans (hbf hsound).1.precedes.operators.symm
  exact Plan.run_enlarges serves_request fun hbld ↦
    ((hopr ▸ hbld) ov (Registry.mem_of_overload? hov)).derivative rule hderivative args tangents

theorem differentiateOnce_ponders (addr id : NodeId) (d : Draft) :
    PondersOn addr d ((differentiateOnce addr id).run d).2 := by
  intro how hs hder
  have hsta : (differentiateOnce addr id).run d = _ := run_bind_of_ok rfl
  rw [hsta]
  cases hkn : d.derivatives[(addr, id)]? with
  | some deriv => exact ⟨⟨.refl d, hs, hder⟩, .refl d⟩
  | none =>
    have henlarges := differentiateNode_enlarges addr id d
    cases hr : (differentiateNode addr id).run d with
    | mk outcome d' =>
      rw [hr] at henlarges
      cases outcome with
      | error error =>
        dsimp only
        rw [run_bind_of_error hr]
        exact henlarges.ponders hs hder
      | ok deriv =>
        dsimp only
        rw [run_bind_of_ok hr]
        obtain ⟨hsts, hretains⟩ := henlarges hs
        have hrecord := precedes_record d' addr id deriv
        refine ⟨⟨hsts.evolves.trans ⟨[], .of_precedes hrecord rfl⟩,
          (hs.steps hsts).of_precedes hrecord rfl rfl rfl,
          hder.record hs how hkn hr hsts⟩, fun hbld ↦ ?_⟩
        obtain ⟨hopr, hsame⟩ := hretains hbld
        exact ⟨hopr, { hsame with }⟩

theorem differentiate_ponders (addr id : NodeId) (d : Draft) :
    Ponders d ((differentiate addr id).run d).2 := by
  unfold differentiate
  refine moves_bind (moves_query _ _) fun _ s hchecked ↦ ?_
  obtain ⟨how, rfl⟩ := ok_of_run_checkOwned hchecked
  refine moves_bind (moves_query _ _) fun _ s hchecked ↦ ?_
  obtain ⟨-, rfl⟩ := ok_of_run_checkOwned hchecked
  refine moves_bind (moves_query _ _) fun n s hf ↦ ?_
  obtain ⟨hn, rfl⟩ := ok_of_run_node hf
  extract_lets source
  have hsrc : s.graph.Owns source := by
    unfold source
    split
    next inner hk =>
      exact Graph.owns_operand hn (Node.mem_operands hk mem_cons_self)
    next => exact how
  clear_value source
  refine (show PondersOn source s _ from ?_) hsrc
  refine moves_bind (moves_query _ _) fun _ s _ ↦ ?_
  split
  · exact fun _ ↦ (enlarges (fun h ↦ h.allows.describe_failure _ fun _ ↦ by trivial) _).ponders
  refine moves_bind (refl s) fun m s _ ↦ ?_
  split
  · exact moves_pure _ _
  refine moves_bind (refl s) fun _ s _ ↦ ?_
  refine moves_bind (moves_forM (fun part _ s ↦ ?_) s) fun _ s _ ↦ ?_
  · exact moves_bind (differentiateOnce_ponders _ _ _) fun _ _ _ ↦ moves_pure _ _
  · exact differentiateOnce_ponders _ _ _

end Derivatives

/-- Arguments of known types are declared one after another. -/
theorem declareArguments_leads {entries : List (String × String × Direction)}
    (hts : ∀ e ∈ entries, (d.types.get? e.2.1).isSome = true) :
    Leads d ((entries.forM fun (name, t, dir) ↦ do
      let _ ← declareArgument name t dir : Build Unit).run d).2 := by
  induction entries generalizing d with
  | nil => exact .refl d
  | cons e entries ih =>
    obtain ⟨name, t, dir⟩ := e
    obtain ⟨ht, hos⟩ := forall_mem_cons.mp hts
    refine .of_sound fun hs ↦ ?_
    have hfst : Leads d ((do
        let _ ← declareArgument name t dir : Build Unit).run d).2 :=
      moves_bind (declareArgument_leads name dir ht) fun _ _ _ ↦ moves_pure _ _
    refine moves_bind hfst fun _ d' hr ↦ ih fun other ho ↦ ?_
    have hpr := hfst.precedes hr hs
    exact (hpr.types.isSome_get? _).trans (hos other ho)

theorem copyNode_leads (node : Node) (copies : Bindings) (d : Draft) :
    Leads d ((copyNode node copies).run d).2 :=
  ((oversees_leads d).copyNode (oversees_leads d).write node copies).moves

theorem copyWrites_leads (src d : Draft) : Leads d ((copyWrites src).run d).2 :=
  ((oversees_leads d).copyWrites (oversees_leads d).write src).moves

end Build

theorem Reverse.total_enlarges (id : NodeId) (sw : Sweep) :
    sw.draft.Enlarges ((total id).run sw).2.draft :=
  Maintains.moves (maintains_total (watches_enlarges _) fun _ _ _ _ _ _ _ ↦ trivial)

/-- What can be done with a draft from outside. -/
inductive Operation where
  | request (request : Request)
  | declareArguments (outputs updates inputs : List (String × String))
  | addPreamble (lang : Language) (statement : String)
  | addPostamble (lang : Language) (statement : String)
  | differentiate (addr id : NodeId)
  | substitute (bs : Bindings) (id : NodeId)
  | evaluate (env : List (String × Value)) (id : NodeId)
  | evaluateWrites (env : List (String × Value))
  | total (acc : Accumulator) (id : NodeId)

namespace Draft

/-- The draft that an operation leaves behind, whether it fails or not. -/
def after (d : Draft) : Operation → Draft
  | .request q => ((Build.request q).run d).2
  | .declareArguments outputs updates inputs =>
    ((Build.declareArguments outputs updates inputs).run d).2
  | .addPreamble lang statement => ((Build.addPreamble lang statement).run d).2
  | .addPostamble lang statement => ((Build.addPostamble lang statement).run d).2
  | .differentiate addr id => ((Build.differentiate addr id).run d).2
  | .substitute bs id => ((Build.substitute bs id).run d).2
  | .evaluate env id => ((Build.evaluate env id).run d).2
  | .evaluateWrites env => ((Build.evaluateWrites env).run d).2
  | .total acc id => ((Reverse.total id).run ⟨d, acc⟩).2.draft

/-- The operation fails with the error. -/
def Fails (d : Draft) (error : Error) : Operation → Prop
  | .request q => ((Build.request q).run d).1 = .error error
  | .declareArguments outputs updates inputs =>
    ((Build.declareArguments outputs updates inputs).run d).1 = .error error
  | .addPreamble lang statement =>
    ((Build.addPreamble lang statement).run d).1 = .error error
  | .addPostamble lang statement =>
    ((Build.addPostamble lang statement).run d).1 = .error error
  | .differentiate addr id => ((Build.differentiate addr id).run d).1 = .error error
  | .substitute bs id => ((Build.substitute bs id).run d).1 = .error error
  | .evaluate env id => ((Build.evaluate env id).run d).1 = .error error
  | .evaluateWrites env => ((Build.evaluateWrites env).run d).1 = .error error
  | .total acc id => ((Reverse.total id).run ⟨d, acc⟩).1 = .error error

theorem after_continues (d : Draft) (x : Operation) : d.Continues (d.after x) := by
  cases x with
  | request request => exact (request_leads _ _).continues
  | declareArguments outputs updates inputs =>
    refine Leads.continues (moves_forM (fun e _ s ↦ ?_) d)
    exact moves_bind (declare_leads _ _ _ _) fun _ _ _ ↦ moves_pure _ _
  | addPreamble lang statement => exact (Leads.of_step (.preamble _)).continues
  | addPostamble lang statement => exact (Leads.of_step (.postamble _)).continues
  | differentiate addr id => exact (differentiate_ponders _ _ _).continues
  | substitute bs id => exact (enlarges (·.substitute _ _) _).leads.continues
  | evaluate env id => exact (enlarges (·.evaluate _ _) _).leads.continues
  | evaluateWrites env => exact (enlarges (·.evaluateWrites _) _).leads.continues
  | total acc id => exact (Reverse.total_enlarges id ⟨d, acc⟩).leads.continues

/-- The drafts that operations lead to. Types are shared with other drafts, which may extend
them. -/
inductive Reachable : Draft → Prop
  | new (owner : Nat) (name : String) (operators : Registry) (types : TypeTable)
      (options : Options) : Reachable (Draft.new owner name operators types options)
  | operate {d : Draft} (operation : Operation) (hd : Reachable d) :
      Reachable (d.after operation)
  | share {d : Draft} {types : TypeTable} (hd : Reachable d)
      (hext : d.types.Extends types) : Reachable { d with types }
  | adjoint {primal adjoint : Draft} {owner : Nat} {excluded : List String} {types : TypeTable}
      (hpm : Reachable primal)
      (hadj : primal.adjoint owner excluded = (.ok adjoint, types)) : Reachable adjoint

/-- The sweep that an adjoint starts from. -/
def adjointStart (p : Draft) (owner : Nat) : Sweep :=
  ⟨Draft.new owner (p.options.gradientName p.name) p.operators p.types
    p.options, .empty⟩

theorem ok_of_adjoint {res : Draft} (h : p.adjoint owner ex = (.ok res, ts)) :
    ∃ sw, (Reverse.adjoint p ex).run (p.adjointStart owner) = (.ok ⟨⟩, sw) ∧ res = sw.draft := by
  unfold adjoint at h
  split at h
  · cases h
  · change (((Reverse.adjoint p ex).run (p.adjointStart owner)).1.map fun _ ↦
      ((Reverse.adjoint p ex).run (p.adjointStart owner)).2.draft, _) = _ at h
    rcases hr : (Reverse.adjoint p ex).run (p.adjointStart owner) with
      ⟨_ | _, sw⟩
    · rw [hr] at h
      cases h
    · rw [hr] at h
      cases h
      exact ⟨sw, rfl, rfl⟩

theorem error_of_adjoint {error : Error} (h : (p.adjoint owner ex).1 = .error error) :
    (∃ name, error = .undeclared name) ∨ ∃ sw, (Reverse.adjoint p ex).run (p.adjointStart owner) =
        (.error error, sw) := by
  unfold adjoint at h
  split at h
  · exact .inl ⟨_, (Except.error.inj h).symm⟩
  · change ((Reverse.adjoint p ex).run (p.adjointStart owner)).1.map _ = _ at h
    rcases hr : (Reverse.adjoint p ex).run (p.adjointStart owner) with
      ⟨_ | _, sw⟩
    · rw [hr] at h
      cases h
      exact .inr ⟨sw, rfl⟩
    · rw [hr] at h
      cases h

theorem Sound.isSome_type_of_mem_signature (hs : d.Sound) (h : e ∈ d.signatureOf) :
    (d.types.get? e.2.1).isSome = true := by
  obtain ⟨⟨name, id⟩, harg, hen⟩ := mem_filterMap.mp h
  obtain ⟨n, dir, hn, -, ht⟩ := hs.arguments harg
  dsimp only at hen
  rw [hn] at hen
  exact some.inj hen ▸ ht

theorem Sound.isSome_type_of_mem_arguments (hs : d.Sound) {dir : Direction}
    {e : String × String} (h : e ∈ d.argumentsOf dir) :
    (d.types.get? e.2).isSome = true := by
  obtain ⟨⟨name, t, own⟩, hsignature, hen⟩ := mem_filterMap.mp h
  dsimp only at hen
  split at hen
  · exact some.inj hen ▸ hs.isSome_type_of_mem_signature hsignature
  · cases hen

/-- The arguments of an adjoint have types that its function knows. -/
theorem Sound.isSome_type_of_mem_adjoint (hs : d.Sound) (h : e ∈ d.adjointArguments ex) :
    (d.types.get? e.2.1).isSome = true := by
  have hown {dir own : Direction} (h : e ∈ (d.argumentsOf dir).map fun e ↦ (e.1, e.2, own)) :
      (d.types.get? e.2.1).isSome = true := by
    obtain ⟨arg, harg, rfl⟩ := mem_map.mp h
    exact hs.isSome_type_of_mem_arguments harg
  have hpt {own : Direction} {arg : String × String} (harg : (d.types.get? arg.2).isSome = true)
      (h : e ∈ (if ex.contains arg.1 then [] else [(d.options.gradientName arg.1, arg.2, own)])) :
      (d.types.get? e.2.1).isSome = true := by
    split at h
    · cases h
    · exact mem_singleton.mp h ▸ harg
  rcases mem_append.mp h with h | h
  · rcases mem_append.mp h with h | h
    · rcases mem_append.mp h with h | h
      · rcases mem_append.mp h with h | h
        · exact hown h
        · obtain ⟨arg, harg, h⟩ := mem_flatMap.mp h
          exact hpt (hs.isSome_type_of_mem_arguments harg) h
      · obtain ⟨arg, harg, h⟩ := mem_flatMap.mp h
        rcases mem_cons.mp h with rfl | h
        · exact hs.isSome_type_of_mem_arguments harg
        · exact hpt (hs.isSome_type_of_mem_arguments harg) h
    · exact hown h
  · obtain ⟨arg, harg, h⟩ := mem_flatMap.mp h
    exact hpt (hs.isSome_type_of_mem_arguments harg) h

theorem steps_adjoint {result : Draft} (hpm : p.Sound) (h : p.adjoint owner ex = (.ok result, ts)) :
    Steps (p.adjointStart owner).draft result := by
  obtain ⟨sw, hr, rfl⟩ := ok_of_adjoint h
  have hdeclare : Keeps (p.adjointStart owner).draft.Leads
      (fun _ ↦ (p.adjointStart owner).draft.Leads)
      ((p.adjointArguments ex).forM fun (name, t, dir) ↦ do
        let _ ← Build.declareArgument name t dir : Build Unit) := by
    refine keeps_of_moves fun s hs ↦ declareArguments_leads fun e hen ↦ ?_
    have hl := (hs (sound_new ..)).precedes
    exact (hl.types.isSome_get? _).trans (hpm.isSome_type_of_mem_adjoint hen)
  have hld := ((oversees_leads _).adjoint hdeclare).moves (sound_new ..)
  rwa [hr] at hld

theorem Reachable.sound_derived (h : d.Reachable) : d.Sound ∧ d.Derived := by
  induction h with
  | new owner name operators types options =>
    exact ⟨sound_new owner name operators types options, .none rfl⟩
  | operate operation _ ih => exact (after_continues _ operation ih.1 ih.2).2
  | @share older types _ hext ih =>
    have hpr : older.Precedes { older with types } := { Precedes.refl older with types := hext }
    exact ⟨ih.1.of_precedes hpr rfl rfl rfl, ih.2.later ih.1 hpr rfl⟩
  | adjoint _ hadj ih =>
    have hsts := steps_adjoint ih.1 hadj
    exact ⟨(sound_new ..).steps hsts, .none hsts.derivatives⟩

theorem Reachable.sound (h : d.Reachable) : d.Sound := h.sound_derived.1

theorem Reachable.derived (h : d.Reachable) : d.Derived := h.sound_derived.2

/-- The draft that operations leave behind, one after the other, whether they fail or not. -/
def afterAll (d : Draft) (operations : List Operation) : Draft := operations.foldl after d

theorem Reachable.afterAll (h : d.Reachable) (operations : List Operation) :
    (d.afterAll operations).Reachable := by
  induction operations generalizing d with
  | nil => exact h
  | cons x operations ih => exact ih (h.operate x)

/-- Operations only add to what there is. -/
theorem Reachable.precedes_afterAll (h : d.Reachable) (operations : List Operation) :
    d.Precedes (d.afterAll operations) := by
  induction operations generalizing d with
  | nil => exact .refl d
  | cons operation operations ih =>
    exact (after_continues d operation h.sound h.derived).1.precedes.trans
      (ih (h.operate operation))

end Draft

end DiffGraph
