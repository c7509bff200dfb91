import DiffGraph.Proofs.Draft.Construction
import DiffGraph.Proofs.Draft.Folding

/-!
Which of several writes to an address counts. Writes are kept in a list without repetitions, in the
order in which they were first made, and evaluation goes through this list: the write that was
recorded last counts (`Alike.run_evaluateWrites`). A write that is made for the first time is
recorded at the end of the list; one that was made before leaves the list as it is
(`Build.ok_of_run_write_any`). It is not true, then, that the write made last counts: a write that is
repeated after a different one to the same address stays behind it.
-/

set_option autoImplicit false

namespace DiffGraph

open List Stateful Option Build

variable {d draft : Draft} {id addr : NodeId} {arg operand : Operand}

namespace Build

/-- A value that is put under a name is found there, and other names keep their values. -/
theorem lookup_putResult (results : List (String × Value)) (name key : String) (v : Value) :
    (putResult results name v).lookup key =
      if key = name then some v else results.lookup key := by
  unfold putResult
  by_cases hkey : key = name
  · subst hkey
    rw [if_pos rfl]
    split
    next hany =>
      induction results with
      | nil => cases hany
      | cons e results ih =>
        obtain ⟨other, old⟩ := e
        by_cases ho : other = key
        · simp [ho]
        · have hne := beq_false_of_ne (Ne.symm ho)
          have hrs : (results.any fun e ↦ e.1 == key) = true := by
            simpa [ho] using hany
          simpa [lookup_cons, ho, hne] using ih hrs
    next hno =>
      have habsent : results.lookup key = none := by
        rw [lookup_eq_none_iff]
        intro e hen
        exact bne_iff_ne.mpr fun heq ↦ hno (any_eq_true.mpr ⟨e, hen, beq_iff_eq.mpr heq.symm⟩)
      simp [lookup_append, habsent]
  · rw [if_neg hkey]
    have hne := beq_false_of_ne hkey
    split
    next =>
      clear * - hne
      induction results with
      | nil => rfl
      | cons e results ih =>
        obtain ⟨other, old⟩ := e
        by_cases ho : other = name
        · simpa [lookup_cons, ho, hne] using ih
        · rw [map_cons, if_neg (by simpa using ho), lookup_cons, lookup_cons, ih]
    next => simp [lookup_append, lookup_cons, hne]

end Build

namespace Draft

/-- The text of the address that a node writes to, and the value it writes. -/
def stored? (d : Draft) (id : NodeId) : Option (String × NodeId) :=
  (d.graph.node? id).bind fun n ↦
    match n.kind with
    | .write addr v => some (d.graph.text addr, v)
    | _ => none

/-- What is written, in the order in which it was recorded. -/
def stores (d : Draft) : List (String × NodeId) := d.writes.filterMap d.stored?

/-- What a node is evaluated to. -/
def valueFor? (d : Draft) (env : List (String × Value)) (id : NodeId) : Option Value :=
  ((Build.evaluate env id).run d).1.toOption

section Record

variable {d' after : Draft}

theorem Reachable.of_run_write (h : d.Reachable)
    (hr : (Build.write addr arg).run d = (.ok id, after)) : after.Reachable := by
  have haf : d.after (.request (.write addr arg)) = after := by
    rw [after_request, perform_eq, Build.performWith, hr]
  exact haf ▸ h.operate _

end Record

section Evaluation

variable {base now d' after : Draft} {env : List (String × Value)} {bs bindings : Bindings}

/-- Writes are evaluated one after the other, and of those to one address the last counts. What is
evaluated does not depend on what was evaluated before. -/
theorem run_evaluateWrites_from (hun : base.operators.Uniform) (hd : d.Precedes base)
    (hal : base.Alike now) (hl : base.Precedes now)
    (hbind : SameBindings base base bs bs) {value? : NodeId → Option Value} {writes : List NodeId}
    (hws : ∀ id ∈ writes, ∃ n addr value result, d.graph.node? id = some n ∧
      n.kind = .write addr value ∧ value? value = some result ∧
      ((Build.constantUnder bs value).run base).1 = .ok result)
    (given : List (String × Value)) :
    ∃ results d', (writes.foldlM (Build.evaluateWrite bs) given).run now = (.ok results, d') ∧
      ∀ text, results.lookup text =
        match (writes.filterMap d.stored?).reverse.lookup text with
        | some value => value? value
        | none => given.lookup text := by
  induction writes generalizing now given with
  | nil => exact ⟨given, now, rfl, fun _ ↦ rfl⟩
  | cons id writes ih =>
    obtain ⟨⟨n, addr, value, result, hn, hk, hv, hres⟩, hos⟩ := forall_mem_cons.mp hws
    rcases hr : (Build.constantUnder bs value).run base with ⟨outcome, reached⟩
    rw [hr] at hres
    obtain rfl : outcome = .ok result := hres
    have hnow := (hd.trans hl).graph.node? hn
    have howd : ∀ operand ∈ [addr, value], d.graph.Owns operand := fun operand hop ↦
      Graph.owns_operand hn (Node.mem_operands hk hop)
    obtain ⟨haddr, hsrc⟩ : d.graph.Owns addr ∧ d.graph.Owns value := by
      simpa using howd
    obtain ⟨_, next, hc, -, hnx, -, rfl⟩ := constantUnder_same hun hal
      (hbind.later (.refl base) hl) (hl.same (hd.graph.owns hsrc)) hr
    have hstep : (Build.evaluateWrite bs given id).run now =
        (.ok (Build.putResult given (d.graph.text addr) result), next) := by
      rw [Build.evaluateWrite, run_bind_of_ok (run_node_of_some hnow), hk]
      dsimp only
      rw [run_bind_of_ok hc, run_get_bind, (((hd.trans hl).trans hnx).same haddr).text_eq]
      rfl
    have hs := (Build.enlarges (·.constantUnder bs value) now).sound hc hal.right
    obtain ⟨results, d', hfold, hresults⟩ := ih
      (hal.later (.refl base) hnx hal.left hs) (hl.trans hnx) hos
      (Build.putResult given (d.graph.text addr) result)
    refine ⟨results, d', ?_, fun text ↦ ?_⟩
    · rw [foldlM_cons, run_bind_of_ok hstep, hfold]
    · have hen : d.stored? id = some (d.graph.text addr, value) := by
        rw [stored?, hn, bind_some, hk]
      rw [hresults, filterMap_cons_some hen, reverse_cons, lookup_append, lookup_putResult]
      cases (writes.filterMap d.stored?).reverse.lookup text with
      | some m => rfl
      | none =>
        by_cases htx : text = d.graph.text addr
        · simp [htx, hv]
        · simp [htx, lookup_cons, beq_false_of_ne htx]

/-- A draft in which arguments were bound is like itself, with the bindings. -/
theorem Sound.alike_of_run_bind (hs : draft.Sound) (hfx : draft.types.Fixed)
    (hbind : (Build.bind env).run draft = (.ok bindings, base)) :
    base.Alike base ∧ SameBindings base base bindings bindings := by
  have hal : draft.Alike draft := ⟨hs, hs, rfl, rfl, hfx, rfl⟩
  have hargs : SameArguments draft draft := by
    intro name id hlk
    obtain ⟨n, dir, hn, -⟩ := hs.arguments (mem_of_lookup hlk)
    have how := Graph.owns_of_node? hn
    exact ⟨id, hlk, how, how, rfl⟩
  obtain ⟨bindings', base', hbind', -, -, hal', hbindings⟩ :=
    bind_same hal hargs sameBindings_empty hbind
  obtain ⟨hsame, rfl⟩ := Prod.mk.inj (hbind.symm.trans hbind')
  obtain rfl := Except.ok.inj hsame
  exact ⟨hal', hbindings⟩

/-- What a node is evaluated to is found under the bindings. -/
theorem valueFor?_of_run_bind (hbind : (Build.bind env).run d = (.ok bs, base))
    (id : NodeId) : d.valueFor? env id = ((Build.constantUnder bs id).run base).1.toOption := by
  rw [valueFor?, Build.evaluate, run_bind_of_ok hbind]

/-- Evaluation gives every address the value of the write to it that was recorded last, as soon as
all values that are written can be evaluated. -/
theorem Sound.run_evaluateWrites (hs : d.Sound) (hun : d.operators.Uniform) (hfx : d.types.Fixed)
    (hwritten : d.writes ≠ []) (hvs : ∀ e ∈ d.stores, ∃ v, d.valueFor? env e.2 = some v) :
    ∃ results d', (Build.evaluateWrites env).run d = (.ok results, d') ∧
      ∀ text, results.lookup text = (d.stores.reverse.lookup text).bind (d.valueFor? env) := by
  have hentries : ∀ id ∈ d.writes, ∃ n addr v result,
      d.graph.node? id = some n ∧ n.kind = .write addr v ∧ d.valueFor? env v = some result := by
    intro id hid
    obtain ⟨n, addr, v, hn, hk⟩ := hs.writes hid
    have hen : d.stored? id = some (d.graph.text addr, v) := by
      rw [stored?, hn, bind_some, hk]
    obtain ⟨result, hres⟩ := hvs _ (mem_filterMap.mpr ⟨id, hid, hen⟩)
    exact ⟨n, addr, v, result, hn, hk, hres⟩
  rcases hbind : (Build.bind env).run d with ⟨error | bindings, base⟩
  · obtain ⟨id, hid⟩ := exists_mem_of_ne_nil _ hwritten
    obtain ⟨-, -, v, result, -, -, hres⟩ := hentries id hid
    rw [valueFor?, Build.evaluate, run_bind_of_error hbind] at hres
    cases hres
  have hpr := (Build.enlarges (·.bind env) d).precedes hbind hs
  obtain ⟨hal', hbindings⟩ := hs.alike_of_run_bind hfx hbind
  have hws : ∀ id ∈ d.writes, ∃ n addr v result,
      d.graph.node? id = some n ∧ n.kind = .write addr v ∧ d.valueFor? env v = some result ∧
        ((Build.constantUnder bindings v).run base).1 = .ok result := by
    intro id hid
    obtain ⟨n, addr, v, result, hn, hk, hres⟩ := hentries id hid
    refine ⟨n, addr, v, result, hn, hk, hres, ?_⟩
    rw [valueFor?_of_run_bind hbind] at hres
    cases houtcome : ((Build.constantUnder bindings v).run base).1 with
    | error error =>
      rw [houtcome] at hres
      cases hres
    | ok m =>
      rw [houtcome] at hres
      exact congrArg Except.ok (some.inj hres)
  obtain ⟨results, d', hfold, hresults⟩ := run_evaluateWrites_from
    (hpr.operators ▸ hun) hpr hal' (.refl base) hbindings hws []
  refine ⟨results, d', ?_, fun text ↦ ?_⟩
  · rw [Build.run_evaluateWrites, Build.evaluateThese, run_bind_of_ok hbind, hfold]
  · rw [hresults text, stores]
    cases (d.writes.filterMap d.stored?).reverse.lookup text with
    | some | none => rfl

end Evaluation

/-- The last write to an address is found from behind. -/
theorem lookup_reverse_stores {earlier later : List NodeId} {value : NodeId} {n : Node}
    (hws : d.writes = earlier ++ id :: later) (hn : d.graph.node? id = some n)
    (hk : n.kind = .write addr value)
    (hla : ∀ other ∈ later, (d.stored? other).map Prod.fst ≠ some (d.graph.text addr)) :
    d.stores.reverse.lookup (d.graph.text addr) = some value := by
  have hen : d.stored? id = some (d.graph.text addr, value) := by
    rw [stored?, hn, bind_some, hk]
  have hno : (later.filterMap d.stored?).reverse.lookup (d.graph.text addr) = none := by
    rw [lookup_eq_none_iff]
    intro e hm
    obtain ⟨other, ho, hsd⟩ := mem_filterMap.mp (mem_reverse.mp hm)
    refine bne_iff_ne.mpr fun heq ↦ hla other ho ?_
    rw [hsd, map_some, heq]
  rw [stores, hws, filterMap_append, filterMap_cons_some hen, reverse_append,
    reverse_cons, append_assoc, lookup_append, hno]
  simp

/-- The write that is recorded last counts. A successful write is recorded at the end if it is made
for the first time, and otherwise not at all. Whatever operations follow, as soon as all values that
are written can be evaluated, evaluation gives every address the value of the last recorded write to
it; this is the value of the given write if it was made for the first time and no write to the same
address is recorded after it. -/
theorem Reachable.evaluateWrites_last_recorded {start after : Draft} (hstart : start.Reachable)
    (hdescribed : start.operators.Described) (hfixed : start.types.Fixed)
    (earlier later : List Operation) {address id : NodeId} {operand : Operand}
    (hcall : (Build.write address operand).run (start.afterAll earlier) = (.ok id, after))
    {environment : List (String × Value)}
    (hvalues : ∀ entry ∈ (after.afterAll later).stores, ∃ value,
      (after.afterAll later).valueFor? environment entry.2 = some value) :
    (after.writes = if id ∈ (start.afterAll earlier).writes then (start.afterAll earlier).writes
      else (start.afterAll earlier).writes ++ [id]) ∧
    after.writes <+: (after.afterAll later).writes ∧
    ∃ results reached,
      (Build.evaluateWrites environment).run (after.afterAll later) = (.ok results, reached) ∧
      (∀ text, results.lookup text = ((after.afterAll later).stores.reverse.lookup text).bind
        ((after.afterAll later).valueFor? environment)) ∧
      (id ∉ (start.afterAll earlier).writes →
        (∀ other ∈ (after.afterAll later).writes.drop after.writes.length,
          ((after.afterAll later).stored? other).map Prod.fst ≠
            some ((after.afterAll later).graph.text address)) →
        ∃ node value, (after.afterAll later).graph.node? id = some node ∧
          node.kind = .write address value ∧
          results.lookup ((after.afterAll later).graph.text address) =
            (after.afterAll later).valueFor? environment value) := by
  have hbefore := hstart.afterAll earlier
  obtain ⟨-, node, value, -, -, hnode, hkind, hwrites, -⟩ :=
    Build.ok_of_run_write_any hbefore.sound hcall
  have hafter := hbefore.of_run_write hcall
  have hlater := hafter.precedes_afterAll later
  have hprecedes : start.Precedes (after.afterAll later) :=
    ((hstart.precedes_afterAll earlier).trans
      ((Build.write_leads _ _ _).precedes hcall hbefore.sound)).trans hlater
  have hlisted : id ∈ after.writes := by
    rw [hwrites]
    split
    next hlisted => exact hlisted
    next => exact List.mem_append_right _ (List.mem_singleton_self id)
  obtain ⟨results, reached, hresults, hlookup⟩ := (hafter.afterAll later).sound.run_evaluateWrites
    (hprecedes.operators ▸ hdescribed.uniform) (hfixed.extends_eq hprecedes.types ▸ hfixed)
    (List.ne_nil_of_mem (hlater.writes.subset hlisted)) hvalues
  refine ⟨hwrites, hlater.writes, results, reached, hresults, hlookup, fun hnew hlast ↦ ?_⟩
  have hfinal := hlater.graph.node? hnode
  refine ⟨node, value, hfinal, hkind, ?_⟩
  obtain ⟨rest, hrest⟩ := hlater.writes
  rw [← hrest, List.drop_left] at hlast
  rw [hwrites, if_neg hnew, List.append_assoc] at hrest
  rw [hlookup, lookup_reverse_stores hrest.symm hfinal hkind hlast, Option.bind_some]

/-- A function with one and two for its constants. -/
def constants : Draft :=
  ((Build.intern "double" (.constant (.float .two)) false).run
    ((Build.intern "double" (.constant (.float .one)) false).run
      (blank.requested [.declare "y" "double" .output])).2).2

/-- The function after one is written, and after two is written as well. -/
def oneThenTwo (writes : Nat) : Draft :=
  constants.requested
    ([.write ⟨0, 0⟩ (.node ⟨0, 1⟩), .write ⟨0, 0⟩ (.node ⟨0, 2⟩)].take writes)

theorem reachable_oneThenTwo (writes : Nat) : (oneThenTwo writes).Reachable :=
  .afterAll (((reachable_requested _).of_constant ⟨"double", .scalar .double⟩ (by cbv)
    rfl).of_constant ⟨"double", .scalar .double⟩ (by cbv) rfl) _

theorem run_write_oneThenTwo :
    (Build.write ⟨0, 0⟩ (.node ⟨0, 2⟩)).run (oneThenTwo 1) = (.ok ⟨0, 4⟩, oneThenTwo 2) := by cbv

theorem oneThenTwo_one : ((oneThenTwo 1).operators, (oneThenTwo 1).types, (oneThenTwo 1).writes) =
    (.standard, .scalars, [⟨0, 3⟩]) := by cbv

theorem oneThenTwo_two : ((oneThenTwo 2).stores, (oneThenTwo 2).valueFor? [] ⟨0, 1⟩,
      (oneThenTwo 2).valueFor? [] ⟨0, 2⟩, ((oneThenTwo 2).graph.node? ⟨0, 4⟩).map Node.kind) =
    ([("y", ⟨0, 1⟩), ("y", ⟨0, 2⟩)], some (.float .one), some (.float .two),
      some (.write ⟨0, 0⟩ ⟨0, 2⟩)) := by cbv

/-- Two is written after one, for the first time. -/
theorem evaluateWrites_last_recorded_oneThenTwo : ∃ (draft after reached : Draft)
    (results : List (String × Value)), draft.Reachable ∧
      (Build.write ⟨0, 0⟩ (.node ⟨0, 2⟩)).run draft = (.ok ⟨0, 4⟩, after) ∧
      (Build.evaluateWrites []).run after = (.ok results, reached) ∧
      results.lookup (after.graph.text ⟨0, 0⟩) = some (.float .two) := by
  have hone := oneThenTwo_one
  have htwo := oneThenTwo_two
  simp only [Prod.mk.injEq] at hone htwo
  obtain ⟨hoperators, htypes, hwrites⟩ := hone
  obtain ⟨hstores, hother, hvalue, hwritten⟩ := htwo
  have hvalues : ∀ entry ∈ (oneThenTwo 2).stores, ∃ value,
      (oneThenTwo 2).valueFor? [] entry.2 = some value := by simp [hstores, hvalue, hother]
  obtain ⟨-, -, results, reached, hresults, -, hlast⟩ :=
    (reachable_oneThenTwo 1).evaluateWrites_last_recorded
      (hoperators ▸ Registry.described_standard) (htypes ▸ TypeTable.Concrete.scalars.fixed) [] []
      run_write_oneThenTwo hvalues
  have hdrop : (oneThenTwo 2).writes.drop (oneThenTwo 2).writes.length = [] := List.drop_length
  obtain ⟨node, value, hnode, hkind, hlookup⟩ := hlast (by simp [afterAll, hwrites])
    fun other hmember ↦ absurd (hdrop ▸ hmember) List.not_mem_nil
  obtain ⟨-, rfl⟩ := NodeKind.write.inj
    (hkind.symm.trans (Option.some.inj ((congrArg _ hnode).symm.trans hwritten)))
  exact ⟨oneThenTwo 1, oneThenTwo 2, reached, results, reachable_oneThenTwo 1,
    run_write_oneThenTwo, hresults, hlookup.trans hvalue⟩

theorem evaluateWrites_oneThenTwo : ((Build.write ⟨0, 0⟩ (.node ⟨0, 1⟩)).run (oneThenTwo 2),
      ((Build.evaluateWrites []).run (oneThenTwo 2)).1,
      [("y", Value.float .two)].lookup ((oneThenTwo 2).graph.text ⟨0, 0⟩)) =
    ((.ok ⟨0, 3⟩, oneThenTwo 2), .ok [("y", .float .two)], some (.float .two)) := by cbv

/-- One is written once more, and two still counts. -/
theorem evaluateWrites_repeated_one : ∃ (draft after reached : Draft)
    (results : List (String × Value)), draft.Reachable ∧
      (Build.write ⟨0, 0⟩ (.node ⟨0, 1⟩)).run draft = (.ok ⟨0, 3⟩, after) ∧
      after.valueFor? [] ⟨0, 1⟩ = some (.float .one) ∧
      (Build.evaluateWrites []).run after = (.ok results, reached) ∧
      results.lookup (after.graph.text ⟨0, 0⟩) = some (.float .two) := by
  have hone := oneThenTwo_two
  have hresults := evaluateWrites_oneThenTwo
  simp only [Prod.mk.injEq] at hone hresults
  exact ⟨oneThenTwo 2, oneThenTwo 2, _, _, reachable_oneThenTwo 2, hresults.1, hone.2.1,
    Prod.ext hresults.2.1 rfl, hresults.2.2⟩

end Draft

end DiffGraph
