import DiffGraph.Proofs.Draft.Results
import DiffGraph.Proofs.Draft.Substitution

/-!
Nodes of other drafts. Operations are given nodes as operands, addresses, values, variables and
bindings, and any of them may belong to another draft. Operations look at what they are given before
they do anything else, and report such a node (`Draft.Reports`). The values of bindings are an
exception: a substitution looks at them when it makes a part of the expression anew that needs them
(`Draft.needed`), and a read that is bound itself takes its value as it is (`Draft.Takes`).
-/

set_option autoImplicit false

namespace DiffGraph

open List Stateful Draft Build Option Std.HashMap Node

variable {v value addr address part res result id step other : NodeId} {d draft d' now : Draft}
  {path args operands : List NodeId} {op : Operator} {n node : Node} {α : Type} {bs k : Bindings}

/-- The nodes that a request looks at first. -/
def Request.given : Request → List NodeId
  | .apply _ args => args.filterMap Operand.node?
  | .member base _ | .index base _ => [base]
  | .construct _ arguments => arguments
  | .read addr | .write addr _ | .writeNext addr _ => [addr]
  | .constant .. | .one .. | .declare .. => []

namespace Draft

/-- If the draft did not issue one of the nodes, the operation reports such a node and has changed
nothing. -/
def Reports {α : Type} (d : Draft) (x : Build α) (ids : List NodeId) : Prop :=
  (∃ id ∈ ids, ¬d.graph.Owns id) →
    ∃ id ∈ ids, ¬d.graph.Owns id ∧
      x.run d = (.error (.foreignNode id.index), d)

section Reports

variable {β : Type} {x : Build α} {next : α → Build β} {ids others : List NodeId}

/-- What the first part of a sequence reports is reported by the sequence. -/
theorem Reports.bind (h : d.Reports x ids) : d.Reports (x >>= next) ids := by
  intro hfor
  obtain ⟨id, hid, how, hr⟩ := h hfor
  exact ⟨id, hid, how, run_bind_of_error hr⟩

/-- A first part that changes nothing may be left out. -/
theorem Reports.after_ok {a : α} (hr : x.run d = (.ok a, d))
    (h : d.Reports (next a) ids) : d.Reports (x >>= next) ids := by
  intro hfor
  obtain ⟨id, hid, how, hnx⟩ := h hfor
  exact ⟨id, hid, how, (run_bind_of_ok hr).trans hnx⟩

/-- The second part may report what the first part did not look at. -/
theorem Reports.bind_append (h : d.Reports x ids)
    (hnx : (∀ id ∈ ids, d.graph.Owns id) → d.Reports (x >>= next) others) :
    d.Reports (x >>= next) (ids ++ others) := by
  rintro ⟨id, hid, how⟩
  by_cases hall : ∀ id ∈ ids, d.graph.Owns id
  · have hid := (mem_append.mp hid).resolve_left fun hold ↦ how (hall id hold)
    obtain ⟨other, ho, hrs⟩ := hnx hall ⟨id, hid, how⟩
    exact ⟨other, mem_append_right _ ho, hrs⟩
  · push Not at hall
    obtain ⟨other, ho, hrs⟩ := h.bind hall
    exact ⟨other, mem_append_left _ ho, hrs⟩

/-- An operation that succeeds was given nodes of the draft. -/
theorem Reports.owns_of_ok (h : d.Reports x ids) {a : α}
    (hr : x.run d = (.ok a, d')) : ∀ id ∈ ids, d.graph.Owns id := by
  intro id hid
  by_contra how
  obtain ⟨_, -, -, he⟩ := h ⟨id, hid, how⟩
  cases hr.symm.trans he

end Reports

end Draft

namespace Build

theorem checkOwned_reports (id : NodeId) : d.Reports (checkOwned id) [id] := by
  rintro ⟨other, ho, how⟩
  obtain rfl := mem_singleton.mp ho
  refine ⟨other, ho, how, ?_⟩
  rw [checkOwned, run_query, if_neg how]

/-- Checks come first, one after another. -/
theorem checkOwned_bind_reports {ids : List NodeId} {next : Unit → Build α}
    (h : d.graph.Owns id → d.Reports (next ⟨⟩) ids) :
    d.Reports (checkOwned id >>= next) (id :: ids) :=
  (checkOwned_reports id).bind_append fun how ↦
    have how := how id mem_cons_self
    .after_ok (run_checkOwned_of_owns how) (h how)

theorem reports_nil (x : Build α) : d.Reports x [] := by
  rintro ⟨_, hno, -⟩
  exact absurd hno not_mem_nil

theorem forM_checkOwned_reports (ids : List NodeId) : d.Reports (ids.forM checkOwned) ids := by
  induction ids with
  | nil => exact reports_nil _
  | cons id ids ih => exact checkOwned_bind_reports fun _ ↦ ih

theorem floatTypeAmong_reports (args : List Operand) :
    d.Reports (floatTypeAmong args) (args.filterMap Operand.node?) := by
  induction args with
  | nil => exact reports_nil _
  | cons arg rest ih =>
    cases arg with
    | node id =>
      refine checkOwned_bind_reports fun how ↦ ?_
      obtain ⟨node, hn⟩ := Graph.owns_iff_node?.mp how
      exact .after_ok (run_typeOf_of_some hn) (.after_ok (run_get d) ih.bind)
    | float | int => exact ih

/-- A request looks at its nodes first, however it goes on. -/
theorem performWith_reports (finish : Operator → String → List NodeId → Bool → Build NodeId)
    (w : Request) : d.Reports (performWith finish w) w.given := by
  cases w with
  | apply op args => exact ((floatTypeAmong_reports args).bind).bind
  | member base | index base => exact (checkOwned_reports base).bind
  | construct t arguments => exact (forM_checkOwned_reports arguments).bind
  | read addr => exact (checkOwned_reports addr).bind
  | constant | one | declare => exact reports_nil _
  | write addr v => exact (checkOwned_reports addr).bind
  | writeNext addr v =>
    exact .after_ok (run_get d) (checkOwned_reports addr).bind.bind

theorem perform_reports (rest : Nat) (w : Request) : d.Reports (perform rest w) w.given := by
  rw [perform_eq]
  exact performWith_reports _ w

theorem request_reports (w : Request) : d.Reports (request w) w.given :=
  .after_ok (run_get d) (perform_reports _ w)

theorem differentiate_reports (addr id : NodeId) : d.Reports (differentiate addr id) [addr, id] :=
  checkOwned_bind_reports fun _ ↦ (checkOwned_reports id).bind

theorem substitute_reports (bs : Bindings) (id : NodeId) : d.Reports (substitute bs id) [id] :=
  (checkOwned_reports id).bind

end Build

/-- The node is an address that is not part of an input. -/
def Draft.AcceptsWrites (d : Draft) (addr : NodeId) : Prop :=
  ∃ tgt, d.graph.node? addr = some tgt ∧ tgt.isAddress = true ∧
    ∀ name, ((d.graph.root? addr).bind d.graph.node?).bind Node.argument? ≠
      some (name, .input)

namespace Build

/-- A value is looked at when the address turns out to be one that can be written to. -/
theorem write_reports_value (h : d.AcceptsWrites addr) : d.Reports (write addr (.node v)) [v] := by
  obtain ⟨tgt, htg, haddr, hrt⟩ := h
  have hv : d.Reports (writtenValue tgt.type (.node v)) [v] := (checkOwned_reports v).bind
  intro hfor
  obtain ⟨id, hid, how, hr⟩ := hv hfor
  refine ⟨id, hid, how, ?_⟩
  rw [run_write_of_writable htg haddr hrt]
  exact run_bind_of_error hr

/-- A value that the draft did not issue is not written, wherever it should go. -/
theorem write_fails_of_foreign (h : ¬d.graph.Owns v) :
    ∃ error, (write addr (.node v)).run d = (.error error, d) := by
  by_cases how : d.graph.Owns addr
  · obtain ⟨tgt, htg⟩ := Graph.owns_iff_node?.mp how
    by_cases haddr : tgt.isAddress = true
    · by_cases hrt : ∀ name, ((d.graph.root? addr).bind d.graph.node?).bind
          Node.argument? ≠ some (name, .input)
      · obtain ⟨id, -, -, hr⟩ := write_reports_value ⟨tgt, htg, haddr, hrt⟩ ⟨v, mem_cons_self, h⟩
        exact ⟨_, hr⟩
      · push Not at hrt
        obtain ⟨name, hinput⟩ := hrt
        refine ⟨.writeToInput name, ?_⟩
        rw [write, run_bind_of_ok (run_checkOwned_of_owns how),
          run_bind_of_ok (run_node_of_some htg), haddr]
        dsimp only
        rw [if_neg (show ¬(!true) = true from Bool.false_ne_true), run_get_bind, hinput]
        rfl
    · refine ⟨.notAddress "write" (d.describe addr), ?_⟩
      rw [write, run_bind_of_ok (run_checkOwned_of_owns how),
        run_bind_of_ok (run_node_of_some htg), Bool.eq_false_iff.mpr haddr]
      rfl
  · have hreports : d.Reports (write addr (.node v)) [addr] := (checkOwned_reports addr).bind
    obtain ⟨id, -, -, hr⟩ := hreports ⟨addr, mem_cons_self, how⟩
    exact ⟨_, hr⟩

/-- The element that should be written to is formed before the value is looked at. It stays. -/
theorem writeNext_reports_value {element : NodeId} {middle : Draft}
    (hix : (request (.index addr (d.elementsWritten.getD addr 0))).run d = (.ok element, middle))
    (h : middle.AcceptsWrites element) (hfor : ¬middle.graph.Owns v) :
    (request (.writeNext addr (.node v))).run d = (.error (.foreignNode v.index), middle) := by
  obtain ⟨id, hid, -, hr⟩ := write_reports_value h ⟨v, mem_cons_self, hfor⟩
  obtain rfl := mem_singleton.mp hid
  rw [request, run_get_bind, perform_eq] at hix ⊢
  show (writeNextWith _ addr (.node id)).run d = _
  rw [writeNextWith, run_get_bind]
  exact (run_bind_of_ok hix).trans (run_bind_of_error hr)

section Substitution

/-- Rebuilding looks at the operands it is given. -/
theorem rebuild_reports (t : String) (hsl : op.isProjection = true → ∃ base, operands = [base]) :
    d.Reports (rebuild op t operands) operands := by
  cases op with
  | registered name pos =>
    have hgiven : (operands.map Operand.node).filterMap Operand.node? = operands := by
      rw [filterMap_map]
      exact filterMap_some
    have hreports : d.Reports (rebuild (.registered name pos) t operands)
        ((operands.map Operand.node).filterMap Operand.node?) :=
      request_reports (.apply name (operands.map .node))
    rwa [hgiven] at hreports
  | member field =>
    obtain ⟨base, rfl⟩ := hsl rfl
    exact request_reports (.member base field)
  | index pos =>
    obtain ⟨base, rfl⟩ := hsl rfl
    exact request_reports (.index base pos)
  | construct => exact request_reports (.construct t operands)

/-- The first step of a descent looks at the value. -/
theorem descend_reports (path : List NodeId) (hn : d.graph.node? part = some n)
    (hk : n.kind = .expression op args) :
    d.Reports (descend v (part :: path)) [v] := by
  refine Reports.bind (.after_ok (run_node_of_some hn) ?_)
  rw [hk]
  exact .after_ok (run_typeOf_of_some hn) (rebuild_reports _ fun _ ↦ ⟨v, rfl⟩)

/-- A descent from a node of the draft ends at one. -/
theorem owns_of_run_descend (hor : d.Orderly) (how : d.graph.Owns v)
    (h : (descend v path).run d = (.ok id, d')) : d'.graph.Owns id := by
  induction path generalizing d v with
  | nil =>
    obtain ⟨rfl, rfl⟩ := ok_of_run_pure h
    exact how
  | cons part path ih =>
    obtain ⟨next, s, hstep, hrs⟩ := ok_of_run_foldlM_cons h
    obtain ⟨n, s', hf, hks⟩ := ok_of_run_bind hstep
    obtain ⟨-, rfl⟩ := ok_of_run_node hf
    split at hks
    · obtain ⟨t, s'', ht, hrebuild⟩ := ok_of_run_bind hks
      obtain ⟨-, rfl⟩ := ok_of_run_typeOf ht
      exact ih (hor.run (rebuild_grants _ _ _ _).1.leads hrebuild)
        ((rebuild_grants _ _ _ _).owns hor hrebuild) hrs
    · obtain ⟨rfl, rfl⟩ := ok_of_run_pure hks
      exact ih hor how hrs

end Substitution

end Build

namespace Draft

/-- The value that an address takes from bindings, which is that of the nearest bound address around
it, and the parts that lead from there to the address. -/
def binding? (d : Draft) (bs : Bindings) (addr : NodeId) :
    Option (NodeId × List NodeId) :=
  let lineage := d.graph.lineage addr
  (lineage.findIdx? fun part ↦ bs.contains part).bind fun depth ↦
    (lineage[depth]?.bind fun part ↦ bs[part]?).map fun v ↦
      (v, (lineage.take depth).reverse)

/-- The nodes that are looked at when a part of an expression is made anew. -/
def needed (d : Draft) (bs k : Bindings) (part : NodeId) : List NodeId :=
  match d.graph.node? part with
  | none => []
  | some n =>
    match n.kind with
    | .read addr =>
      match d.binding? bs addr with
      | none | some (_, []) => []
      | some (v, _ :: _) => [v]
    | .expression _ args =>
      if n.isAddress then [] else args.map fun arg ↦ k.getD arg arg
    | _ => []

/-- The part is a read that takes the value of a binding as it is. -/
def Takes (d : Draft) (bs : Bindings) (part v : NodeId) : Prop :=
  ∃ n addr, d.graph.node? part = some n ∧ n.kind = .read addr ∧
    d.binding? bs addr = some (v, [])

section Bindings

theorem Precedes.binding?_eq (h : d.Precedes now) (how : d.graph.Owns address) :
    now.binding? bs address = d.binding? bs address := by
  rw [binding?, Graph.lineage_extends h.graph how, binding?]

theorem Precedes.needed_eq (h : d.Precedes now) (how : d.graph.Owns part) :
    now.needed bs k part = d.needed bs k part := by
  obtain ⟨n, hn⟩ := Graph.owns_iff_node?.mp how
  unfold needed
  rw [hn, h.graph.node? hn]
  dsimp only
  split
  next address hk =>
    have howd : d.graph.Owns address := Graph.owns_operand hn (mem_operands hk mem_cons_self)
    rw [h.binding?_eq howd]
  next => rfl
  next => rfl

theorem needed_of_computed (hn : d.graph.node? part = some n)
    (hk : n.kind = .expression op args) (hv : n.isAddress = false) :
    d.needed bs k part = args.map fun operand ↦ k.getD operand operand := by
  unfold needed
  rw [hn]
  dsimp only
  rw [hk, hv]
  rfl

theorem needed_of_binding (hn : d.graph.node? part = some n) (hk : n.kind = .read addr)
    (hbinding : d.binding? bs addr = some (v, step :: path)) :
    d.needed bs k part = [v] := by
  unfold needed
  rw [hn]
  dsimp only
  rw [hk]
  dsimp only
  rw [hbinding]

/-- A node is needed by a read of a part of what it is bound to, or by an expression that has it for
an operand now. -/
theorem exists_of_mem_needed (h : v ∈ d.needed bs k part) : ∃ n, d.graph.node? part = some n ∧
      ((∃ addr step path, n.kind = .read addr ∧ d.binding? bs addr = some (v, step :: path)) ∨
        ∃ op args, n.kind = .expression op args ∧ n.isAddress = false) := by
  unfold needed at h
  split at h
  next => exact absurd h not_mem_nil
  next n hn =>
    refine ⟨n, hn, ?_⟩
    split at h
    next addr hk =>
      split at h
      next => exact absurd h not_mem_nil
      next => exact absurd h not_mem_nil
      next found step path hbinding =>
        obtain rfl := mem_singleton.mp h
        exact .inl ⟨addr, step, path, hk, hbinding⟩
    next op args hk =>
      refine .inr ⟨op, args, hk, ?_⟩
      by_contra haddr
      rw [if_pos (Bool.not_eq_false _ ▸ haddr)] at h
      exact absurd h not_mem_nil
    next => exact absurd h not_mem_nil

/-- The parts on the way from a bound address are expressions. -/
theorem expression_of_binding (how : d.graph.Owns addr)
    (h : d.binding? bs addr = some (v, step :: path)) :
    ∃ n op operands, d.graph.node? step = some n ∧ n.kind = .expression op operands := by
  obtain ⟨depth, hdp, hf⟩ := bind_eq_some_iff.mp h
  obtain ⟨other, hv, hpair⟩ := map_eq_some_iff.mp hf
  obtain ⟨-, hpath⟩ := Prod.mk.inj hpair
  obtain ⟨bound, hbd, -⟩ := bind_eq_some_iff.mp hv
  obtain ⟨hlt, -⟩ := List.getElem?_eq_some_iff.mp hbd
  have hstep : step ∈ (d.graph.lineage addr).take depth := by
    rw [← mem_reverse, hpath]
    exact mem_cons_self
  have hla : step ∈ (d.graph.lineage addr).dropLast := by
    rw [dropLast_eq_take]
    exact take_subset_take_left _ (by omega) hstep
  obtain ⟨n, hn, hba⟩ := Graph.base?_of_mem_dropLast how hla
  cases hk : n.kind with
  | expression op operands => exact ⟨n, op, operands, hn, hk⟩
  | constant | argument | read | write => rw [hk] at hba; cases hba

end Bindings

end Draft

namespace Build

theorem run_boundValue?_of_some (h : draft.binding? bs addr = some (v, path)) :
    (boundValue? bs addr).run draft = (do
      return some (← descend v path) : Build (Option NodeId)).run draft := by
  obtain ⟨depth, hdp, hf⟩ := bind_eq_some_iff.mp h
  obtain ⟨other, hv, hpair⟩ := map_eq_some_iff.mp hf
  obtain ⟨rfl, rfl⟩ := Prod.mk.inj hpair
  rw [boundValue?, run_get_bind]
  dsimp only
  rw [hdp]
  dsimp only
  rw [hv]

theorem run_boundValue?_of_none (h : d.binding? bs addr = none) :
    (boundValue? bs addr).run d = (.ok none, d) := by
  rw [boundValue?, run_get_bind]
  dsimp only
  cases hdp : (d.graph.lineage addr).findIdx? fun part ↦ bs.contains part with
  | none => rfl
  | some depth =>
    dsimp only
    unfold binding? at h
    dsimp only at h
    rw [hdp, bind_some, map_eq_none_iff] at h
    rw [h]
    rfl

/-- Of a value that is bound further out only a part is taken. -/
theorem boundValue?_reports (how : d.graph.Owns addr)
    (h : d.binding? bs addr = some (v, step :: path)) :
    d.Reports (boundValue? bs addr) [v] := by
  obtain ⟨n, op, args, hn, hk⟩ := expression_of_binding how h
  have hdescend : d.Reports (descend v (step :: path)) [v] := descend_reports path hn hk
  intro hfor
  obtain ⟨id, hid, hidOwns, hr⟩ := hdescend.bind hfor
  exact ⟨id, hid, hidOwns, (run_boundValue?_of_some h).trans hr⟩

/-- A part that needs a node of another draft is not made. -/
theorem substituteNode_reports (hs : d.Sound) :
    d.Reports (substituteNode bs k part) (d.needed bs k part) := by
  rintro ⟨v, hv, hfor⟩
  obtain ⟨n, hn, hrd | hcomp⟩ := exists_of_mem_needed hv
  · obtain ⟨address, step, path, hk, hbinding⟩ := hrd
    have how : d.graph.Owns address := Graph.owns_operand hn (mem_operands hk mem_cons_self)
    rw [needed_of_binding hn hk hbinding]
    refine Reports.after_ok (run_node_of_some hn) ?_ ⟨v, mem_cons_self, hfor⟩
    rw [hk]
    exact (boundValue?_reports how hbinding).bind
  · obtain ⟨op, args, hk, haddr⟩ := hcomp
    rw [needed_of_computed hn hk haddr] at hv ⊢
    refine Reports.after_ok (run_node_of_some hn) ?_ ⟨v, hv, hfor⟩
    rw [hk]
    dsimp only
    rw [haddr, if_neg Bool.false_ne_true, if_neg]
    · refine rebuild_reports _ fun hsl ↦ ?_
      obtain ⟨base, rfl⟩ := hs.exists_base hn hk hsl
      exact ⟨_, rfl⟩
    · intro hsame
      rw [hsame] at hv
      refine hfor (Graph.owns_operand hn ?_)
      rwa [Node.operands, hk]

/-- A part becomes a node of the draft, or the value of a binding that it takes as it is. -/
theorem owns_of_run_substituteNode (hor : d.Orderly)
    (h : (substituteNode bs k part).run d = (.ok result, d')) :
    d'.graph.Owns result ∨ d.Takes bs part result := by
  have hneeded := (substituteNode_reports hor.sound).owns_of_ok h
  obtain ⟨n, s, hf, hrs⟩ := ok_of_run_bind h
  obtain ⟨hn, rfl⟩ := ok_of_run_node hf
  have how := Graph.owns_of_node? hn
  cases hk : n.kind with
  | constant | argument =>
    rw [hk] at hrs
    obtain ⟨rfl, rfl⟩ := ok_of_run_pure hrs
    exact .inl how
  | write addr v =>
    rw [hk] at hrs
    obtain ⟨text, s', -, hthrow⟩ := ok_of_run_bind hrs
    cases hthrow
  | read addr =>
    rw [hk] at hrs
    obtain ⟨m, s', hbd, hret⟩ := ok_of_run_bind hrs
    obtain ⟨rfl, rfl⟩ := ok_of_run_pure hret
    cases hbinding : s.binding? bs addr with
    | none =>
      obtain ⟨hno, rfl⟩ := Prod.mk.inj (hbd.symm.trans (run_boundValue?_of_none hbinding))
      obtain rfl := Except.ok.inj hno
      exact .inl how
    | some taken =>
      obtain ⟨v, path⟩ := taken
      rw [run_boundValue?_of_some hbinding] at hbd
      obtain ⟨id, s'', hdescend, hsome⟩ := ok_of_run_bind hbd
      obtain ⟨rfl, rfl⟩ := ok_of_run_pure hsome
      cases path with
      | nil =>
        obtain ⟨rfl, rfl⟩ := ok_of_run_pure hdescend
        exact .inr ⟨n, addr, hn, hk, hbinding⟩
      | cons step path =>
        rw [needed_of_binding hn hk hbinding] at hneeded
        exact .inl (owns_of_run_descend hor (hneeded v mem_cons_self) hdescend)
  | expression op args =>
    rw [hk] at hrs
    dsimp only at hrs
    split at hrs
    · obtain ⟨rfl, rfl⟩ := ok_of_run_pure hrs
      exact .inl how
    · split at hrs
      · obtain ⟨rfl, rfl⟩ := ok_of_run_pure hrs
        exact .inl how
      · exact .inl ((rebuild_grants _ _ _ _).owns hor hrs)

/-- A part that takes the value of a binding as it is becomes that value. -/
theorem run_substituteNode_of_takes (h : d.Takes bs part v) :
    (substituteNode bs k part).run d = (.ok v, d) := by
  obtain ⟨n, addr, hn, hk, hbinding⟩ := h
  have hbd : (boundValue? bs addr).run d = (.ok (some v), d) := by
    rw [run_boundValue?_of_some hbinding]
    rfl
  exact run_substituteNode_read hn hk hbd

end Build

namespace Draft

variable {start : Draft} {results : Bindings} {root : NodeId}

theorem Takes.later (hl : start.Precedes now) (h : start.Takes bs part value) :
    now.Takes bs part value := by
  obtain ⟨n, addr, hn, hk, hbinding⟩ := h
  refine ⟨n, addr, hl.graph.node? hn, hk, ?_⟩
  rwa [hl.binding?_eq (Graph.owns_operand hn (mem_operands hk mem_cons_self))]

theorem Takes.earlier (hl : start.Precedes now) (how : start.graph.Owns part)
    (h : now.Takes bs part value) : start.Takes bs part value := by
  obtain ⟨n, addr, hn, hk, hbinding⟩ := h
  obtain ⟨m, hf⟩ := Graph.owns_iff_node?.mp how
  obtain rfl := some.inj ((hl.graph.node? hf).symm.trans hn)
  refine ⟨m, addr, hf, hk, ?_⟩
  rwa [← hl.binding?_eq (Graph.owns_operand hf (mem_operands hk mem_cons_self))]

/-- A part has been made anew. What it needed were nodes of the draft, and so is what it has become,
unless it took the value of a binding as it is. -/
structure Substituted (start : Draft) (bs : Bindings) (now : Draft) (k : Bindings)
    (part : NodeId) : Prop where
  result : ∃ id, k[part]? = some id ∧ (now.graph.Owns id ∨ start.Takes bs part id)
  taken : ∀ v, start.Takes bs part v → k[part]? = some v
  needed : ∀ v ∈ start.needed bs k part, now.graph.Owns v

/-- Only what has become of the operands matters to an expression. -/
theorem needed_insert (hle : other.index ≤ part.index) :
    start.needed bs (k.insert part res) other = start.needed bs k other := by
  unfold needed
  split
  next => rfl
  next n hn =>
    split
    next => rfl
    next op args hk =>
      split
      next => rfl
      next =>
        refine map_congr_left fun arg hop ↦ ?_
        have hlt : arg.index < other.index := Graph.operand_index_lt hn (by rwa [Node.operands, hk])
        rw [getD_eq_getD_getElem?, getD_eq_getD_getElem?,
          getElem?_insert_of_lt (Nat.lt_of_lt_of_le hlt hle)]
    next => rfl

theorem Substituted.insert (h : start.Substituted bs now k other)
    (hl : now.Precedes d') (hlt : other.index < part.index) :
    start.Substituted bs d' (k.insert part res) other := by
  have hkept : (k.insert part res)[other]? = k[other]? := getElem?_insert_of_lt hlt
  refine ⟨?_, fun v htk ↦ hkept.trans (h.taken v htk), fun v hv ↦ ?_⟩
  · obtain ⟨id, hid, hres⟩ := h.result
    exact ⟨id, hkept.trans hid, hres.imp_left hl.graph.owns⟩
  · rw [needed_insert (Nat.le_of_lt hlt)] at hv
    exact hl.graph.owns (h.needed v hv)

/-- One more part is made. -/
theorem substituted_of_run (hor : now.Orderly) (hpr : start.Precedes now)
    (how : start.graph.Owns part) (h : (Build.substituteNode bs k part).run now = (.ok res, d')) :
    start.Substituted bs d' (k.insert part res) part := by
  have hl := (enlarges (·.substituteNode bs k part) now).precedes h hor.sound
  refine ⟨⟨res, getElem?_insert_self, ?_⟩, fun v htk ↦ ?_, fun v hv ↦ ?_⟩
  · exact (Build.owns_of_run_substituteNode hor h).imp_right (Takes.earlier hpr how)
  · have htaken : (Build.substituteNode bs k part).run now = (.ok v, now) :=
      run_substituteNode_of_takes (htk.later hpr)
    obtain ⟨hres, -⟩ := Prod.mk.inj (h.symm.trans htaken)
    rw [Except.ok.inj hres]
    exact getElem?_insert_self
  · rw [needed_insert (Nat.le_refl _), ← hpr.needed_eq how] at hv
    exact hl.graph.owns ((substituteNode_reports hor.sound).owns_of_ok h v hv)

/-- All parts are made, each after its operands. -/
theorem Substituted.run (hor : start.Orderly) (how : start.graph.Owns root)
    (h : (Build.substituteParts bs (start.graph.closure Node.isComputed root) ∅).run start =
      (.ok results, d')) :
    ∀ part ∈ start.graph.closure Node.isComputed root, start.Substituted bs d' results part := by
  refine (ok_of_run_substituteParts (motive := fun now done k ↦ now.Orderly ∧
    start.Precedes now ∧ ∀ part ∈ done, start.Substituted bs now k part) how
    hor.sound ⟨hor, .refl start, forall_mem_nil _⟩ ?_ (nil_append _).symm h).2.2
  rintro now done part rest k res d' hord hbl ⟨hor, hpr, hdone⟩ hres hl -
  have hp : start.graph.Owns part := Graph.owns_of_mem_closure how
    (hord ▸ mem_append_right done mem_cons_self)
  refine ⟨hor.run (enlarges (·.substituteNode bs k part) now).leads hres,
    hpr.trans hl, fun other ho ↦ ?_⟩
  rcases mem_append.mp ho with hold | hnew
  · exact (hdone other hold).insert hl (hbl other hold)
  · obtain rfl := mem_singleton.mp hnew
    exact substituted_of_run hor hpr hp hres

/-- A part other than the whole is an operand of a part that is computed. -/
theorem exists_user_of_mem_closure (how : start.graph.Owns root)
    (hp : part ∈ start.graph.closure Node.isComputed root) (hne : part ≠ root) :
    ∃ user ∈ start.graph.closure Node.isComputed root, ∃ n op operands,
      start.graph.node? user = some n ∧ n.kind = .expression op operands ∧
      n.isAddress = false ∧ part ∈ operands := by
  have hreached := Graph.closure_induction (motive := fun part ↦
    part ∈ start.graph.closure Node.isComputed root ∧ (part = root ∨
      ∃ user ∈ start.graph.closure Node.isComputed root, ∃ n op operands,
        start.graph.node? user = some n ∧ n.kind = .expression op operands ∧
        n.isAddress = false ∧ part ∈ operands)) how
    ⟨Graph.root_mem_closure _ how, .inl rfl⟩ ?_ hp
  · exact hreached.2.resolve_left hne
  · rintro user arg n ⟨huser, -⟩ hn hcomp hop
    obtain ⟨earlier, later, hord⟩ := append_of_mem huser
    refine ⟨?_, .inr ⟨user, huser, n, ?_⟩⟩
    · rw [hord]
      exact mem_append_left _ (Graph.operand_mem_closure how hord hn hcomp hop)
    · obtain ⟨op, operands, hk, hv⟩ := kind_of_isComputed hcomp
      rw [Node.operands, hk] at hop
      exact ⟨op, operands, hn, hk, hv, hop⟩

/-- A substitution yields a node of the draft, or the value that is bound to what it is given. All
other values that it takes are nodes of the draft. -/
theorem Orderly.owns_substitute (hor : start.Orderly)
    (h : (Build.substitute bs root).run start = (.ok id, d')) :
    (d'.graph.Owns id ∨ start.Takes bs root id) ∧
    ∀ part ∈ start.graph.closure Node.isComputed root, ∀ n addr v path,
      start.graph.node? part = some n → n.kind = .read addr →
      start.binding? bs addr = some (v, path) →
      d'.graph.Owns v ∨ (part = root ∧ path = []) := by
  obtain ⟨how, results, rfl, hps⟩ := ok_of_run_substitute h
  have hall := Substituted.run hor how hps
  refine ⟨?_, fun part hp n addr v path hn hk hbinding ↦ ?_⟩
  · obtain ⟨id, hid, hres⟩ := (hall root (Graph.root_mem_closure _ how)).result
    rwa [getD_eq_getD_getElem?, hid]
  · cases path with
    | cons step path =>
      refine .inl ((hall part hp).needed v ?_)
      rw [needed_of_binding hn hk hbinding]
      exact mem_cons_self
    | nil =>
      by_cases heq : part = root
      · exact .inr ⟨heq, rfl⟩
      · obtain ⟨user, huser, m, op, args, hf, hfk, hv, hop⟩ := exists_user_of_mem_closure how hp heq
        have htaken := (hall part hp).taken v ⟨n, addr, hn, hk, hbinding⟩
        refine .inl ((hall user huser).needed v ?_)
        rw [needed_of_computed hf hfk hv]
        refine mem_map.mpr ⟨part, hop, ?_⟩
        rw [getD_eq_getD_getElem?, htaken]
        rfl

/-- Once the parts before it are made, a part that needs a node of another draft ends the
substitution. -/
theorem Sound.substitute_reports (hs : start.Sound) (how : start.graph.Owns root)
    {earlier later : List NodeId}
    (hord : start.graph.closure Node.isComputed root = earlier ++ part :: later)
    (hear : (Build.substituteParts bs earlier ∅).run start = (.ok k, now))
    (hfor : ∃ id ∈ start.needed bs k part, ¬now.graph.Owns id) :
    ∃ id ∈ start.needed bs k part, ¬now.graph.Owns id ∧
      (Build.substitute bs root).run start = (.error (.foreignNode id.index), now) := by
  have hld : start.Leads ((Build.substituteParts bs earlier ∅).run start).2 :=
    moves_foldlM (fun _ _ _ _ ↦ moves_bind (enlarges (·.substituteNode _ _ _) _).leads
      fun _ _ _ ↦ moves_pure _ _) _ _
  have hp : start.graph.Owns part := Graph.owns_of_mem_closure how
    (hord ▸ mem_append_right earlier mem_cons_self)
  have hreports : now.Reports (Build.substituteNode bs k part) (now.needed bs k part) :=
    substituteNode_reports (hld.sound hear hs)
  rw [(hld.precedes hear hs).needed_eq hp] at hreports
  obtain ⟨id, hid, hidOwns, hr⟩ := hreports hfor
  refine ⟨id, hid, hidOwns, ?_⟩
  have hps : (Build.substituteParts bs (earlier ++ part :: later) ∅).run start =
      (.error (.foreignNode id.index), now) := by
    rw [Build.substituteParts, foldlM_append]
    exact (run_bind_of_ok hear).trans (run_bind_of_error (run_bind_of_error hr))
  rw [run_substitute how, hord]
  exact run_bind_of_error hps

/-- A read takes a value that is bound to what it reads as it is, whoever has issued it. -/
theorem run_substitute_of_takes (h : start.Takes bs root v) :
    (Build.substitute bs root).run start = (.ok v, start) := by
  obtain ⟨n, addr, hn, hk, -⟩ := id h
  have hclosure : start.graph.closure Node.isComputed root = [root] := by
    refine Graph.closure_eq_singleton hn ?_
    rw [Node.isComputed, hk]
  have hps : (Build.substituteParts bs [root] ∅).run start =
      (.ok ((∅ : Bindings).insert root v), start) :=
    run_bind_of_ok (run_bind_of_ok (run_substituteNode_of_takes h))
  rw [run_substitute (Graph.owns_of_node? hn), hclosure, run_bind_of_ok hps, getD_insert_self]
  rfl

end Draft

end DiffGraph
