import DiffGraph.Proofs.Draft.Irreducibility
import DiffGraph.Proofs.Draft.Listing
import DiffGraph.Proofs.Draft.Substitution

/-!
Evaluation by construction. Constants take the place of what is read, and an expression whose
operands have become constants is built anew, which evaluates it. Every stored expression has an
operand that was not constant, so all of them are built anew; each becomes the constant that
recursion over the graph gives it.
-/

set_option autoImplicit false

namespace DiffGraph

open List Stateful Option Std.HashMap

variable {env : List (String × Value)} {d draft now d' after : Draft} {v value item : Value}
  {id part base addr binding root : NodeId} {bs bindings rebuilt : Bindings}
  {t name baseType : String} {defn whole : TypeDefinition} {n arg argument : Node} {slot : Nat}
  {op : Operator} {dir : Direction} {args ids : List NodeId} {ts : List String}

namespace Draft

section Rebuilding

/-- A draft in which evaluation has come to some point: a sound one after the regular draft it
started from. -/
structure Follows (d now : Draft) : Prop where
  regular : d.Regular
  precedes : d.Precedes now
  sound : now.Sound

theorem Follows.types_eq (h : d.Follows now) : now.types = d.types :=
  h.regular.types.fixed.extends_eq h.precedes.types

theorem Follows.operators_eq (h : d.Follows now) : now.operators = .standard :=
  h.precedes.operators.trans h.regular.operators

theorem Follows.limit (h : d.Follows now) : 0 < now.options.replacementLimit :=
  h.precedes.options ▸ h.regular.replacementLimit

theorem Follows.later (h : d.Follows now) (hl : now.Precedes after) (hs : after.Sound) :
    d.Follows after :=
  ⟨h.regular, h.precedes.trans hl, hs⟩

end Rebuilding

section Parts

variable {tgt : Node}

/-- The slot of a constant, in either way of taking it. -/
theorem Follows.attains_slot (h : d.Follows now) (hst : now.StoresConstant base baseType v)
    (hwh : d.types.get? baseType = some whole) (htk : TakesSlot whole op slot t)
    (hit : v.element? slot = some item) (hg : d.types.get? t = some defn) (given : String) :
    now.Attains (Build.rebuild op given [base]) False fun d' id ↦
      d'.StoresConstant id t (defn.normalize item) := by
  rw [← h.types_eq] at hwh hg
  exact (attains_constant h.sound hg item).of_run
    (htk.run_rebuild_constant hst hwh hit h.limit given)

/-- A slot by recursion. -/
theorem valueUnder_of_slot (env : List (String × Value))
    (hn : d.graph.node? id = some n) (hk : n.kind = .expression op [base])
    (htg : d.graph.node? base = some tgt) (hwh : d.types.get? tgt.type = some whole)
    (htk : TakesSlot whole op slot n.type) (hv : d.valueUnder env base = some v)
    (hit : v.element? slot = some item) (hg : d.types.get? n.type = some defn) :
    d.valueUnder env id = some (defn.normalize item) := by
  have hvs : [base].mapM (d.valueUnder env) = some [v] := by
    rw [mapM_cons, hv]
    rfl
  have hres : d.result? n.type [base] [v] op = some item := by
    rcases htk with ⟨field, rfl, hfd⟩ | ⟨rfl, -⟩
    · simp only [result?, head?_cons, bind_some, htg, hwh, hfd, bind, hit]
    · exact hit
  rw [valueUnder_of_node? env hn, hk]
  dsimp only
  rw [hvs, bind_some, hres, bind_some, stored, hg, map_some]

/-- The way from an argument's value to the value of an address in it. -/
theorem Follows.attains_descend (h : d.Follows now) (hs : d.Sound)
    (hn : d.graph.node? addr = some n) (haddr : n.isAddress = true)
    (hrt : d.graph.root? addr = some root) (harg : d.graph.node? root = some arg)
    (hk : arg.kind = .argument name dir) (hbd : boundTo env name = some v)
    (hconforms : d.types.Conforms v arg.type) (hg : d.types.get? arg.type = some defn)
    (hst : now.StoresConstant binding arg.type (defn.normalize v)) :
    ∃ result, d.valueUnder env addr = some result ∧ d.types.Conforms result n.type ∧
      now.Attains (Build.descend binding (d.graph.lineage addr).dropLast.reverse) False
        fun d' id ↦ d'.StoresConstant id n.type result := by
  induction hix : addr.index using Nat.strongRecOn generalizing addr n with
  | ind index ih =>
    rcases hs.address_cases hn haddr with
      ⟨name', direction', hk'⟩ | ⟨base, tgt, op, htg, hta, hk', hopt⟩
    · have hba : n.kind.base? = none := by rw [hk']; rfl
      have hisArgument : n.isArgument = true := by
        rw [Node.isArgument, Build.argument?_eq_some.mpr hk']
        rfl
      rw [Graph.root?_of_argument hn hisArgument hba] at hrt
      obtain rfl := some.inj hrt
      cases hn.symm.trans harg
      refine ⟨defn.normalize v, ?_, hconforms.normalize hg, ?_⟩
      · rw [valueUnder_of_node? env hn, hk]
        dsimp only
        rw [hbd, bind_some, stored, hg, map_some]
      · rw [Graph.lineage_of_base_none hn hba]
        exact attains_pure h.sound hst
    · have hba : n.kind.base? = some base := by
        rw [hk']
        rcases hopt with ⟨field, rfl⟩ | ⟨pos, rfl⟩ <;> rfl
      have hm := NodeKind.base?_mem_operands hba
      have hlt := Graph.operand_index_lt hn hm
      rw [Graph.root?_of_base hn hba] at hrt
      obtain ⟨whole, hwh, hwholeConforms, hattains⟩ := ih base.index (by omega) htg hta hrt rfl
      obtain ⟨_, _, wholeType, slot, hops, htg', -, hwholeType, htk⟩ :=
        hs.takesSlot hn hk' (by rcases hopt with ⟨_, rfl⟩ | ⟨_, rfl⟩ <;> rfl)
      obtain rfl : base = _ := singleton_inj.mp hops
      cases htg.symm.trans htg'
      obtain ⟨item, slotType, hit, hslotType, hitemConforms⟩ :=
        h.regular.types.conforms_element hwholeConforms hwholeType htk.slotType?
      refine ⟨slotType.normalize item, ?_, hitemConforms, ?_⟩
      · exact valueUnder_of_slot env hn hk' htg hwholeType htk hwh hit hslotType
      · have hne := Graph.lineage_ne_nil (Graph.owns_of_node? htg)
        rw [Graph.lineage_of_base hn hba, dropLast_cons_of_ne_nil hne, reverse_cons,
          Build.descend_append]
        refine hattains.bind fun hl haf hst ↦ ?_
        have hsl := (h.later hl haf).attains_slot hst hwholeType htk hit hslotType n.type
        exact hsl.of_run (Build.run_descend_part ((h.precedes.trans hl).graph.node? hn) hk')

end Parts

section Binding

/-- Of the bindings in an environment, those of arguments lead to constants. -/
structure Binds (d now : Draft) (env : List (String × Value)) (bs : Bindings) :
    Prop where
  arguments : ∀ {id binding : NodeId}, bs[id]? = some binding →
    ∃ name, (name, id) ∈ d.arguments
  values : ∀ {name : String} {id : NodeId} {v : Value} {arg : Node}
    {defn : TypeDefinition}, (name, id) ∈ d.arguments →
    boundTo env name = some v → d.graph.node? id = some arg →
    d.types.get? arg.type = some defn → ∃ binding,
      bs[id]? = some binding ∧
      now.StoresConstant binding arg.type (defn.normalize v)

theorem boundTo_append (env : List (String × Value)) (e : String × Value)
    (name : String) : boundTo (env ++ [e]) name =
      if name = e.1 then some e.2 else boundTo env name := by
  rw [boundTo, reverse_append, reverse_singleton, singleton_append, lookup_cons]
  by_cases hnm : name = e.1
  · rw [if_pos hnm, beq_iff_eq.mpr hnm]
  · rw [if_neg hnm, beq_eq_false_iff_ne.mpr hnm, boundTo]

theorem Sound.name_eq (hs : d.Sound) {other : String} (hnm : (name, id) ∈ d.arguments)
    (ho : (other, id) ∈ d.arguments) : name = other := by
  obtain ⟨n, dir, hn, hk, -⟩ := hs.arguments hnm
  obtain ⟨n', direction', hn', hk', -⟩ := hs.arguments ho
  cases hn.symm.trans hn'
  exact (NodeKind.argument.inj (hk.symm.trans hk')).1

theorem Binds.later (h : d.Binds now env bs) (hl : now.Precedes d') : d.Binds d' env bs where
  arguments := h.arguments
  values hls hbd harg hg := by
    obtain ⟨binding, hbinding, hst⟩ := h.values hls hbd harg hg
    exact ⟨binding, hbinding, hst.later hl⟩

/-- One more binding. -/
theorem Binds.insert (hs : d.Sound) (h : d.Binds now env bs)
    (hl : now.Precedes d') (hls : (name, id) ∈ d.arguments)
    (harg : d.graph.node? id = some arg) (hg : d.types.get? arg.type = some defn)
    (hst : d'.StoresConstant binding arg.type (defn.normalize v)) :
    d.Binds d' (env ++ [(name, v)]) (bs.insert id binding) where
  arguments := by
    intro other m hf
    rw [Std.HashMap.getElem?_insert] at hf
    split at hf
    next hsame => exact ⟨name, eq_of_beq hsame ▸ hls⟩
    next => exact h.arguments hf
  values := by
    intro otherName other otherValue otherArgument otherDefinition ho hbd hn hdef
    rw [Std.HashMap.getElem?_insert]
    rw [boundTo_append] at hbd
    split
    next hsame =>
      obtain rfl := eq_of_beq hsame
      obtain rfl := hs.name_eq ho hls
      rw [if_pos rfl] at hbd
      obtain rfl := some.inj hbd
      cases harg.symm.trans hn
      cases hg.symm.trans hdef
      exact ⟨binding, rfl, hst⟩
    next hdifferent =>
      have hnames : otherName ≠ name := by
        rintro rfl
        have hsame := (lookup_of_mem hs.arguments_nodup hls).symm.trans
          (lookup_of_mem hs.arguments_nodup ho)
        exact hdifferent (beq_iff_eq.mpr (some.inj hsame))
      rw [if_neg hnames] at hbd
      obtain ⟨m, hf, hsd⟩ := h.values ho hbd hn hdef
      exact ⟨m, hf, hsd.later hl⟩

/-- Arguments are bound one after another, each to the constant of its type. -/
theorem Sound.run_bindings (hs : d.Sound) (hfx : d.types.Fixed) (hpr : d.Precedes now)
    (hnow : now.Sound) {done rest : List (String × Value)} (hbinds : d.Binds now done bs)
    (hdeclared : ∀ e ∈ rest, (d.arguments.lookup e.1).isSome = true) :
    ∃ bindings' d', (Build.bindEach bs rest).run now = (.ok bindings', d') ∧
      d.Precedes d' ∧ d'.Sound ∧ d'.arguments = now.arguments ∧
      d.Binds d' (done ++ rest) bindings' := by
  induction rest generalizing done bs now with
  | nil => exact ⟨bs, now, rfl, hpr, hnow, rfl, (append_nil done).symm ▸ hbinds⟩
  | cons e rest ih =>
    obtain ⟨name, v⟩ := e
    obtain ⟨hfst, hos⟩ := forall_mem_cons.mp hdeclared
    obtain ⟨id, hlk⟩ := isSome_iff_exists.mp hfst
    have hls := mem_of_lookup hlk
    obtain ⟨arg, dir, harg, hk, hkn⟩ := hs.arguments hls
    obtain ⟨defn, hg⟩ := isSome_iff_exists.mp hkn
    obtain ⟨binding, d', hc, hgr, haf, hst⟩ :=
      (attains_constant hnow (hfx.extends_eq hpr.types ▸ hg) v).exists_ok
    have hl := hgr.toPrecedes
    obtain ⟨bindings', last, hr, hla, hlast, hargs, hbinds'⟩ := ih (hpr.trans hl) haf
      (hbinds.insert hs hl hls harg hg hst) hos
    refine ⟨bindings', last, ?_, hla, hlast,
      hargs.trans ((Build.constant_keepsRest _ _ _).of_run hc).arguments, ?_⟩
    · rwa [run_bindEach_cons (hpr.arguments.lookup_eq_some hlk) (hpr.graph.node? harg) hc]
    · rwa [append_assoc, singleton_append] at hbinds'

/-- The value of an address is found along the bindings. -/
theorem Follows.attains_boundValue? (h : d.Follows now) (hs : d.Sound) (hbinds : d.Binds now env bs)
    (hn : d.graph.node? addr = some n) (haddr : n.isAddress = true)
    (hrt : d.graph.root? addr = some root) (harg : d.graph.node? root = some arg)
    (hk : arg.kind = .argument name dir) (hbd : boundTo env name = some v)
    (hconforms : d.types.Conforms v arg.type) :
    ∃ result, d.valueUnder env addr = some result ∧ d.types.Conforms result n.type ∧
      now.Attains (Build.boundValue? bs addr) False fun d' m ↦
        ∃ id, m = some id ∧ d'.StoresConstant id n.type result := by
  obtain ⟨-, hls⟩ := hs.argument harg hk
  obtain ⟨_, _, hargument', -, hkn⟩ := hs.arguments hls
  cases harg.symm.trans hargument'
  obtain ⟨defn, hg⟩ := isSome_iff_exists.mp hkn
  obtain ⟨binding, hbinding, hst⟩ := hbinds.values hls hbd harg hg
  obtain ⟨result, hres, hresultConforms, hattains⟩ :=
    h.attains_descend hs hn haddr hrt harg hk hbd hconforms hg hst
  refine ⟨result, hres, hresultConforms, Attains.of_run (hattains.bind fun _ haf hst ↦
    attains_pure haf ⟨_, rfl, hst⟩) ?_⟩
  have how := Graph.owns_of_node? hn
  -- Only the argument at the end of the lineage can be bound.
  have hps : (d.graph.lineage addr).dropLast.findIdx? (fun part ↦ bs.contains part) = none := by
    refine findIdx?_eq_none_iff.mpr fun part hp ↦ ?_
    rw [contains_eq_isSome_getElem?, isSome_eq_false_iff, isNone_iff_eq_none]
    by_contra hsome
    obtain ⟨other, ho⟩ := ne_none_iff_exists'.mp hsome
    obtain ⟨name', hlisted'⟩ := hbinds.arguments ho
    obtain ⟨m, _, hf, hfk, -⟩ := hs.arguments hlisted'
    obtain ⟨found', hf', hba⟩ := Graph.base?_of_mem_dropLast how hp
    cases hf.symm.trans hf'
    rw [hfk] at hba
    cases hba
  have hroot' : bs.contains root = true := by
    rw [contains_eq_isSome_getElem?, hbinding]
    rfl
  rw [Build.boundValue?, run_get_bind]
  dsimp only
  rw [Graph.lineage_extends h.precedes.graph how]
  have hlineage := Graph.lineage_eq_of_root? hrt
  generalize (d.graph.lineage addr).dropLast = parts at hps hlineage
  rw [hlineage, findIdx?_append, hps, findIdx?_singleton, if_pos hroot']
  simp only [none_or, map_some, Nat.zero_add, getElem?_concat_length,
    bind_some, hbinding, take_left']

end Binding

section Nodes

theorem types_eq_of_hasType {types others : List String}
    (h : Forall₂ d.HasType ids types) (hos : Forall₂ d.HoldsValue ids others) :
    others = types := by
  induction h generalizing others with
  | nil =>
    cases hos
    rfl
  | cons hfst _ ih =>
    cases hos with
    | cons hhd htail =>
      obtain ⟨n, hn, rfl⟩ := hfst
      obtain ⟨m, hf, rfl, -⟩ := hhd
      cases hn.symm.trans hf
      rw [ih htail]

/-- An operator that is applied anew to values of the same types is looked up under the same
overload. -/
theorem Sound.run_rebuild_registered (hs : d.Sound) (hpr : d.Precedes now)
    (hopr : now.operators = .standard) (hn : d.graph.node? id = some n) {pos : Nat}
    (hk : n.kind = .expression (.registered name pos) args)
    (hts : Forall₂ d.HasType args ts) (hvs : Forall₂ now.HoldsValue ids ts) :
    (Build.rebuild (.registered name pos) n.type ids).run now =
      (Build.finish (Build.replaceWithin now.options.replacementLimit) (.registered name pos)
        n.type ids false).run now := by
  obtain ⟨ov, types', hrv, hres, hops⟩ := hs.registered hn hk
  obtain rfl := types_eq_of_hasType hts hops
  rw [← hpr.operators] at hrv
  obtain ⟨hm, rfl⟩ := Registry.mem_of_resolve hrv
  rw [hopr] at hm
  exact Build.run_perform_apply _ (Registry.standard_projection _ hm) hvs hrv
    (hres.extends hpr.types)

/-- An expression that is built anew from constants of the same types is looked up under the same
overload or constructor. -/
theorem Follows.run_rebuild (h : d.Follows now) (hs : d.Sound) (hn : d.graph.node? id = some n)
    (hk : n.kind = .expression op args) (hopt : op.isProjection = false)
    (hts : Forall₂ d.HasType args ts) (hvs : Forall₂ now.HoldsValue ids ts) :
    (Build.rebuild op n.type ids).run now =
      (Build.finish (Build.replaceWithin now.options.replacementLimit) op n.type ids
        false).run now := by
  cases op with
  | registered name pos =>
    exact hs.run_rebuild_registered h.precedes h.operators_eq hn hk hts hvs
  | construct =>
    obtain ⟨before, hbf, hfi, -⟩ := hs.expression hn hk
    obtain ⟨defn, hg, harity, -⟩ := hfi.of_construct
    rw [← h.regular.types.eq_of_extends hbf.types, ← h.types_eq] at hg
    have hlen : ids.length = args.length := hvs.length_eq.trans hts.length_eq.symm
    exact Build.run_perform_construct _ hvs hg (hlen ▸ harity)
  | member | index => cases hopt

/-- What a node has become: the constant of its value. -/
def Becomes (d now : Draft) (env : List (String × Value)) (part id : NodeId) : Prop :=
  ∃ n v, d.graph.node? part = some n ∧
    d.valueUnder env part = some v ∧ d.types.Conforms v n.type ∧
    now.StoresConstant id n.type v

theorem Becomes.later (h : d.Becomes now env part id) (hl : now.Precedes d') :
    d.Becomes d' env part id := by
  obtain ⟨n, v, hn, hv, hconforms, hst⟩ := h
  exact ⟨n, v, hn, hv, hconforms, hst.later hl⟩

/-- Operands that have become constants. -/
theorem exists_constants
    (h : ∀ arg ∈ args, ∃ id, rebuilt[arg]? = some id ∧ d.Becomes now env arg id) :
    ∃ types values, now.StoreConstants (args.map fun arg ↦ rebuilt.getD arg arg) types values ∧
      args.mapM (d.valueUnder env) = some values ∧
      d.OperandsConform args values ∧ Forall₂ d.HasType args types := by
  induction args with
  | nil => exact ⟨[], [], .nil, rfl, .nil, .nil⟩
  | cons arg args ih =>
    obtain ⟨⟨id, hid, n, v, hn, hv, hconforms, hst⟩, hos⟩ := forall_mem_cons.mp h
    obtain ⟨types, values, hrs, hvs, hconform, hts⟩ := ih hos
    have hg : rebuilt.getD arg arg = id := by
      rw [getD_eq_getD_getElem?, hid, getD_some]
    refine ⟨n.type :: types, v :: values, ?_, ?_, .cons ⟨n, hn, hconforms⟩ hconform,
      .cons ⟨n, hn, rfl⟩ hts⟩
    · rw [map_cons, hg]
      exact .cons hst hrs
    · rw [mapM_cons, hv, hvs]
      rfl

/-- An expression that has a value is evaluated when its operands have become constants. They were
not all constants before. -/
theorem run_substituteNode_expression (hpr : d.Precedes now) (hnow : now.Sound)
    (hty : now.types = d.types) (hn : d.graph.node? id = some n) (hv : n.isAddress = false)
    (hk : n.kind = .expression op args) (hopt : op.isProjection = false)
    (hrebuilt : ∀ arg ∈ n.operands, ∃ id, rebuilt[arg]? = some id ∧ d.Becomes now env arg id)
    (hno : ∀ {ts values}, ¬d.StoreConstants args ts values)
    (hres : ∀ {values}, args.mapM (d.valueUnder env) = some values →
      d.OperandsConform args values → ∃ res defn, d.types.get? n.type = some defn ∧
        d.result? n.type args values op = some res ∧ d.types.Conforms (defn.normalize res) n.type)
    (hrebuild : ∀ {ids ts}, Forall₂ d.HasType args ts → Forall₂ now.HoldsValue ids ts →
      (Build.rebuild op n.type ids).run now =
        (Build.finish (Build.replaceWithin now.options.replacementLimit) op n.type ids
          false).run now) :
    ∃ result d', (Build.substituteNode bs rebuilt id).run now = (.ok result, d') ∧
      now.Precedes d' ∧ d'.Sound ∧ d.Becomes d' env id result := by
  have hops : n.operands = args := Node.operands_of_kind hk
  obtain ⟨ts, values, hst, hvs, hconform, hts⟩ := exists_constants (hops ▸ hrebuilt)
  rw [Build.substituteNode, run_bind_of_ok (Build.run_node_of_some (hpr.graph.node? hn)), hk]
  dsimp only
  rw [hv, if_neg Bool.false_ne_true]
  -- All operands would be constants if none of them had changed.
  rw [if_neg]
  · obtain ⟨result, defn, hg, hres, hresultConforms⟩ := hres hvs hconform
    have hsame : now.result? n.type (args.map fun arg ↦ rebuilt.getD arg arg)
        values op = some result := by
      rw [← hres]
      exact result?_congr hpr.operators hty _ _ _ _ hopt
    have hc := (hrebuild hts hst.holdsValue).trans (run_finish_evaluated
      (run_evaluate?_of_result hst.constants? hopt hsame))
    obtain ⟨id, d', hr, hgr, haf, hsd⟩ :=
      ((attains_constant hnow (hty ▸ hg) result).of_run hc).exists_ok
    refine ⟨id, d', hr, hgr.toPrecedes, haf, n, defn.normalize result, hn, ?_, hresultConforms, hsd⟩
    rw [valueUnder_of_node? env hn, hk]
    dsimp only
    rw [hvs, bind_some, hres, bind_some, Draft.stored, hg, map_some]
  · intro hsame
    rw [hsame] at hst
    exact hno (hst.earlier hpr fun arg hop ↦ Graph.owns_operand hn (hops.symm ▸ hop))

/-- A node becomes the constant of its value when its operands have become theirs. -/
theorem Follows.substituteNode (h : d.Follows now) (hs : d.Sound)
    (hbinds : d.Binds now env bs) (hsupplies : d.Supplies env id) (hrch : d.graph.Reaches [id] part)
    (hws : ∀ {other : NodeId} {m : Node}, d.graph.Reaches [id] other → d.graph.node? other = some m → m.isWrite = false)
    (hn : d.graph.node? part = some n) (hv : n.isAddress = false)
    (hrebuilt : n.isComputed = true → ∀ arg ∈ n.operands, ∃ id, rebuilt[arg]? = some id ∧ d.Becomes now env arg id) :
    ∃ result d', (Build.substituteNode bs rebuilt part).run now = (.ok result, d') ∧
      now.Precedes d' ∧ d'.Sound ∧ d.Becomes d' env part result := by
  have hsd := h.precedes.graph.node? hn
  cases hk : n.kind with
  | constant v =>
    refine ⟨part, now, ?_, .refl now, h.sound, n, v, hn, ?_,
      h.regular.constants hn hk, n, hsd, rfl, hk, hv⟩
    · rw [Build.substituteNode, run_bind_of_ok (Build.run_node_of_some hsd), hk]
      rfl
    · rw [valueUnder_of_node? env hn, hk]
  | argument name dir =>
    rw [(hs.argument hn hk).1] at hv
    cases hv
  | read addr =>
    obtain ⟨-, tgt, htg, haddr, ht⟩ := hs.read hn hk
    obtain ⟨root, argument, name, dir, hrt, harg, hargumentKind⟩ := Build.exists_root hs htg haddr
    obtain ⟨bound, hbd, hconforms⟩ := hsupplies hrch hn hk hrt harg hargumentKind
    obtain ⟨result, hres, hresultConforms, hattains⟩ := h.attains_boundValue? hs hbinds
      htg haddr hrt harg hargumentKind hbd hconforms
    obtain ⟨_, d', hr, hgr, haf, binding, rfl, hst⟩ := hattains.exists_ok
    rw [ht] at hresultConforms hst
    refine ⟨binding, d', run_substituteNode_read hsd hk hr, hgr.toPrecedes, haf, n, result, hn,
      ?_, hresultConforms, hst⟩
    rw [valueUnder_of_node? env hn, hk]
    exact hres
  | write addr v =>
    have hw := hws hrch hn
    rw [Node.isWrite, hk] at hw
    cases hw
  | expression op operands =>
    have hopt := h.regular.not_projection hs hn hv (fun hpath ↦ hws (hrch.trans hpath)) hk
    exact run_substituteNode_expression h.precedes h.sound h.types_eq hn hv hk hopt
      (hrebuilt (Node.isComputed_of_expression hk hv)) (h.regular.not_constants hs hn hk hopt)
      (fun _ ↦ h.regular.exists_result hs hn hk hopt) (h.run_rebuild hs hn hk hopt)

end Nodes

section Walk

/-- All that the walk collects are values of the draft that evaluation started from. -/
theorem Follows.value_of_mem_closure (h : d.Follows now) (hs : d.Sound)
    (hv : d.HoldsValue id t) (hp : part ∈ now.graph.closure Node.isComputed id) :
    d.graph.Reaches [id] part ∧ ∃ n, d.graph.node? part = some n ∧ n.isAddress = false := by
  refine Graph.closure_induction (motive := fun part ↦ d.graph.Reaches [id] part ∧
    ∃ n, d.graph.node? part = some n ∧ n.isAddress = false)
    (hv.later h.precedes).owns ?_ ?_ hp
  · obtain ⟨n, hn, -, haddr⟩ := hv
    exact ⟨.root mem_cons_self, n, hn, haddr⟩
  · intro user arg stored hreached hsd hcomp hop
    obtain ⟨hrch, n, hn, -⟩ := hreached
    cases hsd.symm.trans (h.precedes.graph.node? hn)
    obtain ⟨-, m, hf, -, haddr⟩ := hs.value_operand hn hcomp hop
    exact ⟨hrch.operand (Graph.operands_of_node? hn ▸ hop), m, hf, haddr⟩

/-- A node becomes the constant of its value if its parts do, one after another. -/
theorem Sound.run_constantUnder_of_parts (hnow : now.Sound) (how : now.graph.Owns id)
    (hp : ∀ ⦃last k part⦄, now.Precedes last → last.Sound →
      part ∈ now.graph.closure Node.isComputed id → now.Prepares last (d.Becomes · env) k part →
      ∃ result d', (Build.substituteNode bs k part).run last = (.ok result, d') ∧
        last.Precedes d' ∧ d'.Sound ∧ d.Becomes d' env part result) :
    ∃ value d', d.valueUnder env id = some value ∧
      (Build.constantUnder bs id).run now = (.ok value, d') ∧ now.Precedes d' ∧ d'.Sound := by
  obtain ⟨result, d', hr, hl, haf, n, value, hn, hv', -, stored, hsd, -, hk, -⟩ :=
    hnow.run_substitute_of_parts how (fun _ _ _ _ hl hbecomes ↦ hbecomes.later hl) hp
  refine ⟨value, d', hv', ?_, hl, haf⟩
  rw [Build.constantUnder, run_bind_of_ok hr, run_bind_of_ok (Build.run_node_of_some hsd),
    Node.constant?, hk]
  rfl

/-- With the arguments bound, the node becomes the constant of its value. -/
theorem Follows.run_constantUnder (h : d.Follows now) (hs : d.Sound) (hv : d.HoldsValue id t)
    (hws : ∀ {other : NodeId} {n : Node}, d.graph.Reaches [id] other → d.graph.node? other = some n → n.isWrite = false)
    (hsupplies : d.Supplies env id) (hbinds : d.Binds now env bs) :
    ∃ value, d.valueUnder env id = some value ∧
      ((Build.constantUnder bs id).run now).1 = .ok value := by
  obtain ⟨value, d', hv', hr, -⟩ := h.sound.run_constantUnder_of_parts
    (hv.later h.precedes).owns fun last k part hl hla hp hprepared ↦ by
      obtain ⟨hrch, n, hn, haddr⟩ := h.value_of_mem_closure hs hv hp
      exact (h.later hl hla).substituteNode hs (hbinds.later hl) hsupplies hrch
        hws hn haddr (hprepared n (h.precedes.graph.node? hn))
  exact ⟨value, hv', congrArg Prod.fst hr⟩

end Walk

section Environment

theorem binds_nil (d now : Draft) : d.Binds now [] ∅ where
  arguments hbinding := by
    rw [getElem?_empty] at hbinding
    cases hbinding
  values _ hbd := by cases hbd

/-- Arguments that are all declared are bound. -/
theorem Sound.run_bind (hs : d.Sound) (hfx : d.types.Fixed)
    (hdeclared : ∀ e ∈ env, (d.arguments.lookup e.1).isSome = true) :
    ∃ bindings d', (Build.bind env).run d = (.ok bindings, d') ∧
      d.Precedes d' ∧ d'.Sound ∧ d'.arguments = d.arguments ∧ d.Binds d' env bindings :=
  hs.run_bindings hfx (.refl d) hs (binds_nil d d) hdeclared

theorem Regular.run_bind (hreg : d.Regular) (hs : d.Sound)
    (hdeclared : ∀ e ∈ env, (d.arguments.lookup e.1).isSome = true) :
    ∃ bindings d', (Build.bind env).run d = (.ok bindings, d') ∧
      d.Follows d' ∧ d'.arguments = d.arguments ∧
      d.Binds d' env bindings := by
  obtain ⟨bindings, d', hr, hpr, haf, hargs, hbinds⟩ := hs.run_bind hreg.types.fixed hdeclared
  exact ⟨bindings, d', hr, ⟨hreg, hpr, haf⟩, hargs, hbinds⟩

/-- The first name that is not declared makes binding fail. -/
theorem Regular.run_bind_undeclared (hreg : d.Regular) (hs : d.Sound) {e : String × Value}
    (hfst : env.find? (fun e ↦ (d.arguments.lookup e.1).isNone) = some e) :
    ∃ d', (Build.bind env).run d = (.error (.undeclared e.1), d') := by
  obtain ⟨hundeclared, k, rest, rfl, hkn⟩ := find?_eq_some_iff_append.mp hfst
  have hdeclared : ∀ other ∈ k, (d.arguments.lookup other.1).isSome = true :=
    fun other ho ↦ by simpa using hkn other ho
  obtain ⟨bs, d', hr, -, hargs, -⟩ := hreg.run_bind hs hdeclared
  have harg : (Build.argument e.1).run d' = (.error (.undeclared e.1), d') := by
    rw [Build.argument, Build.run_query, Draft.argument, hargs, isNone_iff_eq_none.mp hundeclared]
  refine ⟨d', ?_⟩
  rw [Build.bind] at hr ⊢
  rw [foldlM_append, run_bind_of_ok hr, foldlM_cons]
  exact run_bind_of_error (run_bind_of_error harg)

end Environment

section Sample

variable {arguments : List (String × NodeId)} {writes : List NodeId}

section

variable (h : blank.Lists d minMax arguments writes)

include h

theorem Lists.regular_minMax : d.Regular where
  operators := h.operators
  types := h.types ▸ .scalars
  replacementLimit := by
    rw [h.options]
    decide
  constants hn hk := by
    have hcontent := mem_of_getElem? (h.of_node? hn).2
    simp [Node.content, hk, minMax] at hcontent
  conversions hn hk := by
    have hcontent := mem_of_getElem? (h.of_node? hn).2
    simp [Node.content, hk, minMax] at hcontent
  aggregates hn hk := by
    have hcontent := mem_of_getElem? (h.of_node? hn).2
    simp [Node.content, hk, minMax] at hcontent

/-- The only write of the sample comes last. -/
theorem Lists.not_isWrite_minMax {other : NodeId}
    (hrch : d.graph.Reaches [⟨0, 4⟩] other) (hn : d.graph.node? other = some n) :
    n.isWrite = false := by
  obtain ⟨-, hcontent⟩ := h.of_node? hn
  unfold Node.isWrite
  split
  next address v hk =>
    rw [← getElem?_take_of_lt (Nat.lt_succ_of_le hrch.index_le)] at hcontent
    have hm := mem_of_getElem? hcontent
    simp [Node.content, hk, minMax] at hm
  next => rfl

theorem Lists.supplies_minMax (hbd : boundTo env "x" = some (.float .one)) (id : NodeId) :
    d.Supplies env id := by
  intro read addr root n arg name dir _ hn hk hrt harg hnm
  have hcontent := mem_of_getElem? (h.of_node? hn).2
  simp only [Node.content, hk, minMax, mem_cons, Prod.mk.injEq, reduceCtorEq,
    NodeKind.read.injEq, false_and, and_false, false_or, not_mem_nil, or_false] at hcontent
  obtain ⟨-, rfl, -⟩ := hcontent
  obtain ⟨x, hx, hxType, hxKind, -⟩ := h.node?_blank 1 rfl
  have hisArgument : x.isArgument = true := by rw [Node.isArgument, Node.argument?, hxKind]; rfl
  rw [Graph.root?_of_argument hx hisArgument (by rw [hxKind]; rfl)] at hrt
  obtain rfl := some.inj hrt
  cases harg.symm.trans hx
  obtain ⟨rfl, -⟩ := NodeKind.argument.inj (hnm.symm.trans hxKind)
  refine ⟨_, hbd, ?_⟩
  rw [hxType, h.types]
  exact ⟨_, rfl, rfl⟩

theorem Lists.valueUnder_minMax :
    d.valueUnder [("x", .float .one)] ⟨0, 4⟩ = some (.float .one) := by
  obtain ⟨x, hx, hxType, hxKind, -⟩ := h.node?_blank 1 rfl
  obtain ⟨read, hrd, -, hreadKind, -⟩ := h.node?_blank 2 rfl
  obtain ⟨least, hleast, hleastType, hleastKind, -⟩ := h.node?_blank 3 rfl
  obtain ⟨greatest, hgreatest, hgreatestType, hgreatestKind, -⟩ := h.node?_blank 4 rfl
  have hsd : d.stored = blank.stored := by
    funext t v
    rw [stored, stored, h.types]
  have hinput : d.valueUnder [("x", .float .one)] ⟨0, 2⟩ = some (.float .one) := by
    rw [valueUnder_of_node? _ hrd, hreadKind]
    dsimp only
    rw [valueUnder_of_node? _ hx, hxKind, hxType, hsd]
    rfl
  have hmin : d.valueUnder [("x", .float .one)] ⟨0, 3⟩ = some (.float .one) := by
    rw [valueUnder_of_node? _ hleast, hleastKind, hleastType]
    dsimp only
    rw [mapM_cons, mapM_cons, hinput, hsd]
    change (d.result? "double" _ [_, _] _).bind _ = _
    rw [result?, h.operators]
    rfl
  rw [valueUnder_of_node? _ hgreatest, hgreatestKind, hgreatestType]
  dsimp only
  rw [mapM_cons, mapM_cons, hmin, hsd]
  change (d.result? "double" _ [_, _] _).bind _ = _
  rw [result?, h.operators]
  rfl

end

end Sample

/-- Evaluation by construction is evaluation by recursion. In a regular draft that operations can
lead to, a value that does not depend on a write has a value for all arguments that supply what it
reads, and evaluation comes to this value; it fails only if the environment has a name that is not
declared. -/
theorem Reachable.evaluate_eq_valueUnder {draft : Draft} (hdraft : draft.Reachable)
    (hregular : draft.Regular) {id : NodeId} {type : String} (hvalue : draft.HoldsValue id type)
    (hwrites : ∀ {other : NodeId} {node : Node}, draft.graph.Reaches [id] other →
      draft.graph.node? other = some node → node.isWrite = false)
    {environment : List (String × Value)} (hsupplies : draft.Supplies environment id) :
    match environment.find? fun entry ↦ (draft.arguments.lookup entry.1).isNone with
    | some entry => ((Build.evaluate environment id).run draft).1 = .error (.undeclared entry.1)
    | none => ∃ value, draft.valueUnder environment id = some value ∧
        ((Build.evaluate environment id).run draft).1 = .ok value := by
  have hsound := hdraft.sound
  split
  next entry hfirst =>
    obtain ⟨after, hrun⟩ := hregular.run_bind_undeclared hsound hfirst
    rw [Build.evaluate, run_bind_of_error hrun]
  next hnone =>
    obtain ⟨bindings, now, hrun, hfollows, -, hbinds⟩ := hregular.run_bind hsound
      fun entry hentry ↦ by simpa using List.find?_eq_none.mp hnone entry hentry
    rw [Build.evaluate, run_bind_of_ok hrun]
    exact hfollows.run_constantUnder hsound hvalue hwrites hsupplies hbinds

/-- With the input at one, the minimum and the maximum are one. -/
theorem Reachable.evaluate_eq_valueUnder_minMax :
    ∃ draft : Draft, draft.Reachable ∧ draft.Regular ∧ draft.HoldsValue ⟨0, 4⟩ "double" ∧
      draft.Supplies [("x", .float .one)] ⟨0, 4⟩ ∧
      draft.valueUnder [("x", .float .one)] ⟨0, 4⟩ = some (.float .one) ∧
      ((Build.evaluate [("x", .float .one)] ⟨0, 4⟩).run draft).1 = .ok (.float .one) := by
  obtain ⟨draft, hreachable, hlists⟩ := exists_minMax
  have hregular := hlists.regular_minMax
  have hvalue : draft.HoldsValue ⟨0, 4⟩ "double" := hlists.holdsValue 4 rfl
  have hsupplies : draft.Supplies [("x", .float .one)] ⟨0, 4⟩ := hlists.supplies_minMax rfl _
  have hdeclared : [("x", Value.float .one)].find?
      (fun entry ↦ (draft.arguments.lookup entry.1).isNone) = none := by
    rw [hlists.arguments]
    rfl
  have hevaluate := Reachable.evaluate_eq_valueUnder hreachable hregular hvalue
    hlists.not_isWrite_minMax hsupplies
  rw [hdeclared] at hevaluate
  obtain ⟨value, hunder, hrun⟩ := hevaluate
  cases hunder.symm.trans hlists.valueUnder_minMax
  exact ⟨draft, hreachable, hregular, hvalue, hsupplies, hunder, hrun⟩

/-- A name that no argument has makes evaluation fail, also where all that is read is bound. -/
theorem Reachable.evaluate_undeclared_minMax :
    ∃ draft : Draft, draft.Reachable ∧ draft.Regular ∧ draft.HoldsValue ⟨0, 4⟩ "double" ∧
      (∀ {other : NodeId} {node : Node}, draft.graph.Reaches [⟨0, 4⟩] other →
        draft.graph.node? other = some node → node.isWrite = false) ∧
      draft.Supplies [("x", .float .one), ("z", .float .one)] ⟨0, 4⟩ ∧
      ((Build.evaluate [("x", .float .one), ("z", .float .one)] ⟨0, 4⟩).run draft).1 =
        .error (.undeclared "z") := by
  obtain ⟨draft, hreachable, hlists⟩ := exists_minMax
  have hregular := hlists.regular_minMax
  have hfirst : [("x", Value.float .one), ("z", .float .one)].find?
      (fun entry ↦ (draft.arguments.lookup entry.1).isNone) = some ("z", .float .one) := by
    rw [hlists.arguments]
    rfl
  obtain ⟨after, hbind⟩ := hregular.run_bind_undeclared hlists.sound hfirst
  refine ⟨draft, hreachable, hregular, hlists.holdsValue 4 rfl, hlists.not_isWrite_minMax,
    hlists.supplies_minMax rfl _, ?_⟩
  rw [Build.evaluate, run_bind_of_error hbind]

end Draft

end DiffGraph
