import DiffGraph.Proofs.Draft.Rendering
import DiffGraph.Proofs.Draft.Uniformity

/-!
Copies of a function's writes in another draft. A copy is built like any other node: constants are
spelled again, operators are looked up again, evaluated and replaced. As nothing simpler was found for
a node when it was formed, nothing simpler is found for its copy, so a copy stands for the term it was
made from (`Copying.step`). The writes are copied in the order in which they were recorded.
-/

set_option autoImplicit false

namespace DiffGraph

open List Stateful Build Option

variable {args operands' ids : List NodeId} {t type name : String} {isAddress : Bool}
  {op : Operator} {id addr addr' v : NodeId} {d draft after before : Draft}
  {dir direction : Direction} {node : Node} {ex : List String} {owner rest : Nat} {kind : NodeKind}

namespace Draft

section Values

variable {first second : Draft} {a b : NodeId}

theorem Same.holdsValue (hfst : first.Sound) (hsnd : second.Sound) (h : Same first second a b)
    (hv : first.HoldsValue a type) : second.HoldsValue b type := by
  obtain ⟨n, ha, ht, haddr⟩ := hv
  obtain ⟨m, hb⟩ := Graph.owns_iff_node?.mp h.right
  refine ⟨m, hb, (h.contents ha hb).1.symm.trans ht, ?_⟩
  rw [← h.isAddress_eq hfst hsnd ha hb, haddr]

theorem holdsValue_of_same (hfst : first.Sound) (hsnd : second.Sound)
    (h : Forall₂ (Same first second) args operands') {types : List String}
    (hvs : Forall₂ first.HoldsValue args types) :
    Forall₂ second.HoldsValue operands' types := by
  induction h generalizing types with
  | nil =>
    cases hvs
    exact .nil
  | cons hhd _ ih =>
    obtain - | ⟨hv, hvs⟩ := hvs
    exact .cons (hhd.holdsValue hfst hsnd hv) (ih hvs)

theorem exists_holdsValue (h : ∀ id ∈ ids, ∃ t, d.HoldsValue id t) :
    ∃ types, Forall₂ d.HoldsValue ids types := by
  induction ids with
  | nil => exact ⟨[], .nil⟩
  | cons id ids ih =>
    obtain ⟨⟨t, hv⟩, hos⟩ := forall_mem_cons.mp h
    obtain ⟨types, hvs⟩ := ih hos
    exact ⟨t :: types, .cons hv hvs⟩

end Values

section Irreducible

variable {first second : Draft}

/-- What is not evaluated in one draft is not evaluated in another one. -/
theorem Kindred.run_evaluate?_none (hki : first.Kindred second)
    (hops : Forall₂ (Same first second) args operands') (hts : first.types.Extends second.types)
    (h : (Build.evaluate? op t args).run first = (.ok none, after)) :
    (Build.evaluate? op t operands').run second = (.ok none, second) := by
  have hconstants := mapM_constant?_eq hops
  cases op with
  | registered name pos =>
    rw [Build.evaluate?, run_get_bind] at h
    rw [Build.evaluate?, run_get_bind, hki.operators]
    cases hru : (first.operators.overload? name pos).bind fun o ↦ o.rules.evaluate with
    | none => rfl
    | some rule =>
      rw [hru] at h
      dsimp only at h ⊢
      rw [run_bind_of_ok (run_constants? _ _)] at h ⊢
      rw [hconstants] at h
      split at h
      · rfl
      · exact absurd h run_some_ne_none
  | construct =>
    rw [Build.evaluate?, run_bind_of_ok (run_constants? _ _)] at h ⊢
    rw [hconstants] at h
    cases hvs : operands'.mapM fun id ↦ (second.graph.node? id).bind Node.constant? with
    | none => rfl
    | some values =>
      rw [hvs] at h
      dsimp only at h ⊢
      obtain ⟨defn, s, hlk, hv⟩ := ok_of_run_bind h
      obtain ⟨hg, rfl⟩ := ok_of_run_lookupType hlk
      obtain ⟨wider, hwd, hwn⟩ := hts.get? hg
      rw [run_bind_of_ok (run_lookupType_of_some hwd)]
      rcases hwn.shape with hsh | ⟨fields, more, extension, hsh, -⟩
      · rw [hsh]
        split at hv
        · rfl
        · exact absurd hv run_some_ne_none
      · rw [hsh] at hv
        exact absurd hv run_some_ne_none
  | member | index => rfl

/-- A slot that is not found in one draft is not found in another one. -/
theorem Same.run_project_none {a b : NodeId} (h : Same first second a b)
    {perform : Request → Build NodeId} {onAddress : NodeId → Request} {slot : Nat}
    (hr : (Build.project perform onAddress t a slot).run first = (.ok none, after)) :
    after = first ∧ ∀ (perform : Request → Build NodeId) (onAddress : NodeId → Request),
      (Build.project perform onAddress t b slot).run second = (.ok none, second) := by
  obtain ⟨n, m, ha, hb, -, hk⟩ := h.nodes
  simp only [Build.project, run_bind_of_ok (run_node_of_some hb)]
  rw [Build.project, run_bind_of_ok (run_node_of_some ha)] at hr
  generalize n.kind = kind at hk hr
  generalize m.kind = kind' at hk
  cases hk with
  | constant v =>
    dsimp only at hr ⊢
    split at hr
    · exact absurd hr run_some_ne_none
    · exact ⟨(ok_of_run_pure hr).2, fun _ _ ↦ rfl⟩
  | argument name dir => exact ⟨(ok_of_run_pure hr).2, fun _ _ ↦ rfl⟩
  | read haddr =>
    obtain ⟨part, s, -, hrd⟩ := ok_of_run_bind hr
    exact absurd hrd run_some_ne_none
  | write haddr hv => exact ⟨(ok_of_run_pure hr).2, fun _ _ ↦ rfl⟩
  | expression op hps =>
    cases op with
    | construct =>
      obtain ⟨hno, haf⟩ := ok_of_run_pure hr
      rw [eq_comm, getElem?_eq_none_iff, hps.length_eq] at hno
      refine ⟨haf, fun _ _ ↦ ?_⟩
      exact congrArg (fun found ↦ (Except.ok found, second)) (getElem?_eq_none hno)
    | registered | member | index => exact ⟨(ok_of_run_pure hr).2, fun _ _ ↦ rfl⟩

/-- What is not replaced in one draft is not replaced in another one. -/
theorem Kindred.run_replace?_none (hki : first.Kindred second) (hun : first.operators.Uniform)
    (hops : Forall₂ (Same first second) args operands') (hts : first.types.Extends second.types)
    (hfi : after.Fits op t args isAddress) {perform : Request → Build NodeId}
    (h : (Build.replace? perform op t args).run first = (.ok none, after))
    (perform' : Request → Build NodeId) :
    (Build.replace? perform' op t operands').run second = (.ok none, second) := by
  cases hfi with
  | @registered name _ pos _ _ _ _ _ _ _ =>
    rw [Build.replace?, run_get_bind] at h
    rw [Build.replace?, run_get_bind, hki.operators]
    cases hru : (first.operators.overload? name pos).bind fun o ↦ o.rules.replace with
    | none => rfl
    | some rule =>
      rw [hru] at h
      exact (hun.rule hru).refused perform' hki hops h
  | construct => rfl
  | @member base node defn field _ slot hn hdef hfd =>
    obtain - | ⟨hba, hrs⟩ := hops
    obtain ⟨n, m, ha, hb, ht, -⟩ := hba.nodes
    rw [Build.replace?, run_get_bind, run_bind_of_ok (run_typeOf_of_some ha)] at h
    rw [Build.replace?, run_get_bind, run_bind_of_ok (run_typeOf_of_some hb), ← ht]
    split at h
    next slot t hsl =>
      obtain ⟨k, hkn, hsl⟩ := bind_eq_some_iff.mp hsl
      obtain ⟨wider, hwd, hwn⟩ := hts.get? hkn
      rw [hwd, bind_some, hwn.field? hsl]
      exact (hba.run_project_none h).2 _ _
    next hno =>
      -- The member was there when the search began.
      obtain ⟨-, rfl⟩ := ok_of_run_pure h
      obtain rfl : n = node := some.inj (ha.symm.trans hn)
      rw [hdef, bind_some, hfd] at hno
      cases hno
  | index hn hdef hel =>
    obtain - | ⟨hba, hrs⟩ := hops
    exact (hba.run_project_none h).2 _ _

/-- An application for which nothing simpler is found becomes a node, if replacements are allowed. -/
theorem run_finish_of_none (hev : (Build.evaluate? op t args).run draft = (.ok none, draft))
    (hrep : ∀ perform, (Build.replace? perform op t args).run draft = (.ok none, draft))
    (hremaining : 0 < rest) :
    (Build.finish (Build.replaceWithin rest) op t args isAddress).run draft =
      (Build.intern t (.expression op args) isAddress).run draft := by
  obtain ⟨rest, rfl⟩ := Nat.exists_eq_add_one.mpr hremaining
  rw [Build.finish, run_bind_of_ok hev]
  dsimp only
  rw [Build.replaceWithin, run_bind_of_ok (hrep _)]

/-- An application for which nothing simpler is found becomes a node, unless it fails. -/
theorem ok_of_run_finish (hev : (Build.evaluate? op t args).run d = (.ok none, d))
    (hrep : ∀ perform, (Build.replace? perform op t args).run d = (.ok none, d))
    (h : (Build.finish (Build.replaceWithin rest) op t args isAddress).run d = (.ok id, after)) :
    (Build.intern t (.expression op args) isAddress).run d = (.ok id, after) := by
  cases rest with
  | zero =>
    rw [Build.finish, run_bind_of_ok hev] at h
    obtain ⟨_, _, hlim, -⟩ := ok_of_run_bind h
    cases hlim
  | succ rest =>
    exact (run_finish_of_none hev hrep (Nat.succ_pos rest)).symm.trans h

end Irreducible

section Nodes

variable {source now : Draft} {copy : NodeId}

theorem same_of_earlier {earlier : Draft} (h : earlier.Precedes source)
    (howd : ∀ arg ∈ args, earlier.graph.Owns arg)
    (hops : Forall₂ (Same source now) args operands') :
    Forall₂ (Same earlier now) args operands' := by
  induction hops with
  | nil => exact .nil
  | cons hhd _ ih =>
    obtain ⟨how, hos⟩ := forall_mem_cons.mp howd
    exact .cons ((h.same how).trans hhd) (ih hos)

/-- A constructor that succeeds has got one argument for each slot, and is finished with the values
of the arguments. -/
theorem ok_of_run_construct (hr : (Build.construct t ids).run now = (.ok copy, after)) :
    ∃ defn values middle, now.types.get? t = some defn ∧
      ids.length = defn.arity?.getD ids.length ∧ (∀ id ∈ ids, now.graph.Owns id) ∧
      (ids.mapM Build.valueOf).run now = (.ok values, middle) ∧
      (Build.finish (Build.replaceWithin now.options.replacementLimit) .construct t values false).run
        middle = (.ok copy, after) := by
  change (Build.perform now.options.replacementLimit (.construct t ids)).run now = _ at hr
  rw [perform_eq, Build.performWith, Build.constructWith] at hr
  obtain ⟨⟨⟩, s, hchecked, hr⟩ := ok_of_run_bind hr
  obtain ⟨howd, rfl⟩ := ok_of_run_forM_checkOwned hchecked
  obtain ⟨defn, s, hlk, hr⟩ := ok_of_run_bind hr
  obtain ⟨hdef, rfl⟩ := ok_of_run_lookupType hlk
  dsimp only at hr
  split at hr
  · obtain ⟨_, _, hthrow, -⟩ := ok_of_run_bind hr
    cases hthrow
  next harity =>
    obtain ⟨values, middle, hvs, hr⟩ := ok_of_run_bind hr
    exact ⟨defn, values, middle, hdef, not_not.mp harity, howd, hvs, hr⟩

theorem arity_of_run_construct {defn : TypeDefinition} (hdef : now.types.get? t = some defn)
    (hr : (Build.construct t ids).run now = (.ok copy, after)) :
    ids.length = defn.arity?.getD ids.length := by
  obtain ⟨_, _, _, hg, harity, -⟩ := ok_of_run_construct hr
  cases hdef.symm.trans hg
  exact harity

variable (hsrc : source.Sound) (hnow : now.Sound)
  (hopr : now.operators = source.operators) (hts : source.types.Extends now.types)
  (hops : Forall₂ (Same source now) args operands')

include hsrc hnow hopr hts hops

/-- What could be applied to operands can be applied to their copies; a constructor only as long as
its type has as many slots. -/
theorem Fits.run_rebuild (hbf : before.Precedes source) (hfi : before.Fits op t args isAddress)
    (harity : op = .construct → ∀ defn, now.types.get? t = some defn →
      operands'.length = defn.arity?.getD operands'.length) :
    (Build.rebuild op t operands').run now =
      (Build.finish (Build.replaceWithin now.options.replacementLimit) op t operands'
        isAddress).run now := by
  have hl := hbf.types.trans hts
  cases hfi with
  | registered hnm hrv hres hvs =>
    have hvs := holdsValue_of_same hsrc hnow hops (hvs.imp fun _ _ h ↦ h.later hbf)
    rw [← hbf.operators, ← hopr] at hrv
    exact run_perform_apply _ hnm hvs hrv (hres.extends hl)
  | member hn hdef hfd =>
    obtain - | ⟨hba, hno⟩ := hops
    cases hno
    obtain ⟨n, m, ha, hb, ht, -⟩ := hba.nodes
    cases ha.symm.trans (hbf.graph.node? hn)
    obtain ⟨wider, hwd, hwn⟩ := hl.get? hdef
    rw [hba.isAddress_eq hsrc hnow ha hb]
    have hm := TypeTable.member_of_field? hwd (hwn.field? hfd)
    exact run_perform_member _ hb (ht ▸ hm)
  | index hn hdef hel =>
    obtain - | ⟨hba, hno⟩ := hops
    cases hno
    obtain ⟨n, m, ha, hb, ht, -⟩ := hba.nodes
    cases ha.symm.trans (hbf.graph.node? hn)
    obtain ⟨wider, hwd, hwn⟩ := hl.get? hdef
    rw [hba.isAddress_eq hsrc hnow ha hb]
    have hel := (TypeTable.element_of_get? hwd _).trans ((hwn.element _).trans hel)
    exact run_perform_index _ hb (ht ▸ hel)
  | construct hdef _ hvs =>
    obtain ⟨ts, hvs⟩ := exists_holdsValue hvs
    have hvs := holdsValue_of_same hsrc hnow hops (hvs.imp fun _ _ h ↦ h.later hbf)
    obtain ⟨wider, hwd, -⟩ := hl.get? hdef
    exact run_perform_construct _ hvs hwd (harity rfl wider hwd)

theorem Fits.ok_of_run_rebuild (hbf : before.Precedes source)
    (hfi : before.Fits op t args isAddress)
    (hr : (Build.rebuild op t operands').run now = (.ok copy, after)) :
    (Build.finish (Build.replaceWithin now.options.replacementLimit) op t operands'
      isAddress).run now = (.ok copy, after) := by
  rw [← hfi.run_rebuild hsrc hnow hopr hts hops hbf, hr]
  rintro rfl defn hdef
  exact arity_of_run_construct hdef hr

variable (hun : source.operators.Uniform) (hn : source.graph.node? id = some node)
  (hk : node.kind = .expression op args)

include hun hn hk

/-- Nothing simpler is found for an expression, and for a copy of it neither. -/
theorem Sound.run_search_none : (Build.evaluate? op node.type operands').run now = (.ok none, now) ∧
      ∀ perform, (Build.replace? perform op node.type operands').run now = (.ok none, now) := by
  obtain ⟨before, hbf, hfi, rest, start, hsta, hinterned, howd, hev, hrep⟩ := hsrc.expression hn hk
  have hear := hsta.trans hbf
  have hki : start.Kindred now := ⟨hinterned, hnow.interned, hopr.trans hear.operators⟩
  have hsame := same_of_earlier hear howd hops
  have hl := hear.types.trans hts
  exact ⟨hki.run_evaluate?_none hsame hl hev,
    hki.run_replace?_none (hear.operators ▸ hun) hsame hl hfi hrep⟩

/-- The copy of an expression is simplified no further than the expression was. -/
theorem Sound.run_rebuild_copy
    (hr : (Build.rebuild op node.type operands').run now = (.ok copy, after)) :
    (Build.intern node.type (.expression op operands') node.isAddress).run now =
      (.ok copy, after) := by
  obtain ⟨before, hbf, hfi, -⟩ := hsrc.expression hn hk
  obtain ⟨hev, hrep⟩ := hsrc.run_search_none hnow hopr hts hops hun hn hk
  exact ok_of_run_finish hev hrep (hfi.ok_of_run_rebuild hsrc hnow hopr hts hops hbf hr)

omit hts

/-- Where types do not change and replacements are allowed, an expression can be copied. -/
theorem Sound.run_rebuild_eq_intern (hts : now.types = source.types)
    (hfx : source.types.Fixed) (hlim : 0 < now.options.replacementLimit) :
    (Build.rebuild op node.type operands').run now =
      (Build.intern node.type (.expression op operands') node.isAddress).run now := by
  have hext : source.types.Extends now.types := hts ▸ .refl _
  obtain ⟨before, hbf, hfi, -⟩ := hsrc.expression hn hk
  obtain ⟨hev, hrep⟩ := hsrc.run_search_none hnow hopr hext hops hun hn hk
  rw [hfi.run_rebuild hsrc hnow hopr hext hops hbf, run_finish_of_none hev hrep hlim]
  rintro rfl defn hdef
  obtain ⟨m, hf, harity, -⟩ := hfi.of_construct
  rw [hts, hfx.eq_of_extends hbf.types, hf] at hdef
  rw [← some.inj hdef, ← hops.length_eq]
  exact harity

end Nodes

/-- Every constant has the spelling that its type stores. -/
def Normalized (d : Draft) : Prop :=
  ∀ ⦃id : NodeId⦄ ⦃n : Node⦄ ⦃v : Value⦄ ⦃defn : TypeDefinition⦄,
    d.graph.node? id = some n → n.kind = .constant v →
      d.types.get? n.type = some defn → defn.normalize v = v

/-- A draft that can take copies of the nodes of another one. The arguments are there already. -/
structure Copying (src now : Draft) : Prop where
  sound : now.Sound
  operators : now.operators = src.operators
  types : src.types.Extends now.types
  arguments : ∀ {id : NodeId} {n : Node} {name : String} {dir : Direction},
    src.graph.node? id = some n → n.kind = .argument name dir →
      ∃ copy, now.arguments.lookup name = some copy ∧ Same src now id copy

/-- The copies that were made belong to the nodes in a certain way. -/
structure Copies (R : Draft → NodeId → NodeId → Prop) (src : Draft) (copies : Bindings)
    (now : Draft) : Prop where
  copying : src.Copying now
  related : ∀ ⦃id copy : NodeId⦄, copies[id]? = some copy → R now id copy

section Copying

variable {source now : Draft} {copies : Bindings} {copy : NodeId}

theorem Copying.later (h : source.Copying now) (hl : now.Precedes after)
    (haf : after.Sound) : source.Copying after where
  sound := haf
  operators := hl.operators.trans h.operators
  types := h.types.trans hl.types
  arguments hn hk := by
    obtain ⟨copy, hlk, hsame⟩ := h.arguments hn hk
    refine ⟨copy, ?_, hsame.later (.refl source) hl⟩
    exact lookup_of_mem haf.arguments_nodup (hl.arguments.subset (mem_of_lookup hlk))

theorem exists_related_of_mem {R : NodeId → NodeId → Prop} {others : List NodeId}
    (h : Forall₂ R ids others) {other : NodeId} (hm : other ∈ others) :
    ∃ id ∈ ids, R id other := by
  obtain ⟨pos, hpos, rfl⟩ := mem_iff_getElem.mp hm
  have hlt : pos < ids.length := h.length_eq ▸ hpos
  exact ⟨ids[pos], getElem_mem hlt, h.get hlt hpos⟩

theorem ok_of_run_copied
    (hr : (match copies[id]? with
      | some copy => return copy
      | none => throw (.foreignNode id.index) : Build NodeId).run now = (.ok copy, after)) :
    copies[id]? = some copy ∧ after = now := by
  split at hr
  next found hf =>
    obtain ⟨rfl, rfl⟩ := ok_of_run_pure hr
    exact ⟨hf, rfl⟩
  · cases hr

theorem ok_of_run_mapM_copied {m : List NodeId}
    (hr : (ids.mapM fun id ↦ (match copies[id]? with | some copy => return copy | none => throw (.foreignNode id.index) : Build NodeId)).run now = (.ok m, after)) :
    Forall₂ (fun id copy ↦ copies[id]? = some copy) ids m ∧ after = now := by
  induction ids generalizing m with
  | nil =>
    rw [mapM_nil] at hr
    obtain ⟨rfl, rfl⟩ := ok_of_run_pure hr
    exact ⟨.nil, rfl⟩
  | cons id ids ih =>
    obtain ⟨copy, rest, s, hcp, hrs, rfl⟩ := ok_of_run_mapM_cons hr
    obtain ⟨hf, rfl⟩ := ok_of_run_copied hcp
    obtain ⟨hos, rfl⟩ := ih hrs
    exact ⟨.cons hf hos, rfl⟩

/-- A copy is built from the copies of the operands. -/
theorem ok_of_run_copyNode (hr : (Build.copyNode node copies).run now = (.ok copy, after)) :
    match node.kind with
    | .constant v => (Build.constant node.type v).run now = (.ok copy, after)
    | .argument name _ => (Build.argument name).run now = (.ok copy, after)
    | .read addr => ∃ addr', copies[addr]? = some addr' ∧
      (Build.read addr').run now = (.ok copy, after)
    | .write addr v => ∃ addr' v', copies[addr]? = some addr' ∧ copies[v]? = some v' ∧
        (Build.write addr' (.node v')).run now = (.ok copy, after)
    | .expression op args => ∃ operands',
      Forall₂ (fun id copy ↦ copies[id]? = some copy) args operands' ∧
        (Build.rebuild op node.type operands').run now = (.ok copy, after) := by
  unfold Build.copyNode at hr
  dsimp only at hr
  cases hk : node.kind with
  | constant | argument =>
    rw [hk] at hr
    exact hr
  | read addr =>
    rw [hk] at hr
    obtain ⟨addr', s, hcd, hrd⟩ := ok_of_run_bind hr
    obtain ⟨haddr, rfl⟩ := ok_of_run_copied hcd
    exact ⟨addr', haddr, hrd⟩
  | write addr v =>
    rw [hk] at hr
    obtain ⟨addr', s, hcd, hrs⟩ := ok_of_run_bind hr
    obtain ⟨haddr, rfl⟩ := ok_of_run_copied hcd
    obtain ⟨v', s, hcd, hw⟩ := ok_of_run_bind hrs
    obtain ⟨hv, rfl⟩ := ok_of_run_copied hcd
    exact ⟨addr', v', haddr, hv, hw⟩
  | expression op args =>
    rw [hk] at hr
    obtain ⟨operands', s, hcd, hrebuild⟩ := ok_of_run_bind hr
    obtain ⟨hcopies, rfl⟩ := ok_of_run_mapM_copied hcd
    exact ⟨operands', hcopies, hrebuild⟩

section Loop

variable {R : Draft → NodeId → NodeId → Prop}
  (hl : ∀ ⦃now after id copy⦄, now.Precedes after → R now id copy → R after id copy)

theorem Copies.empty (h : source.Copying now) : Copies R source ∅ now :=
  ⟨h, fun id copy hcp ↦ by rw [Std.HashMap.getElem?_empty] at hcp; cases hcp⟩

include hl

theorem Copies.next (h : Copies R source copies now) (hpr : now.Precedes after)
    (haf : after.Sound) (hcp : R after id copy) :
    Copies R source (copies.insert id copy) after := by
  refine ⟨h.copying.later hpr haf, fun other found hf ↦ ?_⟩
  rw [Std.HashMap.getElem?_insert] at hf
  split at hf
  next hsame =>
    cases hf
    exact eq_of_beq hsame ▸ hcp
  next => exact hl hpr (h.related hf)

variable (hsrc : source.Sound)
  (hcopies : ∀ ⦃copies now id node copy after⦄, Copies R source copies now → id ∈ source.order →
    source.graph.node? id = some node → (Build.copyNode node copies).run now = (.ok copy, after) →
      R after id copy ∧ after.writes =
        if node.isWrite && !now.writes.contains copy then now.writes ++ [copy] else now.writes)
  (hdistinct : ∀ ⦃now id other copy node node'⦄, source.Copying now →
    source.graph.node? id = some node → node.isWrite = true →
      source.graph.node? other = some node' → node'.isWrite = true →
        R now id copy → R now other copy → id = other)

include hsrc hcopies hdistinct

/-- The writes among the nodes that were copied are recorded in the order of the nodes. -/
theorem Copies.run (h : Copies R source copies now) {earlier : List NodeId}
    (hord : source.order = earlier ++ ids) (hear : Forall₂ (R now)
      (earlier.filter fun id ↦ (source.graph.node? id).any Node.isWrite) now.writes)
    {copies' : Bindings} (hr : (ids.foldlM (fun copies id ↦ (do
      match source.graph.node? id with
      | some node => return copies.insert id (← Build.copyNode node copies)
      | none => throw (.foreignNode id.index) : Build Bindings)) copies).run now =
        (.ok copies', after)) :
    source.Copying after ∧ Forall₂ (R after) source.writes after.writes := by
  induction ids generalizing copies now earlier with
  | nil =>
    obtain ⟨rfl, rfl⟩ := ok_of_run_pure hr
    rw [append_nil] at hord
    rw [← hsrc.filter_order, hord]
    exact ⟨h.copying, hear⟩
  | cons id ids ih =>
    obtain ⟨next, s, hstep, hrs⟩ := ok_of_run_foldlM_cons hr
    have hid : id ∈ source.order := hord ▸ mem_append_right _ mem_cons_self
    obtain ⟨node, hn⟩ := hsrc.node?_of_mem_order hid
    rw [hn] at hstep
    obtain ⟨copy, s', hcp, hinsert⟩ := ok_of_run_bind hstep
    obtain ⟨rfl, rfl⟩ := ok_of_run_pure hinsert
    have hld := copyNode_leads node copies now
    have hpr := hld.precedes hcp h.copying.sound
    obtain ⟨hcd, hws⟩ := hcopies h hid hn hcp
    have hnx := h.next hl hpr (hld.sound hcp h.copying.sound) hcd
    have hkn := hear.imp fun _ _ ↦ @hl _ _ _ _ hpr
    refine ih hnx (by rw [hord, append_cons]) ?_ hrs
    rw [filter_append, hws]
    cases hw : node.isWrite with
    | false =>
      rw [Bool.false_and, if_neg Bool.false_ne_true, filter_cons_of_neg (by simp [hn, hw]),
        filter_nil, append_nil]
      exact hkn
    | true =>
      -- Copies of different writes are different.
      have hmissing : copy ∉ now.writes := fun hls ↦ by
        obtain ⟨other, ho, hrelated⟩ := exists_related_of_mem hkn hls
        obtain ⟨ho, hmarked⟩ := mem_filter.mp ho
        obtain ⟨node', hn', hwrite'⟩ := (any_eq_true _ _).mp hmarked
        have heq := hdistinct hnx.copying hn hw hn' hwrite' hcd hrelated
        exact disjoint_of_nodup_append (hord ▸ nodup_order source) ho (heq ▸ mem_cons_self)
      rw [Bool.true_and, if_pos (by simpa using hmissing),
        filter_cons_of_pos (by simp [hn, hw]), filter_nil]
      exact rel_append hkn (.cons hcd .nil)

theorem Copying.ok_of_run_copyWrites (h : source.Copying now) (hempty : now.writes = [])
    (hr : (Build.copyWrites source).run now = (.ok ⟨⟩, after)) :
    source.Copying after ∧ Forall₂ (R after) source.writes after.writes := by
  obtain ⟨copies, s, hfold, hret⟩ := ok_of_run_bind hr
  obtain ⟨-, rfl⟩ := ok_of_run_pure hret
  rw [← Array.foldlM_toList] at hfold
  have hsta : Forall₂ (R now) [] now.writes := by rw [hempty]; exact .nil
  exact Copies.run hl hsrc hcopies hdistinct (.empty h) (nil_append _).symm hsta hfold

end Loop

/-- A node of the same kind that was just built is a copy. -/
theorem same_of_intern (hnow : now.graph.Interned) (hn : source.graph.node? id = some node)
    (ht : node.type = t) (hk : SameKind source now node.kind kind)
    (owned : ∀ arg ∈ kind.operands, now.graph.Owns arg) (hl : now.Precedes after)
    (hgraph : after.graph = (now.graph.intern t kind isAddress owned).2) :
    Same source after id (now.graph.intern t kind isAddress owned).1 := by
  obtain ⟨m, hf, hfoundType, hfk⟩ := @Graph.node?_intern _ t kind isAddress hnow owned
  rw [← hgraph] at hf
  refine SameKind.same ?_ (ht.trans hfoundType.symm) hn hf
  rw [hfk]
  exact hk.later (.refl source) hl

theorem Copying.same_of_run_intern (h : source.Copying now) (hn : source.graph.node? id = some node)
    (hk : SameKind source now node.kind kind)
    (hr : (Build.intern node.type kind isAddress).run now = (.ok copy, after)) :
    Same source after id copy ∧ after.writes = now.writes := by
  obtain ⟨owned, rfl, rfl⟩ := ok_of_run_intern hr
  exact ⟨same_of_intern h.sound.interned hn rfl hk owned
    { Precedes.refl now with graph := Graph.extends_intern owned } rfl, rfl⟩

theorem Copying.constant (h : source.Copying now) (hnormal : source.Normalized)
    (hsrc : source.Sound) (hn : source.graph.node? id = some node) {v : Value}
    (hk : node.kind = .constant v) (hr : (Build.constant node.type v).run now = (.ok copy, after)) :
    Same source after id copy ∧ after.writes = now.writes := by
  obtain ⟨-, before, defn, hbf, hdef, -⟩ := hsrc.constant hn hk
  obtain ⟨k, hkn, -⟩ := hbf.types.get? hdef
  obtain ⟨wider, hwd, hwn⟩ := h.types.get? hkn
  rw [Build.constant, run_bind_of_ok (run_lookupType_of_some hwd), hwn.normalize,
    hnormal hn hk hkn] at hr
  exact h.same_of_run_intern hn (by rw [hk]; exact .constant v) hr

theorem Copying.argument (h : source.Copying now) (hn : source.graph.node? id = some node)
    (hk : node.kind = .argument name dir) (hr : (Build.argument name).run now = (.ok copy, after)) :
    Same source after id copy ∧ after.writes = now.writes := by
  obtain ⟨m, hlk, hsame⟩ := h.arguments hn hk
  obtain ⟨hf, rfl⟩ := ok_of_run_query hr
  rw [Draft.argument, hlk] at hf
  obtain rfl := Except.ok.inj hf
  exact ⟨hsame, rfl⟩

theorem Copying.read (h : source.Copying now) (hsrc : source.Sound)
    (hn : source.graph.node? id = some node) (hk : node.kind = .read addr)
    (haddr : Same source now addr addr') (hr : (Build.read addr').run now = (.ok copy, after)) :
    Same source after id copy ∧ after.writes = now.writes := by
  obtain ⟨-, tgt, htg, hta, ht⟩ := hsrc.read hn hk
  obtain ⟨target', htg'⟩ := Graph.owns_iff_node?.mp haddr.right
  have hsameType := (haddr.contents htg htg').1
  rw [run_read htg' (haddr.isAddress_eq hsrc h.sound htg htg' ▸ hta), ← hsameType, ht] at hr
  exact h.same_of_run_intern hn (hk ▸ .read haddr) hr

/-- A write is listed unless it was. -/
theorem ok_of_run_write {tgt : Node} (htg : now.graph.node? addr = some tgt)
    (haddr : tgt.isAddress = true) (hv : now.HoldsValue v tgt.type)
    (hr : (Build.write addr (.node v)).run now = (.ok copy, after)) :
    ∃ owned, copy = (now.graph.intern tgt.type (.write addr v) false owned).1 ∧
      after.graph = (now.graph.intern tgt.type (.write addr v) false owned).2 ∧
      after.writes = if now.writes.contains copy then now.writes else now.writes ++ [copy] := by
  have how := Graph.owns_of_node? htg
  have hrt : ∀ name, ((now.graph.root? addr).bind now.graph.node?).bind Node.argument? ≠
      some (name, .input) := by
    intro name hinput
    rw [Build.write, run_bind_of_ok (run_checkOwned_of_owns how),
      run_bind_of_ok (run_node_of_some htg), haddr] at hr
    dsimp only at hr
    rw [if_neg (show ¬(!true) = true from Bool.false_ne_true), run_get_bind, hinput] at hr
    cases hr
  have owned : ∀ operand ∈ (NodeKind.write addr v).operands, now.graph.Owns operand :=
    forall_mem_cons.mpr ⟨how, forall_mem_cons.mpr ⟨hv.owns, forall_mem_nil _⟩⟩
  rw [run_write htg haddr hrt hv owned] at hr
  cases hr
  exact ⟨owned, rfl, rfl, rfl⟩

theorem Copying.write (h : source.Copying now) (hsrc : source.Sound)
    (hn : source.graph.node? id = some node) {v' : NodeId}
    (hk : node.kind = .write addr v) (haddr : Same source now addr addr')
    (hv : Same source now v v') (hr : (Build.write addr' (.node v')).run now = (.ok copy, after)) :
    Same source after id copy ∧
      after.writes = if now.writes.contains copy then now.writes else now.writes ++ [copy] := by
  obtain ⟨-, -, before, hbf, hw⟩ := hsrc.write hn hk
  obtain ⟨tgt, htg, hta, ht⟩ := hw.target
  have htg := hbf.graph.node? htg
  obtain ⟨target', htg'⟩ := Graph.owns_iff_node?.mp haddr.right
  have hsameType := (haddr.contents htg htg').1
  have htargetAddress' : target'.isAddress = true := haddr.isAddress_eq hsrc h.sound htg htg' ▸ hta
  have hholds : now.HoldsValue v' target'.type := by
    rw [← hsameType, ht]
    exact hv.holdsValue hsrc h.sound (hw.source.later hbf)
  have hl := (write_leads addr' (.node v') now).precedes hr h.sound
  obtain ⟨owned, rfl, hgraph, hws⟩ := ok_of_run_write htg' htargetAddress' hholds hr
  exact ⟨same_of_intern h.sound.interned hn (ht.symm.trans hsameType)
    (hk ▸ .write haddr hv) owned hl hgraph, hws⟩

/-- The copy of a node stands for the same term. Only the copy of a write is recorded. -/
theorem Copying.copyNode (h : Copies (Same source) source copies now) (hsrc : source.Sound)
    (hun : source.operators.Uniform) (hnormal : source.Normalized)
    (hn : source.graph.node? id = some node)
    (hr : (Build.copyNode node copies).run now = (.ok copy, after)) :
    Same source after id copy ∧ after.writes =
      if node.isWrite && !now.writes.contains copy then now.writes ++ [copy] else now.writes := by
  have hr := ok_of_run_copyNode hr
  have hcpy := h.copying
  unfold Node.isWrite
  cases hk : node.kind with
  | constant v =>
    rw [hk] at hr
    exact hcpy.constant hnormal hsrc hn hk hr
  | argument name dir =>
    rw [hk] at hr
    exact hcpy.argument hn hk hr
  | read addr =>
    rw [hk] at hr
    obtain ⟨addr', haddr, hrd⟩ := hr
    exact hcpy.read hsrc hn hk (h.related haddr) hrd
  | write addr v =>
    rw [hk] at hr
    obtain ⟨addr', v', haddr, hv, hw⟩ := hr
    obtain ⟨hsame, hws⟩ := hcpy.write hsrc hn hk (h.related haddr) (h.related hv) hw
    refine ⟨hsame, hws.trans ?_⟩
    cases now.writes.contains copy <;> rfl
  | expression op args =>
    rw [hk] at hr
    obtain ⟨operands', hcopies, hrebuild⟩ := hr
    have hops : Forall₂ (Same source now) args operands' := hcopies.imp fun _ _ hcp ↦ h.related hcp
    have hintern := hsrc.run_rebuild_copy hcpy.sound hcpy.operators hcpy.types
      hops hun hn hk hrebuild
    exact hcpy.same_of_run_intern hn (hk ▸ .expression op hops) hintern

end Copying

section Adjoint

variable {p : Draft}

theorem Sound.mem_argumentsOf (hs : d.Sound) (hn : d.graph.node? id = some node)
    (hk : node.kind = .argument name direction) :
    (name, node.type) ∈ d.argumentsOf direction := by
  have hdirection : d.direction id = direction := by
    rw [Draft.direction, hn, bind_some, argument?_eq_some.mpr hk]
    rfl
  refine mem_filterMap.mpr ⟨(name, node.type, direction), ?_, if_pos rfl⟩
  refine mem_filterMap.mpr ⟨(name, id), (hs.argument hn hk).2, ?_⟩
  dsimp only
  rw [hn, hdirection]
  rfl

/-- The arguments of a function are arguments of its adjoint. -/
theorem mem_adjointArguments (h : (name, t) ∈ d.argumentsOf dir)
    (excluded : List String) : (name, t, dir) ∈ d.adjointArguments excluded := by
  unfold adjointArguments
  cases dir with
  | output =>
    refine mem_append_left _ (mem_append_left _ (mem_append_left _ (mem_append_left _ ?_)))
    exact mem_map.mpr ⟨_, h, rfl⟩
  | update =>
    refine mem_append_left _ (mem_append_left _ (mem_append_right _ ?_))
    exact mem_flatMap.mpr ⟨_, h, mem_cons_self⟩
  | input =>
    refine mem_append_left _ (mem_append_right _ ?_)
    exact mem_map.mpr ⟨_, h, rfl⟩

theorem ok_of_run_declareArgument (hs : d.Sound) (ht : (d.types.get? t).isSome = true)
    (h : (Build.declareArgument name t direction).run d = (.ok id, after)) :
    Step d after ∧ after.types = d.types ∧ after.writes = d.writes ∧
      after.arguments = d.arguments ++ [(name, id)] ∧ ∃ node,
        after.graph.node? id = some node ∧ node.type = t ∧
          node.kind = .argument name direction := by
  cases hfr : d.arguments.lookup name with
  | none =>
    have owned : ∀ operand ∈ (NodeKind.argument name direction).operands,
        d.graph.Owns operand := forall_mem_nil _
    rw [run_declareArgument hfr owned] at h
    cases h
    exact ⟨.argument t ht hfr owned, rfl, rfl, rfl, Graph.node?_intern hs.interned owned⟩
  | some k =>
    rw [Build.declareArgument, run_get_bind, hfr] at h
    cases h

/-- Arguments that were declared one after another are all there. -/
theorem ok_of_run_declareArguments {entries : List (String × String × Direction)} (hs : d.Sound)
    (hts : ∀ e ∈ entries, (d.types.get? e.2.1).isSome = true)
    (h : (entries.forM fun (name, t, dir) ↦ do
      let _ ← Build.declareArgument name t dir : Build Unit).run d = (.ok ⟨⟩, after)) :
    Steps d after ∧ after.types = d.types ∧ after.writes = d.writes ∧
      after.arguments.map Prod.fst = d.arguments.map Prod.fst ++ entries.map Prod.fst ∧
      ∀ e ∈ entries, ∃ id node, (e.1, id) ∈ after.arguments ∧
        after.graph.node? id = some node ∧ node.type = e.2.1 ∧ node.kind = .argument e.1 e.2.2 := by
  induction entries generalizing d with
  | nil =>
    obtain ⟨-, rfl⟩ := ok_of_run_pure h
    exact ⟨.refl, rfl, rfl, (append_nil _).symm, forall_mem_nil _⟩
  | cons e entries ih =>
    obtain ⟨name, t, dir⟩ := e
    obtain ⟨ht, hos⟩ := forall_mem_cons.mp hts
    obtain ⟨s, hfst, hrs⟩ := ok_of_run_forM_cons h
    obtain ⟨id, s, hdeclare, hret⟩ := ok_of_run_bind hfst
    obtain ⟨-, rfl⟩ := ok_of_run_pure hret
    obtain ⟨hstep, hsame, hws, hls, node, hn, hcontents⟩ := ok_of_run_declareArgument hs ht hdeclare
    obtain ⟨hsts, hsame', hwrites', hnames, hdeclared⟩ := ih (hs.step hstep) (hsame ▸ hos) hrs
    refine ⟨.head hstep hsts, hsame'.trans hsame, hwrites'.trans hws, ?_, ?_⟩
    · rw [hnames, hls, map_append, append_assoc]
      rfl
    · refine forall_mem_cons.mpr ⟨?_, hdeclared⟩
      have hm : (name, id) ∈ s.arguments := hls ▸ mem_append_right _ mem_cons_self
      exact ⟨id, node, hsts.precedes.arguments.subset hm, hsts.precedes.graph.node? hn, hcontents⟩

/-- The adjoint declares the arguments of the function and their gradients. -/
theorem Sound.ok_of_adjoint_declare (hpm : p.Sound)
    (h : ((p.adjointArguments ex).forM fun (name, t, dir) ↦ do
      let _ ← Build.declareArgument name t dir : Build Unit).run
        (p.adjointStart owner).draft = (.ok ⟨⟩, after)) :
    p.Copying after ∧ after.types = p.types ∧ after.options = p.options ∧ after.writes = [] ∧
      after.arguments.map Prod.fst = (p.adjointArguments ex).map Prod.fst ∧
      ∀ e ∈ p.adjointArguments ex, ∃ id node, (e.1, id) ∈ after.arguments ∧
        after.graph.node? id = some node ∧ node.type = e.2.1 ∧ node.kind = .argument e.1 e.2.2 := by
  obtain ⟨hsts, hts, hws, hnames, hdeclared⟩ := ok_of_run_declareArguments (sound_new ..)
    (fun _ hen ↦ hpm.isSome_type_of_mem_adjoint hen) h
  have hs := (sound_new ..).steps hsts
  refine ⟨⟨hs, hsts.precedes.operators, hsts.precedes.types,
    fun {id node name dir} hn hk ↦ ?_⟩, hts, hsts.precedes.options, hws, hnames,
    hdeclared⟩
  obtain ⟨copy, m, hls, hf, ht, hfk⟩ := hdeclared _
    (mem_adjointArguments (hpm.mem_argumentsOf hn hk) ex)
  refine ⟨copy, lookup_of_mem hs.arguments_nodup hls, ?_⟩
  refine SameKind.same ?_ ht.symm hn hf
  rw [hk, hfk]
  exact .argument name dir

/-- The adjoint begins with its arguments and copies of the function's writes. -/
theorem Sound.ok_of_adjoint_copy (hpm : p.Sound) (hun : p.operators.Uniform)
    (hnormal : p.Normalized) (h : (do
      (p.adjointArguments ex).forM fun (name, t, dir) ↦ do
        let _ ← Build.declareArgument name t dir
      Build.copyWrites p : Build Unit).run (p.adjointStart owner).draft = (.ok ⟨⟩, after)) :
    p.Copying after ∧ Forall₂ (Same p after) p.writes after.writes := by
  obtain ⟨⟨⟩, declared, hdeclare, hcp⟩ := ok_of_run_bind h
  obtain ⟨hsta, -, -, hws, -⟩ := hpm.ok_of_adjoint_declare hdeclare
  exact hsta.ok_of_run_copyWrites (fun _ _ _ _ hl hsame ↦ hsame.later (.refl p) hl)
    hpm (fun _ _ _ _ _ _ h _ hn hr ↦ Copying.copyNode h hpm hun hnormal hn hr)
    (fun _ _ _ _ _ _ hcpy _ _ _ _ hsame hsame' ↦
      (hsame.eq_iff hpm.interned hcpy.sound.interned hsame').mpr rfl) hws hcp

end Adjoint

end Draft

end DiffGraph
