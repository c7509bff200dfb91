import Mathlib.Data.List.Forall2
import DiffGraph.Proofs.Draft.Numbers
import DiffGraph.Proofs.Types.Normalization

/-!
Copies of functions of numbers. A constant is normalized again when it is copied, and a zero that was
rounded from a negative number loses its sign. So nodes that differ by the sign of a zero have one
copy, and the copy of a term may come out simpler than the term. It still denotes what the term
denotes, in every model that obeys the laws of arithmetic and is exact on the constants of the copies
(`Mirroring.copyNode`). Where no address is written twice, there is a copy for each of the writes
(`Copying.mirrors_of_run_copyWrites`).
-/

set_option autoImplicit false

namespace DiffGraph

open List Stateful Build

variable {addr v value addr' : NodeId} {α : Type} {prec precision : Precision} {path : AccessPath}
  {name : String}

theorem Model.Lawful.constant_normalize [Zero α] {model : Model α} (h : model.Lawful)
    (defn : TypeDefinition) (v : Value) :
    model.constant (defn.normalize (defn.normalize v)) = model.constant (defn.normalize v) := by
  rw [defn.normalize_normalize]
  split
  next hnegative =>
    have honce : (Value.float .negativeZero).isZero = true := Binary64.isZero_iff.mpr (.inr rfl)
    have hagain : (Value.float .zero).isZero = true := rfl
    rw [hnegative, h.constant_zero honce, h.constant_zero hagain]
  next => rfl

namespace Draft

section Copies

variable [Zero α] (model : Model α)

/-- A term that denotes the same as a term of another draft. -/
structure Echoes (src now : Draft) (t : String) (id copy : NodeId) : Prop where
  term : src.Term t id
  echo : now.Term t copy
  denote : model.Exact now t Precision.names →
    now.graph.denote model copy = src.graph.denote model id

/-- How the copies of the nodes of a function of numbers belong to the nodes. -/
inductive Mirrors (src now : Draft) : NodeId → NodeId → Prop
  | place {id copy : NodeId} {t : String} {path : AccessPath}
      (hpl : src.Locates id t path) (hsame : Same src now id copy) :
      Mirrors src now id copy
  | value {id copy : NodeId} {prec : Precision} (hsup : src.Supports prec)
      (hv : Echoes model src now prec.type id copy) : Mirrors src now id copy
  | write {id copy addr value addr' v' : NodeId} {n n' : Node}
      {prec : Precision} {path : AccessPath} (hn : src.graph.node? id = some n)
      (hk : n.kind = .write addr value) (hn' : now.graph.node? copy = some n')
      (hk' : n'.kind = .write addr' v') (hsup : src.Supports prec)
      (hpl : src.Locates addr prec.type path) (hsame : Same src now addr addr')
      (hv : Echoes model src now prec.type value v') : Mirrors src now id copy

/-- A draft with copies of nodes of a function of numbers. -/
abbrev Mirroring (src : Draft) (copies : Bindings) (now : Draft) : Prop :=
  Copies (Mirrors model src) src copies now

variable {model} {src now d' : Draft} {copies : Bindings} {id copy : NodeId} {n : Node}
  {t type : String}

theorem Echoes.later (h : Echoes model src now t id copy) (hl : now.Precedes d') :
    Echoes model src d' t id copy where
  term := h.term
  echo := h.echo.later hl
  denote hex := by
    rw [Graph.denote_extends hl.graph h.echo.holdsValue.owns]
    exact h.denote (hex.earlier hl)

theorem Mirrors.later (h : Mirrors model src now id copy) (hl : now.Precedes d') :
    Mirrors model src d' id copy := by
  cases h with
  | place hpl hsame => exact .place hpl (hsame.later (.refl src) hl)
  | value hsup hv => exact .value hsup (hv.later hl)
  | write hn hk hn' hk' hsup hpl hsame hv =>
    exact .write hn hk (hl.graph.node? hn') hk' hsup hpl (hsame.later (.refl src) hl) (hv.later hl)

/-- The copy of an address stands for the same term. -/
theorem Mirrors.same (h : Mirrors model src now id copy)
    (hpl : src.Locates id t path) : Same src now id copy := by
  obtain ⟨n, hn, -, haddr⟩ := hpl.node?
  cases h with
  | place _ hsame => exact hsame
  | value _ hv =>
    obtain ⟨m, hf, -, hfoundAddress⟩ := hv.term.holdsValue
    cases hn.symm.trans hf
    cases haddr.symm.trans hfoundAddress
  | write hf hk =>
    cases hn.symm.trans hf
    cases hpl with
    | argument hf _ harg =>
      cases hn.symm.trans hf
      cases hk.symm.trans harg
    | part _ _ hf _ hp =>
      cases hn.symm.trans hf
      cases hk.symm.trans hp

/-- The copy of a term denotes the same. -/
theorem Mirrors.echoes (h : Mirrors model src now id copy) (htm : src.Term t id) :
    Echoes model src now t id copy := by
  obtain ⟨n, hn, ht, haddr⟩ := htm.holdsValue
  cases h with
  | place hpl =>
    obtain ⟨m, hf, -, hfoundAddress⟩ := hpl.node?
    cases hn.symm.trans hf
    cases haddr.symm.trans hfoundAddress
  | value _ hv =>
    obtain ⟨m, hf, hfoundType, -⟩ := hv.term.holdsValue
    cases hn.symm.trans hf
    rwa [ht.symm.trans hfoundType]
  | write hf hk =>
    have hw := htm.isWrite_eq_false hf
    rw [Node.isWrite, hk] at hw
    cases hw

/-- A draft with other nodes supports the same numbers if it has the operators and the types. -/
theorem Supports.copying (h : src.Copying now) (hsup : src.Supports precision) :
    now.Supports precision := by
  obtain ⟨defn, kind, hg, hsh, hk⟩ := hsup.scalar
  obtain ⟨wider, hwd, hwn⟩ := h.types.get? hg
  exact ⟨h.operators.trans hsup.operators, hsup.standard, wider, kind, hwd,
    hwn.scalar_shape.mpr hsh, hk⟩

/-- The copies are what functions of numbers consist of. -/
theorem Mirrors.numeric (h : Mirrors model src now id copy) (hsrc : src.Sound)
    (hcpy : src.Copying now) : now.Numeric copy := by
  cases h with
  | place hpl hsame => exact .place (hsame.place hsrc hcpy.sound hcpy.types hpl)
  | value hsup hv => exact .value (hsup.copying hcpy) hv.echo
  | write _ _ hn' hk' hsup hpl hsame hv =>
    exact .write hn' hk' (hsup.copying hcpy) (hsame.place hsrc hcpy.sound hcpy.types hpl) hv.echo

section

variable (hsrc : src.Sound) (hnow : now.Sound) (hts : src.types.Extends now.types)
  (htm : src.Term t id) (h : Same src now id copy)

include hsrc hnow hts htm h

/-- What stands for the same term as a term is a term, and denotes the same. -/
theorem Same.term_denote :
    now.Term t copy ∧ now.graph.denote model copy = src.graph.denote model id := by
  have hcounterpart {id copy : NodeId} {n : Node} (h : Same src now id copy)
      (hn : src.graph.node? id = some n) :
      ∃ m kind, now.graph.node? copy = some m ∧ m.kind = kind ∧
        m.type = n.type ∧ m.isAddress = n.isAddress ∧ SameKind src now n.kind kind := by
    obtain ⟨m, hf⟩ := Graph.owns_iff_node?.mp h.right
    obtain ⟨ht, hsame⟩ := h.contents hn hf
    exact ⟨m, _, hf, rfl, ht.symm, (h.isAddress_eq hsrc hnow hn hf).symm, hsame⟩
  induction htm generalizing copy with
  | constant hst =>
    obtain ⟨n, hn, ht, hk, haddr⟩ := hst
    obtain ⟨m, kind, hf, hfk, hfoundType, hfoundAddress, hsame⟩ := hcounterpart h hn
    rw [hk] at hsame
    cases hsame
    have hcp : now.StoresConstant copy t _ :=
      ⟨m, hf, hfoundType.trans ht, hfk, hfoundAddress.trans haddr⟩
    exact ⟨.constant hcp, hcp.denote.trans (Graph.denote_constant hn hk).symm⟩
  | read hn ht haddr hk =>
    obtain ⟨m, kind, hf, hfk, hfoundType, hfoundAddress, hsame⟩ := hcounterpart h hn
    obtain ⟨-, tgt, htg, hta, -⟩ := hsrc.read hn hk
    obtain ⟨path, hpl⟩ := hsrc.exists_place htg hta
    rw [hk] at hsame
    cases hsame with
    | read haddresses =>
      refine ⟨.read hf (hfoundType.trans ht) (hfoundAddress.trans haddr) hfk, ?_⟩
      rw [Graph.denote_read hn hk hpl.accessPath?, Graph.denote_read hf hfk
        (haddresses.place hsrc hnow hts hpl).accessPath?]
  | @registered id n name pos args hn ht haddr hk _ ih =>
    obtain ⟨m, kind, hf, hfk, hfoundType, hfoundAddress, hsame⟩ := hcounterpart h hn
    rw [hk] at hsame
    cases hsame with
    | @expression _ _ operands' hops =>
      have hechoes : Forall₂ (fun id copy ↦ now.Term t copy ∧
          now.graph.denote model copy = src.graph.denote model id) args operands' :=
        Forall₂.imp (fun id copy hpair ↦ ih id hpair.1 hpair.2)
          ((forall₂_and_left _ _).mpr ⟨fun _ hid ↦ hid, hops⟩)
      refine ⟨.registered hf (hfoundType.trans ht) (hfoundAddress.trans haddr) hfk ?_, ?_⟩
      · intro arg hop
        obtain ⟨pos, hpos, rfl⟩ := mem_iff_getElem.mp hop
        exact (hechoes.get (hechoes.length_eq ▸ hpos) hpos).1
      · rw [Graph.denote_registered hn hk, Graph.denote_registered hf hfk]
        refine congrArg (model.operate name) (Eq.symm ?_)
        rw [← forall₂_eq_eq_eq, forall₂_map_left_iff, forall₂_map_right_iff]
        exact hechoes.imp fun _ _ hpair ↦ hpair.2.symm

theorem Same.echoes : Echoes model src now t id copy := by
  have hsame : now.Term t copy ∧ now.graph.denote model copy = src.graph.denote model id :=
    h.term_denote hsrc hnow hts htm
  exact ⟨htm, hsame.1, fun _ ↦ hsame.2⟩

end

/-- Writes that stand for the same term mirror each other. -/
theorem Same.mirrors (hsrc : src.Sound) (hcpy : src.Copying now) (hid : src.Numeric id)
    (hn : src.graph.node? id = some n) (hk : n.kind = .write addr v) (h : Same src now id copy) :
    Mirrors model src now id copy := by
  obtain ⟨prec, path, hsup, hpl, htm⟩ := hid.of_write hn hk
  obtain ⟨m, hf⟩ := Graph.owns_iff_node?.mp h.right
  have hsame := (h.contents hn hf).2
  rw [hk] at hsame
  generalize hfk : m.kind = kind at hsame
  cases hsame with
  | write haddr hv =>
    exact .write hn hk hf hfk hsup hpl haddr (hv.echoes hsrc hcpy.sound hcpy.types htm)

section Steps

variable (h : Mirroring model src copies now) (hsrc : src.Sound)
include h hsrc

theorem Mirroring.constant (hlaw : model.Lawful) {v : Value} (hst : src.StoresConstant id t v)
    (hr : (Build.constant t v).run now = (.ok copy, d')) :
    Echoes model src d' t id copy ∧ d'.writes = now.writes := by
  obtain ⟨defn, m, hg, hf, ht, hk, haddr⟩ := ok_of_run_constant h.copying.sound hr
  have hcp : d'.StoresConstant copy t _ := ⟨m, hf, ht, hk, haddr⟩
  refine ⟨⟨.constant hst, .constant hcp, fun _ ↦ ?_⟩, ((constant_keepsRest _ _ _).of_run hr).writes⟩
  obtain ⟨n, hn, rfl, hc, -⟩ := hst
  obtain ⟨-, before, older, hbf, holder, given, rfl⟩ := hsrc.constant hn hc
  obtain ⟨wider, hwd, hwn⟩ := (hbf.types.trans h.copying.types).get? holder
  cases hwd.symm.trans hg
  rw [hcp.denote, Graph.denote_constant hn hc, hwn.normalize, hlaw.constant_normalize]

theorem Mirroring.read (hn : src.graph.node? id = some n) (ht : n.type = type)
    (haddr : n.isAddress = false) (hk : n.kind = .read addr) (hcp : copies[addr]? = some addr')
    (hr : (Build.read addr').run now = (.ok copy, d')) :
    Echoes model src d' type id copy ∧ d'.writes = now.writes := by
  obtain ⟨-, tgt, htg, hta, hsameType⟩ := hsrc.read hn hk
  obtain ⟨path, hpl⟩ := hsrc.exists_place htg hta
  have hsame := (h.related hcp).same hpl
  have hplace' := (hsame.place hsrc h.copying.sound h.copying.types hpl).later
    ((read_enlarges addr' now).precedes hr h.copying.sound)
  obtain ⟨target', m, htg', -, hf, hfk, hfoundType, hfoundAddress⟩ :=
    ok_of_run_read h.copying.sound hr
  have hcopyType : m.type = type := by
    rw [hfoundType, ← (hsame.contents htg htg').1, hsameType, ht]
  refine ⟨⟨.read hn ht haddr hk, .read hf hcopyType hfoundAddress hfk,
    fun _ ↦ ?_⟩, (h.copying.read hsrc hn hk hsame hr).2⟩
  rw [Graph.denote_read hf hfk hplace'.accessPath?, Graph.denote_read hn hk hpl.accessPath?]

/-- The copy of an application stands for the operator applied to the copies of the operands. -/
theorem Mirroring.registered (hlaw : model.Lawful) (hsup : src.Supports prec) {pos : Nat}
    {args operands' : List NodeId} (hn : src.graph.node? id = some n) (ht : n.type = prec.type)
    (hk : n.kind = .expression (.registered name pos) args)
    (htms : ∀ operand ∈ args, src.Term prec.type operand)
    (hcopies : Forall₂ (fun id copy ↦ copies[id]? = some copy) args operands')
    (hr : (Build.rebuild (.registered name pos) n.type operands').run now = (.ok copy, d')) :
    Echoes model src d' prec.type id copy ∧ d'.writes = now.writes := by
  have hechoes : Forall₂ (Echoes model src now prec.type) args operands' := by
    refine Forall₂.imp (fun id copy hcp ↦ ?_) ((forall₂_and_left _ _).mpr ⟨htms, hcopies⟩)
    exact (h.related hcp.2).echoes hcp.1
  have hterms' : ∀ operand ∈ operands', now.Term prec.type operand := by
    intro operand hop
    obtain ⟨index, hix, rfl⟩ := mem_iff_getElem.mp hop
    exact (hechoes.get (hechoes.length_eq ▸ hix) hix).echo
  obtain ⟨ov, hnm, -, -, hrv⟩ := hsrc.resolve_of_terms hsup.operators hn hk htms
  have hls : name ∈ Precision.names := hnm ▸ Precision.mem_names (hsup.mem_operators hrv)
  rw [map_const', hechoes.length_eq, ← map_const'] at hrv
  have hattains := attains_perform_apply now.options.replacementLimit h.copying.sound
    (hsup.copying h.copying).calculates (fun id hid ↦ (hterms' id hid).holdsValue) hrv
  obtain ⟨hgr, -, hsimplifies⟩ := hattains.of_ok hr
  have haddr := hsrc.isAddress_of_registered hn hk
  refine ⟨⟨.registered hn ht haddr hk htms, hsimplifies.term fun operand hop ↦
    (hterms' operand hop).later hgr.toPrecedes, fun hex ↦ ?_⟩, hgr.same_writes⟩
  rw [hsimplifies.denote hlaw hex hls, Graph.denote_registered hn hk]
  refine congrArg (model.operate name) ?_
  clear hr hattains hsimplifies hrv hterms' hcopies htms hk
  induction hechoes with
  | nil => rfl
  | cons hhd _ ih =>
    rw [map_cons, map_cons, ih, (hhd.later hgr.toPrecedes).denote hex]

/-- The copy of a part of an address is the same part of the copy. -/
theorem Mirroring.part (hun : src.operators.Uniform) {base base' : NodeId}
    {op : Operator} {slots : List Operator} (hba : src.Locates base t ⟨name, slots⟩)
    (hn : src.graph.node? id = some n) (hk : n.kind = .expression op [base])
    (hcp : copies[base]? = some base')
    (hr : (Build.rebuild op n.type [base']).run now = (.ok copy, d')) :
    Same src d' id copy ∧ d'.writes = now.writes := by
  have hops : Forall₂ (Same src now) [base] [base'] := .cons ((h.related hcp).same hba) .nil
  have hintern := hsrc.run_rebuild_copy h.copying.sound h.copying.operators h.copying.types
    hops hun hn hk hr
  exact h.copying.same_of_run_intern hn (hk ▸ .expression op hops) hintern

/-- The copy of a write writes the copy of the value to the copy of the address. -/
theorem Mirroring.write {v' : NodeId} (hsup : src.Supports prec) (hn : src.graph.node? id = some n)
    (hk : n.kind = .write addr v) (hpl : src.Locates addr prec.type path)
    (htm : src.Term prec.type v) (haddr : copies[addr]? = some addr') (hv : copies[v]? = some v')
    (hr : (Build.write addr' (.node v')).run now = (.ok copy, d')) :
    Mirrors model src d' id copy ∧
      d'.writes = if now.writes.contains copy then now.writes else now.writes ++ [copy] := by
  have hl := (write_leads addr' (.node v') now).precedes hr h.copying.sound
  have hsame := (h.related haddr).same hpl
  have hechoes := (h.related hv).echoes htm
  obtain ⟨tgt, htg, htargetType, hta⟩ :=
    (hsame.place hsrc h.copying.sound h.copying.types hpl).node?
  obtain ⟨owned, rfl, hgraph, hws⟩ := ok_of_run_write htg hta
    (htargetType ▸ hechoes.echo.holdsValue) hr
  obtain ⟨n', hn', -, hk'⟩ := @Graph.node?_intern _ tgt.type _ false h.copying.sound.interned owned
  rw [← hgraph] at hn'
  exact ⟨.write hn hk hn' hk' hsup hpl (hsame.later (.refl src) hl) (hechoes.later hl), hws⟩

/-- The copy of a node of a function of numbers. Only the copy of a write is recorded. -/
theorem Mirroring.copyNode (hlaw : model.Lawful) (hun : src.operators.Uniform)
    (hid : src.Numeric id) (hn : src.graph.node? id = some n)
    (hr : (Build.copyNode n copies).run now = (.ok copy, d')) :
    Mirrors model src d' id copy ∧ d'.writes =
      if n.isWrite && !now.writes.contains copy then now.writes ++ [copy] else now.writes := by
  have hr := ok_of_run_copyNode hr
  unfold Node.isWrite
  cases hid with
  | place hpl =>
    have hcd := hpl
    cases hpl with
    | argument hf _ hk =>
      cases hn.symm.trans hf
      rw [hk] at hr ⊢
      obtain ⟨hsame, hws⟩ := h.copying.argument hn hk hr
      exact ⟨.place hcd hsame, hws⟩
    | part hba _ hf _ hk =>
      cases hn.symm.trans hf
      rw [hk] at hr ⊢
      obtain ⟨args', hcopies, hrebuild⟩ := hr
      obtain - | ⟨hcp, hno⟩ := hcopies
      cases hno
      obtain ⟨hsame, hws⟩ := Mirroring.part h hsrc hun hba hn hk hcp hrebuild
      exact ⟨.place hcd hsame, hws⟩
  | value hsup htm =>
    cases htm with
    | constant hst =>
      have hcd := hst
      obtain ⟨m, hf, ht, hk, -⟩ := hst
      cases hn.symm.trans hf
      rw [hk, ht] at hr
      rw [hk]
      exact (Mirroring.constant h hsrc hlaw hcd hr).imp_left (.value hsup)
    | read hf ht haddr hk =>
      cases hn.symm.trans hf
      rw [hk] at hr ⊢
      obtain ⟨addr', hcp, hrd⟩ := hr
      exact (Mirroring.read h hsrc hn ht haddr hk hcp hrd).imp_left (.value hsup)
    | registered hf ht _ hk htms =>
      cases hn.symm.trans hf
      rw [hk] at hr ⊢
      obtain ⟨args', hcopies, hrebuild⟩ := hr
      exact (Mirroring.registered h hsrc hlaw hsup hn ht hk htms hcopies
        hrebuild).imp_left (.value hsup)
  | write hf hk hsup hpl htm =>
    cases hn.symm.trans hf
    rw [hk] at hr ⊢
    obtain ⟨addr', v', haddr, hv, hw⟩ := hr
    obtain ⟨hmirrors, hws⟩ := Mirroring.write h hsrc hsup hn hk hpl htm haddr hv hw
    refine ⟨hmirrors, hws.trans ?_⟩
    cases now.writes.contains copy <;> rfl

end Steps

end Copies

/-- No address is written twice. -/
def WritesOnce (d : Draft) : Prop :=
  ∀ ⦃first second addr v other : NodeId⦄ ⦃n n' : Node⦄,
    d.graph.node? first = some n → n.kind = .write addr v →
      d.graph.node? second = some n' → n'.kind = .write addr other → first = second

section Writes

variable [Zero α] {model : Model α} {src now d' : Draft} {copies : Bindings}
  {id copy : NodeId} {n : Node}

/-- The copy of a write is a write. -/
theorem Mirrors.of_write (h : Mirrors model src now id copy)
    (hn : src.graph.node? id = some n) (hk : n.kind = .write addr value) :
    ∃ n' addr' value' prec path, now.graph.node? copy = some n' ∧
      n'.kind = .write addr' value' ∧ src.Supports prec ∧
        src.Locates addr prec.type path ∧ Same src now addr addr' ∧
          Echoes model src now prec.type value value' := by
  cases h with
  | place hpl =>
    cases hpl with
    | argument hf _ harg =>
      cases hn.symm.trans hf
      cases hk.symm.trans harg
    | part _ _ hf _ hp =>
      cases hn.symm.trans hf
      cases hk.symm.trans hp
  | value _ hv =>
    have hw := hv.term.isWrite_eq_false hn
    rw [Node.isWrite, hk] at hw
    cases hw
  | write hf hw hn' hk' hsup hpl hsame hv =>
    cases hn.symm.trans hf
    cases hk.symm.trans hw
    exact ⟨_, _, _, _, _, hn', hk', hsup, hpl, hsame, hv⟩

/-- Writes with one copy are writes to one address. -/
theorem Mirrors.eq_of_writesOnce {other : NodeId} (h : Mirrors model src now id copy)
    (ho : Mirrors model src now other copy) (honce : src.WritesOnce) (hsrc : src.graph.Interned)
    (hnow : now.graph.Interned) (hn : src.graph.node? id = some n) (hw : n.isWrite = true)
    {n' : Node} (hn' : src.graph.node? other = some n') (hwrite' : n'.isWrite = true) :
    id = other := by
  obtain ⟨addr, v, hk⟩ := kind_of_isWrite hw
  obtain ⟨addr', v', hk'⟩ := kind_of_isWrite hwrite'
  obtain ⟨m, _, _, _, _, hf, hfk, -, -, hsame, -⟩ := h.of_write hn hk
  obtain ⟨found', _, _, _, _, hf', hfoundKind', -, -, hsame', -⟩ := ho.of_write hn' hk'
  cases hf.symm.trans hf'
  cases hfk.symm.trans hfoundKind'
  obtain rfl := (hsame.eq_iff hsrc hnow hsame').mpr rfl
  exact honce hn hk hn' hk'

/-- The writes of a function of numbers are copied one by one. Where no address is written twice,
every write has a copy of its own. -/
theorem Copying.mirrors_of_run_copyWrites (h : src.Copying now) (hws : now.writes = [])
    (hsrc : src.Sound) (hlaw : model.Lawful) (hun : src.operators.Uniform) (honce : src.WritesOnce)
    (hnum : ∀ id ∈ src.order, src.Numeric id) (hr : (Build.copyWrites src).run now = (.ok ⟨⟩, d')) :
    src.Copying d' ∧ Forall₂ (Mirrors model src d') src.writes d'.writes :=
  h.ok_of_run_copyWrites (fun _ _ _ _ hl hmirrors ↦ hmirrors.later hl) hsrc
    (fun _ _ id _ _ _ h hid hn hr ↦ Mirroring.copyNode h hsrc hlaw hun (hnum id hid) hn hr)
    (fun _ _ _ _ _ _ hcpy hn hw ho hwrite' hmirrors hmirrors' ↦
      hmirrors.eq_of_writesOnce hmirrors' honce hsrc.interned hcpy.sound.interned hn hw
        ho hwrite') hws hr

end Writes

end Draft

end DiffGraph
