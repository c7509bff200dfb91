import DiffGraph.Proofs.Draft.ChainRules
import DiffGraph.Proofs.Draft.Places

/-!
Derivatives as they are built. A node is differentiated from the derivatives of its operands, which
are known by then, and the derivative that is built denotes the derivative of what the node denotes
(`attains_differentiateNode`). Known derivatives are used again, in this and in every later draft;
they were built in the same way, so they denote what they should (`Ready.remembers`). Together this
gives the derivative of any term with respect to any address (`attains_differentiate`).
-/

set_option autoImplicit false

namespace DiffGraph

open List Stateful Draft Build Option Std.HashMap

variable {args done : List NodeId} {d draft d' : Draft} {addr id deriv : NodeId} {n : Node}
  {name : String} {pos : Nat}

/-- Derivatives of the operands that are known. -/
def Draft.HasTangents (d : Draft) (addr : NodeId) (args tangents : List NodeId) : Prop :=
  Forall₂ (fun arg tangent ↦ d.derivatives[(addr, arg)]? = some tangent) args
    tangents

namespace Build

section Tangents

variable {tangents : List NodeId}

theorem run_tangent (h : d.derivatives[(addr, id)]? = some deriv) :
    (tangent addr id).run d = (.ok deriv, d) := by
  have hf : (derivative? addr id).run d = (.ok (some deriv), d) := by
    rw [derivative?, run_get_bind, h]
    rfl
  rw [tangent, run_bind_of_ok hf]
  rfl

theorem ok_of_run_tangent (h : (tangent addr id).run draft = (.ok deriv, d')) :
    draft.derivatives[(addr, id)]? = some deriv ∧ d' = draft := by
  cases hkn : draft.derivatives[(addr, id)]? with
  | some m =>
    cases h.symm.trans (run_tangent hkn)
    exact ⟨rfl, rfl⟩
  | none =>
    have hf : (derivative? addr id).run draft = (.ok none, draft) := by
      rw [derivative?, run_get_bind, hkn]
      rfl
    rw [tangent, run_bind_of_ok hf] at h
    obtain ⟨text, s, -, hthrow⟩ := ok_of_run_bind h
    cases hthrow

theorem run_mapM_tangent (h : d.HasTangents addr args tangents) :
    (args.mapM (tangent addr)).run d = (.ok tangents, d) := by
  induction h with
  | nil => rfl
  | cons hfst _ ih =>
    rw [mapM_cons, run_bind_of_ok (run_tangent hfst), run_bind_of_ok ih]
    rfl

theorem ok_of_run_mapM_tangent (h : (args.mapM (tangent addr)).run draft = (.ok tangents, d')) :
    draft.HasTangents addr args tangents ∧ d' = draft := by
  induction args generalizing tangents with
  | nil =>
    rw [mapM_nil] at h
    obtain ⟨rfl, rfl⟩ := ok_of_run_pure h
    exact ⟨.nil, rfl⟩
  | cons arg args ih =>
    obtain ⟨first, rest, s, hfst, hrs, rfl⟩ := ok_of_run_mapM_cons h
    obtain ⟨hkn, rfl⟩ := ok_of_run_tangent hfst
    obtain ⟨hos, rfl⟩ := ih hrs
    exact ⟨.cons hkn hos, rfl⟩

end Tangents

section Nodes

/-- The derivative of an application is built by the rule of its operator. -/
theorem run_differentiateNode_registered (hn : draft.graph.node? id = some n)
    (haddr : n.isAddress = false) (hk : n.kind = .expression (.registered name pos) args)
    {ov : Overload} (hov : draft.operators.overload? name pos = some ov)
    {rule : List NodeId → List NodeId → Plan NodeId} (hru : ov.rules.derivative = some rule) :
    (differentiateNode addr id).run draft = (do
      let tangents ← args.mapM (tangent addr)
      carryOut (rule args tangents) : Build NodeId).run draft := by
  rw [differentiateNode, run_bind_of_ok (run_node_of_some hn), hk]
  dsimp only
  rw [haddr, if_neg Bool.false_ne_true, differentiateExpression, run_get_bind, hov, bind_some, hru]

theorem owns_of_run_differentiateNode (h : (differentiateNode addr id).run d = (.ok deriv, d')) :
    d.graph.Owns id := by
  obtain ⟨m, s, hf, -⟩ := ok_of_run_bind h
  exact Graph.owns_iff_node?.mpr ⟨m, (ok_of_run_node hf).1⟩

end Nodes

end Build

namespace Draft

/-- The draft grew into the other one, and derivatives that were known still are. -/
structure Recalls (older newer : Draft) : Prop extends older.Precedes newer where
  known : ∀ ⦃key : NodeId × NodeId⦄ ⦃k : NodeId⦄, older.derivatives[key]? = some k →
    newer.derivatives[key]? = some k

/-- What holds of a derivative when it is built from others that are known, and keeps holding, holds
of all that are known. They are derivatives of nodes of the draft with respect to such nodes. -/
theorem Derived.known_induction {P : Draft → NodeId → NodeId → NodeId → Prop} (h : d.Derived)
    (hkn : d.derivatives[(addr, id)]? = some deriv)
    (hbuilt : ∀ ⦃d reached d' : Draft⦄ ⦃addr id deriv : NodeId⦄, d.Sound → d.graph.Owns addr →
      (∀ {addr id deriv : NodeId}, d.derivatives[(addr, id)]? = some deriv → P d addr id deriv) →
      (differentiateNode addr id).run d = (.ok deriv, reached) → reached.Precedes d' →
      d.Recalls d' → P d' addr id deriv)
    (hlater : ∀ ⦃older newer : Draft⦄ ⦃addr id deriv : NodeId⦄, older.Sound → older.Recalls newer →
      older.graph.Owns addr → older.graph.Owns id → P older addr id deriv → P newer addr id deriv) :
    (d.graph.Owns addr ∧ d.graph.Owns id) ∧ P d addr id deriv := by
  induction h generalizing addr id deriv with
  | none hempty =>
    rw [hempty, getElem?_empty] at hkn
    cases hkn
  | later _ hs hpr hsame ih =>
    rw [hsame] at hkn
    obtain ⟨⟨haddr, hid⟩, hold⟩ := ih hkn
    exact ⟨⟨hpr.graph.owns haddr, hpr.graph.owns hid⟩,
      hlater hs ⟨hpr, fun _ _ h ↦ hsame ▸ h⟩ haddr hid hold⟩
  | @record draft d' last lastId lastDeriv _ hs haddr hnew hr hsts ih =>
    have hrecord := precedes_record d' last lastId lastDeriv
    have hpr := hsts.precedes.trans hrecord
    have hkept : draft.Recalls { d' with
        derivatives := d'.derivatives.insert (last, lastId) lastDeriv } := by
      refine ⟨hpr, fun key k h ↦ ?_⟩
      rw [Std.HashMap.getElem?_insert, hsts.derivatives]
      split
      next hsame =>
        rw [← eq_of_beq hsame, hnew] at h
        cases h
      next => exact h
    rw [Std.HashMap.getElem?_insert] at hkn
    split at hkn
    next hsame =>
      obtain ⟨rfl, rfl⟩ := Prod.mk.inj (eq_of_beq hsame)
      obtain rfl := some.inj hkn
      exact ⟨⟨hpr.graph.owns haddr, hpr.graph.owns (owns_of_run_differentiateNode hr)⟩,
        hbuilt hs haddr (fun hkn ↦ (ih hkn).2) hr hrecord hkept⟩
    next =>
      rw [hsts.derivatives] at hkn
      obtain ⟨⟨haddr, hid⟩, hold⟩ := ih hkn
      exact ⟨⟨hpr.graph.owns haddr, hpr.graph.owns hid⟩, hlater hs hkept haddr hid hold⟩

/-- A derivative that was asked for is known from then on, and what was known stays known. -/
theorem known_of_run_differentiateOnce (hs : d.Sound)
    (h : (differentiateOnce addr id).run d = (.ok deriv, d')) :
    d'.derivatives[(addr, id)]? = some deriv ∧
      ∀ ⦃key : NodeId × NodeId⦄ ⦃k : NodeId⦄, d.derivatives[key]? = some k →
        d'.derivatives[key]? = some k := by
  have hsta : (differentiateOnce addr id).run d = _ := run_bind_of_ok rfl
  rw [hsta] at h
  cases hkn : d.derivatives[(addr, id)]? with
  | some k =>
    rw [hkn] at h
    obtain ⟨rfl, rfl⟩ := ok_of_run_pure h
    exact ⟨hkn, fun _ _ hf ↦ hf⟩
  | none =>
    rw [hkn] at h
    obtain ⟨built, s, hbuilt, hrs⟩ := ok_of_run_bind h
    have hderivatives := (differentiateNode_enlarges addr id d hs).1.derivatives
    rw [hbuilt] at hderivatives
    cases hrs
    refine ⟨getElem?_insert_self, fun key k hf ↦ ?_⟩
    show (s.derivatives.insert (addr, id) deriv)[key]? = some k
    rw [Std.HashMap.getElem?_insert, hderivatives]
    split
    next hsame =>
      rw [← eq_of_beq hsame, hkn] at hf
      cases hf
    next => exact hf

end Draft

namespace Setting

variable {F : Type} [Field F] (S : Setting F)

/-- The rules of the operator call no function that the interpretation is not exact on. -/
def Handles (name : String) : Prop := Precision.calls name ⊆ S.functions

/-- The known derivatives of terms denote the derivatives of what the terms denote. -/
def Remembers (d : Draft) : Prop :=
  ∀ ⦃addr id deriv : NodeId⦄ ⦃t : String⦄ ⦃path : AccessPath⦄,
    d.derivatives[(addr, id)]? = some deriv → d.Locates addr t path →
      d.TermOver S.precision.type S.Handles id →
        S.Means d deriv (S.slopeAt path id)

variable {S} {t : String} {path : AccessPath}

theorem attains_unitIf (hrd : S.Ready d) (isAddress : Bool) {mayFail : Prop} :
    d.Attains (Build.unitIf isAddress S.precision.type) mayFail fun d' id ↦
      S.Means d' id (if isAddress then 1 else 0) := by
  cases isAddress with
  | true => exact attains_one hrd
  | false => exact attains_zero hrd

section Nodes

/-- Reads of the address vary with it, and other reads do not. -/
theorem attains_differentiateNode_read (hrd : S.Ready d)
    (hpl : d.Locates addr t path) (hn : d.graph.node? id = some n)
    (ht : n.type = S.precision.type) {src : NodeId} (hk : n.kind = .read src) :
    d.Attains (Build.differentiateNode addr id) (S.limit < 2) fun d' deriv ↦
      S.Means d' deriv (S.slopeAt path id) := by
  obtain ⟨-, tgt, htg, haddr, -⟩ := hrd.sound.read hn hk
  obtain ⟨way, hway⟩ := hrd.sound.exists_place htg haddr
  have hsame : src = addr ↔ way = path := by
    constructor
    · rintro rfl
      exact some.inj (hway.accessPath?.symm.trans hpl.accessPath?)
    · rintro rfl
      exact (hway.unique hrd.sound hpl).1
  refine Attains.after_ok ?_ (run_node_of_some hn)
  rw [hk, ht]
  refine (attains_unitIf hrd _).mono (fun hfl ↦ hfl) fun hpr _ hmeans ↦ ?_
  refine hmeans.congr fun hla ↦ ?_
  have hl := hpr.trans hla
  have hslope : S.slopeAt path id = _ := S.interpretation.tangent_read path
    (hl.graph.node? hn) hk (hway.later hl).accessPath?
  simp only [hslope, decide_eq_true_eq, hsame]

theorem attains_differentiateNode_registered (hrd : S.Ready d) (hremembers : S.Remembers d)
    (hpl : d.Locates addr t path) (hn : d.graph.node? id = some n) (haddr : n.isAddress = false)
    {tangents : List NodeId} (hk : n.kind = .expression (.registered name pos) args)
    (hnm : S.Handles name) (htms : ∀ arg ∈ args, d.TermOver S.precision.type S.Handles arg)
    (htan : d.HasTangents addr args tangents) :
    d.Attains (Build.differentiateNode addr id) (S.limit < 2) fun d' deriv ↦
      S.Means d' deriv (S.slopeAt path id) := by
  obtain ⟨ov, rfl, hov, hacc, hrv⟩ := hrd.sound.resolve_of_terms
    hrd.supports.operators hn hk fun arg hop ↦ (htms arg hop).term
  obtain ⟨rule, hru, hdifferentiates⟩ :=
    (chainRules ov (hrd.supports.mem_operators hrv) hnm).differentiates
  have hvs : Forall₂ (S.Means d) args (args.map S.value) := forall₂_map_right_iff.mpr
      (forall₂_same.mpr fun arg hop ↦ means_value (htms arg hop).term)
  have hslopes : Forall₂ (S.Means d) tangents (args.map (S.slopeAt path)) := by
    refine forall₂_map_right_iff.mpr (Forall₂.flip ?_)
    refine ((forall₂_and_left _ _).mpr ⟨htms, htan⟩).imp fun arg tangent h ↦ ?_
    exact hremembers h.2 hpl h.1
  have hmakes := hdifferentiates hacc hvs hslopes htan.length_eq.symm hrd
  refine Attains.of_run ?_ (run_differentiateNode_registered hn haddr hk hov hru)
  refine Attains.after_ok ?_ (run_mapM_tangent htan)
  refine hmakes.mono (fun hfl ↦ hfl) fun hpr _ hmeans ↦ ?_
  exact hmeans.congr fun hla ↦ (S.interpretation.tangent_registered path
    ((hpr.trans hla).graph.node? hn) hk).symm

/-- A term is differentiated from the derivatives of its operands. -/
theorem attains_differentiateNode (hrd : S.Ready d) (hremembers : S.Remembers d)
    (hpl : d.Locates addr t path) (htm : d.TermOver S.precision.type S.Handles id)
    (htan : ∀ {n : Node} {name : String} {pos : Nat} {args : List NodeId},
      d.graph.node? id = some n → n.kind = .expression (.registered name pos) args →
          ∃ tangents, d.HasTangents addr args tangents) :
    d.Attains (Build.differentiateNode addr id) (S.limit < 2) fun d' deriv ↦
      S.Means d' deriv (S.slopeAt path id) := by
  cases htm with
  | constant hst =>
    obtain ⟨n, hn, ht, hk, -⟩ := hst
    refine Attains.after_ok ?_ (run_node_of_some hn)
    rw [hk, ht]
    refine (attains_zero hrd).mono (fun hfl ↦ hfl) fun hpr _ hmeans ↦ ?_
    exact hmeans.congr fun hla ↦ (S.interpretation.tangent_constant path
      ((hpr.trans hla).graph.node? hn) hk).symm
  | read hn ht _ hk =>
    exact attains_differentiateNode_read hrd hpl hn ht hk
  | registered hn _ haddr hk hnm htms =>
    obtain ⟨tangents, htan⟩ := htan hn hk
    exact attains_differentiateNode_registered hrd hremembers hpl hn haddr hk hnm htms htan

end Nodes

/-- Where a term was differentiated, the derivatives of its operands were known. -/
theorem exists_tangents (hrd : S.Ready d) (htm : d.TermOver S.precision.type S.Handles id)
    (hr : (Build.differentiateNode addr id).run d = (.ok deriv, d'))
    (hn : d.graph.node? id = some n) (hk : n.kind = .expression (.registered name pos) args) :
    ∃ tangents, d.HasTangents addr args tangents := by
  cases htm with
  | constant hst =>
    obtain ⟨m, hf, -, hc, -⟩ := hst
    cases hn.symm.trans hf
    cases hk.symm.trans hc
  | read hf _ _ hread =>
    cases hn.symm.trans hf
    cases hk.symm.trans hread
  | registered hf _ haddr hregistered hnm htms =>
    cases hn.symm.trans hf
    cases hk.symm.trans hregistered
    obtain ⟨ov, rfl, hov, hacc, hrv⟩ := hrd.sound.resolve_of_terms
      hrd.supports.operators hn hk fun arg hop ↦ (htms arg hop).term
    obtain ⟨rule, hru, -⟩ := (chainRules ov (hrd.supports.mem_operators hrv) hnm).differentiates
    rw [run_differentiateNode_registered hn haddr hk hov hru] at hr
    obtain ⟨tangents, s, htan, -⟩ := ok_of_run_bind hr
    exact ⟨tangents, (ok_of_run_mapM_tangent htan).1⟩

/-- Known derivatives denote what they should, whenever and wherever they were built. -/
theorem Ready.remembers (hrd : S.Ready draft) (h : draft.Derived) : S.Remembers draft := by
  intro addr id deriv t path hkn
  refine (h.known_induction (P := fun d addr id deriv ↦ ∀ {t path}, S.Ready d → d.Locates addr t path →
    d.TermOver S.precision.type S.Handles id → S.Means d deriv (S.slopeAt path id)) hkn ?_ ?_).2 hrd
  · intro d reached d' addr id deriv hs haddr hkn hr hla hrc t path hrd hpl htm
    have hpr := hrc.toPrecedes
    have hrd := hrd.earlier hpr hs
    have htm := htm.earlier hpr (owns_of_run_differentiateNode hr)
    have hattains := attains_differentiateNode hrd (fun _ _ _ _ _ h ↦ hkn h hrd)
      (hpl.earlier hs hpr haddr) htm (exists_tangents hrd htm hr)
    exact (hattains.of_ok hr).2.2.later hla
  · intro older newer addr id deriv hs hrc haddr hid hold t path hrd hpl htm
    have hpr := hrc.toPrecedes
    exact (hold (hrd.earlier hpr hs) (hpl.earlier hs hpr haddr) (htm.earlier hpr hid)).later hpr

section Walk

/-- A term that is differentiated once its operands are. What was known stays known. -/
theorem attains_differentiateOnce (hrd : S.Ready d) (hder : d.Derived) (hpl : d.Locates addr t path)
    (htm : d.TermOver S.precision.type S.Handles id)
    (htan : ∀ {n : Node} {name : String} {pos : Nat} {args : List NodeId},
      d.graph.node? id = some n → n.kind = .expression (.registered name pos) args →
          ∃ tangents, d.HasTangents addr args tangents) :
    d.Attains (Build.differentiateOnce addr id) (S.limit < 2) fun d' deriv ↦
      d'.Derived ∧ d'.derivatives[(addr, id)]? = some deriv ∧
        (∀ ⦃key : NodeId × NodeId⦄ ⦃k : NodeId⦄, d.derivatives[key]? = some k →
          d'.derivatives[key]? = some k) ∧
        S.Means d' deriv (S.slopeAt path id) := by
  have hremembers := hrd.remembers hder
  have hcontinues := differentiateOnce_ponders addr id d hpl.owns hrd.sound hder
  have hsta : (Build.differentiateOnce addr id).run d = _ := run_bind_of_ok rfl
  rw [hsta] at hcontinues
  cases hkn : d.derivatives[(addr, id)]? with
  | some deriv =>
    refine attains_of_ok hrd.sound (hsta.trans ?_)
      ⟨hder, hkn, fun _ _ h ↦ h, hremembers hkn hpl htm⟩
    rw [hkn]
    rfl
  | none =>
    rw [hkn] at hsta hcontinues
    rcases attains_differentiateNode hrd hremembers hpl htm htan with
      ⟨deriv, d', hr, hgr, hs, hmeans⟩ | ⟨hfl, error, d', hr⟩
    · have hla := hsta.trans (run_bind_of_ok hr)
      dsimp only at hcontinues
      rw [run_bind_of_ok hr] at hcontinues
      obtain ⟨⟨hevolves, haf, hder⟩, -⟩ := hcontinues
      obtain ⟨hknown, hkept⟩ := known_of_run_differentiateOnce hrd.sound hla
      exact .inl ⟨deriv, _, hla, ⟨hevolves.precedes, hgr.same_writes⟩, haf, hder, hknown, hkept,
        hmeans.later (precedes_record d' addr id deriv)⟩
    · exact .inr ⟨hfl, error, d', hsta.trans (run_bind_of_error hr)⟩

/-- The derivatives of these nodes are known. -/
def KnowsAll (d : Draft) (addr : NodeId) (done : List NodeId) : Prop :=
  ∀ part ∈ done, ∃ deriv, d.derivatives[(addr, part)]? = some deriv

theorem KnowsAll.tangents (h : KnowsAll d addr done) (hops : ∀ arg ∈ args, arg ∈ done) :
    ∃ tangents, d.HasTangents addr args tangents := by
  induction args with
  | nil => exact ⟨[], .nil⟩
  | cons arg args ih =>
    obtain ⟨hfst, hos⟩ := forall_mem_cons.mp hops
    obtain ⟨tangent, htangent⟩ := h arg hfst
    obtain ⟨tangents, htan⟩ := ih hos
    exact ⟨tangent :: tangents, .cons htangent htan⟩

/-- All nodes below a term are differentiated in turn. -/
theorem attains_forM_differentiateOnce {start : Draft} (hsta : start.Precedes d)
    (hrd : S.Ready d) (hder : d.Derived) (hpl : d.Locates addr t path)
    {rest : List NodeId} (hdone : KnowsAll d addr done)
    (htms : ∀ part ∈ rest, d.TermOver S.precision.type S.Handles part)
    (hord : ∀ {earlier later : List NodeId} {part : NodeId} {n : Node},
      done ++ rest = earlier ++ part :: later → start.graph.node? part = some n →
        n.isComputed = true → ∀ arg ∈ n.operands, arg ∈ earlier)
    (howd : ∀ part ∈ rest, start.graph.Owns part) :
    d.Attains (rest.forM fun part ↦ do let _ ← Build.differentiateOnce addr part)
      (S.limit < 2) fun d' _ ↦ d'.Derived ∧ KnowsAll d' addr (done ++ rest) := by
  induction rest generalizing d done with
  | nil =>
    rw [append_nil]
    exact attains_pure hrd.sound ⟨hder, hdone⟩
  | cons part rest ih =>
    obtain ⟨htm, hos⟩ := forall_mem_cons.mp htms
    obtain ⟨hp, howd⟩ := forall_mem_cons.mp howd
    obtain ⟨stored, hsd⟩ := Graph.owns_iff_node?.mp hp
    have hstep := attains_differentiateOnce hrd hder hpl htm
      fun {n name pos args} hn hk ↦ hdone.tangents fun arg hop ↦ by
        cases hn.symm.trans (hsta.graph.node? hsd)
        have haddr := hrd.sound.isAddress_of_registered hn hk
        refine hord rfl hsd ?_ arg ?_
        · rw [Node.isComputed, hk, haddr]
          rfl
        · rwa [Node.operands, hk]
    have hnx : d.Attains (do let _ ← Build.differentiateOnce addr part) (S.limit < 2)
        fun d' _ ↦ d'.Derived ∧ KnowsAll d' addr (done ++ [part]) := by
      refine hstep.bind fun _ hs hres ↦ ?_
      obtain ⟨hder, hkn, hkept, -⟩ := hres
      refine attains_pure hs ⟨hder, fun other ho ↦ ?_⟩
      rcases mem_append.mp ho with ho | ho
      · obtain ⟨deriv, hf⟩ := hdone other ho
        exact ⟨deriv, hkept hf⟩
      · exact mem_singleton.mp ho ▸ ⟨_, hkn⟩
    refine hnx.bind fun hpr hs hres ↦ ?_
    obtain ⟨hder, hdone⟩ := hres
    rw [append_cons] at hord ⊢
    exact ih (hsta.trans hpr) (hrd.later hpr hs) hder
      (hpl.later hpr) hdone (fun other ho ↦ (hos other ho).later hpr)
      hord howd

/-- The derivative of a term with respect to an address denotes the derivative of the term. -/
theorem attains_differentiate (hrd : S.Ready d) (hder : d.Derived) (hpl : d.Locates addr t path)
    (htm : d.TermOver S.precision.type S.Handles id) :
    d.Attains (Build.differentiate addr id) (S.limit < 2) fun d' deriv ↦
      S.Means d' deriv (S.slopeAt path id) := by
  have how := htm.term.holdsValue.owns
  obtain ⟨n, hn, -, haddr⟩ := hpl.node?
  have hf : (Build.derivative? addr id).run d = (.ok d.derivatives[(addr, id)]?, d) := run_get_bind
  refine Attains.after_ok ?_ (run_checkOwned_of_owns hpl.owns)
  refine Attains.after_ok ?_ (run_checkOwned_of_owns how)
  refine Attains.after_ok ?_ (run_node_of_some hn)
  extract_lets source
  have hsrc : addr = source := by
    unfold source
    cases hpl with
    | argument hf _ hk | part _ _ hf _ hk =>
      cases hn.symm.trans hf
      rw [hk]
  clear_value source
  subst hsrc
  refine Attains.after_ok ?_ (run_node_of_some hn)
  rw [haddr, Bool.not_true, if_neg Bool.false_ne_true]
  refine Attains.after_ok ?_ hf
  cases hkn : d.derivatives[(addr, id)]? with
  | some deriv =>
    exact attains_pure hrd.sound (hrd.remembers hder hkn hpl htm)
  | none =>
    dsimp only
    refine Attains.after_ok ?_ (run_get d)
    have hwalk := attains_forM_differentiateOnce (.refl d) hrd hder hpl (forall_mem_nil _)
      (fun part hp ↦ htm.of_mem_closure hp)
      (fun hord hn hcomp _ ↦ Graph.operand_mem_closure how hord hn hcomp)
      fun part hp ↦ Graph.owns_of_mem_closure how hp
    refine hwalk.bind fun {_ d'} hpr hs hres ↦ ?_
    obtain ⟨hder, hall⟩ := hres
    obtain ⟨deriv, hls⟩ := hall id (Graph.root_mem_closure Node.isComputed how)
    have hrd := hrd.later hpr hs
    have hsta : (Build.differentiateOnce addr id).run d' = _ := run_bind_of_ok rfl
    refine attains_of_ok hs (hsta.trans ?_) (hrd.remembers hder hls (hpl.later hpr) (htm.later hpr))
    rw [hls]
    rfl

end Walk

end Setting

end DiffGraph
