import DiffGraph.Proofs.Draft.Outcomes
import DiffGraph.Proofs.Types.Conformity

/-!
Slots. A member or an element is a slot of what it is taken of, and both are taken in one way: the
request for the slot looks at what the slot is taken of (`TakesSlot.run_perform`,
`TakesSlot.run_replace?`). Slots of constants, of constructed values and of values that were read are
found in them. So what a slot comes to is determined by the node that it is taken of
(`TakesSlot.slotOf_of_run`).
-/

set_option autoImplicit false

namespace DiffGraph

open Stateful TypeDefinition

variable {d draft : Draft} {args : List NodeId} {op : Operator} {slot : Nat} {id base : NodeId}
  {n tgt target : Node} {t type : String} {q request : Request} {onAddress : NodeId → Request}

namespace Build

theorem SlotRequest.isProjection (h : SlotRequest op base q) : op.isProjection = true := by
  cases h <;> rfl

theorem exists_slotRequest (h : op.isProjection = true) (base : NodeId) :
    ∃ request, SlotRequest op base request := by
  cases op with
  | member field => exact ⟨_, .member base field⟩
  | index pos => exact ⟨_, .index base pos⟩
  | registered | construct => cases h

theorem SlotRequest.rebuild_eq (h : SlotRequest op base request) (given : String) :
    rebuild op given [base] = Build.request request := by
  cases h <;> rfl

theorem SlotRequest.slot_eq (h : SlotRequest op base request) :
    Build.slot op base = Build.request request := by
  cases h <;> rfl

/-- Slots are not evaluated. -/
theorem run_evaluate?_slot (h : op.isProjection = true) :
    (evaluate? op t args).run d = (.ok none, d) := by
  cases op with
  | member | index => rfl
  | registered | construct => cases h

/-- A value that was read has its slots read instead, whatever comes of it. -/
theorem run_project_read_ne_none {perform : Request → Build NodeId} {addr : NodeId} {d' : Draft}
    (htg : d.graph.node? base = some tgt) (hk : tgt.kind = .read addr) :
    (project perform onAddress t base slot).run d ≠ (.ok none, d') := by
  intro h
  rw [project, run_bind_of_ok (run_node_of_some htg), hk] at h
  obtain ⟨part, s, -, hrd⟩ := ok_of_run_bind h
  exact run_some_ne_none hrd

theorem run_project_construct {perform : Request → Build NodeId} {parts : List NodeId}
    (htg : d.graph.node? base = some tgt) (hk : tgt.kind = .expression .construct parts) :
    (project perform onAddress t base slot).run d = (.ok parts[slot]?, d) := by
  rw [project, run_bind_of_ok (run_node_of_some htg), hk]
  rfl

end Build

/-- The node keeps no item and has no operand for the slot, and was not read. -/
def Node.Hides (node : Node) (slot : Nat) : Prop :=
  match node.kind with
  | .constant v => v.element? slot = none
  | .expression .construct parts => parts[slot]? = none
  | .read _ => False
  | _ => True

/-- What is hidden is not found. -/
theorem Node.Hides.run_project (h : tgt.Hides slot) (htg : d.graph.node? base = some tgt)
    (perform : Request → Build NodeId) (onAddress : NodeId → Request) (t : String) :
    (Build.project perform onAddress t base slot).run d = (.ok none, d) := by
  rw [Build.project, run_bind_of_ok (Build.run_node_of_some htg)]
  unfold Node.Hides at h
  cases hk : tgt.kind with
  | constant v =>
    rw [hk] at h
    dsimp only at h ⊢
    rw [h]
    rfl
  | expression op parts =>
    rw [hk] at h
    cases op with
    | construct => exact congrArg (fun m ↦ (Except.ok m, d)) h
    | registered | member | index => rfl
  | read => rw [hk] at h; cases h
  | argument | write => rfl

namespace Draft

open Build

variable {whole : TypeDefinition}

theorem TakesSlot.slotType? (h : TakesSlot whole op slot type) :
    whole.slotType? slot = some type := by
  rcases h with ⟨field, -, hfd⟩ | ⟨-, hel⟩
  · exact slotType?_of_field? hfd
  · exact slotType?_of_element hel

theorem TakesSlot.isProjection (h : TakesSlot whole op slot t) : op.isProjection = true := by
  rcases h with ⟨field, rfl, -⟩ | ⟨rfl, -⟩ <;> rfl

theorem TakesSlot.widens {wider : TypeDefinition} (h : TakesSlot whole op slot type)
    (hwn : whole.Widens wider) : TakesSlot wider op slot type :=
  h.imp (fun ⟨field, hopt, hfd⟩ ↦ ⟨field, hopt, hwn.field? hfd⟩)
    fun ⟨hopt, hel⟩ ↦ ⟨hopt, (hwn.element slot).trans hel⟩

section

variable (hs : d.Sound) (hn : d.graph.node? id = some n) (hk : n.kind = .expression op args)
  (hopt : op.isProjection = true)

include hs hn hk hopt

/-- A member or element is a slot of what it is taken of. -/
theorem Sound.takesSlot :
    ∃ base tgt whole slot, args = [base] ∧ d.graph.node? base = some tgt ∧
      tgt.isAddress = n.isAddress ∧ d.types.get? tgt.type = some whole ∧
        TakesSlot whole op slot n.type := by
  obtain ⟨before, hbf, hfi, -⟩ := hs.expression hn hk
  generalize n.isAddress = isAddress at hfi
  cases hfi with
  | registered | construct => cases hopt
  | member hba hdef hfd =>
    obtain ⟨wider, hwd, hwn⟩ := hbf.types.get? hdef
    exact ⟨_, _, wider, _, rfl, hbf.graph.node? hba, rfl, hwd, .inl ⟨_, rfl, hwn.field? hfd⟩⟩
  | index hba hdef hel =>
    obtain ⟨wider, hwd, hwn⟩ := hbf.types.get? hdef
    exact ⟨_, _, wider, _, rfl, hbf.graph.node? hba, rfl, hwd,
      .inr ⟨rfl, (hwn.element _).trans hel⟩⟩

theorem Sound.exists_base : ∃ base, args = [base] := by
  obtain ⟨base, _, _, _, hops, -⟩ := hs.takesSlot hn hk hopt
  exact ⟨base, hops⟩

end

/-- A slot is the application of the operator that takes it. -/
theorem TakesSlot.run_perform (h : TakesSlot whole op slot t)
    (hreq : SlotRequest op base q) (htg : draft.graph.node? base = some tgt)
    (hwh : draft.types.get? tgt.type = some whole) (rest : Nat) :
    (perform rest q).run draft =
      (finish (replaceWithin rest) op t [base] tgt.isAddress).run draft := by
  rcases h with ⟨field, rfl, hfd⟩ | ⟨rfl, hel⟩
  · cases hreq
    exact run_perform_member rest htg (TypeTable.member_of_field? hwh hfd)
  · cases hreq
    exact run_perform_index rest htg ((TypeTable.element_of_get? hwh slot).trans hel)

/-- The search for something simpler than a slot looks at what the slot is taken of. -/
theorem TakesSlot.run_replace? {slotType : String} (h : TakesSlot whole op slot slotType) :
    ∃ onAddress, (∀ addr, SlotRequest op addr (onAddress addr)) ∧
      ∀ {draft : Draft} {base : NodeId} {tgt : Node}, draft.graph.node? base = some tgt →
        draft.types.get? tgt.type = some whole → ∀ perform t,
          (replace? perform op t [base]).run draft =
            (project perform onAddress t base slot).run draft := by
  rcases h with ⟨field, rfl, hfd⟩ | ⟨rfl, -⟩
  · refine ⟨fun addr ↦ .member addr field, fun addr ↦ .member addr field,
      fun htg hwh perform t ↦ ?_⟩
    rw [replace?, run_get_bind, run_bind_of_ok (run_typeOf_of_some htg), hwh, Option.bind_some, hfd]
  · exact ⟨fun addr ↦ .index addr slot, fun addr ↦ .index addr slot, fun _ _ _ _ ↦ rfl⟩

/-- The slot of a constant is a constant. -/
theorem TakesSlot.run_rebuild_constant {baseType : String} {v item : Value}
    (h : TakesSlot whole op slot t) (hst : draft.StoresConstant base baseType v)
    (hwh : draft.types.get? baseType = some whole) (hit : v.element? slot = some item)
    (hlim : 0 < draft.options.replacementLimit) (given : String) :
    (rebuild op given [base]).run draft = (constant t item).run draft := by
  obtain ⟨tgt, htg, rfl, hk, -⟩ := hst
  obtain ⟨rest, hremaining⟩ := Nat.exists_eq_add_one.mpr hlim
  obtain ⟨q, hreq⟩ := exists_slotRequest h.isProjection base
  obtain ⟨onAddress, -, hrep⟩ := h.run_replace?
  rw [hreq.rebuild_eq, Build.request, run_get_bind, h.run_perform hreq htg hwh, hremaining]
  refine run_finish_replaced (run_evaluate?_slot h.isProjection) ?_
  exact (hrep htg hwh _ _).trans (run_project_constant htg hk hit _ _)

section Search

variable {rest : Nat} {d' after : Draft}

/-- The node that a slot comes to, with a number of nested replacements allowed. -/
inductive SlotOf (d : Draft) (op : Operator) (slot : Nat) (t : String)
    (base : NodeId) : Nat → NodeId → Prop
  | item {rest : Nat} {id : NodeId} {tgt : Node} {v item : Value}
      {defn : TypeDefinition} (htg : d.graph.node? base = some tgt)
      (hk : tgt.kind = .constant v) (hit : v.element? slot = some item)
      (hg : d.types.get? t = some defn)
      (hst : d.StoresConstant id t (defn.normalize item)) :
      SlotOf d op slot t base (rest + 1) id
  | part {rest : Nat} {id : NodeId} {tgt : Node} {parts : List NodeId}
      (htg : d.graph.node? base = some tgt)
      (hk : tgt.kind = .expression .construct parts) (hp : parts[slot]? = some id) :
      SlotOf d op slot t base (rest + 1) id
  | read {rest : Nat} {id addr part : NodeId} {tgt place n : Node}
      (htg : d.graph.node? base = some tgt) (hk : tgt.kind = .read addr)
      (hpl : d.graph.node? part = some place)
      (hplaceKind : place.kind = .expression op [addr]) (hplaceType : place.type = t)
      (hn : d.graph.node? id = some n) (hrd : n.kind = .read part) :
      SlotOf d op slot t base (rest + 2) id
  | formed {rest : Nat} {id : NodeId} {tgt n : Node}
      (htg : d.graph.node? base = some tgt) (hhides : tgt.Hides slot)
      (hn : d.graph.node? id = some n) (hk : n.kind = .expression op [base])
      (ht : n.type = t) :
      SlotOf d op slot t base (rest + 1) id

theorem Sound.hides_of_isAddress (hs : d.Sound) (htg : d.graph.node? base = some tgt)
    (haddr : tgt.isAddress = true) (slot : Nat) : tgt.Hides slot := by
  unfold Node.Hides
  rcases hs.address_cases htg haddr with
    ⟨_, _, hk⟩ | ⟨_, _, _, -, -, hk, ⟨_, rfl⟩ | ⟨_, rfl⟩⟩
  all_goals
    rw [hk]
    trivial

/-- What is hidden is formed. -/
theorem TakesSlot.run_finish_hidden (h : TakesSlot whole op slot t)
    (hwh : draft.types.get? tgt.type = some whole) (htg : draft.graph.node? base = some tgt)
    (hhides : tgt.Hides slot) (rest : Nat) (isAddress : Bool) :
    (finish (replaceWithin (rest + 1)) op t [base] isAddress).run draft =
      (intern t (.expression op [base]) isAddress).run draft := by
  obtain ⟨onAddress, -, hrep⟩ := h.run_replace?
  rw [finish, run_bind_of_ok (run_evaluate?_slot h.isProjection)]
  dsimp only
  rw [replaceWithin, run_bind_of_ok ((hrep htg hwh _ _).trans (hhides.run_project htg _ _ _))]

/-- No slot is taken where no replacement is allowed. -/
theorem TakesSlot.pos_of_run_finish (h : TakesSlot whole op slot t) {isAddress : Bool}
    (hr : (finish (replaceWithin rest) op t [base] isAddress).run d = (.ok id, d')) :
    ∃ fewer, rest = fewer + 1 := by
  cases rest with
  | succ fewer => exact ⟨fewer, rfl⟩
  | zero =>
    rw [finish, run_bind_of_ok (run_evaluate?_slot h.isProjection)] at hr
    obtain ⟨_, _, hlim, -⟩ := ok_of_run_bind hr
    cases hlim

/-- A slot that was taken is what the node has for it. -/
theorem TakesSlot.slotOf_of_run (h : TakesSlot whole op slot t) (hs : d.Sound)
    (htg : d.graph.node? base = some tgt) (hwh : d.types.get? tgt.type = some whole)
    (hr : (finish (replaceWithin rest) op t [base] tgt.isAddress).run d = (.ok id, d')) :
    d'.SlotOf op slot t base rest id := by
  obtain ⟨rest, rfl⟩ := h.pos_of_run_finish hr
  obtain ⟨q, hreq⟩ := exists_slotRequest h.isProjection base
  obtain ⟨onAddress, honAddress, hrep⟩ := h.run_replace?
  have hperform := (h.run_perform hreq htg hwh (rest + 1)).trans hr
  have hl := (perform_leads _ q d).precedes hperform hs
  have htg' := hl.graph.node? htg
  have hformed (hhides : tgt.Hides slot) : d'.SlotOf op slot t base (rest + 1) id := by
    rw [h.run_finish_hidden hwh htg hhides] at hr
    obtain ⟨owned, rfl, rfl⟩ := ok_of_run_intern hr
    obtain ⟨n, hn, ht, hk⟩ := Graph.node?_intern hs.interned owned
    exact .formed htg' hhides hn hk ht
  have hgiven (x : Build NodeId) (hproject : (project (perform rest) onAddress t base slot).run d =
        (do return some (← x) : Build (Option NodeId)).run d) :
      x.run d = (.ok id, d') :=
    (run_finish_replaced (run_evaluate?_slot h.isProjection)
      ((hrep htg hwh _ _).trans hproject)).symm.trans hr
  cases hk : tgt.kind with
  | constant v =>
    cases hit : v.element? slot with
    | none => exact hformed (by rw [Node.Hides, hk]; exact hit)
    | some item =>
      have hc := hgiven _ (run_project_constant htg hk hit _ _)
      obtain ⟨defn, n, hg, hn, hst⟩ := ok_of_run_constant hs hc
      obtain ⟨wider, hwd, hwn⟩ := hl.types.get? hg
      refine .item htg' hk hit hwd ⟨n, hn, ?_⟩
      rwa [hwn.normalize]
  | read addr =>
    have hrd : (perform rest (onAddress addr) >>= fun part ↦ Build.read part).run d =
        (.ok id, d') := by
      refine hgiven _ ?_
      rw [project, run_bind_of_ok (run_node_of_some htg), hk]
      dsimp only
      rw [bind_assoc]
    obtain ⟨-, place, hpl, haddr, hsame⟩ := hs.read htg hk
    rw [← hsame] at hwh
    obtain ⟨part, middle, hp, hrd⟩ := ok_of_run_bind hrd
    have hmid := (perform_leads _ _ d).sound hp hs
    rw [h.run_perform (honAddress addr) hpl hwh] at hp
    obtain ⟨rest, rfl⟩ := h.pos_of_run_finish hp
    rw [h.run_finish_hidden hwh hpl (hs.hides_of_isAddress hpl haddr slot)] at hp
    obtain ⟨owned, rfl, rfl⟩ := ok_of_run_intern hp
    obtain ⟨m, hf, ht, hfk⟩ := Graph.node?_intern hs.interned owned
    obtain ⟨_, n, -, -, hn, hnodeKind, -⟩ := ok_of_run_read hmid hrd
    have hla := (read_enlarges _ _).precedes hrd hmid
    exact .read htg' hk (hla.graph.node? hf) hfk ht hn hnodeKind
  | argument | write => exact hformed (by rw [Node.Hides, hk]; trivial)
  | expression other parts =>
    cases other with
    | construct =>
      cases hp : parts[slot]? with
      | none => exact hformed (by rw [Node.Hides, hk]; exact hp)
      | some part =>
        have hproject : (project (perform rest) onAddress t base slot).run d =
            (.ok (some part), d) := by rw [run_project_construct htg hk, hp]
        obtain ⟨rfl, rfl⟩ := ok_of_run_pure (hgiven (pure part) hproject)
        exact .part htg' hk hp
    | registered | member | index => exact hformed (by rw [Node.Hides, hk]; trivial)

/-- The slot of a value that was read is the slot of its address, read. -/
theorem TakesSlot.run_finish_read {addr part : NodeId} {place : Node} (h : TakesSlot whole op slot t)
    (hs : draft.Sound) (htg : draft.graph.node? base = some tgt) (hk : tgt.kind = .read addr)
    (hwh : draft.types.get? tgt.type = some whole) (hpl : draft.graph.node? part = some place)
    (hplaceKind : place.kind = .expression op [addr]) (hplaceType : place.type = t)
    (isAddress : Bool) :
    (finish (replaceWithin (rest + 2)) op t [base] isAddress).run draft =
      (Build.read part).run draft := by
  obtain ⟨onAddress, honAddress, hrep⟩ := h.run_replace?
  obtain ⟨-, src, hsrc, haddr, hsame⟩ := hs.read htg hk
  obtain ⟨_, _, _, _, hba, ho, hplaceAddress, -⟩ := hs.takesSlot hpl hplaceKind h.isProjection
  cases hba
  cases hsrc.symm.trans ho
  rw [← hsame] at hwh
  have hp : (perform (rest + 1) (onAddress addr)).run draft = (.ok part, draft) := by
    rw [h.run_perform (honAddress addr) hsrc hwh, h.run_finish_hidden hwh hsrc
      (hs.hides_of_isAddress hsrc haddr slot), hplaceAddress, ← hplaceKind, ← hplaceType]
    exact run_intern_self hs hpl
  refine (run_finish_replaced (x := perform (rest + 1) (onAddress addr) >>= Build.read)
    (run_evaluate?_slot h.isProjection) ((hrep htg (hsame ▸ hwh) _ _).trans ?_)).trans
      (run_bind_of_ok hp)
  rw [project, run_bind_of_ok (run_node_of_some htg), hk]
  dsimp only
  rw [bind_assoc]

/-- A slot that is asked for is searched for, with its field added to the type if it is new. -/
theorem Sound.ok_of_run_slot (hs : d.Sound) (hr : (Build.slot op base).run d = (.ok id, after)) :
    ∃ (types : TypeTable) (target : Node) (whole : TypeDefinition) (slot : Nat) (type : String),
      d.Precedes { d with types } ∧ ({ d with types } : Draft).Sound ∧
      d.graph.node? base = some target ∧ types.get? target.type = some whole ∧
      TakesSlot whole op slot type ∧
      (finish (replaceWithin d.options.replacementLimit) op type [base]
        target.isAddress).run { d with types } = (.ok id, after) := by
  have hopt : op.isProjection = true := by
    cases op with
    | registered | construct => cases hr
    | member | index => rfl
  obtain ⟨request, hreq⟩ := exists_slotRequest hopt base
  rw [hreq.slot_eq, Build.request, run_get_bind, perform_eq] at hr
  rcases slot_cases hreq d with ⟨error, -, hfl⟩ |
    ⟨types, target, whole, slot, type, htg, hwh, htk, hts, hfin⟩
  · cases (hfl _).symm.trans hr
  · have hsts : Steps d { d with types } := by
      rcases hts with rfl | ⟨field, found, -, hm⟩
      · exact .refl
      · exact .single (.types hm)
    exact ⟨types, target, whole, slot, type, hsts.precedes, hs.steps hsts, htg, hwh,
      htk, (hfin _).symm.trans hr⟩

theorem Sound.slotOf_of_run_slot (hs : d.Sound)
    (hr : (Build.slot op base).run d = (.ok id, after)) :
    d.Precedes after ∧ after.Sound ∧ ∃ target whole slot type,
      d.graph.node? base = some target ∧ after.types.get? target.type = some whole ∧
      TakesSlot whole op slot type ∧
      after.SlotOf op slot type base after.options.replacementLimit id := by
  obtain ⟨types, target, whole, slot, type, hbegun, hbegunSound, htg, hwh, htk, hfin⟩ :=
    hs.ok_of_run_slot hr
  obtain ⟨request, hreq⟩ := exists_slotRequest htk.isProjection base
  have hperform : (perform d.options.replacementLimit request).run { d with types } =
      (.ok id, after) := (htk.run_perform hreq (by exact htg) hwh _).trans hfin
  have hld := perform_leads d.options.replacementLimit request { d with types }
  have hl := hld.precedes hperform hbegunSound
  obtain ⟨wider, hwd, hwn⟩ := hl.types.get? hwh
  refine ⟨hbegun.trans hl, hld.sound hperform hbegunSound, target, wider, slot, type, htg,
    hwd, htk.widens hwn, ?_⟩
  rw [(hbegun.trans hl).options]
  exact htk.slotOf_of_run hbegunSound (by exact htg) hwh hfin

end Search

end Draft

end DiffGraph
