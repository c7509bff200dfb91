import DiffGraph.Proofs.Draft.Listing
import DiffGraph.Proofs.Draft.Outcomes
import DiffGraph.Proofs.Draft.Valuation
import DiffGraph.Proofs.Types.Normalization

/-!
Constants that are asked for again. A constant leads back to its node, unless it is the zero with a
sign that single precision makes of small negative numbers: that one leads to the zero without a
sign, which is another node (`Draft.Reachable.constant_again_iff`). An aggregate that is given as one
constant is stored with its items as they are, while an aggregate that is constructed from constants
has the items that its slots store. The two are one node exactly if the slots store the items in the
spelling they come in, or if there are only zeros (`Draft.Reachable.constant_eq_construct_iff`).
-/

set_option autoImplicit false

namespace DiffGraph

open Stateful Option List Build

variable {d draft : Draft} {t type : String} {v value : Value} {defn definition : TypeDefinition}

namespace Build

/-- An aggregate made of one constant for each slot. -/
def constructParts (t : String) (slots : List TypeDefinition) (items : List Value) :
    Build NodeId := do
  let parts ← (slots.zip items).mapM fun e ↦ constant e.1.name e.2
  construct t parts

end Build

namespace Draft

section Again

variable {id other : NodeId}

/-- Constants of one type are one node exactly if they are spelled in one way. -/
theorem Sound.constant_eq_iff (hs : d.Sound) {first second : Value}
    (hfst : d.StoresConstant id t first) (hsnd : d.StoresConstant other t second) :
    id = other ↔ first = second := by
  obtain ⟨n, hn, ht, hk, -⟩ := hfst
  obtain ⟨m, hf, hfoundType, hfk, -⟩ := hsnd
  constructor
  · rintro rfl
    cases hn.symm.trans hf
    exact NodeKind.constant.inj (hk.symm.trans hfk)
  · rintro rfl
    exact hs.interned.eq_of_contents hn hf (ht.trans hfoundType.symm) (hk.trans hfk.symm)

theorem Sound.storesConstant (hs : d.Sound) {n : Node}
    (hn : d.graph.node? id = some n) (hk : n.kind = .constant value) :
    d.StoresConstant id n.type value :=
  ⟨n, hn, rfl, hk, (hs.constant hn hk).1⟩

/-- What is stored for a constant was normalized. -/
theorem Sound.exists_normalize (hs : d.Sound) (h : d.StoresConstant id t v) :
    ∃ defn given, d.types.get? t = some defn ∧ v = defn.normalize given := by
  obtain ⟨n, hn, rfl, hk, -⟩ := h
  obtain ⟨-, before, defn, hbf, hg, given, rfl⟩ := hs.constant hn hk
  obtain ⟨wider, hwd, hwn⟩ := hbf.types.get? hg
  exact ⟨wider, given, hwd, (hwn.normalize given).symm⟩

/-- A constant that is its own spelling is found where it is. -/
theorem Sound.run_constant_of_normalize (hs : d.Sound)
    (h : d.StoresConstant id t v) (hg : d.types.get? t = some defn) (hv : defn.normalize v = v) :
    (Build.constant t v).run d = (.ok id, d) := by
  obtain ⟨n, hn, rfl, hk, haddr⟩ := h
  rw [Build.constant, run_bind_of_ok (run_lookupType_of_some hg), hv, ← hk, ← haddr]
  exact run_intern_self hs hn

/-- The zero with a sign is stored in single precision only. -/
theorem Sound.single_of_negativeZero (hs : d.Sound)
    (h : d.StoresConstant id t (.float .negativeZero)) :
    ∃ defn, d.types.get? t = some defn ∧ defn.shape = .scalar .single := by
  obtain ⟨defn, given, hg, hgiven⟩ := hs.exists_normalize h
  exact ⟨defn, hg, ((defn.normalize_eq_negativeZero_iff given).mp hgiven.symm).1⟩

/-- The zero with a sign leads to the zero without one. -/
theorem Sound.run_constant_negativeZero (hs : d.Sound)
    (h : d.StoresConstant id t (.float .negativeZero)) :
    ∃ other d', (Build.constant t (.float .negativeZero)).run d = (.ok other, d') ∧
      other ≠ id ∧ d'.StoresConstant other t (.float .zero) := by
  obtain ⟨defn, given, hg, hgiven⟩ := hs.exists_normalize h
  obtain ⟨other, d', hr, hgr, haf, ho⟩ := (attains_constant hs hg (.float .negativeZero)).exists_ok
  rw [hgiven, defn.normalize_normalize, if_pos hgiven.symm] at ho
  refine ⟨other, d', hr, fun hsame ↦ ?_, ho⟩
  have hvs := (haf.constant_eq_iff ho (h.later hgr.toPrecedes)).mp hsame
  exact absurd hvs (by decide)

/-- A constant that is asked for again is found, the zero with a sign apart: that one leads to the
zero without a sign. It is stored for the negative numbers that single precision rounds to zero and
for nothing else, so only in single precision two zeros of one type are told apart. -/
theorem Reachable.constant_again_iff (h : draft.Reachable) {node : Node}
    (hnode : draft.graph.node? id = some node) (hkind : node.kind = .constant value) :
    ((Build.constant node.type value).run draft = (.ok id, draft) ↔
      value ≠ .float .negativeZero) ∧
    (value = .float .negativeZero → ∃ other after,
      (Build.constant node.type value).run draft = (.ok other, after) ∧ other ≠ id ∧
        after.StoresConstant other node.type (.float .zero)) ∧
    (∃ definition, draft.types.get? node.type = some definition ∧
      (∃ given, value = definition.normalize given) ∧
      ∀ given, definition.normalize given = .float .negativeZero ↔
        definition.shape = .scalar .single ∧
          ∃ x : Binary64, given = .float x ∧ x.isZero = false ∧ x.toSingle = .negativeZero) ∧
    ∀ (other : NodeId) (found : Node) (x y : Binary64), value = .float x → x.isZero = true →
      draft.graph.node? other = some found → found.type = node.type →
      found.kind = .constant (.float y) → y.isZero = true →
        other = id ∨ (x = .negativeZero ∨ y = .negativeZero) ∧ ∃ definition,
          draft.types.get? node.type = some definition ∧ definition.shape = .scalar .single := by
  have hsound := h.sound
  have hstores := hsound.storesConstant hnode hkind
  obtain ⟨definition, given, hget, hgiven⟩ := hsound.exists_normalize hstores
  have hnegative : value = .float .negativeZero → ∃ other after,
      (Build.constant node.type value).run draft = (.ok other, after) ∧ other ≠ id ∧
        after.StoresConstant other node.type (.float .zero) := by
    rintro rfl
    exact hsound.run_constant_negativeZero hstores
  refine ⟨⟨fun hrun hvalue ↦ ?_, fun hvalue ↦ ?_⟩, hnegative,
    ⟨definition, hget, ⟨given, hgiven⟩, definition.normalize_eq_negativeZero_iff⟩, ?_⟩
  · obtain ⟨other, after, hrun', hne, -⟩ := hnegative hvalue
    cases hrun.symm.trans hrun'
    exact hne rfl
  · refine hsound.run_constant_of_normalize hstores hget ?_
    rw [hgiven] at hvalue ⊢
    rw [definition.normalize_normalize, if_neg hvalue]
  · rintro other found x y rfl hx hfound hfoundType hfoundKind hy
    have hother := hfoundType ▸ hsound.storesConstant hfound hfoundKind
    rcases Binary64.isZero_iff.mp hx with rfl | rfl
    · rcases Binary64.isZero_iff.mp hy with rfl | rfl
      · exact .inl ((hsound.constant_eq_iff hother hstores).mpr rfl)
      · exact .inr ⟨.inr rfl, hsound.single_of_negativeZero hother⟩
    · exact .inr ⟨.inl rfl, hsound.single_of_negativeZero hstores⟩

/-- The number `-1e-46`, which single precision rounds to zero. -/
def smallNegative : Binary64 := ⟨0xb66244ce242c5561⟩

/-- The number `-1e-46` is stored as the zero with a sign. A constant for what is stored is another
node. -/
theorem Reachable.constant_again_smallNegative :
    ∃ (draft : Draft) (id : NodeId) (node : Node), draft.Reachable ∧
      (Build.constant "float" (.float smallNegative)).run blank = (.ok id, draft) ∧
      draft.graph.node? id = some node ∧ node.type = "float" ∧
      node.kind = .constant (.float .negativeZero) ∧
      ¬(Build.constant node.type (.float .negativeZero)).run draft = (.ok id, draft) := by
  have hblank : blank.Reachable := .new ..
  obtain ⟨id, after, hrun, -, -, node, hnode, htype, hkind, -⟩ :=
    (attains_constant hblank.sound (show blank.types.get? "float" = some ⟨"float", .scalar .single⟩
      from rfl) (.float smallNegative)).exists_ok
  have hafter : after = blank.after (.request (.constant "float" (.float smallNegative))) :=
    (congrArg Prod.snd hrun).symm
  have hsingle : TypeDefinition.normalize ⟨"float", .scalar .single⟩ (.float smallNegative) =
      .float .negativeZero := by decide +kernel
  rw [hsingle] at hkind
  refine ⟨after, id, node, hafter ▸ hblank.operate _, hrun, hnode, htype, hkind, ?_⟩
  rw [(Reachable.constant_again_iff (hafter ▸ hblank.operate _) hnode hkind).1]
  exact fun hne ↦ hne rfl

end Again

section Aggregates

variable {slots : List TypeDefinition} {items : List Value}

theorem canonicalAll_zipWith_iff (hlen : slots.length = items.length) :
    Value.canonicalAll (slots.zipWith TypeDefinition.normalize items) = Value.canonicalAll items ↔
      ∀ e ∈ slots.zip items, (e.1.normalize e.2).canonical = e.2.canonical := by
  induction slots generalizing items with
  | nil =>
    obtain rfl := length_eq_zero_iff.mp hlen.symm
    simp
  | cons slot slots ih =>
    cases items with
    | nil => cases hlen
    | cons item items =>
      rw [zipWith_cons_cons, zip_cons_cons, Value.canonicalAll, Value.canonicalAll,
        List.cons.injEq, forall_mem_cons, ih (Nat.succ.inj hlen)]

/-- Constants are stored one after another, and the types stay as they are. -/
theorem Sound.run_constants (hs : d.Sound) (hlen : slots.length = items.length)
    (hslots : ∀ slot ∈ slots, d.types.get? slot.name = some slot) :
    ∃ parts d', ((slots.zip items).mapM fun e ↦ Build.constant e.1.name e.2).run d =
        (.ok parts, d') ∧ d.Precedes d' ∧ d'.Sound ∧ d'.types = d.types ∧
      d'.StoreConstants parts (slots.map TypeDefinition.name)
        (slots.zipWith TypeDefinition.normalize items) := by
  induction slots generalizing d items with
  | nil =>
    obtain rfl := length_eq_zero_iff.mp hlen.symm
    exact ⟨[], d, rfl, .refl d, hs, rfl, .nil⟩
  | cons slot slots ih =>
    cases items with
    | nil => cases hlen
    | cons item items =>
      obtain ⟨hsl, hos⟩ := forall_mem_cons.mp hslots
      obtain ⟨part, middle, hr, hgr, hmid, hp⟩ := (attains_constant hs hsl item).exists_ok
      have hts := ((constant_keepsRest _ _ _).of_run hr).types
      obtain ⟨parts, d', hrs, hl, haf, hafterTypes, hps⟩ :=
        ih hmid (Nat.succ.inj hlen) fun other ho ↦ hts ▸ hos other ho
      refine ⟨part :: parts, d', ?_, hgr.toPrecedes.trans hl, haf,
        hafterTypes.trans hts, .cons (hp.later hl) hps⟩
      rw [zip_cons_cons, mapM_cons, run_bind_of_ok hr, run_bind_of_ok hrs]
      rfl

/-- An aggregate that is constructed from constants is a constant. -/
theorem StoreConstants.run_construct {ids : List NodeId} {ts : List String} {values : List Value}
    (h : draft.StoreConstants ids ts values) (hg : draft.types.get? t = some defn)
    (hagg : defn.isAggregate = true) (harity : defn.arity? = some ids.length) :
    (Build.construct t ids).run draft = (Build.constant t (.tuple values)).run draft := by
  have hres : draft.result? t ids values .construct = some (.tuple values) := by
    rw [result?, hg, bind_some]
    unfold TypeDefinition.isAggregate at hagg
    split at hagg
    next hsh => rw [hsh]
    next hsh => rw [hsh]
    next => cases hagg
    next => cases hagg
  rw [Build.construct, Build.request, run_get_bind,
    run_perform_construct _ h.holdsValue hg (by rw [harity, getD_some])]
  exact run_finish_evaluated (run_evaluate?_of_result h.constants? rfl hres)

/-- An aggregate as one constant and an aggregate of constants are one node exactly if the slots
store the items in the spelling that they come in, the signs of zeros apart, or if both consist of
zeros. -/
theorem Reachable.constant_eq_construct_iff (h : draft.Reachable)
    (hget : draft.types.get? type = some definition) (haggregate : definition.isAggregate = true)
    (harity : definition.arity? = some items.length)
    (hslots : (List.range items.length).map (fun position ↦
      (definition.slotType? position).bind draft.types.get?) = slots.map some) :
    ∃ whole middle built after,
      (Build.constant type (.tuple items)).run draft = (.ok whole, middle) ∧
      (Build.constructParts type slots items).run middle = (.ok built, after) ∧
      (built = whole ↔
        (∀ entry ∈ slots.zip items, (entry.1.normalize entry.2).canonical = entry.2.canonical) ∨
          Value.allZero (slots.zipWith TypeDefinition.normalize items) = true ∧
            Value.allZero items = true) := by
  have hsound := h.sound
  have hlength : slots.length = items.length := by
    have hlengths := congrArg List.length hslots
    rw [List.length_map, List.length_map, List.length_range] at hlengths
    exact hlengths.symm
  have hknown : ∀ slot ∈ slots, draft.types.get? slot.name = some slot := by
    intro slot hslot
    have hmember := hslots ▸ List.mem_map_of_mem hslot
    obtain ⟨position, -, hposition⟩ := List.mem_map.mp hmember
    obtain ⟨name, -, hname⟩ := Option.bind_eq_some_iff.mp hposition
    rw [TypeTable.get?_name hname]
    exact hname
  have hnormalize (value : Value) : definition.normalize value = value.canonical := by
    unfold TypeDefinition.isAggregate at haggregate
    split at haggregate
    next hshape => rw [TypeDefinition.normalize, hshape]
    next hshape => rw [TypeDefinition.normalize, hshape]
    next => cases haggregate
    next => cases haggregate
  obtain ⟨whole, middle, hwholeRun, hmiddleGrows, hmiddle, hwhole⟩ :=
    (attains_constant hsound hget (.tuple items)).exists_ok
  have hmiddleTypes := ((Build.constant_keepsRest _ _ _).of_run hwholeRun).types
  obtain ⟨parts, last, hpartsRun, hlast, hlastSound, hlastTypes, hparts⟩ :=
    hmiddle.run_constants hlength (hmiddleTypes ▸ hknown)
  have hlastGet : last.types.get? type = some definition := by rwa [hlastTypes, hmiddleTypes]
  obtain ⟨built, after, hbuiltRun, hafterGrows, hafter, hbuilt⟩ :=
    (attains_constant hlastSound hlastGet
      (.tuple (slots.zipWith TypeDefinition.normalize items))).exists_ok
  have harity' : definition.arity? = some parts.length := by
    rw [hparts.holdsValue.length_eq, List.length_map, hlength, harity]
  refine ⟨whole, middle, built, after, hwholeRun, ?_, ?_⟩
  · rw [Build.constructParts, run_bind_of_ok hpartsRun,
      hparts.run_construct hlastGet haggregate harity', hbuiltRun]
  · rw [hafter.constant_eq_iff hbuilt (hwhole.later (hlast.trans hafterGrows.toPrecedes)),
      hnormalize, hnormalize, Value.canonical_tuple_eq_iff (by rw [List.length_zipWith]; omega),
      canonicalAll_zipWith_iff hlength]

/-- A record of one number. -/
def spanType : TypeDefinition := ⟨"Span", .record [("x", "double")] none⟩

/-- A record of the integer 3 is not the record of the number that its slot stores for 3. -/
theorem Reachable.constant_eq_construct_span :
    ∃ (draft : Draft) (whole built : NodeId) (middle after : Draft), draft.Reachable ∧
      draft.types.get? "Span" = some spanType ∧
      (Build.constant "Span" (.tuple [.int 3])).run draft = (.ok whole, middle) ∧
      (Build.constructParts "Span" [⟨"double", .scalar .double⟩] [.int 3]).run middle =
        (.ok built, after) ∧ built ≠ whole := by
  have hreachable : (Draft.new 0 "f" .standard ⟨spanType :: TypeTable.scalars.newestFirst⟩
    .default).Reachable := .new ..
  have hget : TypeTable.get? ⟨spanType :: TypeTable.scalars.newestFirst⟩ "Span" = some spanType := rfl
  have harity : spanType.arity? = some [Value.int 3].length := rfl
  have hslots : (List.range [Value.int 3].length).map (fun position ↦
      (spanType.slotType? position).bind
        (TypeTable.get? ⟨spanType :: TypeTable.scalars.newestFirst⟩)) =
      [(⟨"double", .scalar .double⟩ : TypeDefinition)].map some := rfl
  obtain ⟨whole, middle, built, after, hwhole, hbuilt, hiff⟩ :=
    hreachable.constant_eq_construct_iff hget rfl harity hslots
  refine ⟨_, whole, built, middle, after, hreachable, hget, hwhole, hbuilt, ?_⟩
  rw [Ne, hiff]
  decide +kernel

end Aggregates

end Draft

end DiffGraph
