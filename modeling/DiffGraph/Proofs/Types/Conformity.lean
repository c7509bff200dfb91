import DiffGraph.Proofs.Types.Extension

/-!
Values of the shape that a type asks for: a number or truth value of the right kind, the zero of an
aggregate, or one conforming item for every slot. In a table of scalars, records without an
extension and templates with a length, the spelling that is stored for a conforming value conforms
again, and so does every slot of it.
-/

set_option autoImplicit false

namespace DiffGraph

open List Option TypeDefinition

variable {t type : TypeDefinition} {slot name : String} {pos position : Nat} {v : Value}
  {fields : List (String × String)} {kind : Scalar}

namespace TypeDefinition

/-- The type of a slot of an aggregate. -/
def slotType? (t : TypeDefinition) (pos : Nat) : Option String :=
  match t.shape with
  | .record fields _ => fields[pos]?.map Prod.snd
  | .template .. => (t.element pos).toOption
  | .scalar _ | .abstract => none

/-- A record or an instance of a template. -/
def isAggregate (t : TypeDefinition) : Bool :=
  match t.shape with
  | .record .. | .template .. => true
  | .scalar _ | .abstract => false

theorem slotType?_of_field? {field : String} (h : t.field? field = some (pos, slot)) :
    t.slotType? pos = some slot := by
  obtain ⟨m, hf, hen⟩ := bind_eq_some_iff.mp h
  obtain ⟨e, hg, heq⟩ := map_eq_some_iff.mp hen
  obtain ⟨rfl, rfl⟩ := Prod.mk.inj heq
  unfold fields at hg
  split at hg
  next hsh =>
    rw [slotType?, hsh]
    dsimp only
    rw [hg, map_some]
  next => cases hg

theorem slotType?_of_element (h : t.element pos = .ok slot) : t.slotType? pos = some slot := by
  have h' := h
  unfold element at h'
  split at h'
  next hsh =>
    rw [slotType?, hsh, h]
    rfl
  next => cases h'

/-- Slots are counted by the arity. -/
theorem lt_arity_of_slotType? {arity : Nat} (h : t.slotType? pos = some slot)
    (harity : t.arity? = some arity) : pos < arity := by
  unfold slotType? at h
  split at h
  next hsh =>
    obtain ⟨e, hg, -⟩ := map_eq_some_iff.mp h
    obtain ⟨hlt, -⟩ := List.getElem?_eq_some_iff.mp hg
    rw [arity?, hsh] at harity
    exact some.inj harity ▸ hlt
  next hsh =>
    rw [arity?, hsh] at harity
    obtain rfl : _ = some arity := harity
    rw [element, hsh] at h
    dsimp only at h
    by_contra hout
    rw [if_pos (Nat.le_of_not_lt hout)] at h
    cases h
  next => cases h
  next => cases h

theorem isAggregate_of_slotType? (h : t.slotType? pos = some slot) : t.isAggregate = true := by
  unfold slotType? at h
  split at h
  next hsh => rw [isAggregate, hsh]
  next hsh => rw [isAggregate, hsh]
  next => cases h
  next => cases h

end TypeDefinition

namespace TypeTable

/-- The tables that hold the scalars, records without an extension and templates with a length. -/
inductive Concrete : TypeTable → Prop
  | scalars : Concrete .scalars
  | record {ts newer : TypeTable} {name : String} {fields : List (String × String)}
      (hts : Concrete ts) (hadd : ts.addRecord name fields = .ok newer) : Concrete newer
  | template {ts newer : TypeTable} {name family : String} {parameters : List String}
      {length : Nat} (hts : Concrete ts)
      (hadd : ts.addTemplate name family parameters (some length) = .ok newer) : Concrete newer

/-- What a definition of such a table can be; the types it names are in the table. -/
inductive Definite (ts : TypeTable) : Shape → Prop
  | scalar (kind : Scalar) : Definite ts (.scalar kind)
  | record {fields : List (String × String)}
      (hfields : ∀ e ∈ fields, (ts.get? e.2).isSome = true) :
      Definite ts (.record fields none)
  | template {family : String} {parameters : List String} {length : Nat}
      (hparameters : ∀ parameter ∈ parameters, (ts.get? parameter).isSome = true) :
      Definite ts (.template family parameters (some length))

section Tables

variable {ts types newer : TypeTable}

theorem isSome_of_requireAll {names : List String} (h : ts.requireAll names = .ok ⟨⟩) :
    ∀ name ∈ names, (ts.get? name).isSome = true := by
  intro name hnm
  unfold requireAll at h
  split at h
  · cases h
  next hfind =>
    have hno := find?_eq_none.mp hfind name hnm
    simpa [isSome_iff_ne_none] using hno

/-- A definition that is inserted is new, and nothing else changes. -/
theorem get?_insert (h : ts.insert t = .ok newer) : ts.get? t.name = none ∧
      ∀ name, newer.get? name = if t.name = name then some t else ts.get? name := by
  unfold insert at h
  split at h
  · cases h
  next hfr =>
    cases h
    refine ⟨by simpa using hfr, fun name ↦ ?_⟩
    by_cases hnm : t.name = name
    · rw [if_pos hnm, get?, find?_cons_of_pos (by exact beq_iff_eq.mpr hnm)]
    · rw [if_neg hnm, get?, find?_cons_of_neg (by exact fun h ↦ hnm (beq_iff_eq.mp h))]
      rfl

theorem get?_of_insert (h : ts.insert t = .ok newer) {found : TypeDefinition}
    (hf : ts.get? name = some found) : newer.get? name = some found := by
  obtain ⟨hfr, hg⟩ := get?_insert h
  rw [hg, if_neg]
  · exact hf
  · rintro rfl
    rw [hfr] at hf
    cases hf

theorem Definite.insert (h : ts.insert t = .ok newer) {shape : Shape}
    (hdefinite : ts.Definite shape) : newer.Definite shape := by
  have hkept {name : String} (hnm : (ts.get? name).isSome = true) :
      (newer.get? name).isSome = true := by
    obtain ⟨m, hf⟩ := isSome_iff_exists.mp hnm
    rw [get?_of_insert h hf]
    rfl
  cases hdefinite with
  | scalar kind => exact .scalar kind
  | record hfields => exact .record fun e hen ↦ hkept (hfields e hen)
  | template hparameters => exact .template fun name hnm ↦ hkept (hparameters name hnm)

/-- Fields are put into a record with types that were given. -/
theorem type_of_mem_putFields {k : List (String × String)} {e : String × String}
    (h : e ∈ fields.foldl putField k) :
    e ∈ k ∨ e.2 ∈ fields.map Prod.snd := by
  induction fields generalizing k with
  | nil => exact .inl h
  | cons field fields ih =>
    rcases ih h with hput | hl
    · unfold putField at hput
      split at hput
      · obtain ⟨old, hold, heq⟩ := mem_map.mp hput
        split at heq
        · exact .inr (heq ▸ mem_cons_self)
        · exact .inl (heq ▸ hold)
      · rcases mem_append.mp hput with hold | hnew
        · exact .inl hold
        · exact .inr (mem_singleton.mp hnew ▸ mem_cons_self)
    · exact .inr (mem_cons_of_mem _ hl)

theorem ok_of_addRecord (h : ts.addRecord name fields = .ok newer) :
    (∀ t ∈ fields.map Prod.snd, (ts.get? t).isSome = true) ∧
      ts.insert ⟨name, .record (fields.foldl putField []) none⟩ = .ok newer := by
  unfold addRecord at h
  cases hrequired : ts.requireAll (fields.map Prod.snd) with
  | error error =>
    rw [hrequired] at h
    cases h
  | ok _ =>
    rw [hrequired] at h
    exact ⟨isSome_of_requireAll hrequired, h⟩

theorem ok_of_addTemplate {family : String} {parameters : List String} {length : Option Nat}
    (h : ts.addTemplate name family parameters length = .ok newer) :
    (∀ t ∈ parameters, (ts.get? t).isSome = true) ∧
      ts.insert ⟨name, .template family parameters length⟩ = .ok newer := by
  unfold addTemplate at h
  cases hrequired : ts.requireAll parameters with
  | error error =>
    rw [hrequired] at h
    cases h
  | ok _ =>
    rw [hrequired] at h
    exact ⟨isSome_of_requireAll hrequired, h⟩

theorem Concrete.definite (h : ts.Concrete) (hg : ts.get? name = some t) : ts.Definite t.shape := by
  induction h generalizing name t with
  | scalars =>
    have hm := mem_of_find?_eq_some hg
    simp only [TypeTable.scalars, mem_cons, not_mem_nil, or_false] at hm
    rcases hm with rfl | rfl | rfl | rfl <;> exact .scalar _
  | record _ hadd ih =>
    obtain ⟨hkn, hinsert⟩ := ok_of_addRecord hadd
    rw [(get?_insert hinsert).2] at hg
    split at hg
    · cases hg
      refine Definite.insert hinsert (.record fun e hen ↦ ?_)
      rcases type_of_mem_putFields hen with hno | ht
      · exact absurd hno not_mem_nil
      · exact hkn _ ht
    · exact (ih hg).insert hinsert
  | template _ hadd ih =>
    obtain ⟨hkn, hinsert⟩ := ok_of_addTemplate hadd
    rw [(get?_insert hinsert).2] at hg
    split at hg
    · cases hg
      exact Definite.insert hinsert (.template hkn)
    · exact (ih hg).insert hinsert

/-- The scalars keep their definitions. -/
theorem Concrete.scalar (h : ts.Concrete) (hg : TypeTable.scalars.get? name = some type) :
    ts.get? name = some type := by
  induction h with
  | scalars => exact hg
  | record _ hadd ih => exact get?_of_insert (ok_of_addRecord hadd).2 ih
  | template _ hadd ih => exact get?_of_insert (ok_of_addTemplate hadd).2 ih

theorem Concrete.fixed (h : ts.Concrete) : ts.Fixed := by
  intro name t hg
  have hdefinite := h.definite hg
  rw [TypeDefinition.isExtensible]
  generalize t.shape = shape at hdefinite
  cases hdefinite <;> rfl

theorem Concrete.isSome_slotType (h : ts.Concrete) (hg : ts.get? name = some t)
    (hsl : t.slotType? pos = some slot) : (ts.get? slot).isSome = true := by
  have hdefinite := h.definite hg
  unfold TypeDefinition.slotType? at hsl
  split at hsl
  next hsh =>
    rw [hsh] at hdefinite
    cases hdefinite with
    | record hfields =>
      obtain ⟨e, hen, rfl⟩ := map_eq_some_iff.mp hsl
      exact hfields e (mem_of_getElem? hen)
  next family parameters length hsh =>
    rw [hsh] at hdefinite
    cases hdefinite with
    | template hparameters =>
      rw [TypeDefinition.element, hsh] at hsl
      dsimp only at hsl
      split at hsl
      · cases hsl
      · cases parameters with
        | nil => cases hsl
        | cons parameter rest =>
          cases hsl
          exact hparameters _ mem_cons_self
  next => cases hsl
  next => cases hsl

theorem Concrete.eq_of_extends (h : newer.Concrete) (hext : types.Extends newer) : newer = types :=
  h.fixed.eq_of_extends hext

end Tables

mutual

/-- The value has the shape of the type. -/
def Conforms (ts : TypeTable) : Value → String → Prop
  | .float _, t =>
    ∃ defn, ts.get? t = some defn ∧ defn.isFloat = true
  | .int _, t =>
    ∃ defn, ts.get? t = some defn ∧ defn.scalar? = some .integer
  | .bool _, t =>
    ∃ defn, ts.get? t = some defn ∧ defn.scalar? = some .boolean
  | .zero, t =>
    ∃ defn, ts.get? t = some defn ∧ defn.isAggregate = true
  | .tuple items, t =>
    ∃ defn, ts.get? t = some defn ∧ defn.isAggregate = true ∧
      defn.arity? = some items.length ∧ ts.ConformFrom defn 0 items

/-- The values have the shapes of the slots from a position on. -/
def ConformFrom (ts : TypeTable) (defn : TypeDefinition) : Nat → List Value → Prop
  | _, [] => True
  | position, item :: items =>
    (∃ t, defn.slotType? position = some t ∧ ts.Conforms item t) ∧
      ts.ConformFrom defn (position + 1) items

end

section Values

variable {ts types : TypeTable} {t type : String} {defn : TypeDefinition}

theorem conformFrom_iff {items : List Value} {start : Nat} : ts.ConformFrom defn start items ↔
      ∀ (pos : Nat) (item : Value), items[pos]? = some item →
        ∃ slot, defn.slotType? (start + pos) = some slot ∧ ts.Conforms item slot := by
  induction items generalizing start with
  | nil => simp [ConformFrom]
  | cons first items ih =>
    rw [ConformFrom, ih]
    constructor
    · rintro ⟨hfst, hrs⟩ pos item hit
      cases pos with
      | zero =>
        cases hit
        exact hfst
      | succ pos =>
        rw [show start + (pos + 1) = start + 1 + pos by omega]
        exact hrs pos item hit
    · intro h
      refine ⟨h 0 first rfl, fun pos item hit ↦ ?_⟩
      rw [show start + 1 + pos = start + (pos + 1) by omega]
      exact h (pos + 1) item hit

theorem canonicalAll_eq_map (items : List Value) :
    Value.canonicalAll items = items.map Value.canonical := by
  induction items with
  | nil => rw [Value.canonicalAll, map_nil]
  | cons item items ih => rw [Value.canonicalAll, ih, map_cons]

mutual

/-- The spelling of a value has no part in its shape. -/
theorem Conforms.canonical : ∀ {v : Value} {t : String}, ts.Conforms v t → ts.Conforms v.canonical t
  | .float x, t, h => by
    rw [Value.canonical]
    split
    · exact h
    · exact h
  | .int _, _, h => h
  | .bool _, _, h => h
  | .zero, _, h => h
  | .tuple items, t, h => by
    obtain ⟨defn, hg, hagg, harity, hits⟩ := h
    rw [Value.canonical]
    split
    · exact ⟨defn, hg, hagg⟩
    · refine ⟨defn, hg, hagg, ?_, ConformFrom.canonicalAll hits⟩
      rw [harity, canonicalAll_eq_map, length_map]

theorem ConformFrom.canonicalAll {defn : TypeDefinition} :
    ∀ {items : List Value} {pos : Nat}, ts.ConformFrom defn pos items →
      ts.ConformFrom defn pos (Value.canonicalAll items)
  | [], _, _ => trivial
  | item :: items, pos, h => by
    obtain ⟨⟨slot, hsl, hit⟩, hrs⟩ := h
    exact ⟨⟨slot, hsl, hit.canonical⟩, ConformFrom.canonicalAll hrs⟩

end

/-- A conforming value of a scalar type is a number or truth value of its kind. -/
theorem Conforms.scalar_cases (h : ts.Conforms v t) (hg : ts.get? t = some defn)
    (hsh : defn.shape = .scalar kind) :
    (kind.isFloat = true ∧ ∃ x, v = .float x) ∨ (kind = .integer ∧ ∃ n, v = .int n) ∨
      (kind = .boolean ∧ ∃ b, v = .bool b) := by
  have hscalar : defn.scalar? = some kind := by rw [TypeDefinition.scalar?, hsh]
  have hno : defn.isAggregate = false := by rw [TypeDefinition.isAggregate, hsh]
  cases v with
  | float x =>
    obtain ⟨m, hf, hfloat⟩ := h
    cases hg.symm.trans hf
    rw [TypeDefinition.isFloat, hscalar] at hfloat
    exact .inl ⟨hfloat, x, rfl⟩
  | int n =>
    obtain ⟨m, hf, hinteger⟩ := h
    cases hg.symm.trans hf
    exact .inr (.inl ⟨some.inj (hscalar.symm.trans hinteger), n, rfl⟩)
  | bool b =>
    obtain ⟨m, hf, hboolean⟩ := h
    cases hg.symm.trans hf
    exact .inr (.inr ⟨some.inj (hscalar.symm.trans hboolean), b, rfl⟩)
  | zero =>
    obtain ⟨m, hf, hagg⟩ := h
    cases hg.symm.trans hf
    rw [hno] at hagg
    cases hagg
  | tuple items =>
    obtain ⟨m, hf, hagg, -⟩ := h
    cases hg.symm.trans hf
    rw [hno] at hagg
    cases hagg

theorem conforms_float (hg : ts.get? type = some defn)
    (hsh : defn.shape = .scalar kind) (hk : kind.isFloat = true) (x : Binary64) :
    ts.Conforms (.float x) type := by
  refine ⟨defn, hg, ?_⟩
  rw [TypeDefinition.isFloat, TypeDefinition.scalar?, hsh]
  exact hk

/-- Every scalar can be converted to every scalar type. -/
theorem Conforms.convert {src : String} {sourceDefinition : TypeDefinition}
    {sourceKind : Scalar} (h : ts.Conforms v src) (hsrc : ts.get? src = some sourceDefinition)
    (hsourceShape : sourceDefinition.shape = .scalar sourceKind)
    (hg : ts.get? type = some defn) (hsh : defn.shape = .scalar kind) :
    ∃ res, kind.convert? v = some res ∧ ts.Conforms res type := by
  have hscalar : defn.scalar? = some kind := by rw [TypeDefinition.scalar?, hsh]
  rcases h.scalar_cases hsrc hsourceShape with ⟨-, x, rfl⟩ | ⟨-, n, rfl⟩ | ⟨-, b, rfl⟩ <;>
    cases kind with
    | double | single => exact ⟨_, rfl, conforms_float hg hsh rfl _⟩
    | integer | boolean => exact ⟨_, rfl, defn, hg, hscalar⟩

/-- What is stored for a conforming value conforms. -/
theorem Conforms.normalize (h : ts.Conforms v type) (hg : ts.get? type = some defn) :
    ts.Conforms (defn.normalize v) type := by
  rw [TypeDefinition.normalize]
  split
  next kind hsh =>
    have hcanonical := h.canonical
    rcases hcanonical.scalar_cases hg hsh with
      ⟨hk, x, hv⟩ | ⟨rfl, n, hv⟩ | ⟨rfl, b, hv⟩
    · rw [hv]
      cases kind with
      | double | single => exact conforms_float hg hsh rfl _
      | integer | boolean => cases hk
    · rw [hv] at hcanonical ⊢
      exact hcanonical
    · rw [hv] at hcanonical ⊢
      exact hcanonical
  next => exact h.canonical

/-- The zero of a type is spelled in a conforming way. -/
theorem Definite.conforms_zero (hdefinite : ts.Definite defn.shape)
    (hg : ts.get? type = some defn) :
    ts.Conforms (defn.normalize .zero) type := by
  rw [TypeDefinition.normalize]
  generalize hsh : defn.shape = shape at hdefinite
  cases hdefinite with
  | scalar kind =>
    cases kind with
    | double | single => exact conforms_float hg hsh rfl _
    | integer | boolean => exact ⟨defn, hg, by rw [TypeDefinition.scalar?, hsh]⟩
  | record | template => exact ⟨defn, hg, by rw [TypeDefinition.isAggregate, hsh]⟩

/-- A conforming aggregate has all its slots, and what is stored for a slot conforms. -/
theorem Concrete.conforms_element (hts : ts.Concrete) (h : ts.Conforms v t)
    (hg : ts.get? t = some defn) (hsl : defn.slotType? pos = some slot) :
    ∃ item slotDefinition, v.element? pos = some item ∧ ts.get? slot = some slotDefinition ∧
        ts.Conforms (slotDefinition.normalize item) slot := by
  obtain ⟨slotDefinition, hslotGet⟩ := isSome_iff_exists.mp (hts.isSome_slotType hg hsl)
  have hagg := isAggregate_of_slotType? hsl
  have hscalar {kind : Scalar} (hk : defn.scalar? = some kind) : False := by
    unfold TypeDefinition.scalar? at hk
    split at hk
    next hsh =>
      rw [TypeDefinition.isAggregate, hsh] at hagg
      cases hagg
    next => cases hk
  cases v with
  | float x =>
    obtain ⟨m, hf, hfloat⟩ := h
    cases hg.symm.trans hf
    unfold TypeDefinition.isFloat at hfloat
    cases hk : defn.scalar? with
    | none =>
      rw [hk] at hfloat
      cases hfloat
    | some kind => exact (hscalar hk).elim
  | int n =>
    obtain ⟨m, hf, hinteger⟩ := h
    cases hg.symm.trans hf
    exact (hscalar hinteger).elim
  | bool b =>
    obtain ⟨m, hf, hboolean⟩ := h
    cases hg.symm.trans hf
    exact (hscalar hboolean).elim
  | zero =>
    exact ⟨.zero, slotDefinition, rfl, hslotGet, (hts.definite hslotGet).conforms_zero hslotGet⟩
  | tuple items =>
    obtain ⟨m, hf, -, harity, hits⟩ := h
    cases hg.symm.trans hf
    have hlt := lt_arity_of_slotType? hsl harity
    obtain ⟨slot', hslot', hconforms⟩ := conformFrom_iff.mp hits pos items[pos]
      (getElem?_eq_getElem hlt)
    rw [Nat.zero_add, hsl] at hslot'
    obtain rfl := some.inj hslot'
    exact ⟨items[pos], slotDefinition, getElem?_eq_getElem hlt, hslotGet,
      hconforms.normalize hslotGet⟩

end Values

end TypeTable

end DiffGraph
