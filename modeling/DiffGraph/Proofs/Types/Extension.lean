import Mathlib.Logic.Relation
import Mathlib.Tactic.ByContra
import DiffGraph.Types.Conversion
import DiffGraph.Types.Table

/-!
How a table of types changes while functions are built. The only change is a field appended to an
extensible record, so a definition that is there keeps its name, its fields keep their positions and
types, and nothing but an extensible record changes at all.
-/

set_option autoImplicit false

namespace DiffGraph

open List Option

variable {name field extension : String} {ts types : TypeTable} {older newer t : TypeDefinition}
  {m found : Nat × String}

namespace TypeDefinition

/-- The newer definition is the older one, or the same extensible record with more fields behind. -/
structure Widens (older newer : TypeDefinition) : Prop where
  name : newer.name = older.name
  shape : newer.shape = older.shape ∨ ∃ fields more extension,
    older.shape = .record fields (some extension) ∧
      newer.shape = .record (fields ++ more) (some extension)

theorem Widens.refl (type : TypeDefinition) : Widens type type := ⟨rfl, .inl rfl⟩

theorem Widens.trans {first middle last : TypeDefinition} (hfst : Widens first middle)
    (hla : Widens middle last) : Widens first last := by
  refine ⟨hla.name.trans hfst.name, ?_⟩
  rcases hfst.shape with hsame | ⟨fields, more, extension, holder, hmid⟩
  · rw [← hsame]
    exact hla.shape
  · right
    rcases hla.shape with hsame | ⟨fields', more', extension', hmiddle', hnewer⟩
    · exact ⟨fields, more, extension, holder, hsame.trans hmid⟩
    · rw [hmid] at hmiddle'
      obtain ⟨rfl, hextension⟩ := Shape.record.inj hmiddle'
      obtain rfl := some.inj hextension
      exact ⟨fields, more ++ more', extension, holder, by rw [hnewer, append_assoc]⟩

section

variable (h : Widens older newer)

include h

theorem Widens.fields : ∃ more, newer.fields = older.fields ++ more := by
  rcases h.shape with hsame | ⟨fields, more, extension, holder, hnewer⟩
  · exact ⟨[], by simp [TypeDefinition.fields, hsame]⟩
  · exact ⟨more, by simp [TypeDefinition.fields, holder, hnewer]⟩

/-- Fields that are there keep position and type. -/
theorem Widens.field? (hf : older.field? field = some found) : newer.field? field = some found := by
  obtain ⟨more, hfields⟩ := h.fields
  unfold TypeDefinition.field? at hf ⊢
  obtain ⟨pos, hpos, hen⟩ := bind_eq_some_iff.mp hf
  have hlt : pos < older.fields.length := by
    by_contra hout
    rw [getElem?_eq_none (Nat.le_of_not_lt hout)] at hen
    cases hen
  rw [hfields, findIdx?_append, hpos]
  show (some pos).bind _ = _
  rw [bind_some, getElem?_append_left hlt, hen]

theorem Widens.scalar_shape {kind : Scalar} :
    newer.shape = .scalar kind ↔ older.shape = .scalar kind := by
  rcases h.shape with hsame | ⟨fields, more, extension, holder, hnewer⟩
  · rw [hsame]
  · rw [holder, hnewer]
    constructor <;> intro hscalar <;> cases hscalar

theorem Widens.element (index : Nat) : newer.element index = older.element index := by
  rcases h.shape with hsame | ⟨fields, more, extension, holder, hnewer⟩
  · rw [TypeDefinition.element, TypeDefinition.element, hsame, h.name]
  · rw [TypeDefinition.element, TypeDefinition.element, holder, hnewer, h.name]

/-- A wider definition spells constants in the same way. -/
theorem Widens.normalize (value : Value) : newer.normalize value = older.normalize value := by
  rcases h.shape with hsame | ⟨fields, more, extension, holder, hnewer⟩
  · rw [TypeDefinition.normalize, TypeDefinition.normalize, hsame]
  · rw [TypeDefinition.normalize, TypeDefinition.normalize, holder, hnewer]

end

end TypeDefinition

namespace TypeTable

/-- A definition after a field was appended to the record of that name. -/
def appendField (name : String) (field : String × String) (t : TypeDefinition) :
    TypeDefinition :=
  if t.name == name then
    match t.shape with
    | .record fields extension => ⟨name, .record (fields ++ [field]) extension⟩
    | _ => t
  else t

theorem appendField_name (name : String) (field : String × String) (t : TypeDefinition) :
    (appendField name field t).name = t.name := by
  unfold appendField
  split
  next hnm =>
    split
    · exact (eq_of_beq hnm).symm
    · rfl
  next => rfl

theorem get?_extend (ts : TypeTable) (name : String) (field : String × String) (other : String) :
    (ts.extend name field).get? other = (ts.get? other).map (appendField name field) := by
  show (ts.newestFirst.map (appendField name field)).find? _ = _
  rw [find?_map]
  congr 2
  funext t
  exact congrArg (· == other) (appendField_name name field t)

theorem get?_name (h : ts.get? name = some t) : t.name = name := by
  have hnm := find?_some (p := fun t : TypeDefinition ↦ t.name == name) h
  exact eq_of_beq hnm

/-- A lookup of a member finds the field, or appends it to an extensible record. -/
theorem member_cases {newer : TypeTable} (h : ts.member name field = .ok (m, newer)) :
    ∃ t, ts.get? name = some t ∧ ((t.field? field = some m ∧ newer = ts) ∨
        ∃ fields extension, t.shape = .record fields (some extension) ∧
          t.field? field = none ∧ m = (fields.length, extension) ∧
          newer = ts.extend name (field, extension)) := by
  unfold member require at h
  cases hg : ts.get? name with
  | none =>
    rw [hg] at h
    cases h
  | some t =>
    rw [hg] at h
    refine ⟨t, rfl, ?_⟩
    simp only [bind, Except.bind] at h
    cases hfd : t.field? field with
    | some e =>
      rw [hfd] at h
      cases h
      exact .inl ⟨rfl, rfl⟩
    | none =>
      rw [hfd] at h
      right
      simp only at h
      split at h
      next fields extension hsh =>
        cases h
        exact ⟨fields, extension, hsh, rfl, rfl, rfl⟩
      next => cases h

theorem appendField_widens {fields : List (String × String)} (hg : ts.get? name = some t)
    (hsh : t.shape = .record fields (some extension)) (field : String × String) {other : String}
    {defn : TypeDefinition} (ho : ts.get? other = some defn) :
    defn.Widens (appendField name field defn) := by
  refine ⟨appendField_name name field defn, ?_⟩
  by_cases hnm : defn.name = name
  · have hsame : other = name := (get?_name ho).symm.trans hnm
    rw [hsame, hg] at ho
    obtain rfl := some.inj ho
    right
    refine ⟨fields, [field], extension, hsh, ?_⟩
    rw [appendField, if_pos (beq_iff_eq.mpr hnm), hsh]
  · left
    rw [appendField, if_neg (fun h ↦ hnm (eq_of_beq h))]

theorem ok_of_element {type : String} {pos : Nat} (h : ts.element name pos = .ok type) :
    ∃ defn, ts.get? name = some defn ∧ defn.element pos = .ok type := by
  unfold element require at h
  cases hg : ts.get? name with
  | none =>
    rw [hg] at h
    cases h
  | some defn =>
    rw [hg] at h
    exact ⟨defn, rfl, h⟩

/-- A field that is there is found without a change. -/
theorem member_of_field? (hg : ts.get? name = some t)
    (hfd : t.field? field = some m) : ts.member name field = .ok (m, ts) := by
  simp only [member, require, hg, hfd, bind, Except.bind, pure, Except.pure]

theorem element_of_get? (hg : ts.get? name = some t) (position : Nat) :
    ts.element name position = t.element position := by
  unfold element require
  rw [hg]
  rfl

/-- The field that was looked up is in the table afterwards. -/
theorem field?_member {newer : TypeTable} (h : ts.member name field = .ok (found, newer)) :
    ∃ t, newer.get? name = some t ∧ t.field? field = some found := by
  obtain ⟨t, hg, ⟨hfd, rfl⟩ | ⟨fields, extension, hsh, hno, rfl, rfl⟩⟩ := member_cases h
  · exact ⟨t, hg, hfd⟩
  · refine ⟨appendField name (field, extension) t, by rw [get?_extend, hg]; rfl, ?_⟩
    rw [appendField, if_pos (beq_iff_eq.mpr (get?_name hg)), hsh]
    have hmissing : fields.findIdx? (fun e ↦ e.1 == field) = none := by
      rw [TypeDefinition.field?, TypeDefinition.fields, hsh] at hno
      cases hidx : fields.findIdx? (fun e ↦ e.1 == field) with
      | none => rfl
      | some pos =>
        have hlt : pos < fields.length := (findIdx?_eq_some_iff_getElem.mp hidx).choose
        simp only [hidx, bind_some, getElem?_eq_getElem hlt, map_some] at hno
        cases hno
    simp only [TypeDefinition.field?, TypeDefinition.fields, findIdx?_append, hmissing,
      findIdx?_cons, beq_self_eq_true, if_true, none_or, map_some, Nat.zero_add,
      bind_some, getElem?_append_right (Nat.le_refl _), Nat.sub_self,
      getElem?_cons_zero]

/-- The table after any number of lookups of members. -/
def Extends (older newer : TypeTable) : Prop :=
  Relation.ReflTransGen (fun before d' : TypeTable ↦
    ∃ name field m, before.member name field = .ok (m, d')) older newer

theorem Extends.refl (types : TypeTable) : types.Extends types := Relation.ReflTransGen.refl

theorem Extends.trans {first middle last : TypeTable} (hfst : first.Extends middle)
    (hla : middle.Extends last) : first.Extends last :=
  Relation.ReflTransGen.trans hfst hla

theorem extends_member {newer : TypeTable} (h : ts.member name field = .ok (m, newer)) :
    ts.Extends newer :=
  Relation.ReflTransGen.single ⟨name, field, m, h⟩

/-- A definition that is there only ever widens. -/
theorem Extends.get? {older newer : TypeTable} (h : older.Extends newer)
    (hg : older.get? name = some t) :
    ∃ wider, newer.get? name = some wider ∧ t.Widens wider := by
  induction h with
  | refl => exact ⟨t, hg, .refl t⟩
  | tail _ hstep ih =>
    obtain ⟨wider, hwd, hwn⟩ := ih
    obtain ⟨base, field, m, hm⟩ := hstep
    obtain ⟨defn, hdef, ⟨-, rfl⟩ | ⟨fields, extension, hsh, -, -, rfl⟩⟩ := member_cases hm
    · exact ⟨wider, hwd, hwn⟩
    · refine ⟨appendField base (field, extension) wider, by rw [get?_extend, hwd]; rfl, ?_⟩
      exact hwn.trans (appendField_widens hdef hsh _ hwd)

/-- No table entry appears or disappears. -/
theorem Extends.isSome_get? {older newer : TypeTable} (h : older.Extends newer) (name : String) :
    (newer.get? name).isSome = (older.get? name).isSome := by
  induction h with
  | refl => rfl
  | tail _ hstep ih =>
    obtain ⟨base, field, m, hm⟩ := hstep
    obtain ⟨defn, -, ⟨-, rfl⟩ | ⟨fields, extension, -, -, -, rfl⟩⟩ := member_cases hm
    · exact ih
    · rw [get?_extend, isSome_map, ih]

/-- No record of the table can be extended. -/
def Fixed (ts : TypeTable) : Prop :=
  ∀ ⦃name : String⦄ ⦃t : TypeDefinition⦄, ts.get? name = some t →
    t.isExtensible = false

section Fixed

variable {newer : TypeTable}

theorem Fixed.shape_ne (h : ts.Fixed) (hg : ts.get? name = some t)
    {fields : List (String × String)} :
    t.shape ≠ .record fields (some extension) := by
  intro hsh
  have hfx := h hg
  rw [TypeDefinition.isExtensible, hsh] at hfx
  cases hfx

/-- Looking up a member leaves a table alone in which no record can be extended. -/
theorem Fixed.eq_of_member (h : types.Fixed ∨ newer.Fixed)
    (hm : types.member name field = .ok (m, newer)) : newer = types := by
  obtain ⟨t, hg, ⟨-, rfl⟩ | ⟨fields, extension, hsh, -, -, rfl⟩⟩ := member_cases hm
  · rfl
  · exfalso
    rcases h with h | h
    · exact h.shape_ne hg hsh
    · have hwd : (types.extend name (field, extension)).get? name =
          some (appendField name (field, extension) t) := by
        rw [get?_extend, hg]
        rfl
      have hshape' : (appendField name (field, extension) t).shape =
          .record (fields ++ [(field, extension)]) (some extension) := by
        rw [appendField, if_pos (beq_iff_eq.mpr (get?_name hg)), hsh]
      exact h.shape_ne hwd hshape'

theorem Fixed.eq_of_extends (h : newer.Fixed) (hext : types.Extends newer) : newer = types := by
  induction hext using Relation.ReflTransGen.head_induction_on with
  | refl => rfl
  | head hstep _ ih =>
    obtain ⟨name, field, m, hm⟩ := hstep
    rw [ih] at h
    exact ih.trans (eq_of_member (.inr h) hm)

theorem Fixed.extends_eq (h : types.Fixed) (hext : types.Extends newer) : newer = types := by
  induction hext with
  | refl => rfl
  | tail _ hstep ih =>
    obtain ⟨name, field, m, hm⟩ := hstep
    rw [ih] at hm
    exact eq_of_member (.inl h) hm

end Fixed

end TypeTable

end DiffGraph
