import DiffGraph.Draft.Accumulator
import DiffGraph.Proofs.Types.Conformity
import Mathlib.Data.Finset.Card

/-!
Types that are made of numbers: the numbers themselves, records without an extension and templates
with a length, of such types. In a table that has grown out of the scalars such a type keeps its
definition, its slots are found where its parts are listed, and it nests no deeper than there are
types in the table (`Numeric.within`).
-/

set_option autoImplicit false

namespace DiffGraph

variable {fields : List (String × String)} {pos position : Nat} {ts types newer : TypeTable}
  {defn definition : TypeDefinition}

namespace TypeDefinition

/-- The ways into the slots of an aggregate that has all its slots, with the types found there. -/
def parts? (t : TypeDefinition) : Option (List (Operator × String)) :=
  match t.shape with
  | .record fields none => some (fields.map fun e ↦ (.member e.1, e.2))
  | .template _ (element :: _) (some length) =>
    some ((List.range length).map fun pos ↦ (.index pos, element))
  | _ => none

variable {t type : TypeDefinition} {parts : List (Operator × String)}

theorem parts?_cases (h : t.parts? = some parts) : (∃ fields, t.shape = .record fields none ∧
      parts = fields.map fun e ↦ (.member e.1, e.2)) ∨
    ∃ family element parameters length,
      t.shape = .template family (element :: parameters) (some length) ∧
        parts = (List.range length).map fun pos ↦ (.index pos, element) := by
  unfold parts? at h
  split at h
  next fields hsh => exact .inl ⟨fields, hsh, (Option.some.inj h).symm⟩
  next family element parameters length hsh =>
    exact .inr ⟨family, element, parameters, length, hsh, (Option.some.inj h).symm⟩
  next => cases h

theorem slots?_of_parts? (h : t.parts? = some parts) : t.slots? = some (parts.map Prod.fst) := by
  rcases parts?_cases h with ⟨fields, hsh, rfl⟩ | ⟨_, _, _, length, hsh, rfl⟩
  all_goals
    rw [slots?, hsh, List.map_map]
    rfl

theorem arity?_of_parts? (h : t.parts? = some parts) : t.arity? = some parts.length := by
  rcases parts?_cases h with ⟨fields, hsh, rfl⟩ | ⟨_, _, _, length, hsh, rfl⟩
  · rw [arity?, hsh, List.length_map]
  · rw [arity?, hsh, List.length_map, List.length_range]

theorem element_of_shape {family element : String} {parameters : List String} {length : Nat}
    (hsh : t.shape = .template family (element :: parameters) (some length))
    (hlt : pos < length) : t.element pos = .ok element := by
  rw [TypeDefinition.element, hsh]
  exact if_neg (Nat.not_le_of_lt hlt)

theorem slotType?_eq_parts (h : t.parts? = some parts) (pos : Nat) :
    t.slotType? pos = parts[pos]?.map Prod.snd := by
  rcases parts?_cases h with ⟨fields, hsh, rfl⟩ | ⟨_, _, _, length, hsh, rfl⟩
  · rw [slotType?, hsh, List.getElem?_map, Option.map_map]
    rfl
  · rw [slotType?, hsh]
    by_cases hlt : pos < length
    · rw [element_of_shape hsh hlt, List.getElem?_map, List.getElem?_range hlt]
      rfl
    · have hout : (List.range length)[pos]? = none := by
        rw [List.getElem?_eq_none_iff, List.length_range]
        exact Nat.le_of_not_lt hlt
      rw [List.getElem?_map, hout, TypeDefinition.element, hsh]
      dsimp only
      rw [if_pos (Nat.le_of_not_lt hlt)]
      rfl

/-- A definition that is extended has its slots never listed. -/
theorem Widens.parts? {wider : TypeDefinition} (h : t.Widens wider) : wider.parts? = t.parts? := by
  rcases h.shape with hsh | ⟨fields, more, extension, holder, hnewer⟩
  · rw [TypeDefinition.parts?, TypeDefinition.parts?, hsh]
  · rw [TypeDefinition.parts?, TypeDefinition.parts?, holder, hnewer]

end TypeDefinition

namespace TypeTable

/-- The types of numbers. -/
def numbers : List String := ["double", "float", "int"]

/-- The types that are made of numbers. -/
inductive Numeric (ts : TypeTable) : String → Prop
  | number {name : String} (hnm : name ∈ numbers) : Numeric ts name
  | record {name : String} {defn : TypeDefinition} {fields : List (String × String)}
      (hg : ts.get? name = some defn) (hsh : defn.shape = .record fields none)
      (hfields : ∀ e ∈ fields, Numeric ts e.2) : Numeric ts name
  | template {name family element : String} {defn : TypeDefinition}
      {parameters : List String} {length : Nat} (hg : ts.get? name = some defn)
      (hsh : defn.shape = .template family (element :: parameters) (some length))
      (hel : Numeric ts element) : Numeric ts name

/-- The tables that grow out of the scalars, by definitions and by fields that extensible records
gain. -/
inductive Grown : TypeTable → Prop
  | scalars : Grown .scalars
  | record {ts newer : TypeTable} {name : String} {fields : List (String × String)}
      (hts : Grown ts) (hadd : ts.addRecord name fields = .ok newer) : Grown newer
  | extensibleRecord {ts newer : TypeTable} {name extension : String}
      {fields : List (String × String)} (hts : Grown ts)
      (hadd : ts.addExtensibleRecord name fields extension = .ok newer) : Grown newer
  | template {ts newer : TypeTable} {name family : String} {parameters : List String}
      {length : Option Nat} (hts : Grown ts)
      (hadd : ts.addTemplate name family parameters length = .ok newer) : Grown newer
  | abstract {ts newer : TypeTable} {name : String} (hts : Grown ts)
      (hadd : ts.insert ⟨name, .abstract⟩ = .ok newer) : Grown newer
  | member {ts newer : TypeTable} {name field : String} {m : Nat × String}
      (hts : Grown ts) (hm : ts.member name field = .ok (m, newer)) : Grown newer

section Growth

variable {name : String}

theorem ok_of_addExtensibleRecord {extension : String}
    (h : ts.addExtensibleRecord name fields extension = .ok newer) :
    (∀ t ∈ fields.map Prod.snd, (ts.get? t).isSome = true) ∧ (ts.get? extension).isSome = true ∧
      ts.insert ⟨name, .record (fields.foldl putField []) (some extension)⟩ = .ok newer := by
  unfold addExtensibleRecord at h
  cases hfields : ts.requireAll (fields.map Prod.snd) with
  | error => simp [hfields, bind, Except.bind] at h
  | ok =>
    cases hextension : ts.requireAll [extension] with
    | error => simp [hfields, hextension, bind, Except.bind] at h
    | ok =>
      refine ⟨isSome_of_requireAll hfields,
        isSome_of_requireAll hextension extension List.mem_cons_self, ?_⟩
      simpa only [hfields, hextension, bind, Except.bind] using h

theorem names_putField {field : String × String}
    (hkn : fields.any (fun e ↦ e.1 == field.1) = true) :
    (putField fields field).map Prod.fst = fields.map Prod.fst := by
  rw [putField, if_pos hkn, List.map_map]
  refine List.map_congr_left fun e _ ↦ ?_
  by_cases hnm : e.1 == field.1
  · rw [Function.comp_apply, if_pos hnm, eq_of_beq hnm]
  · rw [Function.comp_apply, if_neg hnm]

theorem nodup_append_field {field : String × String} (hnd : (fields.map Prod.fst).Nodup)
    (hfr : ∀ e ∈ fields, e.1 ≠ field.1) : ((fields ++ [field]).map Prod.fst).Nodup := by
  rw [List.map_append, List.nodup_append]
  refine ⟨hnd, List.nodup_singleton _, ?_⟩
  rintro name hnm other ho
  obtain ⟨e, hen, rfl⟩ := List.mem_map.mp hnm
  obtain rfl := List.mem_singleton.mp ho
  exact hfr e hen

theorem nodup_putFields {k : List (String × String)} (hkn : (k.map Prod.fst).Nodup) :
    ((fields.foldl putField k).map Prod.fst).Nodup := by
  induction fields generalizing k with
  | nil => exact hkn
  | cons field rest ih =>
    refine ih ?_
    by_cases hm : k.any (fun e ↦ e.1 == field.1) = true
    · rw [names_putField hm]
      exact hkn
    · rw [putField, if_neg hm]
      refine nodup_append_field hkn fun e hen heq ↦ hm ?_
      exact List.any_eq_true.mpr ⟨e, hen, beq_iff_eq.mpr heq⟩

/-- A table that grows gets definitions in which the fields have different names, and fields that it
has looked for. -/
theorem Grown.induction {motive : TypeTable → Prop} (scalars : motive .scalars)
    (insert : ∀ {types newer : TypeTable} {type : TypeDefinition}, motive types →
      types.insert type = .ok newer → (type.fields.map Prod.fst).Nodup → motive newer)
    (member : ∀ {types newer : TypeTable} {name field : String} {found : Nat × String},
      motive types → types.member name field = .ok (found, newer) → motive newer)
    (h : types.Grown) : motive types := by
  induction h with
  | scalars => exact scalars
  | record _ hadd ih => exact insert ih (ok_of_addRecord hadd).2 (nodup_putFields List.nodup_nil)
  | extensibleRecord _ hadd ih =>
    exact insert ih (ok_of_addExtensibleRecord hadd).2.2 (nodup_putFields List.nodup_nil)
  | template _ hadd ih => exact insert ih (ok_of_addTemplate hadd).2 List.nodup_nil
  | abstract _ hadd ih => exact insert ih hadd List.nodup_nil
  | member _ hm ih => exact member ih hm

theorem Grown.extends (h : ts.Grown) (hext : ts.Extends newer) : newer.Grown := by
  induction hext with
  | refl => exact h
  | tail _ hstep ih =>
    obtain ⟨name, field, m, hm⟩ := hstep
    exact .member ih hm

/-- The scalars keep their definitions. -/
theorem Grown.scalar (h : ts.Grown) (hg : TypeTable.scalars.get? name = some definition) :
    ts.get? name = some definition := by
  refine Grown.induction (motive := fun ts ↦ ts.get? name = some definition) hg
    (fun hkn hinsert _ ↦ get?_of_insert hinsert hkn) ?_ h
  intro ts newer _ _ _ hkn hm
  obtain ⟨wider, hwd, hwn⟩ := (extends_member hm).get? hkn
  have hscalar : ∃ kind, definition.shape = .scalar kind := by
    have hall : ∀ t ∈ TypeTable.scalars.newestFirst, ∃ kind, t.shape = .scalar kind := by
      simp [TypeTable.scalars]
    exact hall definition (List.mem_of_find?_eq_some hg)
  obtain ⟨kind, hsh⟩ := hscalar
  have hwide := hwn.scalar_shape.mpr hsh
  rw [hwd, Option.some.injEq]
  cases wider
  cases definition
  cases hwn.name
  cases hwide.trans hsh.symm
  rfl

/-- A number is a scalar that is not a truth value, and floating-point unless it is an integer. -/
theorem Grown.number (h : ts.Grown) (hnm : name ∈ numbers) :
    ∃ defn kind, ts.get? name = some defn ∧ defn.shape = .scalar kind ∧
      kind ≠ .boolean ∧ (name ≠ "int" → kind.isFloat = true) := by
  have hscalars : ∀ name ∈ numbers, ∃ kind,
      TypeTable.scalars.get? name = some ⟨name, .scalar kind⟩ ∧ kind ≠ .boolean ∧
        (name ≠ "int" → kind.isFloat = true) := by
    simp only [numbers, List.forall_mem_cons]
    exact ⟨⟨.double, rfl, by decide, fun _ ↦ rfl⟩, ⟨.single, rfl, by decide, fun _ ↦ rfl⟩,
      ⟨.integer, rfl, by decide, fun h ↦ absurd rfl h⟩, List.forall_mem_nil _⟩
  obtain ⟨kind, hg, hk⟩ := hscalars name hnm
  exact ⟨_, kind, h.scalar hg, rfl, hk⟩

/-- A field that is not found has none of the names. -/
theorem name_ne_of_field?_none {field : String} (h : defn.field? field = none) :
    ∀ e ∈ defn.fields, e.1 ≠ field := by
  intro e hen heq
  unfold TypeDefinition.field? at h
  cases hix : defn.fields.findIdx? fun e ↦ e.1 == field with
  | none =>
    have ho := List.findIdx?_eq_none_iff.mp hix e hen
    exact absurd heq (beq_eq_false_iff_ne.mp ho)
  | some pos =>
    obtain ⟨hlt, -⟩ := List.findIdx?_eq_some_iff_getElem.mp hix
    rw [hix, Option.bind_some, List.getElem?_eq_getElem hlt] at h
    cases h

/-- The fields of a record have different names. -/
theorem Grown.fields_nodup (h : ts.Grown) (hg : ts.get? name = some defn) :
    (defn.fields.map Prod.fst).Nodup := by
  revert name defn
  refine Grown.induction (motive := fun ts ↦ ∀ {name defn},
    ts.get? name = some defn → (defn.fields.map Prod.fst).Nodup) ?_ ?_ ?_ h
  · intro name defn hg
    have hall : ∀ type ∈ TypeTable.scalars.newestFirst, type.fields = [] := by decide
    rw [hall defn (List.mem_of_find?_eq_some hg)]
    exact List.nodup_nil
  · intro ts newer type ih hinsert hfields name defn hg
    rw [(get?_insert hinsert).2] at hg
    split at hg
    · cases hg
      exact hfields
    · exact ih hg
  · intro ts newer record field m ih hm name defn hg
    obtain ⟨type, hrecord, ⟨-, rfl⟩ | ⟨fields, extension, hsh, hno, -, rfl⟩⟩ := member_cases hm
    · exact ih hg
    · rw [get?_extend] at hg
      obtain ⟨older, holder, rfl⟩ := Option.map_eq_some_iff.mp hg
      unfold appendField
      split
      next hnm =>
        obtain rfl : older = type := by
          rw [get?_name holder] at hnm
          rw [eq_of_beq hnm, hrecord] at holder
          exact (Option.some.inj holder).symm
        rw [hsh]
        have hfields : older.fields = fields := by rw [TypeDefinition.fields, hsh]
        refine nodup_append_field (hfields ▸ ih holder) ?_
        exact hfields ▸ name_ne_of_field?_none hno
      next => exact ih holder

end Growth

section Parts

variable {t type : String} {parts : List (Operator × String)}

/-- A numeric type is a number or has numeric parts. -/
theorem Numeric.cases (h : ts.Numeric t) : t ∈ numbers ∨ ∃ defn parts,
    ts.get? t = some defn ∧ defn.parts? = some parts ∧ ∀ part ∈ parts, ts.Numeric part.2 := by
  cases h with
  | number hnm => exact .inl hnm
  | record hg hsh hfields =>
    refine .inr ⟨_, _, hg, by rw [TypeDefinition.parts?, hsh], ?_⟩
    exact List.forall_mem_map.mpr hfields
  | template hg hsh hel =>
    refine .inr ⟨_, _, hg, by rw [TypeDefinition.parts?, hsh], ?_⟩
    exact List.forall_mem_map.mpr fun _ _ ↦ hel

/-- A numeric type stays as it is. -/
theorem Numeric.extends (h : ts.Numeric type) (hext : ts.Extends newer) : newer.Numeric type := by
  induction h with
  | number hnm => exact .number hnm
  | record hg hsh _ ih =>
    obtain ⟨wider, hwd, hwn⟩ := hext.get? hg
    refine .record hwd ((hwn.shape.resolve_right ?_).trans hsh) ih
    rintro ⟨_, _, _, hrecord, -⟩
    cases hsh.symm.trans hrecord
  | template hg hsh _ ih =>
    obtain ⟨wider, hwd, hwn⟩ := hext.get? hg
    refine .template hwd ((hwn.shape.resolve_right ?_).trans hsh) ih
    rintro ⟨_, _, _, hrecord, -⟩
    cases hsh.symm.trans hrecord

theorem Grown.exists_definition (hts : ts.Grown) (h : ts.Numeric t) :
    ∃ definition, ts.get? t = some definition := by
  rcases h.cases with hnb | ⟨definition, _, hg, -⟩
  · obtain ⟨definition, _, hg, -⟩ := hts.number hnb
    exact ⟨definition, hg⟩
  · exact ⟨definition, hg⟩

/-- What is not a number has parts. -/
theorem Grown.exists_parts (hts : ts.Grown) (h : ts.Numeric t)
    (hg : ts.get? t = some defn) : (∃ kind, defn.shape = .scalar kind) ∨
      ∃ parts, defn.parts? = some parts ∧ ∀ part ∈ parts, ts.Numeric part.2 := by
  rcases h.cases with hnb | ⟨m, parts, hf, hps⟩
  · obtain ⟨m, kind, hf, hsh, -⟩ := hts.number hnb
    cases hg.symm.trans hf
    exact .inl ⟨kind, hsh⟩
  · cases hg.symm.trans hf
    exact .inr ⟨parts, hps⟩

/-- The slots of a numeric type are numeric. -/
theorem Grown.numeric_slot (hts : ts.Grown) (h : ts.Numeric t) (hg : ts.get? t = some defn)
    {slot : String} (hsl : defn.slotType? pos = some slot) : ts.Numeric slot := by
  rcases hts.exists_parts h hg with ⟨kind, hsh⟩ | ⟨parts, hps, hnum⟩
  · rw [TypeDefinition.slotType?, hsh] at hsl
    cases hsl
  · rw [TypeDefinition.slotType?_eq_parts hps] at hsl
    obtain ⟨part, hp, rfl⟩ := Option.map_eq_some_iff.mp hsl
    exact hnum part (List.mem_of_getElem? hp)

/-- A part is found where it is listed. -/
theorem Grown.part_cases (hts : ts.Grown) (hg : ts.get? t = some defn)
    (hps : defn.parts? = some parts) {op : Operator} {slot : String}
    (hp : parts[position]? = some (op, slot)) :
    (∃ field, op = .member field ∧ defn.field? field = some (position, slot)) ∨
      op = .index position ∧ defn.element position = .ok slot := by
  rcases TypeDefinition.parts?_cases hps with
    ⟨fields, hsh, rfl⟩ | ⟨_, element, _, length, hsh, rfl⟩
  · have hfields : defn.fields = fields := by rw [TypeDefinition.fields, hsh]
    have hnd := hts.fields_nodup hg
    rw [List.getElem?_map] at hp
    obtain ⟨⟨field, part⟩, hen, heq⟩ := Option.map_eq_some_iff.mp hp
    cases heq
    obtain ⟨hlt, hentry'⟩ := List.getElem?_eq_some_iff.mp hen
    refine .inl ⟨field, rfl, ?_⟩
    have hix : fields.findIdx? (fun e ↦ e.1 == field) = some position := by
      refine List.findIdx?_eq_some_iff_getElem.mpr ⟨hlt, ?_, fun earlier hear ↦ ?_⟩
      · rw [hentry']
        exact beq_self_eq_true field
      · have hne : fields[earlier].1 ≠ field := by
          intro heq
          rw [hfields, List.nodup_iff_getElem?_ne_getElem?] at hnd
          refine hnd earlier position hear (by rwa [List.length_map]) ?_
          rw [List.getElem?_map, List.getElem?_map, hen, List.getElem?_eq_getElem (hear.trans hlt)]
          exact congrArg some heq
        exact fun htest ↦ hne (beq_iff_eq.mp htest)
    rw [TypeDefinition.field?, hfields, hix, Option.bind_some, hen]
    rfl
  · rw [List.getElem?_map] at hp
    obtain ⟨m, hf, heq⟩ := Option.map_eq_some_iff.mp hp
    cases heq
    obtain ⟨hlt, hf⟩ := List.getElem?_eq_some_iff.mp hf
    rw [List.getElem_range] at hf
    subst hf
    rw [List.length_range] at hlt
    exact .inr ⟨rfl, TypeDefinition.element_of_shape hsh hlt⟩

end Parts

section Depth

/-- Numeric types that nest up to a depth. -/
def NumericWithin (ts : TypeTable) : Nat → String → Prop
  | 0, t => t ∈ numbers
  | depth + 1, t => t ∈ numbers ∨ ∃ defn parts, ts.get? t = some defn ∧
      defn.parts? = some parts ∧ ∀ part ∈ parts, ts.NumericWithin depth part.2

variable {t type : String} {depth : Nat}

theorem NumericWithin.of_number (h : type ∈ numbers) (depth : Nat) :
    ts.NumericWithin depth type := by
  cases depth with
  | zero => exact h
  | succ _ => exact .inl h

theorem NumericWithin.succ (h : ts.NumericWithin depth type) :
    ts.NumericWithin (depth + 1) type := by
  induction depth generalizing type with
  | zero => exact .inl h
  | succ depth ih =>
    rcases h with hnb | ⟨defn, parts, hg, hps, hdeep⟩
    · exact .inl hnb
    · exact .inr ⟨defn, parts, hg, hps, fun part hp ↦ ih (hdeep part hp)⟩

theorem NumericWithin.mono (h : ts.NumericWithin depth type) {more : Nat} (hle : depth ≤ more) :
    ts.NumericWithin more type := by
  induction hle with
  | refl => exact h
  | step _ ih => exact ih.succ

theorem NumericWithin.extends (h : ts.NumericWithin depth type) (hext : ts.Extends newer) :
    newer.NumericWithin depth type := by
  induction depth generalizing type with
  | zero => exact h
  | succ depth ih =>
    rcases h with hnb | ⟨defn, parts, hg, hps, hdeep⟩
    · exact .inl hnb
    · obtain ⟨wider, hwd, hwn⟩ := hext.get? hg
      exact .inr ⟨wider, parts, hwd, hwn.parts?.trans hps, fun part hp ↦ ih (hdeep part hp)⟩

open Classical in
/-- The names of the table that are numeric up to a depth. -/
noncomputable def level (ts : TypeTable) (depth : Nat) : Finset String :=
  (ts.newestFirst.map TypeDefinition.name).toFinset.filter (ts.NumericWithin depth)

theorem mem_level : type ∈ ts.level depth ↔
    type ∈ ts.newestFirst.map TypeDefinition.name ∧ ts.NumericWithin depth type := by
  simp only [level, Finset.mem_filter, List.mem_toFinset]

theorem level_subset (depth : Nat) : ts.level depth ⊆ ts.level (depth + 1) := by
  intro t ht
  rw [mem_level] at ht ⊢
  exact ⟨ht.1, ht.2.succ⟩

theorem card_level_le (depth : Nat) : (ts.level depth).card ≤ ts.size := by
  classical
  calc (ts.level depth).card
      ≤ (ts.newestFirst.map TypeDefinition.name).toFinset.card :=
        Finset.card_le_card fun _ h ↦ List.mem_toFinset.mpr (mem_level.mp h).1
    _ ≤ (ts.newestFirst.map TypeDefinition.name).length := List.toFinset_card_le _
    _ = ts.size := List.length_map _

/-- Levels grow until nothing is added, and there are only so many names. -/
theorem exists_level_eq (ts : TypeTable) :
    ∃ depth ≤ ts.size, ts.level depth = ts.level (depth + 1) := by
  by_contra hno
  simp only [not_exists, not_and] at hno
  have hgr : ∀ depth ≤ ts.size + 1, depth ≤ (ts.level depth).card := by
    intro depth hdp
    induction depth with
    | zero => exact Nat.zero_le _
    | succ depth ih =>
      have hle : depth ≤ ts.size := Nat.le_of_succ_le_succ hdp
      have hlt := Finset.card_lt_card ((level_subset depth).ssubset_of_ne (hno depth hle))
      exact (Nat.succ_le_succ (ih (hle.trans (Nat.le_succ _)))).trans hlt
  have hla := hgr (ts.size + 1) le_rfl
  exact absurd (hla.trans (card_level_le _)) (Nat.not_succ_le_self _)

/-- Types nest no deeper than there are types. -/
theorem Numeric.within (h : ts.Numeric type) : ts.NumericWithin ts.size type := by
  obtain ⟨depth, hle, hlevel⟩ := ts.exists_level_eq
  -- A type whose parts are in the last level is in the next one, and so in the last one.
  have hla {type : String} {defn : TypeDefinition} {parts : List (Operator × String)}
      (hg : ts.get? type = some defn) (hps : defn.parts? = some parts)
      (hdeep : ∀ part ∈ parts, ts.NumericWithin depth part.2) :
      ts.NumericWithin depth type := by
    have hls : type ∈ ts.newestFirst.map TypeDefinition.name :=
      List.mem_map.mpr ⟨defn, List.mem_of_find?_eq_some hg, get?_name hg⟩
    have hnx : type ∈ ts.level (depth + 1) :=
      mem_level.mpr ⟨hls, .inr ⟨defn, parts, hg, hps, hdeep⟩⟩
    rw [← hlevel] at hnx
    exact (mem_level.mp hnx).2
  have hwithin : ts.NumericWithin depth type := by
    induction h with
    | number hnm => exact .of_number hnm depth
    | record hg hsh _ ih =>
      refine hla hg (by rw [TypeDefinition.parts?, hsh]) ?_
      exact List.forall_mem_map.mpr ih
    | template hg hsh _ ih =>
      refine hla hg (by rw [TypeDefinition.parts?, hsh]) ?_
      exact List.forall_mem_map.mpr fun _ _ ↦ ih
  exact hwithin.mono hle

end Depth

end TypeTable

end DiffGraph
