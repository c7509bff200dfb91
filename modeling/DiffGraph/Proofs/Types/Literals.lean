import DiffGraph.Proofs.Types.Numeric
import DiffGraph.Types.Literal

/-!
Which constants have a literal. Whether a type can write a value is a question of the type and the
value alone (`hasLiteral`): in a table whose definitions name earlier ones only, a literal is found
in every language or the same mismatch is reported in every language. The zero of a type is always
written.
-/

set_option autoImplicit false

namespace DiffGraph

open List Option TypeDefinition

variable {t type : TypeDefinition} {fields : List (String × String)} {parameters : List String}
  {length : Option Nat} {extension family : String}

/-- What is done in every language succeeds in all of them, or else fails in all of them with one
error of the expected kind. The last part says which. -/
inductive Concurs {ε α : Type} (expected : ε → Prop) (outcomes : Language → Except ε α) :
    Bool → Prop
  | ok (h : ∀ lang, ∃ res, outcomes lang = .ok res) : Concurs expected outcomes true
  | error {error : ε} (hexpected : expected error)
      (h : ∀ lang, outcomes lang = .error error) : Concurs expected outcomes false

section Concurrence

variable {ε α β : Type} {expected : ε → Prop} {success : Bool}

theorem concurs_pure (results : Language → α) :
    Concurs expected (fun lang ↦ pure (results lang)) true :=
  .ok fun lang ↦ ⟨results lang, rfl⟩

theorem Concurs.exists_ok {outcomes : Language → Except ε α} (h : Concurs expected outcomes true)
    (lang : Language) : ∃ result, outcomes lang = .ok result := by
  cases h with
  | ok h => exact h lang

/-- Success can be seen in any of the languages. -/
theorem Concurs.isOk {outcomes : Language → Except ε α} (h : Concurs expected outcomes success) :
    Concurs expected outcomes (outcomes .c).isOk := by
  cases h with
  | ok h =>
    obtain ⟨res, hres⟩ := h .c
    rw [hres]
    exact .ok h
  | error hexpected h =>
    rw [h .c]
    exact .error hexpected h

theorem Concurs.of_eq {outcomes others : Language → Except ε α}
    (h : Concurs expected outcomes success)
    (heq : ∀ lang, others lang = outcomes lang) : Concurs expected others success :=
  (funext heq : others = outcomes) ▸ h

theorem Concurs.bind {outcomes : Language → Except ε α} {next : Language → α → Except ε β}
    {later : Bool} (h : Concurs expected outcomes success)
    (hnx : ∀ results : Language → α, (∀ lang, outcomes lang = .ok (results lang)) →
      Concurs expected (fun lang ↦ next lang (results lang)) later) :
    Concurs expected (fun lang ↦ outcomes lang >>= next lang) (success && later) := by
  cases h with
  | ok h =>
    choose results hresults using h
    refine (hnx results hresults).of_eq fun lang ↦ ?_
    rw [hresults]
    rfl
  | error hexpected h =>
    refine .error hexpected fun lang ↦ ?_
    rw [h]
    rfl

theorem Concurs.map {outcomes : Language → Except ε α} (h : Concurs expected outcomes success)
    (res : Language → α → β) :
    Concurs expected (fun lang ↦ outcomes lang >>= fun a ↦ pure (res lang a))
      success := by
  rw [← Bool.and_true success]
  exact h.bind fun results _ ↦ concurs_pure fun lang ↦ res lang (results lang)

theorem concurs_mapM {f : Language → α → Except ε β} {succeeds : α → Bool} {l : List α}
    (h : ∀ a ∈ l, Concurs expected (fun lang ↦ f lang a) (succeeds a)) :
    Concurs expected (fun lang ↦ l.mapM (f lang)) (l.all succeeds) := by
  induction l with
  | nil => exact concurs_pure fun _ ↦ []
  | cons a l ih =>
    obtain ⟨hfst, hrs⟩ := forall_mem_cons.mp h
    simp only [all_cons, mapM_cons]
    exact hfst.bind fun results _ ↦ (ih hrs).map fun lang bs ↦ results lang :: bs

end Concurrence

/-- A value that its type cannot write. -/
def TypeError.IsMismatch (error : TypeError) : Prop :=
  ∃ t v, error = .literalMismatch t v

namespace Scalar

/-- Whether a value of a scalar type has a literal. -/
def hasLiteral (kind : Scalar) (v : Value) : Bool :=
  match kind, v with
  | _, .zero => true
  | .double, v | .single, v => v.number?.isSome
  | .integer, .int _ => true
  | .integer, .float x => x.isWhole
  | .boolean, .bool _ => true
  | _, _ => false

theorem isSome_literal? (kind : Scalar) (lang : Language) (value : Value) :
    (kind.literal? lang value).isSome = kind.hasLiteral value := by
  cases kind with
  | double | single | boolean => cases value <;> rfl
  | integer =>
    cases value with
    | float x =>
      show (if x.isWhole then some (toString x.toInt64.toInt) else none).isSome = x.isWhole
      cases x.isWhole <;> rfl
    | int | bool | zero | tuple => rfl

end Scalar

namespace TypeDefinition

/-- Whether a value of this type has a literal, given for which values the types it names have
one. -/
def hasLiteral (t : TypeDefinition) (slotHasLiteral : String → Value → Bool) (v : Value) :
    Bool :=
  match t.shape with
  | .scalar kind => kind.hasLiteral v
  | .record fields _ =>
    match v with
    | .zero => true
    | .tuple items =>
      items.length = fields.length &&
        (fields.zip items).all fun slot ↦ slotHasLiteral slot.1.2 slot.2
    | _ => false
  | .template _ parameters length =>
    match v, parameters.head? with
    | .zero, _ => true
    | .tuple items, some element =>
      length.all (· = items.length) && items.all (slotHasLiteral element)
    | _, _ => false
  | .abstract => v = .zero

theorem hasLiteral_zero (t : TypeDefinition) (slotHasLiteral : String → Value → Bool) :
    t.hasLiteral slotHasLiteral .zero = true := by
  unfold hasLiteral
  split <;> rfl

section Slots

variable {slotLiteral : Language → String → Value → Except TypeError String}
  {slotHasLiteral : String → Value → Bool}

theorem mismatch (t : TypeDefinition) (v : Value) :
    (TypeError.literalMismatch t.name v.describe).IsMismatch :=
  ⟨_, _, rfl⟩

variable (hslots : ∀ name ∈ t.references, ∀ v, Concurs TypeError.IsMismatch
    (fun lang ↦ slotLiteral lang name v) (slotHasLiteral name v))
  (hz : ∀ name ∈ t.references, slotHasLiteral name .zero = true)

include hslots hz

theorem concurs_literal_record {extension : Option String}
    (hsh : t.shape = .record fields extension) (v : Value) :
    Concurs TypeError.IsMismatch (fun lang ↦ t.literal lang (slotLiteral lang) v)
      (t.hasLiteral slotHasLiteral v) := by
  have hreferences : t.references = fields.map Prod.snd := by rw [references, hsh]
  simp only [literal, hasLiteral, hsh]
  cases v with
  | zero =>
    refine .ok fun lang ↦ ?_
    dsimp only
    split
    · have hen {e : String × String} (h : e ∈ fields) : e.2 ∈ t.references :=
        hreferences ▸ mem_map_of_mem h
      have hfields := concurs_mapM (l := fields) fun e h ↦ hslots e.2 (hen h) .zero
      rw [all_eq_true.mpr fun e h ↦ hz e.2 (hen h)] at hfields
      obtain ⟨texts, htexts⟩ := hfields.exists_ok lang
      rw [htexts]
      exact ⟨_, rfl⟩
    · exact ⟨_, rfl⟩
  | tuple items =>
    dsimp only
    by_cases hlen : items.length = fields.length
    · simp only [if_pos hlen, decide_eq_true hlen, Bool.true_and]
      refine Concurs.map (concurs_mapM fun slot hsl ↦ ?_) _
      refine hslots _ (hreferences ▸ mem_map_of_mem ?_) _
      exact (of_mem_zip hsl).1
    · simp only [if_neg hlen, decide_eq_false hlen, Bool.false_and]
      exact .error (mismatch t _) fun _ ↦ rfl
  | float | int | bool => exact .error (mismatch t _) fun _ ↦ rfl

theorem concurs_literal_template (hsh : t.shape = .template family parameters length) (v : Value) :
    Concurs TypeError.IsMismatch (fun lang ↦ t.literal lang (slotLiteral lang) v)
      (t.hasLiteral slotHasLiteral v) := by
  have hreferences : t.references = parameters := by rw [references, hsh]
  simp only [literal, hasLiteral, hsh]
  cases hel : parameters.head? with
  | none =>
    cases v with
    | zero =>
      refine .ok fun lang ↦ ?_
      dsimp only
      split <;> exact ⟨_, rfl⟩
    | tuple | float | int | bool => exact .error (mismatch t _) fun _ ↦ rfl
  | some element =>
    have hm : element ∈ t.references := hreferences ▸ mem_of_mem_head? hel
    cases v with
    | zero =>
      refine .ok fun lang ↦ ?_
      dsimp only
      split
      · obtain ⟨text, htx⟩ := (hz element hm ▸ hslots element hm .zero).exists_ok lang
        rw [htx]
        exact ⟨_, rfl⟩
      · exact ⟨_, rfl⟩
    | tuple items =>
      dsimp only
      by_cases hlen : length.all (fun bound ↦ decide (bound = items.length)) = true
      · simp only [hlen, Bool.true_and]
        exact Concurs.map (concurs_mapM fun item _ ↦ hslots element hm item) _
      · simp only [Bool.eq_false_of_not_eq_true hlen, Bool.false_and]
        exact .error (mismatch t _) fun _ ↦ rfl
    | float | int | bool => exact .error (mismatch t _) fun _ ↦ rfl

/-- A definition has literals for the same values in every language if the types it names do. -/
theorem concurs_literal (v : Value) :
    Concurs TypeError.IsMismatch (fun lang ↦ t.literal lang (slotLiteral lang) v)
      (t.hasLiteral slotHasLiteral v) := by
  cases hsh : t.shape with
  | record fields extension => exact concurs_literal_record hslots hz hsh v
  | template family parameters length => exact concurs_literal_template hslots hz hsh v
  | scalar kind =>
    simp only [literal, hasLiteral, hsh]
    cases hhas : kind.hasLiteral v with
    | true =>
      refine .ok fun lang ↦ ?_
      obtain ⟨text, htx⟩ := isSome_iff_exists.mp ((kind.isSome_literal? lang v).trans hhas)
      exact ⟨text, by rw [htx]; rfl⟩
    | false =>
      refine .error (mismatch t v) fun lang ↦ ?_
      have hno : kind.literal? lang v = none := by
        rw [← not_isSome_iff_eq_none, kind.isSome_literal?, hhas]
        exact Bool.false_ne_true
      rw [hno]
      rfl
  | abstract =>
    simp only [literal, hasLiteral, hsh]
    cases v with
    | zero => exact .ok fun lang ↦ ⟨_, rfl⟩
    | tuple | float | int | bool => exact .error (mismatch t _) fun _ ↦ rfl

end Slots

/-- The types that a definition names; an extensible record also names the type of fields that it
gains later. -/
def mentions (t : TypeDefinition) : List String :=
  match t.shape with
  | .record fields extension => fields.map Prod.snd ++ extension.toList
  | .template _ parameters _ => parameters
  | .scalar _ | .abstract => []

theorem mem_mentions_of_mem_references {name : String} (h : name ∈ t.references) :
    name ∈ t.mentions := by
  unfold references at h
  unfold mentions
  generalize t.shape = shape at h ⊢
  cases shape with
  | record fields extension => exact mem_append_left _ h
  | template family parameters length => exact h
  | scalar | abstract => cases h

end TypeDefinition

namespace TypeTable

def hasLiteralIn : List TypeDefinition → String → Value → Bool
  | [], _, _ => false
  | type :: earlier, name, value =>
    if type.name = name then type.hasLiteral (hasLiteralIn earlier) value
    else hasLiteralIn earlier name value

/-- Whether a value has a literal as a value of the type. -/
def hasLiteral (ts : TypeTable) (name : String) (v : Value) : Bool :=
  hasLiteralIn ts.newestFirst name v

/-- The tables that come about by definitions which name known types only, and by fields that
extensible records gain. -/
inductive Built : TypeTable → Prop
  | empty : Built .empty
  | define {ts newer : TypeTable} {t : TypeDefinition} (hts : Built ts)
      (hkn : ∀ name ∈ t.mentions, (ts.get? name).isSome = true)
      (hinsert : ts.insert t = .ok newer) : Built newer
  | member {ts newer : TypeTable} {name field : String} {m : Nat × String}
      (hts : Built ts) (hm : ts.member name field = .ok (m, newer)) : Built newer

/-- Every definition names earlier ones only, and no name is defined twice. -/
def Ordered : List TypeDefinition → Prop
  | [] => True
  | type :: earlier =>
    (∀ name ∈ type.mentions, ∃ other ∈ earlier, other.name = name) ∧
      (∀ other ∈ earlier, other.name ≠ type.name) ∧ Ordered earlier

section Tables

variable {ts newer : TypeTable} {definitions : List TypeDefinition} {name : String}

theorem isSome_get?_iff : (ts.get? name).isSome = true ↔ ∃ t ∈ ts.newestFirst, t.name = name := by
  rw [get?, find?_isSome]
  simp only [beq_iff_eq]

theorem Built.addRecord (hts : ts.Built)
    (h : ts.addRecord name fields = .ok newer) : newer.Built := by
  obtain ⟨hkn, hinsert⟩ := ok_of_addRecord h
  refine .define hts (fun name hnm ↦ ?_) hinsert
  have hfd := (mem_append.mp hnm).resolve_right (by simp)
  obtain ⟨e, hen, rfl⟩ := mem_map.mp hfd
  exact hkn _ ((type_of_mem_putFields hen).resolve_left not_mem_nil)

theorem Built.addExtensibleRecord (hts : ts.Built)
    (h : ts.addExtensibleRecord name fields extension = .ok newer) :
    newer.Built := by
  obtain ⟨hkn, hextension, hinsert⟩ := ok_of_addExtensibleRecord h
  refine .define hts (fun name hnm ↦ ?_) hinsert
  rcases mem_append.mp hnm with hfd | hl
  · obtain ⟨e, hen, rfl⟩ := mem_map.mp hfd
    exact hkn _ ((type_of_mem_putFields hen).resolve_left not_mem_nil)
  · exact mem_singleton.mp hl ▸ hextension

theorem Built.addTemplate (hts : ts.Built)
    (h : ts.addTemplate name family parameters length = .ok newer) :
    newer.Built := by
  obtain ⟨hkn, hinsert⟩ := ok_of_addTemplate h
  refine .define hts ?_ hinsert
  exact hkn

/-- The tables that grow out of the scalars are among those that are built. -/
theorem Grown.built (h : ts.Grown) : ts.Built := by
  induction h with
  | scalars =>
    have hscalar {ts : TypeTable} (hts : ts.Built) {name : String} (kind : Scalar)
        (hfr : ts.get? name = none) :
        Built ⟨⟨name, .scalar kind⟩ :: ts.newestFirst⟩ := by
      have hinsert : ts.insert ⟨name, .scalar kind⟩ =
          .ok ⟨⟨name, .scalar kind⟩ :: ts.newestFirst⟩ := by
        rw [insert, hfr]
        rfl
      exact .define hts (forall_mem_nil _) hinsert
    exact hscalar (hscalar (hscalar (hscalar .empty .double rfl) .single rfl) .integer rfl)
      .boolean rfl
  | record _ hadd ih => exact ih.addRecord hadd
  | extensibleRecord _ hadd ih => exact ih.addExtensibleRecord hadd
  | template _ hadd ih => exact ih.addTemplate hadd
  | abstract _ hadd ih => exact .define ih (forall_mem_nil _) hadd
  | member _ hm ih => exact .member ih hm

theorem Ordered.eq_of_name (h : Ordered definitions) {other : TypeDefinition}
    (ht : type ∈ definitions) (ho : other ∈ definitions) (hnm : other.name = type.name) :
    other = type := by
  induction definitions with
  | nil => cases ht
  | cons newest earlier ih =>
    obtain ⟨-, hfr, hear⟩ := h
    rcases mem_cons.mp ht with rfl | ht
    · rcases mem_cons.mp ho with rfl | ho
      · rfl
      · exact absurd hnm (hfr other ho)
    · rcases mem_cons.mp ho with rfl | ho
      · exact absurd hnm.symm (hfr type ‹type ∈ earlier›)
      · exact ih hear ht ho

/-- A field of the type that a record is open for can be appended to it. -/
theorem Ordered.appendField (h : Ordered definitions) (hrecord : ∀ t ∈ definitions, t.name = name →
      ∃ fields, t.shape = .record fields (some extension)) (field : String) :
    Ordered (definitions.map (appendField name (field, extension))) := by
  induction definitions with
  | nil => trivial
  | cons t earlier ih =>
    obtain ⟨hmentions, hfr, hear⟩ := h
    obtain ⟨hnewest, hrs⟩ := forall_mem_cons.mp hrecord
    refine ⟨fun mentioned hmentioned ↦ ?_, fun other ho ↦ ?_, ih hear hrs⟩
    · have hold : mentioned ∈ t.mentions := by
        by_cases hnm : t.name = name
        · obtain ⟨fields, hsh⟩ := hnewest hnm
          rw [TypeTable.appendField, if_pos (beq_iff_eq.mpr hnm), hsh] at hmentioned
          rw [TypeDefinition.mentions, hsh]
          simp only [TypeDefinition.mentions, map_append, map_cons, map_nil,
            toList_some, append_assoc, mem_append, mem_singleton]
            at hmentioned ⊢
          tauto
        · rwa [TypeTable.appendField, if_neg fun h ↦ hnm (beq_iff_eq.mp h)] at hmentioned
      obtain ⟨other, ho, rfl⟩ := hmentions mentioned hold
      exact ⟨_, mem_map_of_mem ho, appendField_name _ _ other⟩
    · obtain ⟨older, holder, rfl⟩ := mem_map.mp ho
      rw [appendField_name, appendField_name]
      exact hfr older holder

theorem Built.ordered (h : ts.Built) : Ordered ts.newestFirst := by
  induction h with
  | empty => trivial
  | define _ hkn hinsert ih =>
    unfold insert at hinsert
    split at hinsert
    · cases hinsert
    next hfr =>
      cases hinsert
      refine ⟨fun name hnm ↦ isSome_get?_iff.mp (hkn name hnm), fun other ho heq ↦ ?_, ih⟩
      exact hfr (isSome_get?_iff.mpr ⟨other, ho, heq⟩)
  | member _ hm ih =>
    obtain ⟨t, hg, ⟨-, rfl⟩ | ⟨fields, extension, hsh, -, -, rfl⟩⟩ := member_cases hm
    · exact ih
    · refine ih.appendField (fun other ho hnm ↦ ⟨fields, ?_⟩) _
      rw [ih.eq_of_name (mem_of_find?_eq_some hg) ho (hnm.trans (get?_name hg).symm)]
      exact hsh

theorem hasLiteralIn_zero (hkn : ∃ t ∈ definitions, t.name = name) :
    hasLiteralIn definitions name .zero = true := by
  induction definitions with
  | nil =>
    obtain ⟨_, hno, -⟩ := hkn
    cases hno
  | cons t earlier ih =>
    unfold hasLiteralIn
    split
    next => exact t.hasLiteral_zero _
    next hnm =>
      obtain ⟨m, hf, rfl⟩ := hkn
      refine ih ⟨m, (mem_cons.mp hf).resolve_left ?_, rfl⟩
      rintro rfl
      exact hnm rfl

/-- Literals are looked up with the definitions before, and these are among themselves in order. -/
theorem Ordered.concurs_literalIn (h : Ordered definitions)
    (hkn : ∃ t ∈ definitions, t.name = name) (v : Value) :
    Concurs TypeError.IsMismatch (fun lang ↦ literalIn lang definitions name v)
      (hasLiteralIn definitions name v) := by
  induction definitions generalizing name v with
  | nil =>
    obtain ⟨_, hno, -⟩ := hkn
    cases hno
  | cons t earlier ih =>
    obtain ⟨hmentions, -, hear⟩ := h
    simp only [literalIn, hasLiteralIn]
    split
    next =>
      refine concurs_literal (fun slot hsl v ↦ ?_) (fun slot hsl ↦ ?_) v
      · have hsl := mem_mentions_of_mem_references hsl
        exact ih hear (hmentions slot hsl) v
      · have hsl := mem_mentions_of_mem_references hsl
        exact hasLiteralIn_zero (hmentions slot hsl)
    next hnm =>
      obtain ⟨m, hf, rfl⟩ := hkn
      refine ih hear ⟨m, (mem_cons.mp hf).resolve_left ?_, rfl⟩ v
      rintro rfl
      exact hnm rfl

/-- Every language has literals for the same values of a type, and reports the others alike. -/
theorem Built.concurs_literal (h : ts.Built) (hkn : (ts.get? name).isSome = true) (v : Value) :
    Concurs TypeError.IsMismatch (fun lang ↦ ts.literal lang name v)
      (ts.hasLiteral name v) :=
  h.ordered.concurs_literalIn (isSome_get?_iff.mp hkn) v

/-- The zero of a type has a literal. -/
theorem hasLiteral_zero (hkn : (ts.get? name).isSome = true) : ts.hasLiteral name .zero = true :=
  hasLiteralIn_zero (isSome_get?_iff.mp hkn)

end Tables

end TypeTable

end DiffGraph
