import DiffGraph.Proofs.Types.Literals

/-!
Types in the order of their definition. Whatever is asked of a table, definitions and members in any
order and with any failures, every type that another one names was defined before it, and definitions
keep their places (`TypeTable.continues_afterAll`). The references are therefore well-founded, although
extensible records go on to gain fields. Literals are written by the plain recursion along them
(`TypeTable.Ordered.literalIn_eq`), and the types that are reached from some roots are those of their
transitive closure (`TypeTable.Ordered.mem_reachableIn_iff`).
-/

set_option autoImplicit false

namespace DiffGraph

open List Relation TypeDefinition

variable {newest : TypeDefinition}

theorem mapM_congr_left {m : Type → Type} [Monad m] [LawfulMonad m] {α β : Type} {l : List α}
    {f g : α → m β} (h : ∀ a ∈ l, f a = g a) : l.mapM f = l.mapM g := by
  induction l with
  | nil => rfl
  | cons a l ih =>
    obtain ⟨hfst, hrs⟩ := forall_mem_cons.mp h
    rw [mapM_cons, mapM_cons, hfst, ih hrs]

/-- The text of a value depends on how the types that are named write theirs. -/
theorem TypeDefinition.literal_congr {t : TypeDefinition} {lang : Language}
    {slotLiteral other : String → Value → Except TypeError String}
    (h : ∀ name ∈ t.references, slotLiteral name = other name) (value : Value) :
    t.literal lang slotLiteral value = t.literal lang other value := by
  cases hsh : t.shape with
  | scalar | abstract => simp only [literal, hsh]
  | record fields extension =>
    have hreferences : t.references = fields.map Prod.snd := by rw [references, hsh]
    have hslot {e : String × String} (hen : e ∈ fields) :
        slotLiteral e.2 = other e.2 := h _ (hreferences ▸ mem_map_of_mem hen)
    have hzero : (fields.mapM fun e ↦ slotLiteral e.2 .zero) =
        fields.mapM fun e ↦ other e.2 .zero :=
      mapM_congr_left fun e hen ↦ congrFun (hslot hen) .zero
    have hitems (items : List Value) : ((fields.zip items).mapM fun slot ↦
        slotLiteral slot.1.2 slot.2) = (fields.zip items).mapM fun slot ↦ other slot.1.2 slot.2 :=
      mapM_congr_left fun slot hsl ↦ congrFun (hslot (of_mem_zip hsl).1) slot.2
    simp only [literal, hsh, hzero, hitems]
  | template family parameters length =>
    have hreferences : t.references = parameters := by rw [references, hsh]
    cases hel : parameters.head? with
    | none => cases value <;> simp only [literal, hsh, hel]
    | some element =>
      have helement := h element (hreferences ▸ mem_of_mem_head? hel)
      cases value <;> simp only [literal, hsh, hel, helement]

namespace TypeTable

variable {ts newer : TypeTable} {t type : TypeDefinition} {name other : String}
  {definitions : List TypeDefinition}

/-- A type names the other one in a field or as a parameter. -/
def RefersIn (definitions : List TypeDefinition) (name other : String) : Prop :=
  ∃ t ∈ definitions, t.name = name ∧ other ∈ t.references

def Refers (ts : TypeTable) : String → String → Prop := RefersIn ts.newestFirst

/-- What can be asked of a table. -/
inductive Change where
  | scalar (name : String) (kind : Scalar)
  | abstract (name : String)
  | record (name : String) (fields : List (String × String))
  | extensibleRecord (name : String) (fields : List (String × String)) (extension : String)
  | template (name family : String) (parameters : List String) (length : Option Nat)
  | member (name field : String)

def attempt (ts : TypeTable) : Change → Except TypeError TypeTable
  | .scalar name kind => ts.insert ⟨name, .scalar kind⟩
  | .abstract name => ts.insert ⟨name, .abstract⟩
  | .record name fields => ts.addRecord name fields
  | .extensibleRecord name fields extension => ts.addExtensibleRecord name fields extension
  | .template name family parameters length => ts.addTemplate name family parameters length
  | .member name field => (ts.member name field).map Prod.snd

/-- The table as it is left, also by what fails. -/
def after (ts : TypeTable) (change : Change) : TypeTable :=
  match ts.attempt change with
  | .ok newer => newer
  | .error _ => ts

def afterAll (types : TypeTable) (changes : List Change) : TypeTable := changes.foldl after types

theorem afterAll_append (ts : TypeTable) (changes more : List Change) :
    ts.afterAll (changes ++ more) = (ts.afterAll changes).afterAll more :=
  foldl_append

section Changes

variable {change : Change}

/-- A change that succeeds defines a type or looks for a member. -/
theorem ok_of_attempt (h : ts.attempt change = .ok newer) :
    (∃ t, ts.insert t = .ok newer) ∨ ts.Extends newer := by
  cases change with
  | scalar | abstract => exact .inl ⟨_, h⟩
  | record => exact .inl ⟨_, (ok_of_addRecord h).2⟩
  | extensibleRecord => exact .inl ⟨_, (ok_of_addExtensibleRecord h).2.2⟩
  | template => exact .inl ⟨_, (ok_of_addTemplate h).2⟩
  | member name field =>
    rw [attempt] at h
    cases hm : ts.member name field with
    | error error =>
      rw [hm] at h
      cases h
    | ok res =>
      rw [hm] at h
      cases h
      exact .inr (extends_member hm)

theorem Built.attempt (hts : ts.Built) (h : ts.attempt change = .ok newer) : newer.Built := by
  cases change with
  | scalar | abstract => exact .define hts (forall_mem_nil _) h
  | record => exact hts.addRecord h
  | extensibleRecord => exact hts.addExtensibleRecord h
  | template => exact hts.addTemplate h
  | member name field =>
    rw [TypeTable.attempt] at h
    cases hm : ts.member name field with
    | error error =>
      rw [hm] at h
      cases h
    | ok res =>
      rw [hm] at h
      cases h
      exact hts.member hm

theorem Built.after (hts : ts.Built) (change : Change) : (ts.after change).Built := by
  unfold TypeTable.after
  split
  next h => exact hts.attempt h
  next => exact hts

theorem Built.afterAll (hts : ts.Built) (changes : List Change) : (ts.afterAll changes).Built := by
  induction changes generalizing ts with
  | nil => exact hts
  | cons change changes ih => exact ih (hts.after change)

/-- Definitions keep their places in the order, and fields theirs in the definitions. -/
structure Continues (older newer : TypeTable) : Prop where
  names : older.names <+: newer.names
  get? : ∀ ⦃name : String⦄ ⦃t : TypeDefinition⦄, older.get? name = some t →
    ∃ wider, newer.get? name = some wider ∧ t.Widens wider

theorem Continues.refl (types : TypeTable) : types.Continues types :=
  ⟨prefix_rfl, fun _ t hg ↦ ⟨t, hg, .refl t⟩⟩

theorem Continues.trans {first middle last : TypeTable} (hfst : first.Continues middle)
    (hla : middle.Continues last) : first.Continues last := by
  refine ⟨hfst.names.trans hla.names, fun name t hg ↦ ?_⟩
  obtain ⟨wider, hwd, hwn⟩ := hfst.get? hg
  obtain ⟨widest, hws, hwn'⟩ := hla.get? hwd
  exact ⟨widest, hws, hwn.trans hwn'⟩

/-- Members that are looked for define no types. -/
theorem Extends.names (h : ts.Extends newer) : newer.names = ts.names := by
  induction h with
  | refl => rfl
  | tail _ hstep ih =>
    obtain ⟨base, field, m, hm⟩ := hstep
    obtain ⟨-, -, ⟨-, rfl⟩ | ⟨_, extension, -, -, -, rfl⟩⟩ := member_cases hm
    · exact ih
    · rw [← ih, TypeTable.names, TypeTable.names, map_reverse, map_reverse]
      refine congrArg reverse ((List.map_map ..).trans (map_congr_left fun t _ ↦ ?_))
      exact appendField_name base (field, extension) t

theorem continues_after (ts : TypeTable) (change : Change) : ts.Continues (ts.after change) := by
  unfold after
  split
  next newer h =>
    obtain ⟨t, hinsert⟩ | hext := ok_of_attempt h
    · refine ⟨?_, fun _ m hf ↦ ⟨m, get?_of_insert hinsert hf, .refl m⟩⟩
      unfold insert at hinsert
      split at hinsert
      · cases hinsert
      · cases hinsert
        simp [names]
    · exact ⟨hext.names ▸ prefix_rfl, fun _ _ hg ↦ hext.get? hg⟩
  next => exact .refl ts

theorem continues_afterAll (types : TypeTable) (changes : List Change) :
    types.Continues (types.afterAll changes) := by
  induction changes generalizing types with
  | nil => exact .refl types
  | cons change changes ih => exact (continues_after types change).trans (ih _)

end Changes

section References

theorem names_cons (t : TypeDefinition) (earlier : List TypeDefinition) :
    names ⟨t :: earlier⟩ = names ⟨earlier⟩ ++ [t.name] := by
  simp [names]

theorem mem_names : name ∈ names ⟨definitions⟩ ↔ ∃ t ∈ definitions, t.name = name := by
  simp [names]

theorem Ordered.names_nodup (h : Ordered definitions) : (names ⟨definitions⟩).Nodup := by
  induction definitions with
  | nil => exact .nil
  | cons t earlier ih =>
    rw [names_cons, ← concat_eq_append]
    refine (ih h.2.2).concat fun hm ↦ ?_
    obtain ⟨other, ho, hnm⟩ := mem_names.mp hm
    exact h.2.1 other ho hnm

theorem RefersIn.cons (h : RefersIn definitions name other) (newest : TypeDefinition) :
    RefersIn (newest :: definitions) name other := by
  obtain ⟨t, ht, hrs⟩ := h
  exact ⟨t, mem_cons_of_mem _ ht, hrs⟩

/-- What is named was defined before the newest type. -/
theorem Ordered.mem_names_of_refers (h : Ordered (newest :: definitions))
    (href : RefersIn (newest :: definitions) name other) : other ∈ names ⟨definitions⟩ := by
  induction definitions generalizing newest with
  | nil =>
    obtain ⟨t, ht, -, href⟩ := href
    obtain rfl := mem_singleton.mp ht
    obtain ⟨_, hno, -⟩ := h.1 other (mem_mentions_of_mem_references href)
    cases hno
  | cons earlier definitions ih =>
    obtain ⟨t, ht, hnm, href⟩ := href
    rcases mem_cons.mp ht with rfl | ht
    · exact mem_names.mpr (h.1 other (mem_mentions_of_mem_references href))
    · rw [names_cons]
      exact mem_append_left _ (ih h.2.2 ⟨t, ht, hnm, href⟩)

theorem Ordered.newest_notMem (h : Ordered (newest :: definitions)) :
    newest.name ∉ names ⟨definitions⟩ := by
  intro hm
  obtain ⟨older, holder, hnm⟩ := mem_names.mp hm
  exact h.2.1 older holder hnm

/-- A reference leads to an earlier definition. -/
theorem Ordered.idxOf_lt (h : Ordered definitions) (href : RefersIn definitions name other) :
    (names ⟨definitions⟩).idxOf other < (names ⟨definitions⟩).idxOf name := by
  induction definitions with
  | nil =>
    obtain ⟨t, hno, -⟩ := href
    cases hno
  | cons newest earlier ih =>
    have hm := h.mem_names_of_refers href
    obtain ⟨t, ht, rfl, href⟩ := href
    rw [names_cons, idxOf_append_of_mem hm]
    rcases mem_cons.mp ht with rfl | ht
    · rw [idxOf_append_of_notMem h.newest_notMem]
      exact (idxOf_lt_length_iff.mpr hm).trans_le (Nat.le_add_right ..)
    · rw [idxOf_append_of_mem (mem_names.mpr ⟨t, ht, rfl⟩)]
      exact ih h.2.2 ⟨t, ht, rfl, href⟩

theorem Ordered.idxOf_lt_of_transGen (h : Ordered definitions)
    (href : TransGen (RefersIn definitions) name other) :
    (names ⟨definitions⟩).idxOf other < (names ⟨definitions⟩).idxOf name := by
  induction href with
  | single href => exact h.idxOf_lt href
  | tail _ href ih => exact (h.idxOf_lt href).trans ih

theorem Ordered.wellFounded (h : Ordered definitions) :
    WellFounded fun other name ↦ RefersIn definitions name other :=
  Subrelation.wf h.idxOf_lt (measure (names ⟨definitions⟩).idxOf).wf

/-- Literals are written by the recursion along the references, with the whole table at hand. -/
theorem Ordered.literalIn_eq (h : Ordered definitions) (lang : Language)
    (ht : t ∈ definitions) (value : Value) :
    literalIn lang definitions t.name value =
      t.literal lang (literalIn lang definitions) value := by
  induction definitions generalizing t value with
  | nil => cases ht
  | cons newest earlier ih =>
    -- What is named is looked for behind the newest definition.
    have hslots : ∀ other ∈ t.references,
        literalIn lang earlier other = literalIn lang (newest :: earlier) other := by
      intro other href
      have hm := h.mem_names_of_refers ⟨t, ht, rfl, href⟩
      funext value
      rw [literalIn, if_neg]
      rintro rfl
      exact h.newest_notMem hm
    rw [← literal_congr hslots]
    rcases mem_cons.mp ht with rfl | ht
    · rw [literalIn, if_pos rfl]
    · rw [literalIn, if_neg (h.2.1 t ht).symm]
      exact ih h.2.2 ht value

/-- A path to an earlier definition leaves the newest one at its beginning, if it begins there. -/
theorem Ordered.path_cases (h : Ordered (newest :: definitions))
    {root : String} (hpath : ReflTransGen (RefersIn (newest :: definitions)) root name)
    (hnm : name ∈ names ⟨definitions⟩) :
    root ∈ names ⟨definitions⟩ ∧ ReflTransGen (RefersIn definitions) root name ∨
      root = newest.name ∧ ∃ other ∈ newest.references,
        ReflTransGen (RefersIn definitions) other name := by
  induction hpath using ReflTransGen.head_induction_on with
  | refl => exact .inl ⟨hnm, .refl⟩
  | head hstep _ ih =>
    have hm := h.mem_names_of_refers hstep
    have hrest := ih.resolve_right fun heq ↦ h.newest_notMem (heq.1 ▸ hm)
    obtain ⟨t, ht, rfl, href⟩ := hstep
    rcases mem_cons.mp ht with rfl | ht
    · exact .inr ⟨rfl, _, href, hrest.2⟩
    · exact .inl ⟨mem_names.mpr ⟨t, ht, rfl⟩, .head ⟨t, ht, rfl, href⟩ hrest.2⟩

/-- The types that are reached from some roots are the known ones of their closure. -/
theorem Ordered.mem_reachableIn_iff (h : Ordered definitions) {w : List String} :
    name ∈ reachableIn definitions w ↔ name ∈ names ⟨definitions⟩ ∧
      ∃ root ∈ w, ReflTransGen (RefersIn definitions) root name := by
  induction definitions generalizing w with
  | nil => simp [reachableIn, names]
  | cons newest earlier ih =>
    have hlift {root : String} (hpath : ReflTransGen (RefersIn earlier) root name) :
        ReflTransGen (RefersIn (newest :: earlier)) root name :=
      ReflTransGen.mono (fun _ _ href ↦ RefersIn.cons href newest) _ _ hpath
    have hnewest {root : String}
        (hpath : ReflTransGen (RefersIn (newest :: earlier)) root newest.name) :
        root = newest.name := by
      rcases hpath.cases_tail with heq | ⟨_, -, href⟩
      · exact heq.symm
      · exact absurd (h.mem_names_of_refers href) h.newest_notMem
    rw [reachableIn, names_cons, mem_append, mem_singleton]
    by_cases hwanted : newest.name ∈ w
    · rw [if_pos hwanted, mem_cons, ih h.2.2]
      constructor
      · rintro (rfl | ⟨hnm, root, hrt, hpath⟩)
        · exact ⟨.inr rfl, _, hwanted, .refl⟩
        · refine ⟨.inl hnm, ?_⟩
          rcases mem_append.mp hrt with href | hrt
          · exact ⟨_, hwanted, .head ⟨newest, mem_cons_self, rfl, href⟩ (hlift hpath)⟩
          · exact ⟨root, hrt, hlift hpath⟩
      · rintro ⟨hnm | rfl, root, hrt, hpath⟩
        · refine .inr ⟨hnm, ?_⟩
          rcases h.path_cases hpath hnm with ⟨-, hpath⟩ | ⟨-, other, href, hpath⟩
          · exact ⟨root, mem_append_right _ hrt, hpath⟩
          · exact ⟨other, mem_append_left _ href, hpath⟩
        · exact .inl rfl
    · rw [if_neg hwanted, ih h.2.2]
      constructor
      · rintro ⟨hnm, root, hrt, hpath⟩
        exact ⟨.inl hnm, root, hrt, hlift hpath⟩
      · rintro ⟨hnm | rfl, root, hrt, hpath⟩
        · rcases h.path_cases hpath hnm with ⟨-, hpath⟩ | ⟨rfl, -⟩
          · exact ⟨hnm, root, hrt, hpath⟩
          · exact absurd hrt hwanted
        · exact absurd (hnewest hpath ▸ hrt) hwanted

theorem reachableIn_sublist (definitions : List TypeDefinition) (w : List String) :
    reachableIn definitions w <+ definitions.map TypeDefinition.name := by
  induction definitions generalizing w with
  | nil => exact .slnil
  | cons t earlier ih =>
    rw [reachableIn]
    split
    · exact (ih _).cons_cons _
    · exact (ih _).cons _

theorem Ordered.nodup_reachableIn (h : Ordered definitions) (w : List String) :
    (reachableIn definitions w).Nodup := by
  have hnd := h.names_nodup
  rw [names, map_reverse, nodup_reverse] at hnd
  exact hnd.sublist (reachableIn_sublist definitions w)

/-- What is reached is listed once, in alphabetical order. -/
theorem Built.pairwise_referenced (h : ts.Built) (roots : List String) :
    (ts.referenced roots).Pairwise (· < ·) := by
  have hsorted : (ts.referenced roots).Pairwise fun a b ↦ decide (a ≤ b) = true := by
    refine pairwise_mergeSort (fun a b c hab hbc ↦ ?_) (fun a b ↦ ?_) _
    · exact decide_eq_true (String.le_trans (of_decide_eq_true hab) (of_decide_eq_true hbc))
    · simpa using String.le_total a b
  have hnodup : (ts.referenced roots).Nodup :=
    (mergeSort_perm ..).nodup_iff.mpr (h.ordered.nodup_reachableIn roots)
  refine (hsorted.and hnodup).imp fun ⟨hle, hne⟩ ↦ ?_
  exact String.not_le.mp fun hge ↦ hne (String.le_antisymm (of_decide_eq_true hle) hge)

theorem Built.mem_referenced_iff (h : ts.Built) {roots : List String}
    (hkn : ∀ root ∈ roots, (ts.get? root).isSome = true) :
    name ∈ ts.referenced roots ↔ ∃ root ∈ roots, ReflTransGen ts.Refers root name := by
  rw [referenced, mem_mergeSort, h.ordered.mem_reachableIn_iff]
  refine and_iff_right_of_imp fun ⟨root, hrt, hpath⟩ ↦ ?_
  rcases hpath.cases_tail with rfl | ⟨_, -, href⟩
  · exact mem_names.mpr (isSome_get?_iff.mp (hkn _ hrt))
  · exact idxOf_lt_length_iff.mp ((h.ordered.idxOf_lt href).trans_le idxOf_le_length)

end References

/-- Whatever was asked of a table, and whatever is asked of it later: names are unique, what fails
changes nothing, every type that is reached through references was defined strictly before, and
definitions keep their places, also those of their fields. So the references are well-founded. Literals
are written by recursion along them, and what a type refers to is its closure. -/
theorem wellFounded_afterAll (changes more : List Change) :
    (empty.afterAll changes).names.Nodup ∧
    (∀ change error, (empty.afterAll changes).attempt change = .error error →
      empty.afterAll (changes ++ [change]) = empty.afterAll changes) ∧
    (∀ name other, TransGen (empty.afterAll changes).Refers name other →
      other ∈ (empty.afterAll changes).names ∧
      (empty.afterAll changes).names.idxOf other < (empty.afterAll changes).names.idxOf name) ∧
    (empty.afterAll changes).names <+: (empty.afterAll (changes ++ more)).names ∧
    (∀ name type, (empty.afterAll changes).get? name = some type →
      ∃ wider, (empty.afterAll (changes ++ more)).get? name = some wider ∧ type.Widens wider ∧
        type.fields <+: wider.fields) ∧
    WellFounded (fun other name ↦ (empty.afterAll changes).Refers name other) ∧
    ∀ name type, (empty.afterAll changes).get? name = some type →
      (∀ lang value, (empty.afterAll changes).literal lang name value =
        type.literal lang ((empty.afterAll changes).literal lang) value) ∧
      ∀ other, other ∈ (empty.afterAll changes).referenced [name] ↔
        ReflTransGen (empty.afterAll changes).Refers name other := by
  have hbuilt := Built.empty.afterAll changes
  have hordered := hbuilt.ordered
  have hlater : (empty.afterAll changes).Continues (empty.afterAll (changes ++ more)) := by
    rw [afterAll_append]
    exact continues_afterAll _ more
  refine ⟨hordered.names_nodup, fun change error herror ↦ ?_, fun name other hpath ↦ ?_,
    hlater.names, fun name type hget ↦ ?_, hordered.wellFounded, fun name type hget ↦
      ⟨fun lang value ↦ ?_, fun other ↦ ?_⟩⟩
  · rw [afterAll_append, afterAll, foldl_cons, foldl_nil, after, herror]
  · have hlt := hordered.idxOf_lt_of_transGen hpath
    exact ⟨idxOf_lt_length_iff.mp (hlt.trans_le idxOf_le_length), hlt⟩
  · obtain ⟨wider, hwider, hwidens⟩ := hlater.get? hget
    obtain ⟨added, hfields⟩ := hwidens.fields
    exact ⟨wider, hwider, hwidens, hfields ▸ prefix_append ..⟩
  · have heq := hordered.literalIn_eq lang (mem_of_find?_eq_some hget) value
    rwa [get?_name hget] at heq
  · rw [hbuilt.mem_referenced_iff (forall_mem_singleton.mpr (Option.isSome_of_eq_some hget))]
    simp

/-- The table of the scalars is among these. -/
example : scalars = empty.afterAll [.scalar "double" .double, .scalar "float" .single,
    .scalar "int" .integer, .scalar "bool" .boolean] := rfl

end TypeTable

end DiffGraph
