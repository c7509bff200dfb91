import DiffGraph.Proofs.Draft.Program

/-!
The names of an emitted function. Its parameters and its other variables are the variables of the
arguments, and its temporaries are the shared expressions. Names of one kind differ: plain names and
names with one suffix because arguments have names of their own, and temporaries because their
positions do. Names of two kinds are formed independently of each other, and nothing keeps them
apart: all names differ if and only if the kinds have no name in common
(`Reachable.emitted_names_differ_iff`).
-/

set_option autoImplicit false

namespace DiffGraph

open List

namespace Variable

/-- The name of a variable is the same in all languages. -/
def name (d : Draft) : Variable → String
  | .input name => name
  | .output name => name
  | .previous name => d.previousName name
  | .next name => d.nextName name

theorem text_text (draft : Draft) (lang : Language) (bound : Variable) :
    (bound.text draft lang).text = bound.name draft := by
  cases bound <;> rfl

/-- The variables that an argument becomes. -/
def ofArgument (name : String) : Direction → List Variable
  | .input => [.input name]
  | .output => [.output name]
  | .update => [.previous name, .next name]

/-- Whether the variable brings a value in. -/
def isRead : Variable → Bool
  | .input _ | .previous _ => true
  | .output _ | .next _ => false

def isInput : Variable → Bool
  | .input _ => true
  | _ => false

/-- How a parameter is written. -/
def parameter (d : Draft) (lang : Language) (bound : Variable) (t : String) : String :=
  match lang with
  | .c => t ++ (if bound.isRead then " " else " *") ++ bound.name d
  | .cpp => t ++ (if bound.isRead then " const &" else " &") ++ bound.name d
  | .js => bound.name d

/-- How a variable is declared that is not a parameter. -/
def declaration (draft : Draft) (bound : Variable) (type : String) : Except Error String :=
  match draft.types.literal .js type .zero with
  | .ok zero => .ok s!"let {bound.name draft} = {zero};"
  | .error error => .error (.typing error)

end Variable

/-- The node whose temporary a statement declares. -/
def Statement.declared? : Statement → Option NodeId
  | .declare _ id _ => some id
  | .assign .. => none

namespace Draft

/-- The variables of a function with their types. -/
def boundVariables (d : Draft) : List (Variable × String) :=
  d.argumentTable.flatMap fun e ↦
    (Variable.ofArgument e.1 e.2.2).map fun bound ↦ (bound, e.2.1)

/-- The parameters in their order. -/
def parameterVariables (d : Draft) (lang : Language) : List (Variable × String) :=
  if lang = .js then
    (d.boundVariables.filter fun entry ↦ entry.1.isInput) ++
      d.boundVariables.filter fun entry ↦ !entry.1.isInput && entry.1.isRead
  else d.boundVariables

/-- The variables that are declared in the body. -/
def localVariables (d : Draft) (lang : Language) : List (Variable × String) :=
  if lang = .js then d.boundVariables.filter fun entry ↦ !entry.1.isRead else []

/-- The nodes that are kept in temporaries. -/
def temporaries (d : Draft) : List NodeId := d.program.filterMap Statement.declared?

/-- All names that a function binds: parameters, other variables and temporaries. -/
def names (d : Draft) (lang : Language) : List String :=
  (d.parameterVariables lang ++ d.localVariables lang).map
    (fun e ↦ e.1.name d) ++ d.temporaries.map d.temporaryName

/-- The names of the arguments that are not updated. -/
def plainNames (d : Draft) : List String :=
  (d.argumentTable.filter fun e ↦ e.2.2 != .update).map Prod.fst

def updatedNames (d : Draft) : List String :=
  (d.argumentTable.filter fun e ↦ e.2.2 == .update).map Prod.fst

/-- The plain names, the names with a suffix and the names of temporaries have none in common. -/
structure Apart (d : Draft) : Prop where
  plain : ∀ name ∈ d.plainNames, ∀ updated ∈ d.updatedNames,
    name ≠ d.previousName updated ∧ name ≠ d.nextName updated
  suffixes : ∀ first ∈ d.updatedNames, ∀ second ∈ d.updatedNames,
    d.previousName first ≠ d.nextName second
  temporaries : ∀ id ∈ d.temporaries, ∀ e ∈ d.boundVariables,
    d.temporaryName id ≠ e.1.name d

section Texts

variable (d draft : Draft) (lang language : Language)

/-- The head of a function lists its parameters. -/
theorem signature_eq : d.signature lang =
    (if lang = .js then "function " else "void ") ++ d.name ++ "(" ++
      ", ".intercalate ((d.parameterVariables lang).map
        fun e ↦ e.1.parameter d lang e.2) ++ ")" := by
  -- Each part of a list of parameters comes from one argument.
  have hli (w : Direction → Bool) (among : Variable → Bool) (h : ∀ name t dir, (if w dir = true then
          d.parameters lang name t dir else []) =
        ((Variable.ofArgument name dir).filter among).map fun bound ↦ bound.parameter d lang t) :
      (d.argumentTable.flatMap fun e ↦ if w e.2.2 = true then
        d.parameters lang e.1 e.2.1 e.2.2 else []) =
      (d.boundVariables.filter fun e ↦ among e.1).map fun e ↦ e.1.parameter d lang e.2 := by
    rw [boundVariables, filter_flatMap, map_flatMap]
    congr 1
    funext e
    rw [h, filter_map, map_map]
    rfl
  cases lang with
  | js =>
    have hinputs := hli (· != .update) Variable.isInput fun name t dir ↦ by
      cases dir <;> rfl
    have hupdates := hli (· == .update) (fun bound ↦ !bound.isInput && bound.isRead)
      fun name t dir ↦ by cases dir <;> rfl
    change _ = "function " ++ d.name ++ "(" ++ ", ".intercalate (map _ (_ ++ _)) ++ ")"
    rw [map_append, ← hinputs, ← hupdates]
    rfl
  | _ =>
    have hparameters := hli (fun _ ↦ true) (fun _ ↦ true) fun name t dir ↦ by
      cases dir <;> rfl
    rw [filter_true] at hparameters
    exact congrArg (fun list ↦ "void " ++ d.name ++ "(" ++ ", ".intercalate list ++ ")") hparameters

/-- The variables that are no parameters are declared at the head of the body. -/
theorem declarations_eq : draft.declarations language =
    (draft.localVariables language).mapM fun entry ↦ entry.1.declaration draft entry.2 := by
  have hreturned : draft.returned = (draft.localVariables .js).map
      fun entry ↦ (entry.1.name draft, entry.2) := by
    rw [localVariables, if_pos rfl, boundVariables, filter_flatMap, map_flatMap, returned]
    induction draft.argumentTable with
    | nil => rfl
    | cons entry table ih =>
      obtain ⟨name, type, direction⟩ := entry
      rw [flatMap_cons, ← ih]
      cases direction <;> rfl
  cases language with
  | c | cpp => rfl
  | js =>
    change draft.returnedDeclarations = _
    rw [returnedDeclarations, hreturned, mapM_map]
    rfl

end Texts

section Distinctness

variable {d draft : Draft} {lang language : Language}

/-- The temporaries are the shared expressions. -/
theorem Sound.temporaries_eq (hs : d.Sound) : d.temporaries = d.order.filter d.isShared := by
  have hstatement : ∀ id ∈ d.order, (d.statement id).filterMap Statement.declared? =
      (Option.guard d.isShared id).toList := by
    intro id hid
    obtain ⟨n, hn⟩ := hs.node?_of_mem_order hid
    cases hsh : d.isShared id with
    | true =>
      rw [statement_of_shared hn hsh, Option.guard, hsh]
      rfl
    | false =>
      rw [Option.guard, hsh]
      cases hw : n.isWrite with
      | false =>
        rw [statement_of_other hn hw hsh]
        rfl
      | true =>
        obtain ⟨addr, v, hk⟩ := kind_of_isWrite hw
        rw [statement_of_write hn hk]
        rfl
  rw [temporaries, program, filterMap_flatMap, flatMap_congr hstatement,
    ← filterMap_eq_flatMap_toList, filterMap_eq_filter]

/-- Parameters and other variables are the variables of the arguments, each once. -/
theorem perm_boundVariables (d : Draft) (lang : Language) :
    (d.parameterVariables lang ++ d.localVariables lang).Perm
      d.boundVariables := by
  cases lang with
  | js =>
    have hinputs : (d.boundVariables.filter fun e ↦ e.1.isInput) =
        (d.boundVariables.filter fun e ↦ e.1.isRead).filter fun e ↦ e.1.isInput := by
      rw [filter_filter]
      congr 1
      funext e
      cases e.1 <;> rfl
    change (filter _ _ ++ filter _ _ ++ filter _ _).Perm _
    rw [hinputs, ← filter_filter]
    exact ((filter_append_perm _ _).append_right _).trans (filter_append_perm _ _)
  | _ => exact Perm.of_eq (append_nil _)

/-- The names of variables are those of the arguments, of the updated ones with either suffix. -/
theorem perm_names (d : Draft) : (d.boundVariables.map fun e ↦ e.1.name d).Perm
      (d.plainNames ++ (d.updatedNames.map d.previousName ++ d.updatedNames.map d.nextName)) := by
  refine perm_iff_count.mpr fun name ↦ ?_
  rw [boundVariables, plainNames, updatedNames, count_append, count_append]
  induction d.argumentTable with
  | nil => rfl
  | cons e table ih =>
    obtain ⟨_, _, dir⟩ := e
    rw [flatMap_cons, map_append, count_append, ih]
    cases dir <;> simp [Variable.ofArgument, Variable.name, count_cons] <;> omega

theorem Sound.nodup_argumentTable (hs : d.Sound) : (d.argumentTable.map Prod.fst).Nodup := by
  rw [argumentTable, map_map]
  exact hs.arguments_nodup

/-- All names differ if and only if the kinds of names are apart. -/
theorem Sound.nodup_names_iff (hs : d.Sound) (lang : Language) :
    (d.names lang).Nodup ↔ d.Apart := by
  have hplain : d.plainNames.Nodup := hs.nodup_argumentTable.sublist (filter_sublist.map _)
  have hupdated : d.updatedNames.Nodup := hs.nodup_argumentTable.sublist (filter_sublist.map _)
  have hprevious : (d.updatedNames.map d.previousName).Nodup :=
    hupdated.map fun _ _ heq ↦ (String.append_left_inj _).mp heq
  have hnx : (d.updatedNames.map d.nextName).Nodup :=
    hupdated.map fun _ _ heq ↦ (String.append_left_inj _).mp heq
  have htemporaries : (d.temporaries.map d.temporaryName).Nodup :=
    hs.temporaries_eq ▸ hs.nodup_temporaryNames
  rw [names, nodup_append, ((d.perm_boundVariables lang).map _).nodup_iff,
    d.perm_names.nodup_iff, nodup_append, nodup_append]
  simp only [((d.perm_boundVariables lang).map _).mem_iff]
  constructor
  · rintro ⟨⟨-, ⟨-, -, hsuffixes⟩, hplain⟩, -, hos⟩
    refine ⟨fun name hnm updated hupdated ↦ ⟨?_, ?_⟩, fun first hfst second hsnd ↦ ?_,
      fun id hid e hen ↦ ?_⟩
    · exact hplain _ hnm _ (mem_append_left _ (mem_map_of_mem hupdated))
    · exact hplain _ hnm _ (mem_append_right _ (mem_map_of_mem hupdated))
    · exact hsuffixes _ (mem_map_of_mem hfst) _ (mem_map_of_mem hsnd)
    · exact (hos _ (mem_map_of_mem hen) _ (mem_map_of_mem hid)).symm
  · intro h
    refine ⟨⟨hplain, ⟨hprevious, hnx, ?_⟩, ?_⟩, htemporaries, ?_⟩
    · simpa using h.suffixes
    · simpa [or_imp, forall_and] using h.plain
    · intro name hnm other ho
      obtain ⟨e, hen, rfl⟩ := mem_map.mp hnm
      obtain ⟨id, hid, rfl⟩ := mem_map.mp ho
      exact (h.temporaries id hid e hen).symm

end Distinctness

/-- An emitted function binds its names where they are listed: parameters in its head, other
variables at the head of its body, and temporaries in its statements, where the variables are called
by the same names. All names differ if and only if the kinds of names are apart. -/
theorem Reachable.emitted_names_differ_iff {draft : Draft} (hdraft : draft.Reachable)
    {language : Language} {function : EmittedFunction} (hemit : draft.emit language = .ok function) :
    function.signature = (if language = .js then "function " else "void ") ++ draft.name ++ "(" ++
      ", ".intercalate ((draft.parameterVariables language).map
        fun entry ↦ entry.1.parameter draft language entry.2) ++ ")" ∧
    (∃ declarations texts,
      (draft.localVariables language).mapM (fun entry ↦ entry.1.declaration draft entry.2) =
        .ok declarations ∧
      draft.program.mapM (Statement.text draft language) = .ok texts ∧
      function.body = statements language draft.preamble ++ declarations ++ texts ++
        statements language draft.postamble ++
          (if language = .js then [draft.returnStatement] else [])) ∧
    (∀ bound : Variable, (bound.text draft language).text = bound.name draft) ∧
    ((draft.names language).Nodup ↔ draft.Apart) := by
  refine ⟨?_, ?_, Variable.text_text draft language, hdraft.sound.nodup_names_iff language⟩
  · obtain ⟨-, -, -, -, hsignature, -⟩ := hdraft.sound.ok_of_emit hemit
    rw [hsignature, signature_eq]
  · rw [← declarations_eq]
    exact hdraft.sound.emit_program hemit

/-- What the names of an emitted function are made of. -/
def naming (d : Draft) : Bool × List String × List NodeId × List (Variable × String) :=
  ((d.emit .c).isOk, d.updatedNames, d.temporaries, d.boundVariables)

theorem naming_minMax : (minMaxDraft "x").naming =
    (true, [], [⟨0, 3⟩], [(.output "y", "double"), (.input "x", "double")]) := by
  cbv

theorem naming_clash : (minMaxDraft "t3").naming =
    (true, [], [⟨0, 3⟩], [(.output "y", "double"), (.input "t3", "double")]) := by
  cbv

theorem temporaryName_minMax (name : String) : (minMaxDraft name).temporaryName ⟨0, 3⟩ = "t3" := by
  have hoptions : (minMaxDraft name).options = blank.options :=
    ((Reachable.new ..).precedes_afterAll _).options
  rw [temporaryName, hoptions]
  rfl

/-- A function with two arguments and a temporary of different names. -/
theorem Reachable.emitted_names_differ_iff_minMax :
    ∃ (draft : Draft) (function : EmittedFunction), draft.Reachable ∧
      draft.emit .c = .ok function ∧ ⟨0, 3⟩ ∈ draft.temporaries ∧ (draft.names .c).Nodup := by
  have hreachable : (minMaxDraft "x").Reachable := reachable_requested _
  obtain ⟨hok, hupdated, htemporaries, hbound⟩ : _ ∧ _ ∧ _ ∧ _ := by
    simpa only [naming, Prod.mk.injEq] using naming_minMax
  obtain ⟨function, hemit⟩ := exists_of_isOk hok
  refine ⟨minMaxDraft "x", function, hreachable, hemit, by simp [htemporaries],
    (hreachable.emitted_names_differ_iff hemit).2.2.2.mpr ⟨?_, ?_, ?_⟩⟩
  · simp [hupdated]
  · simp [hupdated]
  · simp [htemporaries, hbound, temporaryName_minMax, Variable.name]

/-- An input can be called like the temporary, whose declaration then hides it. -/
theorem exists_names_clash :
    ∃ (draft : Draft) (function : EmittedFunction), draft.Reachable ∧
      draft.emit .c = .ok function ∧
      function.signature = "void " ++ draft.name ++ "(double *y, double t3)" ∧
      ⟨0, 3⟩ ∈ draft.temporaries ∧ draft.temporaryName ⟨0, 3⟩ = "t3" ∧
      ¬ (draft.names .c).Nodup := by
  obtain ⟨hok, -, htemporaries, hbound⟩ : _ ∧ _ ∧ _ ∧ _ := by
    simpa only [naming, Prod.mk.injEq] using naming_clash
  obtain ⟨function, hemit⟩ := exists_of_isOk hok
  have hsound : (minMaxDraft "t3").Sound := (reachable_requested _).sound
  refine ⟨minMaxDraft "t3", function, reachable_requested _, hemit, ?_, by simp [htemporaries],
    temporaryName_minMax _, fun hnodup ↦ ?_⟩
  · obtain ⟨-, -, -, -, hsignature, -⟩ := hsound.ok_of_emit hemit
    rw [hsignature, signature_eq]
    simp only [parameterVariables, hbound]
    rw [String.append_assoc, String.append_assoc]
    rfl
  · refine ((hsound.nodup_names_iff .c).mp hnodup).temporaries ⟨0, 3⟩ ?_ (.input "t3", "double") ?_
      (temporaryName_minMax _)
    · exact htemporaries ▸ mem_singleton_self _
    · exact hbound ▸ mem_cons_of_mem _ mem_cons_self

end Draft

end DiffGraph
