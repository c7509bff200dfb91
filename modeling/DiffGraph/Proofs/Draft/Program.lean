import DiffGraph.Proofs.Draft.Emission

/-!
Emitted functions as programs. The statements of a function are declarations of temporaries and
assignments to places, where a place is a part of a variable. The program of a draft does not depend
on the language; each language has its text for variables, literals and operators, and the part of
the body between declarations and returned values is the program written out in it
(`Sound.emit_program`).
-/

set_option autoImplicit false

namespace DiffGraph

open List

/-- An expression of an emitted function. -/
inductive Code where
  | literal (t : String) (v : Value)
  | load (place : Place)
  | temporary (id : NodeId)
  | application (t : String) (op : Operator) (args : List Code)

inductive Statement where
  | declare (t : String) (id : NodeId) (code : Code)
  | assign (place : Place) (code : Code)

namespace Code

mutual

def text (draft : Draft) (language : Language) : Code → Except Error String
  | .literal type value =>
    match draft.types.literal language type value with
    | .ok text => .ok text
    | .error error => .error (.typing error)
  | .load place => .ok (place.text draft language).value
  | .temporary id => .ok (draft.temporaryName id)
  | .application type operator operands => do
    draft.combine language type operator (← textAll draft language operands)

def textAll (d : Draft) (lang : Language) : List Code → Except Error (List String)
  | [] => .ok []
  | code :: rest => do
    let head ← text d lang code
    return head :: (← textAll d lang rest)

end

theorem textAll_eq_mapM (d : Draft) (lang : Language) (codes : List Code) :
    textAll d lang codes = codes.mapM (text d lang) := by
  induction codes with
  | nil => rfl
  | cons code codes ih => rw [textAll, mapM_cons, ih]

end Code

namespace Statement

def text (draft : Draft) (language : Language) : Statement → Except Error String
  | .declare type id code => do
    return Emit.temporaryDeclaration language type (draft.temporaryName id)
      (← code.text draft language)
  | .assign place code => do
    return s!"{(place.text draft language).value} = {← code.text draft language};"

end Statement

namespace Draft

/-- The code of a node from the codes of its operands, whether it is shared or not. -/
def unsharedCode (d : Draft) (id : NodeId) : Code :=
  match h : d.graph.node? id with
  | none => .temporary id
  | some n =>
    match n.kind with
    | .constant v => .literal n.type v
    | .argument .. => .load (d.graph.place .read id)
    | .read addr => .load (d.graph.place .read addr)
    | .write addr _ => .load (d.graph.place .write addr)
    | .expression op _ =>
      if n.isAddress then .load (d.graph.place .read id)
      else .application n.type op (n.operands.attach.map fun ⟨part, member⟩ ↦
        have : part.index < id.index := Graph.operand_index_lt h member
        if d.isShared part then .temporary part else d.unsharedCode part)
termination_by id.index

/-- The code of a node where it is used. -/
def code (d : Draft) (id : NodeId) : Code :=
  if d.isShared id then .temporary id else d.unsharedCode id

/-- The statement of a node, if it has one. -/
def statement (d : Draft) (id : NodeId) : List Statement :=
  match d.graph.node? id with
  | none => []
  | some n =>
    match n.kind with
    | .write addr v => [.assign (d.graph.place .write addr) (d.code v)]
    | .expression .. =>
      if d.isShared id then [.declare n.type id (d.unsharedCode id)] else []
    | _ => []

/-- The statements of a function in order. -/
def program (d : Draft) : List Statement := d.order.flatMap d.statement

section Texts

variable {d : Draft} {lang : Language} {id : NodeId} {n node : Node}

theorem unsharedCode_of_node? (h : d.graph.node? id = some node) : d.unsharedCode id =
      match node.kind with
      | .constant v => .literal node.type v
      | .argument .. => .load (d.graph.place .read id)
      | .read addr => .load (d.graph.place .read addr)
      | .write addr _ => .load (d.graph.place .write addr)
      | .expression op _ =>
        if node.isAddress then .load (d.graph.place .read id)
        else .application node.type op (node.operands.map d.code) := by
  rw [unsharedCode]
  split
  next hno =>
    rw [h] at hno
    cases hno
  next found hf =>
    obtain rfl : found = node := Option.some.inj (hf.symm.trans h)
    have hops : (found.operands.attach.map fun ⟨part, _⟩ ↦
        if d.isShared part then .temporary part else d.unsharedCode part) =
          found.operands.map d.code := by
      conv => rhs; rw [← attach_map_subtype_val found.operands, map_map]
      rfl
    rw [hops]

section

variable (h : d.graph.node? id = some n)

include h

theorem unsharedCode_of_computed {op : Operator}
    {args : List NodeId} (hk : n.kind = .expression op args) (hv : n.isAddress = false) :
    d.unsharedCode id = .application n.type op (args.map d.code) := by
  rw [unsharedCode_of_node? h, hk]
  dsimp only
  rw [hv, if_neg Bool.false_ne_true, Node.operands, hk]
  rfl

theorem statement_of_write {addr v : NodeId} (hk : n.kind = .write addr v) :
    d.statement id = [.assign (d.graph.place .write addr) (d.code v)] := by
  rw [statement, h]
  dsimp only
  rw [hk]

/-- What is shared is an expression. -/
theorem kind_of_shared (hsh : d.isShared id = true) :
    n.isAddress = false ∧ ∃ op operands, n.kind = .expression op operands := by
  have hcomp := (Bool.and_eq_true_iff.mp hsh).1
  rw [isComputed_of_node? h, Node.isComputed] at hcomp
  split at hcomp
  next hk => exact ⟨by simpa using hcomp, _, _, hk⟩
  · cases hcomp

theorem statement_of_shared (hsh : d.isShared id = true) :
    d.statement id = [.declare n.type id (d.unsharedCode id)] := by
  obtain ⟨-, op, args, hk⟩ := kind_of_shared h hsh
  rw [statement, h]
  dsimp only
  rw [hk]
  exact if_pos hsh

theorem statement_of_other (hw : n.isWrite = false)
    (hsh : d.isShared id = false) : d.statement id = [] := by
  rw [statement, h]
  dsimp only
  split
  next hk =>
    rw [Node.isWrite, hk] at hw
    cases hw
  · rw [if_neg (by rw [hsh]; exact Bool.false_ne_true)]
  · rfl

end

theorem text_code (hop : (d.unsharedCode id).text d lang = d.unshared lang id) :
    (d.code id).text d lang = d.reference lang id := by
  rw [code, reference]
  split
  · rw [Code.text]
    rfl
  · exact hop

theorem unsharedCode_of_leaf (hn : d.graph.node? id = some n) {place : Place}
    (h : d.leafPlace? id n = some place) : d.unsharedCode id = .load place := by
  rw [unsharedCode_of_node? hn]
  unfold leafPlace? at h
  cases hk : n.kind with
  | expression op args =>
    rw [hk] at h
    dsimp only at h ⊢
    split at h
    next haddr =>
      rw [if_pos haddr]
      exact congrArg Code.load (Option.some.inj h)
    · cases h
  | constant v =>
    rw [hk] at h
    cases h
  | _ =>
    rw [hk] at h
    exact congrArg Code.load (Option.some.inj h)

/-- Code is written out as recursion writes the node. -/
theorem Sound.text_unsharedCode (hs : d.Sound) (lang : Language) (hn : d.graph.node? id = some n) :
    (d.unsharedCode id).text d lang = d.unshared lang id := by
  induction hix : id.index using Nat.strongRecOn generalizing id n with
  | ind index ih =>
    rcases d.leaf_cases id n with ⟨v, hk⟩ | hcomp | ⟨place, hplace⟩
    · rw [unsharedCode_of_node? hn, hk, Code.text, unshared_of_node? lang hn, outline, hk]
      dsimp only
      cases d.types.literal lang n.type v <;> rfl
    · obtain ⟨op, operands, hk, hv⟩ := kind_of_isComputed hcomp
      have hops : operands.mapM (fun arg ↦ (d.code arg).text d lang) =
          operands.mapM (d.reference lang) := by
        refine mapM_congr_left fun arg hop ↦ ?_
        have hm : arg ∈ n.operands := Node.mem_operands hk hop
        obtain ⟨m, hf⟩ := Graph.owns_iff_node?.mp (Graph.owns_operand hn hm)
        have hlt := Graph.operand_index_lt hn hm
        exact text_code (ih arg.index (by omega) hf rfl)
      rw [unsharedCode_of_computed hn hk hv, Code.text, Code.textAll_eq_mapM, mapM_map,
        Function.comp_def, hops, unshared_of_expression hn lang hk hv]
    · rw [unsharedCode_of_leaf hn hplace, Code.text, unshared_of_node? lang hn,
        hs.outline_of_leaf lang hn hplace]
      rfl

/-- The statements of a node are written out as by recursion. -/
theorem Sound.text_statement (hs : d.Sound) (lang : Language) (hn : d.graph.node? id = some n) :
    (d.statement id).mapM (Statement.text d lang) = d.referenceStatement lang id := by
  cases hw : n.isWrite with
  | true =>
    obtain ⟨addr, v, hk⟩ := kind_of_isWrite hw
    obtain ⟨-, -, before, hbf, hw⟩ := hs.write hn hk
    obtain ⟨tgt, htg, haddr, -⟩ := hw.target
    obtain ⟨src, hsrc⟩ := Graph.owns_iff_node?.mp (hw.source.later hbf).owns
    rw [statement_of_write hn hk, referenceStatement_of_write hn hk, mapM_cons, mapM_nil,
      Statement.text, text_code (hs.text_unsharedCode lang hsrc),
      hs.addressText_eq lang .write (hbf.graph.node? htg) haddr]
    cases d.reference lang v <;> rfl
  | false =>
    cases hsh : d.isShared id with
    | true =>
      obtain ⟨-, op, args, hk⟩ := kind_of_shared hn hsh
      rw [statement_of_shared hn hsh, referenceStatement_of_expression hn hk, mapM_cons, mapM_nil,
        Statement.text, hs.text_unsharedCode lang hn, hsh]
      cases d.unshared lang id <;> rfl
    | false =>
      rw [statement_of_other hn hw hsh, referenceStatement_of_other hn hw hsh]
      rfl

theorem mapM_flatMap {α β γ : Type} (l : List α) (f : α → List β) (g : β → Except Error γ) :
    (l.flatMap f).mapM g = (do return (← l.mapM fun a ↦ (f a).mapM g).flatten) := by
  induction l with
  | nil => rfl
  | cons a l ih =>
    rw [flatMap_cons, mapM_append, mapM_cons, ih]
    cases (f a).mapM g with
    | error error => rfl
    | ok first => cases l.mapM fun a ↦ (f a).mapM g <;> rfl

/-- The program is written out as the statements by recursion. -/
theorem Sound.text_program (hs : d.Sound) (language : Language) :
    d.program.mapM (Statement.text d language) = d.referenceStatements language := by
  have hstatements : (d.order.mapM fun id ↦ (d.statement id).mapM (Statement.text d language)) =
        d.order.mapM (d.referenceStatement language) := by
    refine mapM_congr_left fun id hid ↦ ?_
    obtain ⟨n, hn⟩ := hs.node?_of_mem_order hid
    exact hs.text_statement language hn
  rw [program, mapM_flatMap, hstatements]
  rfl

/-- An emitted function is the program, between what is put in front and behind. -/
theorem Sound.emit_program (hs : d.Sound) {function : EmittedFunction}
    (hemit : d.emit lang = .ok function) :
    ∃ declarations texts, d.declarations lang = .ok declarations ∧
      d.program.mapM (Statement.text d lang) = .ok texts ∧
      function.body = statements lang d.preamble ++ declarations ++ texts ++
        statements lang d.postamble ++ (if lang = .js then [d.returnStatement] else []) := by
  obtain ⟨declarations, texts, hdeclarations, htexts, -, hbody⟩ := hs.ok_of_emit hemit
  refine ⟨declarations, texts.flatten, hdeclarations, ?_, hbody⟩
  rw [hs.text_program, referenceStatements_of_texts htexts]

end Texts

end Draft

end DiffGraph
