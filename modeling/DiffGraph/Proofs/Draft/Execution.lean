import DiffGraph.Proofs.Draft.Addresses
import DiffGraph.Proofs.Draft.Program

/-!
What an emitted function does when it is run. A machine gives values to literals and to operators and
knows the parts of a value; a program is run statement by statement on a memory of variables. What is
read is meant as it was when the function was called, but it is loaded in the statement that uses it.
The two agree as long as no load is disturbed by a store that was made before it
(`Sound.run_program`): then the function leaves the memory that comes of storing, one recorded write
after another, the values that the entry gives.
-/

set_option autoImplicit false

namespace DiffGraph

open List Node

variable {V : Type} {d : Draft} {id addr v : NodeId} {n node : Node}
  {earlier args nodes : List NodeId} {op : Operator}

/-- Values of a machine. Storing a part of a value leaves its other parts as they are. -/
structure Machine (V : Type) where
  literal : String → Value → V
  operate : String → Operator → List V → V
  part : V → Operator → V
  replace : V → Operator → V → V
  part_replace : ∀ whole slot v, part (replace whole slot v) slot = v
  part_replace_of_ne : ∀ whole slot other v, other ≠ slot →
    part (replace whole slot v) other = part whole other

namespace Machine

variable (machine : Machine V)

/-- The part of a value at the end of a way, the last step first. -/
def partAt (slots : List Operator) (whole : V) : V :=
  slots.foldr (fun slot v ↦ machine.part v slot) whole

def replaceAt : List Operator → V → V → V
  | [], _, v => v
  | slot :: slots, whole, v =>
    replaceAt slots whole (machine.replace (machine.partAt slots whole) slot v)

theorem partAt_append (inner outer : List Operator) (whole : V) :
    machine.partAt (inner ++ outer) whole = machine.partAt inner (machine.partAt outer whole) :=
  foldr_append

theorem partAt_replaceAt (slots : List Operator) (whole value : V) :
    machine.partAt slots (machine.replaceAt slots whole value) = value := by
  induction slots generalizing value with
  | nil => rfl
  | cons slot slots ih =>
    change machine.part (machine.partAt slots (machine.replaceAt slots whole _)) slot = value
    rw [ih, machine.part_replace]

/-- Parts of which neither is within the other do not disturb each other. -/
theorem partAt_replaceAt_of_apart {slots others : List Operator} (hwithin : ¬others <:+ slots)
    (haro : ¬slots <:+ others) (whole v : V) :
    machine.partAt slots (machine.replaceAt others whole v) = machine.partAt slots whole := by
  induction others generalizing v with
  | nil => exact absurd (nil_suffix) hwithin
  | cons other others ih =>
    rw [replaceAt]
    by_cases houter : others <:+ slots
    · -- The ways part company at this step.
      obtain ⟨inner, rfl⟩ := houter
      rcases eq_nil_or_concat inner with rfl | ⟨inner, slot, rfl⟩
      · exact absurd (suffix_cons other others) haro
      · have hne : slot ≠ other := by
          rintro rfl
          exact hwithin ⟨inner, by simp⟩
        rw [partAt_append, partAt_append, partAt_replaceAt, concat_eq_append, partAt_append,
          partAt_append]
        congr 1
        exact machine.part_replace_of_ne _ _ _ _ hne
    · exact ih houter (fun hsuffix ↦ haro (hsuffix.trans (suffix_cons other others))) _

def load (memory : Variable → V) (place : Place) : V :=
  machine.partAt place.slots (memory place.root)

def store (memory : Variable → V) (place : Place) (v : V) : Variable → V :=
  Function.update memory place.root (machine.replaceAt place.slots (memory place.root) v)

end Machine

/-- Neither place is a part of the other. -/
def Place.Apart (first second : Place) : Prop :=
  first.root = second.root → ¬second.slots <:+ first.slots ∧ ¬first.slots <:+ second.slots

instance (first second : Place) : Decidable (first.Apart second) :=
  inferInstanceAs (Decidable (_ → _))

namespace Machine

variable (machine : Machine V)

theorem load_store (memory : Variable → V) (place : Place) (value : V) :
    machine.load (machine.store memory place value) place = value := by
  rw [load, store, Function.update_self, partAt_replaceAt]

theorem load_store_of_apart {place tgt : Place} (h : place.Apart tgt)
    (memory : Variable → V) (v : V) :
    machine.load (machine.store memory tgt v) place = machine.load memory place := by
  rw [load, store]
  by_cases hrt : place.root = tgt.root
  · obtain ⟨hwithin, haro⟩ := h hrt
    rw [hrt, Function.update_self, machine.partAt_replaceAt_of_apart hwithin haro, load, hrt]
  · rw [Function.update_of_ne hrt, load]

mutual

def evaluate (memory : Variable → V) (temporaries : NodeId → V) : Code → V
  | .literal t v => machine.literal t v
  | .load place => machine.load memory place
  | .temporary id => temporaries id
  | .application t op args =>
    machine.operate t op (evaluateAll memory temporaries args)

def evaluateAll (memory : Variable → V) (temporaries : NodeId → V) : List Code → List V
  | [] => []
  | code :: rest => evaluate memory temporaries code :: evaluateAll memory temporaries rest

end

theorem evaluateAll_eq_map (memory : Variable → V) (temporaries : NodeId → V) (codes : List Code) :
    machine.evaluateAll memory temporaries codes =
      codes.map (machine.evaluate memory temporaries) := by
  induction codes with
  | nil => rfl
  | cons code codes ih => rw [evaluateAll, map_cons, ih]

end Machine

/-- Variables and temporaries in the course of a run. -/
structure Running (V : Type) where
  memory : Variable → V
  temporaries : NodeId → V

namespace Machine

variable (machine : Machine V)

def execute (running : Running V) : Statement → Running V
  | .declare _ id code =>
    let value := machine.evaluate running.memory running.temporaries code
    ⟨running.memory, Function.update running.temporaries id value⟩
  | .assign place code =>
    let value := machine.evaluate running.memory running.temporaries code
    ⟨machine.store running.memory place value, running.temporaries⟩

def run (program : List Statement) (running : Running V) : Running V :=
  program.foldl machine.execute running

/-- A machine whose values are given by the scalars at the ends of all ways into them. -/
def scalars : Machine (List Operator → Value) where
  literal _ value := fun _ ↦ value
  operate _ _ _ := fun _ ↦ .zero
  part whole slot := fun slots ↦ whole (slot :: slots)
  replace whole slot value := fun slots ↦
    match slots with
    | [] => whole []
    | first :: rest => if first = slot then value rest else whole (first :: rest)
  part_replace whole slot value := by
    funext slots
    exact if_pos rfl
  part_replace_of_ne whole slot other value hne := by
    funext slots
    exact if_neg hne

end Machine

namespace Draft

/-- The value of a node when everything is read from the memory at the entry. -/
def snapshot (d : Draft) (machine : Machine V) (e : Variable → V) (id : NodeId) : V :=
  match h : d.graph.node? id with
  | none => machine.literal "" .zero
  | some n =>
    match hk : n.kind with
    | .constant v => machine.literal n.type v
    | .argument .. => machine.load e (d.graph.place .read id)
    | .read addr => machine.load e (d.graph.place .read addr)
    | .write _ v =>
      have : v.index < id.index := Graph.operand_index_lt h (mem_operands hk (mem_cons_of_mem _ mem_cons_self))
      d.snapshot machine e v
    | .expression op _ =>
      if n.isAddress then machine.load e (d.graph.place .read id)
      else machine.operate n.type op (n.operands.attach.map fun ⟨part, member⟩ ↦
        have : part.index < id.index := Graph.operand_index_lt h member
        d.snapshot machine e part)
termination_by id.index

/-- The memory after a write of the value that the entry gives. -/
def written (d : Draft) (machine : Machine V) (e memory : Variable → V) (id : NodeId) :
    Variable → V :=
  match (d.graph.node? id).map Node.kind with
  | some (.write addr v) =>
    machine.store memory (d.graph.place .write addr) (d.snapshot machine e v)
  | _ => memory

/-- The nodes that stand in the text of a node under names of their own: constants, and what is
loaded from a place. -/
def leaves (d : Draft) (id : NodeId) : List NodeId :=
  match h : d.graph.node? id with
  | none => []
  | some n =>
    if n.isComputed then
      n.operands.attach.flatMap fun ⟨part, member⟩ ↦
        have : part.index < id.index := Graph.operand_index_lt h member
        if d.isShared part then [] else d.leaves part
    else [id]
termination_by id.index

def leavesInUse (d : Draft) (id : NodeId) : List NodeId :=
  if d.isShared id then [] else d.leaves id

/-- The leaves of the statement of a node. -/
def statementLeaves (d : Draft) (id : NodeId) : List NodeId :=
  match (d.graph.node? id).map Node.kind with
  | some (.write _ v) => d.leavesInUse v
  | some (.expression ..) => if d.isShared id then d.leaves id else []
  | _ => []

/-- None of the nodes writes to a place around or within this one. -/
def Spares (d : Draft) (nodes : List NodeId) (place : Place) : Prop :=
  ∀ id ∈ nodes, ∀ n addr v, d.graph.node? id = some n →
    n.kind = .write addr v → place.Apart (d.graph.place .write addr)

/-- What a leaf loads after some nodes was not stored to meanwhile: what is read, not since the
entry, and what stands for a write, not since that write. -/
def Keeps (d : Draft) (earlier : List NodeId) (leaf : NodeId) : Prop :=
  ∀ n, d.graph.node? leaf = some n →
    (∀ addr, n.kind = .read addr →
      d.Spares earlier (d.graph.place .read addr)) ∧
    (∀ addr v, n.kind = .write addr v →
      ∀ before d', earlier = before ++ leaf :: d' →
        d.Spares d' (d.graph.place .write addr))

/-- No statement loads what was stored to meanwhile. -/
def Undisturbed (d : Draft) : Prop :=
  ∀ earlier id later, d.order = earlier ++ id :: later →
    ∀ leaf ∈ d.statementLeaves id, d.Keeps earlier leaf

section Equations

variable {machine : Machine V} {e : Variable → V}

theorem snapshot_of_node? (h : d.graph.node? id = some node) : d.snapshot machine e id =
      match node.kind with
      | .constant v => machine.literal node.type v
      | .argument .. => machine.load e (d.graph.place .read id)
      | .read addr => machine.load e (d.graph.place .read addr)
      | .write _ v => d.snapshot machine e v
      | .expression op _ =>
        if node.isAddress then machine.load e (d.graph.place .read id)
        else machine.operate node.type op
          (node.operands.map (d.snapshot machine e)) := by
  rw [snapshot]
  split
  next hno =>
    rw [h] at hno
    cases hno
  next found hf =>
    obtain rfl : found = node := Option.some.inj (hf.symm.trans h)
    have hops : (found.operands.attach.map fun ⟨part, _⟩ ↦ d.snapshot machine e part) =
          found.operands.map (d.snapshot machine e) := by
      conv => rhs; rw [← attach_map_subtype_val found.operands, map_map]
      rfl
    rw [hops]
    split <;> simp only [*]

theorem snapshot_of_computed (h : d.graph.node? id = some n)
    (hk : n.kind = .expression op args) (hv : n.isAddress = false) :
    d.snapshot machine e id = machine.operate n.type op (args.map (d.snapshot machine e)) := by
  rw [snapshot_of_node? h, hk]
  dsimp only
  rw [hv, if_neg Bool.false_ne_true, Node.operands, hk]
  rfl

theorem leaves_of_computed (h : d.graph.node? id = some node) (hcomp : node.isComputed = true) :
    d.leaves id = node.operands.flatMap d.leavesInUse := by
  rw [leaves]
  split
  next hno =>
    rw [h] at hno
    cases hno
  next found hf =>
    obtain rfl : found = node := Option.some.inj (hf.symm.trans h)
    rw [if_pos hcomp, ← flatMap_attach found.operands d.leavesInUse]
    rfl

theorem leaves_of_not_computed (h : d.graph.node? id = some node)
    (hcomp : node.isComputed = false) : d.leaves id = [id] := by
  rw [leaves]
  split
  next hno =>
    rw [h] at hno
    cases hno
  next found hf =>
    obtain rfl : found = node := Option.some.inj (hf.symm.trans h)
    rw [if_neg (by rw [hcomp]; exact Bool.false_ne_true)]

theorem written_of_write {memory : Variable → V} (h : d.graph.node? id = some n)
    (hk : n.kind = .write addr v) :
    d.written machine e memory id = machine.store memory
      (d.graph.place .write addr) (d.snapshot machine e v) := by
  rw [written, h, Option.map_some, hk]

theorem written_of_not_write {memory : Variable → V} (h : d.graph.node? id = some n)
    (hw : n.isWrite = false) : d.written machine e memory id = memory := by
  rw [written, h, Option.map_some]
  split
  next hk =>
    rw [Node.isWrite, Option.some.inj hk] at hw
    cases hw
  next => rfl

end Equations

section Running

variable {machine : Machine V} {e : Variable → V} {later : List NodeId} {running : Running V}

theorem load_foldl_written {place : Place} (h : d.Spares nodes place) (memory : Variable → V) :
    machine.load (nodes.foldl (d.written machine e) memory) place = machine.load memory place := by
  induction nodes generalizing memory with
  | nil => rfl
  | cons id nodes ih =>
    have hrs := ih (fun other ho ↦ h other (mem_cons_of_mem _ ho))
    rw [foldl_cons, hrs]
    cases hn : d.graph.node? id with
    | none => rw [written, hn, Option.map_none]
    | some n =>
      cases hk : n.kind with
      | write addr v =>
        rw [written_of_write hn hk]
        exact machine.load_store_of_apart (h id mem_cons_self _ _ _ hn hk) _ _
      | _ => rw [written_of_not_write hn (by rw [Node.isWrite, hk])]

/-- Where a run has come to after the statements of some nodes: the writes among them were made with
the values of the entry, and so were the temporaries. -/
structure Progress (d : Draft) (machine : Machine V) (e : Variable → V)
    (earlier : List NodeId) (running : Running V) : Prop where
  closed : ∀ user ∈ earlier, ∀ arg ∈ d.graph.operands user, arg ∈ earlier
  memory : running.memory = earlier.foldl (d.written machine e) e
  temporaries : ∀ id ∈ earlier, d.isShared id = true →
    running.temporaries id = d.snapshot machine e id

/-- The operands of a value that was met are values that were met. -/
theorem Progress.operand (h : d.Progress machine e earlier running) (hs : d.Sound)
    (hid : id ∈ earlier) (hn : d.graph.node? id = some n)
    (hcomp : n.isComputed = true) {arg : NodeId} (hop : arg ∈ n.operands) :
    arg ∈ earlier ∧ ∃ type, d.HoldsValue arg type :=
  ⟨h.closed id hid arg (Graph.operands_of_node? hn ▸ hop), hs.value_operand hn hcomp hop⟩

theorem evaluate_code (hsh : d.isShared id = true →
      running.temporaries id = d.snapshot machine e id)
    (hunshared : d.isShared id = false →
      machine.evaluate running.memory running.temporaries (d.unsharedCode id) =
        d.snapshot machine e id) :
    machine.evaluate running.memory running.temporaries (d.code id) = d.snapshot machine e id := by
  rw [code]
  split
  next h =>
    rw [Machine.evaluate]
    exact hsh h
  next h => exact hunshared (Bool.eq_false_iff.mpr h)

/-- An expression has its value if its operands have theirs. -/
theorem evaluate_unsharedCode (hn : d.graph.node? id = some n)
    (hk : n.kind = .expression op args) (hv : n.isAddress = false)
    (hops : ∀ arg ∈ args, machine.evaluate running.memory running.temporaries (d.code arg) =
        d.snapshot machine e arg) :
    machine.evaluate running.memory running.temporaries (d.unsharedCode id) =
      d.snapshot machine e id := by
  rw [unsharedCode_of_computed hn hk hv, snapshot_of_computed hn hk hv,
    Machine.evaluate, Machine.evaluateAll_eq_map, map_map]
  congr 1
  exact map_congr_left hops

/-- The code of a value that was met has the value of the entry, as long as its leaves do. -/
theorem Progress.evaluate (h : d.Progress machine e earlier running)
    (hs : d.Sound) (hid : id ∈ earlier) (hn : d.graph.node? id = some n) (hv : n.isAddress = false)
    (hleaves : ∀ leaf ∈ d.leavesInUse id, d.Keeps earlier leaf) :
    machine.evaluate running.memory running.temporaries (d.code id) = d.snapshot machine e id := by
  induction hix : id.index using Nat.strongRecOn generalizing id n with
  | ind index ih =>
    refine evaluate_code (h.temporaries id hid) fun hunshared ↦ ?_
    rw [leavesInUse, hunshared, if_neg Bool.false_ne_true] at hleaves
    cases hk : n.kind with
    | constant v =>
      rw [unsharedCode_of_node? hn, snapshot_of_node? hn, hk, Machine.evaluate]
    | argument name dir =>
      rw [(hs.argument hn hk).1] at hv
      cases hv
    | read addr =>
      rw [leaves_of_not_computed hn (by rw [Node.isComputed, hk])] at hleaves
      have hspares := (hleaves id mem_cons_self n hn).1 addr hk
      rw [unsharedCode_of_node? hn, snapshot_of_node? hn, hk, Machine.evaluate, h.memory,
        load_foldl_written hspares]
    | write addr v =>
      rw [leaves_of_not_computed hn (by rw [Node.isComputed, hk])] at hleaves
      obtain ⟨before, d', rfl⟩ := append_of_mem hid
      have hspares := (hleaves id mem_cons_self n hn).2 addr v hk before d' rfl
      rw [unsharedCode_of_node? hn, snapshot_of_node? hn, hk, Machine.evaluate, h.memory,
        foldl_append, foldl_cons, load_foldl_written hspares,
        written_of_write hn hk, Machine.load_store]
    | expression op operands =>
      have hcomp : n.isComputed = true := isComputed_of_expression hk hv
      have hsame : n.operands = operands := operands_of_kind hk
      rw [leaves_of_computed hn hcomp] at hleaves
      refine evaluate_unsharedCode hn hk hv fun arg hop ↦ ?_
      rw [← hsame] at hop
      obtain ⟨hear, t, src, hsrc, -, hsourceValue⟩ := h.operand hs hid hn hcomp hop
      have hlt := Graph.operand_index_lt hn hop
      exact ih arg.index (by omega) hear hsrc hsourceValue
        (fun leaf hleaf ↦ hleaves leaf (mem_flatMap.mpr ⟨arg, hop, hleaf⟩)) rfl

theorem Progress.closed_next (h : d.Progress machine e earlier running)
    (hord : d.order = earlier ++ id :: later) :
    ∀ user ∈ earlier ++ [id], ∀ arg ∈ d.graph.operands user, arg ∈ earlier ++ [id] := by
  intro user huser arg hop
  rcases mem_append.mp huser with huser | huser
  · exact mem_append_left _ (h.closed user huser arg hop)
  · obtain rfl := mem_singleton.mp huser
    exact mem_append_left _ (Dependencies.operands_inOrder d.graph d.writes hord arg hop)

theorem foldl_written_concat (earlier : List NodeId) (id : NodeId) :
    (earlier ++ [id]).foldl (d.written machine e) e =
      d.written machine e (earlier.foldl (d.written machine e) e) id := by
  rw [foldl_append, foldl_cons, foldl_nil]

section

variable (h : d.Progress machine e earlier running)

include h

/-- A node that is neither written nor a temporary changes nothing. -/
theorem Progress.step_other (hord : d.order = earlier ++ id :: later)
    (hn : d.graph.node? id = some n) (hw : n.isWrite = false) (hsh : d.isShared id = false) :
    d.Progress machine e (earlier ++ [id]) running where
  closed := h.closed_next hord
  memory := by rw [foldl_written_concat, written_of_not_write hn hw, h.memory]
  temporaries other hm ho := by
    rcases mem_append.mp hm with hm | hm
    · exact h.temporaries other hm ho
    · rw [mem_singleton.mp hm, hsh] at ho
      cases ho

theorem Progress.step_write (hs : d.Sound) (hord : d.order = earlier ++ id :: later)
    (hn : d.graph.node? id = some n) (hk : n.kind = .write addr v)
    (hleaves : ∀ leaf ∈ d.statementLeaves id, d.Keeps earlier leaf) :
    d.Progress machine e (earlier ++ [id])
      (machine.run (d.statement id) running) := by
  have hv : v ∈ earlier := by
    refine Dependencies.operands_inOrder d.graph d.writes hord v ?_
    rw [Graph.operands_of_node? hn, Node.operands, hk]
    exact mem_cons_of_mem _ mem_cons_self
  obtain ⟨-, -, before, hbf, hw⟩ := hs.write hn hk
  obtain ⟨src, hsrc, -, hsourceValue⟩ := hw.source.later hbf
  rw [statementLeaves, hn, Option.map_some, hk] at hleaves
  have hplain : d.isShared id = false := by
    refine isShared_of_not_computed ?_
    rw [isComputed_of_node? hn, Node.isComputed, hk]
  rw [statement_of_write hn hk]
  refine ⟨h.closed_next hord, ?_, fun other hm ho ↦ ?_⟩
  · rw [foldl_written_concat, written_of_write hn hk, ← h.memory,
      ← h.evaluate hs hv hsrc hsourceValue hleaves]
    rfl
  · rcases mem_append.mp hm with hm | hm
    · exact h.temporaries other hm ho
    · rw [mem_singleton.mp hm, hplain] at ho
      cases ho

theorem Progress.step_shared (hs : d.Sound) (hord : d.order = earlier ++ id :: later)
    (hn : d.graph.node? id = some n) (hsh : d.isShared id = true)
    (hleaves : ∀ leaf ∈ d.statementLeaves id, d.Keeps earlier leaf) :
    d.Progress machine e (earlier ++ [id])
      (machine.run (d.statement id) running) := by
  have hfr : id ∉ earlier := by
    have hnd := d.nodup_order
    rw [hord] at hnd
    exact fun hid ↦ (nodup_append.mp hnd).2.2 id hid id mem_cons_self rfl
  obtain ⟨hv, op, operands, hk⟩ := kind_of_shared hn hsh
  have hcomp : n.isComputed = true := isComputed_of_expression hk hv
  have hown := Dependencies.operands_inOrder d.graph d.writes hord
  have hsame : n.operands = operands := operands_of_kind hk
  rw [Graph.operands_of_node? hn, hsame] at hown
  rw [statementLeaves, hn, Option.map_some, hk] at hleaves
  dsimp only at hleaves
  rw [if_pos hsh, leaves_of_computed hn hcomp, hsame] at hleaves
  have hcode : machine.evaluate running.memory running.temporaries (d.unsharedCode id) =
      d.snapshot machine e id := by
    refine evaluate_unsharedCode hn hk hv fun arg hop ↦ ?_
    obtain ⟨t, src, hsrc, -, hsourceValue⟩ := hs.value_operand hn hcomp (hsame ▸ hop)
    exact h.evaluate hs (hown arg hop) hsrc hsourceValue
      fun leaf hleaf ↦ hleaves leaf (mem_flatMap.mpr ⟨arg, hop, hleaf⟩)
  rw [statement_of_shared hn hsh]
  refine ⟨h.closed_next hord, ?_, fun other hm ho ↦ ?_⟩
  · rw [foldl_written_concat, written_of_not_write hn (by rw [Node.isWrite, hk]), ← h.memory]
    rfl
  · change Function.update running.temporaries id _ other = _
    rw [hcode]
    rcases mem_append.mp hm with hm | hm
    · have hne : other ≠ id := fun heq ↦ hfr (heq ▸ hm)
      rw [Function.update_of_ne hne]
      exact h.temporaries other hm ho
    · rw [mem_singleton.mp hm, Function.update_self]

/-- The statement of the next node continues the run as it should. -/
theorem Progress.step (hs : d.Sound)
    (hundisturbed : d.Undisturbed) (hord : d.order = earlier ++ id :: later) :
    d.Progress machine e (earlier ++ [id])
      (machine.run (d.statement id) running) := by
  obtain ⟨n, hn⟩ := hs.node?_of_mem_order (hord ▸ mem_append_right _ mem_cons_self)
  have hleaves := hundisturbed earlier id later hord
  cases hw : n.isWrite with
  | true =>
    obtain ⟨addr, v, hk⟩ := kind_of_isWrite hw
    exact h.step_write hs hord hn hk hleaves
  | false =>
    cases hsh : d.isShared id with
    | true => exact h.step_shared hs hord hn hsh hleaves
    | false =>
      rw [statement_of_other hn hw hsh]
      exact h.step_other hord hn hw hsh

theorem Progress.run (hs : d.Sound)
    (hundisturbed : d.Undisturbed) (hord : d.order = earlier ++ later) :
    d.Progress machine e d.order
      (machine.run (later.flatMap d.statement) running) := by
  induction later generalizing earlier running with
  | nil =>
    rw [append_nil] at hord
    rw [hord]
    exact h
  | cons id later ih =>
    have hnx := h.step hs hundisturbed hord
    rw [append_cons] at hord
    rw [flatMap_cons, Machine.run, foldl_append]
    exact ih hnx hord

end

/-- Only the recorded writes change the memory. -/
theorem Sound.foldl_written (hs : d.Sound) (memory : Variable → V) :
    d.order.foldl (d.written machine e) memory = d.writes.foldl (d.written machine e) memory := by
  rw [← hs.filter_order, foldl_filter]
  congr 1
  funext memory id
  split
  · rfl
  next hw =>
    cases hn : d.graph.node? id with
    | none => rw [written, hn, Option.map_none]
    | some n =>
      rw [hn, Option.any_some] at hw
      exact written_of_not_write hn (Bool.eq_false_iff.mpr hw)

/-- A run that is not disturbed stores what the entry gives, one recorded write after another. -/
theorem Sound.run_program (hs : d.Sound) (hundisturbed : d.Undisturbed)
    (machine : Machine V) (entry : Variable → V) (temporaries : NodeId → V) :
    (machine.run d.program ⟨entry, temporaries⟩).memory =
      d.writes.foldl (d.written machine entry) entry := by
  have hsta : d.Progress machine entry [] ⟨entry, temporaries⟩ :=
    ⟨forall_mem_nil _, rfl, forall_mem_nil _⟩
  have hend := hsta.run hs hundisturbed (nil_append d.order).symm
  rw [program, hend.memory, hs.foldl_written]

end Running

section Check

/-- None of the nodes stores to the place, as far as can be computed. -/
def spares (d : Draft) (nodes : List NodeId) (place : Place) : Bool :=
  nodes.all fun id ↦
    match (d.graph.node? id).map Node.kind with
    | some (.write addr _) => decide (place.Apart (d.graph.place .write addr))
    | _ => true

theorem spares_of_check {place : Place}
    (h : d.spares nodes place = true) : d.Spares nodes place := by
  intro id hid n addr v hn hk
  have hid := all_eq_true.mp h id hid
  rw [hn, Option.map_some, hk] at hid
  exact of_decide_eq_true hid

/-- Every statement loads what is read before anything is stored to it. -/
def readsFirst (d : Draft) : Bool :=
  (range d.order.length).all fun count ↦
    (d.order[count]?.toList.flatMap d.statementLeaves).all fun leaf ↦
      match (d.graph.node? leaf).map Node.kind with
      | some (.read addr) =>
        d.spares (d.order.take count) (d.graph.place .read addr)
      | kind => !(kind.any fun kind ↦ kind matches .write ..)

theorem undisturbed_of_readsFirst (h : d.readsFirst = true) : d.Undisturbed := by
  intro earlier id later hord leaf hleaf n hn
  have hcount : earlier.length ∈ range d.order.length := by
    rw [mem_range, hord, length_append, length_cons]
    omega
  have hchecked := all_eq_true.mp (all_eq_true.mp h _ hcount) leaf (by
    rw [hord, getElem?_append_right (Nat.le_refl _), Nat.sub_self]
    exact mem_flatMap.mpr ⟨id, mem_singleton_self id, hleaf⟩)
  rw [hn, Option.map_some, hord, take_left'] at hchecked
  · constructor
    · intro addr hk
      rw [hk] at hchecked
      exact spares_of_check hchecked
    · intro addr v hk
      rw [hk] at hchecked
      cases hchecked
  · rfl

end Check

section Sample

/-- Two outputs, of which the first is read, and an input. -/
def outputRequests : List Request :=
  [.declare "y" "double" .output, .declare "z" "double" .output, .declare "x" "double" .input,
    .read ⟨0, 0⟩, .read ⟨0, 2⟩]

/-- The first output is copied to the second one, and then the input to the first one. -/
def copyFirst : Draft :=
  blank.requested (outputRequests ++ [.write ⟨0, 1⟩ (.node ⟨0, 3⟩), .write ⟨0, 0⟩ (.node ⟨0, 4⟩)])

/-- The same writes, the other way round. -/
def copyLast : Draft :=
  blank.requested (outputRequests ++ [.write ⟨0, 0⟩ (.node ⟨0, 4⟩), .write ⟨0, 1⟩ (.node ⟨0, 3⟩)])

theorem undisturbed_copyFirst : copyFirst.Undisturbed := undisturbed_of_readsFirst (by cbv)

theorem program_copyLast : copyLast.program = [.assign ⟨.output "y", []⟩ (.load ⟨.input "x", []⟩),
    .assign ⟨.output "z", []⟩ (.load ⟨.output "y", []⟩)] := by
  cbv

end Sample

/-- The emitted statements are the program, and a run of the program that is not disturbed leaves
the memory in which every recorded write, one after another, has stored the value that its expression
has when everything is read at the entry. -/
theorem Reachable.run_eq_snapshot {draft : Draft} (hdraft : draft.Reachable)
    (hundisturbed : draft.Undisturbed) {language : Language} {function : EmittedFunction}
    (hemit : draft.emit language = .ok function) {V : Type} (machine : Machine V)
    (entry : Variable → V) (temporaries : NodeId → V) :
    ∃ declarations texts, draft.declarations language = .ok declarations ∧
      draft.program.mapM (Statement.text draft language) = .ok texts ∧
      function.body = statements language draft.preamble ++ declarations ++ texts ++
        statements language draft.postamble ++
          (if language = .js then [draft.returnStatement] else []) ∧
      (machine.run draft.program ⟨entry, temporaries⟩).memory =
        draft.writes.foldl (draft.written machine entry) entry := by
  have hsound := hdraft.sound
  obtain ⟨declarations, texts, hdeclarations, htexts, hbody⟩ := hsound.emit_program hemit
  exact ⟨declarations, texts, hdeclarations, htexts, hbody,
    hsound.run_program hundisturbed machine entry temporaries⟩

/-- A function that copies its first output to the second one and stores to the first one after
that: the copy is the first output as it was at the entry. -/
theorem Reachable.run_eq_snapshot_copyFirst :
    ∃ (draft : Draft) (function : EmittedFunction), draft.Reachable ∧ draft.Undisturbed ∧
      draft.emit .c = .ok function ∧
      function.body = statements .c draft.preamble ++ [] ++ ["*z = *y;", "*y = x;"] ++
        statements .c draft.postamble ++ [] ∧
      ∀ (entry : Variable → List Operator → Value) (temporaries : NodeId → List Operator → Value),
        (Machine.scalars.run draft.program ⟨entry, temporaries⟩).memory =
          draft.writes.foldl (draft.written .scalars entry) entry := by
  obtain ⟨function, hemit⟩ : ∃ function, copyFirst.emit .c = .ok function :=
    exists_of_isOk (by cbv)
  have hreachable : copyFirst.Reachable := reachable_requested _
  refine ⟨copyFirst, function, hreachable, undisturbed_copyFirst, hemit, ?_,
    fun entry temporaries ↦ ?_⟩
  · obtain ⟨declarations, texts, hdeclarations, htexts, hbody, -⟩ :=
      hreachable.run_eq_snapshot undisturbed_copyFirst hemit Machine.scalars (fun _ _ ↦ .zero)
        (fun _ _ ↦ .zero)
    cases hdeclarations
    have hprogram : copyFirst.program.mapM (Statement.text copyFirst .c) =
        .ok ["*z = *y;", "*y = x;"] := by cbv
    cases hprogram.symm.trans htexts
    exact hbody
  · obtain ⟨_, _, -, -, -, hmemory⟩ := hreachable.run_eq_snapshot undisturbed_copyFirst hemit
      Machine.scalars entry temporaries
    exact hmemory

/-- Where the store comes first, the copy is not the first output as it was at the entry. -/
theorem Reachable.run_disturbed_copyLast :
    ∃ (draft : Draft) (function : EmittedFunction), draft.Reachable ∧
      draft.emit .c = .ok function ∧
      function.body = statements .c draft.preamble ++ [] ++ ["*y = x;", "*z = *y;"] ++
        statements .c draft.postamble ++ [] ∧
      draft.program.mapM (Statement.text draft .c) = .ok ["*y = x;", "*z = *y;"] ∧
      ∃ (entry : Variable → List Operator → Value) (temporaries : NodeId → List Operator → Value),
        (Machine.scalars.run draft.program ⟨entry, temporaries⟩).memory (.output "z") ≠
          draft.writes.foldl (draft.written .scalars entry) entry (.output "z") := by
  obtain ⟨function, hemit⟩ : ∃ function, copyLast.emit .c = .ok function :=
    exists_of_isOk (by cbv)
  have hreachable : copyLast.Reachable := reachable_requested _
  have htexts : copyLast.program.mapM (Statement.text copyLast .c) =
      .ok ["*y = x;", "*z = *y;"] := by
    rw [program_copyLast]
    rfl
  refine ⟨copyLast, function, hreachable, hemit, ?_, htexts, ?_⟩
  · obtain ⟨declarations, texts, hdeclarations, hfound, hbody⟩ :=
      hreachable.sound.emit_program hemit
    cases hdeclarations
    cases htexts.symm.trans hfound
    exact hbody
  · -- At the entry only the first output is one.
    refine ⟨fun name _ ↦ .bool (decide (name = .output "y")), fun _ _ ↦ .zero, ?_⟩
    have hwritten (entry : Variable → List Operator → Value) :
        copyLast.writes.foldl (copyLast.written .scalars entry) entry (.output "z") =
          entry (.output "y") := by cbv
    rw [hwritten, program_copyLast]
    intro heq
    have hscalar := congrFun heq []
    simp [Machine.run, Machine.execute, Machine.evaluate, Machine.load, Machine.store,
      Machine.partAt, Machine.replaceAt] at hscalar

end Draft

end DiffGraph
