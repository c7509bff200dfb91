import Mathlib.Data.List.Forall2
import DiffGraph.Proofs.Draft.Runs
import DiffGraph.Proofs.Graph.Terms
import DiffGraph.Proofs.Types.Extension

/-!
What can happen to a draft. Every operation, whether it fails or not, is a chain of elementary
changes: a node is formed, an argument is declared, a write is recorded, a type is extended, or
something is noted down. A change says under which conditions a node is formed; as older nodes,
types, arguments and writes stay in place, these conditions can be used ever after.
-/

set_option autoImplicit false

namespace DiffGraph

open List Graph

variable {t type : String} {older newer d first last middle : Draft} {args : List NodeId}
  {isAddress : Bool} {op : Operator} {id : NodeId}

namespace Draft

/-- The newer draft has all that the older one has, under the same names. -/
structure Precedes (older newer : Draft) : Prop where
  name : newer.name = older.name
  options : newer.options = older.options
  operators : newer.operators = older.operators
  types : older.types.Extends newer.types
  graph : older.graph.Extends newer.graph
  arguments : older.arguments <+: newer.arguments
  writes : older.writes <+: newer.writes

theorem Precedes.refl (draft : Draft) : draft.Precedes draft :=
  ⟨rfl, rfl, rfl, .refl _, .refl _, prefix_rfl, prefix_rfl⟩

theorem Precedes.trans (hfst : first.Precedes middle)
    (hla : middle.Precedes last) : first.Precedes last :=
  ⟨hla.name.trans hfst.name, hla.options.trans hfst.options,
    hla.operators.trans hfst.operators, hfst.types.trans hla.types,
    hfst.graph.trans hla.graph, hfst.arguments.trans hla.arguments,
    hfst.writes.trans hla.writes⟩

/-- Nothing but the graphs of the drafts differs. -/
def KeepsRest (older newer : Draft) : Prop := newer = { older with graph := newer.graph }

namespace KeepsRest

instance : IsPreorder Draft KeepsRest where
  refl _ := rfl
  trans _ _ newer hfst hla :=
    hla.trans (congrArg (fun d : Draft ↦ { d with graph := newer.graph }) hfst)

theorem of_run {α : Type} {x : Build α} {outcome : Except Error α} {after : Draft}
    (h : d.KeepsRest (x.run d).2) (hr : x.run d = (outcome, after)) :
    d.KeepsRest after := by
  rwa [hr] at h

variable (h : older.KeepsRest newer)

include h

theorem types : newer.types = older.types := by rw [h]

theorem arguments : newer.arguments = older.arguments := by rw [h]

theorem writes : newer.writes = older.writes := by rw [h]

theorem elementsWritten : newer.elementsWritten = older.elementsWritten := by rw [h]

end KeepsRest

/-- The node is there and has the type. -/
def HasType (d : Draft) (id : NodeId) (t : String) : Prop :=
  ∃ n, d.graph.node? id = some n ∧ n.type = t

theorem HasType.later (h : older.Precedes newer) (ht : older.HasType id type) :
    newer.HasType id type := by
  obtain ⟨n, hn, hrs⟩ := ht
  exact ⟨n, h.graph.node? hn, hrs⟩

/-- The node is a value of the type, and not an address. -/
def HoldsValue (d : Draft) (id : NodeId) (t : String) : Prop :=
  ∃ n, d.graph.node? id = some n ∧ n.type = t ∧ n.isAddress = false

theorem HoldsValue.later (h : older.Precedes newer) (hv : older.HoldsValue id type) :
    newer.HoldsValue id type := by
  obtain ⟨n, hn, hrs⟩ := hv
  exact ⟨n, h.graph.node? hn, hrs⟩

theorem HoldsValue.owns (hv : d.HoldsValue id t) : d.graph.Owns id := by
  obtain ⟨n, hn, -⟩ := hv
  exact owns_of_node? hn

/-- The type that an overload's result has on operands of these types. -/
def HasResult (d : Draft) (ts : List String) (t : String) : ResultType → Prop
  | .named name => name = t ∧ (d.types.get? name).isSome = true
  | .sameAs pos => ts[pos]? = some t

theorem HasResult.extends {other : Draft} (h : d.types.Extends other.types)
    {ts : List String} {result : ResultType} (hres : d.HasResult ts t result) :
    other.HasResult ts t result := by
  cases result with
  | named name => exact ⟨hres.1, (h.isSome_get? name).trans hres.2⟩
  | sameAs pos => exact hres

/-- The operator can be applied to the operands, and the application has the type. The last part
says whether it is an address. -/
inductive Fits (d : Draft) : Operator → String → List NodeId → Bool → Prop
  | registered {name t : String} {pos : Nat} {ov : Overload} {ts : List String}
      {args : List NodeId}
      (hnm : Build.applyWith.projection? name = none)
      (hrv : d.operators.resolve name ts = some (pos, ov))
      (hres : d.HasResult ts t ov.result)
      (hops : Forall₂ d.HoldsValue args ts) :
      Fits d (.registered name pos) t args false
  | member {base : NodeId} {n : Node} {defn : TypeDefinition} {field t : String}
      {slot : Nat} (hn : d.graph.node? base = some n)
      (hdef : d.types.get? n.type = some defn)
      (hfd : defn.field? field = some (slot, t)) :
      Fits d (.member field) t [base] n.isAddress
  | index {base : NodeId} {n : Node} {defn : TypeDefinition} {t : String}
      {pos : Nat} (hn : d.graph.node? base = some n)
      (hdef : d.types.get? n.type = some defn)
      (hel : defn.element pos = .ok t) :
      Fits d (.index pos) t [base] n.isAddress
  | construct {t : String} {defn : TypeDefinition} {args : List NodeId}
      (hdef : d.types.get? t = some defn)
      (harity : args.length = defn.arity?.getD args.length)
      (hops : ∀ arg ∈ args, ∃ t, d.HoldsValue arg t) :
      Fits d .construct t args false

/-- What can be applied can be applied later as well; a constructor only as long as its type has as
many slots. -/
theorem Fits.later (h : older.Precedes newer) (hfi : older.Fits op t args isAddress)
    (hts : op = .construct → newer.types = older.types) :
    newer.Fits op t args isAddress := by
  cases hfi with
  | registered hnm hrv hres hops =>
    refine .registered hnm (h.operators ▸ hrv) (hres.extends h.types) ?_
    exact hops.imp fun _ _ hv ↦ hv.later h
  | member hn hdef hfd =>
    obtain ⟨wider, hwd, hwn⟩ := h.types.get? hdef
    exact .member (h.graph.node? hn) hwd (hwn.field? hfd)
  | index hn hdef hel =>
    obtain ⟨wider, hwd, hwn⟩ := h.types.get? hdef
    exact .index (h.graph.node? hn) hwd ((hwn.element _).trans hel)
  | construct hdef harity hops =>
    refine .construct (by rwa [hts rfl]) harity fun arg hop ↦ ?_
    obtain ⟨t, hv⟩ := hops arg hop
    exact ⟨t, hv.later h⟩

theorem Fits.owns (hfi : d.Fits op t args isAddress) : ∀ operand ∈ args, d.graph.Owns operand := by
  intro operand hop
  cases hfi with
  | registered _ _ _ hops =>
    obtain ⟨pos, hpos, rfl⟩ := mem_iff_getElem.mp hop
    exact (hops.get hpos (hops.length_eq ▸ hpos)).owns
  | member hn | index hn =>
    obtain rfl := mem_singleton.mp hop
    exact owns_of_node? hn
  | construct hdef harity hops =>
    obtain ⟨t, hv⟩ := hops operand hop
    exact hv.owns

/-- What an application that is a value takes are values. -/
theorem Fits.value_operand (hfi : d.Fits op type args isAddress)
    (hv : isAddress = false) {arg : NodeId} (hop : arg ∈ args) :
    ∃ type, d.HoldsValue arg type := by
  cases hfi with
  | registered _ _ _ hops =>
    obtain ⟨pos, hpos, rfl⟩ := mem_iff_getElem.mp hop
    exact ⟨_, hops.get hpos (hops.length_eq ▸ hpos)⟩
  | member hn | index hn =>
    obtain rfl := mem_singleton.mp hop
    exact ⟨_, _, hn, rfl, hv⟩
  | construct _ _ hops => exact hops arg hop

theorem Fits.of_registered {name : String} {pos : Nat}
    (hfi : d.Fits (.registered name pos) t args isAddress) :
    ∃ ov types, d.operators.resolve name types = some (pos, ov) ∧ d.HasResult types t ov.result ∧
        Forall₂ d.HoldsValue args types := by
  cases hfi with
  | registered _ hrv hres hops => exact ⟨_, _, hrv, hres, hops⟩

theorem Fits.of_construct (hfi : d.Fits .construct type args isAddress) :
    ∃ defn, d.types.get? type = some defn ∧ args.length = defn.arity?.getD args.length ∧
        ∀ arg ∈ args, ∃ type, d.HoldsValue arg type := by
  cases hfi with
  | construct hdef harity hops => exact ⟨_, hdef, harity, hops⟩

/-- An application that is an address is a part of an address. -/
theorem Fits.of_address (hfi : d.Fits op t args isAddress) (haddr : isAddress = true) :
    ∃ base n, args = [base] ∧ d.graph.node? base = some n ∧ n.isAddress = true ∧
      ((∃ field, op = .member field) ∨ ∃ pos, op = .index pos) := by
  cases hfi with
  | registered => cases haddr
  | member hn => exact ⟨_, _, rfl, hn, haddr, .inl ⟨_, rfl⟩⟩
  | index hn => exact ⟨_, _, rfl, hn, haddr, .inr ⟨_, rfl⟩⟩
  | construct => cases haddr

/-- Neither a constant nor a replacement could be found for the application: this draft is what the
search left behind, and the operands were there when it began. -/
def Irreducible (d : Draft) (op : Operator) (t : String) (args : List NodeId) :
    Prop :=
  ∃ (rest : Nat) (before : Draft), before.Precedes d ∧ before.graph.Interned ∧
    (∀ arg ∈ args, before.graph.Owns arg) ∧
    (Build.evaluate? op t args).run before = (.ok none, before) ∧
    (Build.replace? (Build.perform rest) op t args).run before = (.ok none, d)

/-- Conditions under which a node of some type and kind is formed, other than an argument or a
write. The last part says whether the node is an address. -/
inductive Forms (d : Draft) : String → NodeKind → Bool → Prop
  | constant {t : String} {defn : TypeDefinition} (v : Value)
      (hdef : d.types.get? t = some defn) :
      Forms d t (.constant (defn.normalize v)) false
  | read {addr : NodeId} {n : Node} (hn : d.graph.node? addr = some n)
      (haddr : n.isAddress = true) : Forms d n.type (.read addr) false
  | expression {op : Operator} {t : String} {args : List NodeId} {isAddress : Bool}
      (hfi : d.Fits op t args isAddress)
      (hirreducible : d.Irreducible op t args) :
      Forms d t (.expression op args) isAddress

/-- Conditions under which a value of the type is written to an address. -/
structure MayWrite (d : Draft) (addr v : NodeId) (t : String) : Prop where
  target : ∃ n, d.graph.node? addr = some n ∧ n.isAddress = true ∧
    n.type = t
  source : d.HoldsValue v t
  notInput : ∀ root n name, d.graph.root? addr = some root →
    d.graph.node? root = some n → n.kind ≠ .argument name .input

/-- The node writes to an element of the address. -/
def WritesElement (d : Draft) (id addr : NodeId) (pos : Nat) : Prop :=
  ∃ element tgt n v, d.graph.node? element = some tgt ∧
    tgt.kind = .expression (.index pos) [addr] ∧
    d.graph.node? id = some n ∧ n.kind = .write element v

theorem WritesElement.later (hl : older.Precedes newer) {addr : NodeId} {position : Nat}
    (h : older.WritesElement id addr position) : newer.WritesElement id addr position := by
  obtain ⟨element, tgt, n, v, htg, hix, hn, hk⟩ := h
  exact ⟨element, tgt, n, v, hl.graph.node? htg, hix, hl.graph.node? hn, hk⟩

/-- An elementary change. -/
inductive Step : Draft → Draft → Prop
  | node {d : Draft} {t : String} {kind : NodeKind} {isAddress : Bool}
      (hforms : d.Forms t kind isAddress)
      (owned : ∀ arg ∈ kind.operands, d.graph.Owns arg) :
      Step d { d with graph := (d.graph.intern t kind isAddress owned).2 }
  | argument {d : Draft} {name : String} {dir : Direction} (t : String)
      (ht : (d.types.get? t).isSome = true)
      (hfr : d.arguments.lookup name = none)
      (owned : ∀ arg ∈ (NodeKind.argument name dir).operands, d.graph.Owns arg) :
      Step d { d with
        graph := (d.graph.intern t (.argument name dir) true owned).2
        arguments := d.arguments ++
          [(name, (d.graph.intern t (.argument name dir) true owned).1)] }
  | write {d : Draft} {addr v : NodeId} {t : String}
      (hw : d.MayWrite addr v t)
      (owned : ∀ arg ∈ (NodeKind.write addr v).operands, d.graph.Owns arg) :
      Step d { d with
        graph := (d.graph.intern t (.write addr v) false owned).2
        writes :=
          if d.writes.contains (d.graph.intern t (.write addr v) false owned).1
          then d.writes
          else d.writes ++ [(d.graph.intern t (.write addr v) false owned).1] }
  | types {d : Draft} {name field : String} {m : Nat × String} {types : TypeTable}
      (hm : d.types.member name field = .ok (m, types)) :
      Step d { d with types }
  | elementsWritten {d : Draft} {id addr : NodeId}
      (hws : d.WritesElement id addr (d.elementsWritten.getD addr 0)) :
      Step d { d with
        elementsWritten :=
          d.elementsWritten.insert addr (d.elementsWritten.getD addr 0 + 1) }
  | preamble {d : Draft} (preamble : List (Language × String)) :
      Step d { d with preamble }
  | postamble {d : Draft} (postamble : List (Language × String)) :
      Step d { d with postamble }

/-- A chain of elementary changes. -/
abbrev Steps : Draft → Draft → Prop := Relation.ReflTransGen Step

theorem Step.precedes (h : Step older newer) : older.Precedes newer := by
  cases h with
  | node _ owned => exact { Precedes.refl older with graph := extends_intern owned }
  | argument _ _ _ owned =>
    exact { Precedes.refl older with
      graph := extends_intern owned
      arguments := prefix_append _ _ }
  | write _ owned =>
    refine { Precedes.refl older with graph := extends_intern owned, writes := ?_ }
    show older.writes <+: ite _ _ _
    split
    · exact prefix_rfl
    · exact prefix_append _ _
  | types hm => exact { Precedes.refl older with types := TypeTable.extends_member hm }
  | elementsWritten | preamble | postamble => exact { Precedes.refl older with }

theorem Steps.precedes (h : Steps older newer) : older.Precedes newer := by
  induction h with
  | refl => exact Precedes.refl older
  | tail _ hstep ih => exact ih.trans hstep.precedes

/-- A draft as it grows. The elements of addresses that were written one after another on the way are
listed: each with its address and the node that writes to it. -/
inductive Chronicle (older : Draft) : List (NodeId × NodeId) → Draft → Prop
  | start : Chronicle older [] older
  | quiet {log : List (NodeId × NodeId)} {middle newer : Draft} (h : Chronicle older log middle)
      (hl : middle.Precedes newer) (hsame : newer.elementsWritten = middle.elementsWritten) :
      Chronicle older log newer
  | element {log : List (NodeId × NodeId)} {middle : Draft} {id addr : NodeId}
      (h : Chronicle older log middle)
      (hws : middle.WritesElement id addr (middle.elementsWritten.getD addr 0)) :
      Chronicle older (log ++ [(addr, id)]) { middle with
        elementsWritten :=
          middle.elementsWritten.insert addr (middle.elementsWritten.getD addr 0 + 1) }

namespace Chronicle

variable {log : List (NodeId × NodeId)}

theorem precedes (h : older.Chronicle log newer) : older.Precedes newer := by
  induction h with
  | start => exact .refl older
  | quiet _ hl _ ih => exact ih.trans hl
  | element _ _ ih => exact ih.trans { Precedes.refl _ with }

theorem trans {later : List (NodeId × NodeId)} (hfst : older.Chronicle log newer)
    (hla : newer.Chronicle later last) : older.Chronicle (log ++ later) last := by
  induction hla with
  | start => rwa [append_nil]
  | quiet _ hl hsame ih => exact ih.quiet hl hsame
  | element _ hws ih =>
    rw [← append_assoc]
    exact ih.element hws

theorem of_precedes (h : older.Precedes newer)
    (hsame : newer.elementsWritten = older.elementsWritten) : older.Chronicle [] newer :=
  start.quiet h hsame

end Chronicle

/-- The draft grew into the other one, whatever was written on the way. -/
def Evolves (older newer : Draft) : Prop := ∃ log, older.Chronicle log newer

theorem Evolves.refl (draft : Draft) : draft.Evolves draft := ⟨[], .start⟩

theorem Evolves.trans (hfst : first.Evolves middle)
    (hla : middle.Evolves last) : first.Evolves last := by
  obtain ⟨log, hlog⟩ := hfst
  obtain ⟨later, hl⟩ := hla
  exact ⟨log ++ later, hlog.trans hl⟩

theorem Evolves.precedes (h : older.Evolves newer) : older.Precedes newer := by
  obtain ⟨log, hlog⟩ := h
  exact hlog.precedes

theorem Step.evolves (h : Step older newer) : older.Evolves newer := by
  have hquiet (hsame : newer.elementsWritten = older.elementsWritten) : older.Evolves newer :=
    ⟨[], .of_precedes h.precedes hsame⟩
  cases h with
  | elementsWritten hws => exact ⟨_, Chronicle.start.element hws⟩
  | node | argument | write | types | preamble | postamble => exact hquiet rfl

theorem Steps.evolves (h : Steps older newer) : older.Evolves newer := by
  induction h with
  | refl => exact .refl older
  | tail _ hstep ih => exact ih.trans hstep.evolves

/-- Known derivatives are not touched by elementary changes. -/
theorem Step.derivatives (h : Step older newer) : newer.derivatives = older.derivatives := by
  cases h <;> rfl

theorem Steps.derivatives (h : Steps older newer) : newer.derivatives = older.derivatives := by
  induction h with
  | refl => rfl
  | tail _ hstep ih => exact hstep.derivatives.trans ih

end Draft

end DiffGraph
