import Mathlib.Algebra.BigOperators.Group.List.Basic
import Mathlib.Algebra.GroupWithZero.Nat
import Mathlib.Data.List.Nodup
import Std.Data.String.ToNat
import DiffGraph.Draft.Emission
import DiffGraph.Proofs.Draft.Dependencies
import DiffGraph.Proofs.Draft.Operations

/-!
The text of a function by recursion. An expression that is used more than once is written as the
name of a temporary; anything else is written from the texts of its operands. The statements are the
declarations of the temporaries and the writes, in the order of dependencies. A list of occurrences
keeps account of which expressions a statement renders and which temporaries it mentions: every
expression is rendered once, and a temporary is declared before it is mentioned.
-/

set_option autoImplicit false

namespace DiffGraph

open List Dependencies Graph Nat

variable {id rendered arg temporary : NodeId} {n node : Node} {d : Draft}
  {earlier later : List NodeId}

namespace Draft

def isComputed (d : Draft) (id : NodeId) : Bool := (d.graph.node? id).any Node.isComputed

/-- An expression that is used more than once. -/
def isShared (d : Draft) (id : NodeId) : Bool :=
  d.isComputed id && decide (1 < d.dependencies.useCount id)

/-- An expression that is not used more than once. -/
def isSingle (draft : Draft) (id : NodeId) : Bool := draft.isComputed id && !draft.isShared id

/-- The text of a node from the texts of its operands, whether it is shared or not. -/
def unshared (d : Draft) (lang : Language) (id : NodeId) : Except Error String :=
  match h : d.graph.node? id with
  | none => .error (.foreignAccess id.index d.name)
  | some n => do
    match ← d.outline lang id n with
    | .text text => return text
    | .application op =>
      let parts ← n.operands.attach.mapM fun ⟨part, member⟩ ↦
        have : part.index < id.index := operand_index_lt h member
        if d.isShared part then return d.temporaryName part
        else unshared d lang part
      d.combine lang n.type op parts
termination_by id.index

/-- The text of a node where it is used. -/
def reference (d : Draft) (lang : Language) (id : NodeId) : Except Error String :=
  if d.isShared id then return d.temporaryName id else d.unshared lang id

/-- The statement that a node contributes, if it does. -/
def referenceStatement (draft : Draft) (language : Language) (id : NodeId) :
    Except Error (List String) :=
  match draft.graph.node? id with
  | none => return []
  | some node =>
    match node.kind with
    | .write address value => do
      let target ← draft.addressText language .write address
      return [s!"{target.value} = {← draft.reference language value};"]
    | .expression .. =>
      if draft.isShared id then do
        let text ← draft.unshared language id
        return [Emit.temporaryDeclaration language node.type (draft.temporaryName id) text]
      else return []
    | _ => return []

def referenceStatements (d : Draft) (lang : Language) : Except Error (List String) := do
  return (← d.dependencies.inOrder.toList.mapM (d.referenceStatement lang)).flatten

/-- What a text is made of: expressions rendered in it, and temporaries mentioned. -/
inductive Occurrence where
  | rendering (id : NodeId)
  | temporary (id : NodeId)
deriving DecidableEq

/-- What the text of a node is made of, whether it is shared or not. -/
def occurrences (d : Draft) (id : NodeId) : List Occurrence :=
  match h : d.graph.node? id with
  | none => []
  | some n =>
    if n.isComputed then
      .rendering id :: n.operands.attach.flatMap fun ⟨part, member⟩ ↦
        have : part.index < id.index := operand_index_lt h member
        if d.isShared part then [.temporary part] else d.occurrences part
    else []
termination_by id.index

/-- What the text of a node is made of where it is used. -/
def occurrencesInUse (d : Draft) (id : NodeId) : List Occurrence :=
  if d.isShared id then [.temporary id] else d.occurrences id

/-- What the statement of a node is made of. -/
def statementOccurrences (d : Draft) (id : NodeId) : List Occurrence :=
  match (d.graph.node? id).map Node.kind with
  | some (.write _ v) => d.occurrencesInUse v
  | some (.expression ..) => if d.isShared id then d.occurrences id else []
  | _ => []

section Equations

theorem mapM_attach {α β : Type} {m : Type → Type} [Monad m] [LawfulMonad m] (l : List α)
    (f : α → m β) : (l.attach.mapM fun a ↦ f a.1) = l.mapM f := by
  conv => rhs; rw [← attach_map_subtype_val l, mapM_map]
  rfl

theorem flatMap_attach {α β : Type} (l : List α) (f : α → List β) :
    (l.attach.flatMap fun a ↦ f a.1) = l.flatMap f := by
  conv => rhs; rw [← attach_map_subtype_val l, flatMap_map]

theorem unshared_of_node? (lang : Language) (h : d.graph.node? id = some node) :
    d.unshared lang id = (do
      match ← d.outline lang id node with
      | .text text => return text
      | .application op =>
        d.combine lang node.type op
          (← node.operands.mapM (d.reference lang))) := by
  rw [unshared]
  split
  next hno =>
    rw [h] at hno
    cases hno
  next found hf =>
    obtain rfl : found = node := Option.some.inj (hf.symm.trans h)
    congr 1
    funext outline
    cases outline with
    | text text => rfl
    | application op =>
      dsimp only
      rw [← mapM_attach found.operands (d.reference lang)]
      rfl

theorem unshared_of_missing (lang : Language) (h : d.graph.node? id = none) :
    d.unshared lang id = .error (.foreignAccess id.index d.name) := by
  rw [unshared]
  split
  · rfl
  next hsome =>
    rw [h] at hsome
    cases hsome

theorem isComputed_of_node? (h : d.graph.node? id = some n) : d.isComputed id = n.isComputed := by
  rw [isComputed, h, Option.any_some]

theorem occurrences_of_computed (h : d.graph.node? id = some node)
    (hcomp : node.isComputed = true) :
    d.occurrences id = .rendering id :: node.operands.flatMap d.occurrencesInUse := by
  rw [occurrences]
  split
  next hno =>
    rw [h] at hno
    cases hno
  next found hf =>
    obtain rfl : found = node := Option.some.inj (hf.symm.trans h)
    rw [if_pos hcomp, ← flatMap_attach found.operands d.occurrencesInUse]
    rfl

theorem occurrences_of_not_computed (h : d.isComputed id = false) : d.occurrences id = [] := by
  rw [occurrences]
  split
  · rfl
  next found hf =>
    rw [isComputed_of_node? hf] at h
    rw [if_neg (by rw [h]; exact Bool.false_ne_true)]

end Equations

section Discipline

theorem kind_of_isWrite (h : n.isWrite = true) : ∃ addr value, n.kind = .write addr value := by
  unfold Node.isWrite at h
  split at h
  · exact ⟨_, _, ‹_›⟩
  · cases h

theorem isComputed_of_address (h : d.graph.node? id = some n)
    (haddr : n.isAddress = true) : d.isComputed id = false := by
  rw [isComputed_of_node? h, Node.isComputed, haddr]
  split <;> rfl

section

variable (hs : d.Sound) (hn : d.graph.node? id = some n)

include hs hn

/-- Only expressions and writes have operands that are not addresses. -/
theorem Sound.isAddress_operand (hcomp : n.isComputed = false) (hw : n.isWrite = false)
    (hop : arg ∈ n.operands) : ∃ tgt, d.graph.node? arg = some tgt ∧ tgt.isAddress = true := by
  rw [Node.operands] at hop
  cases hk : n.kind with
  | constant | argument =>
    rw [hk] at hop
    cases hop
  | read addr =>
    rw [hk] at hop
    obtain rfl := mem_singleton.mp hop
    obtain ⟨-, tgt, htg, haddr, -⟩ := hs.read hn hk
    exact ⟨tgt, htg, haddr⟩
  | write addr v =>
    rw [Node.isWrite, hk] at hw
    cases hw
  | expression op args =>
    have haddr : n.isAddress = true := by
      rw [Node.isComputed, hk] at hcomp
      simpa using hcomp
    obtain ⟨before, hbf, hfi, -⟩ := hs.expression hn hk
    obtain ⟨base, tgt, rfl, htg, hta, -⟩ := hfi.of_address haddr
    rw [hk] at hop
    obtain rfl := mem_singleton.mp hop
    exact ⟨tgt, hbf.graph.node? htg, hta⟩

theorem Sound.isComputed_operand (hcomp : n.isComputed = false) (hw : n.isWrite = false) :
    ∀ arg ∈ n.operands, d.isComputed arg = false := by
  intro arg hop
  obtain ⟨tgt, htg, hta⟩ := hs.isAddress_operand hn hcomp hw hop
  exact isComputed_of_address htg hta

/-- The address of a write is not an expression. -/
theorem Sound.isComputed_target {addr v : NodeId} (hk : n.kind = .write addr v) :
    d.isComputed addr = false := by
  obtain ⟨-, -, before, hbf, hw⟩ := hs.write hn hk
  obtain ⟨tgt, htg, haddr, -⟩ := hw.target
  exact isComputed_of_address (hbf.graph.node? htg) haddr

end

theorem Sound.owns_of_reaches (hs : d.Sound) (h : d.graph.Reaches d.writes id) :
    d.graph.Owns id := by
  obtain ⟨root, hrt, hpath⟩ := h
  induction hpath with
  | refl =>
    obtain ⟨n, _, _, hn, -⟩ := hs.writes hrt
    exact owns_of_node? hn
  | tail _ hop ih =>
    obtain ⟨user, huser⟩ := owns_iff_node?.mp ih
    rw [operands_of_node? huser] at hop
    exact owns_operand huser hop

end Discipline

section Accounting

/-- The nodes that the writes depend on, in order. -/
def order (d : Draft) : List NodeId := d.dependencies.inOrder.toList

/-- All operand positions that the writes depend on. -/
def uses (d : Draft) : List NodeId := d.order.flatMap d.graph.operands

theorem nodup_order (d : Draft) : d.order.Nodup := nodup_inOrder d.graph d.writes

theorem mem_order_of_mem_uses (h : id ∈ d.uses) : id ∈ d.order := by
  obtain ⟨user, huser, hop⟩ := mem_flatMap.mp h
  exact operand_mem_inOrder d.graph d.writes huser hop

theorem Sound.node?_of_mem_order (hs : d.Sound) (h : id ∈ d.order) :
    ∃ node, d.graph.node? id = some node :=
  owns_iff_node?.mp (hs.owns_of_reaches ((mem_inOrder_iff d.graph d.writes).mp h))

/-- An expression in order is used. -/
theorem Sound.mem_uses (hs : d.Sound) (h : id ∈ d.order)
    (hcomp : d.isComputed id = true) : id ∈ d.uses := by
  have hrch := (mem_inOrder_iff d.graph d.writes).mp h
  rcases hrch.cases with hrt | ⟨user, huser, hop⟩
  · obtain ⟨n, addr, v, hn, hk⟩ := hs.writes hrt
    rw [isComputed_of_node? hn, Node.isComputed, hk] at hcomp
    cases hcomp
  · have hm := (mem_inOrder_iff d.graph d.writes).mpr huser
    exact mem_flatMap.mpr ⟨user, hm, hop⟩

theorem isComputed_of_single (h : d.isSingle id = true) : d.isComputed id = true :=
  (Bool.and_eq_true_iff.mp h).1

theorem isShared_of_single (h : d.isSingle id = true) : d.isShared id = false := by
  simpa using (Bool.and_eq_true_iff.mp h).2

theorem isShared_of_not_computed (h : d.isComputed id = false) : d.isShared id = false := by
  rw [isShared, h, Bool.false_and]

theorem useCount_eq_count (d : Draft) (id : NodeId) :
    d.dependencies.useCount id = d.uses.count id :=
  useCount_eq d.graph d.writes id

theorem count_uses_of_single (h : d.isSingle id = true) : d.uses.count id ≤ 1 := by
  have hsh := isShared_of_single h
  rw [isShared, isComputed_of_single h, Bool.true_and, decide_eq_false_iff_not,
    useCount_eq_count] at hsh
  omega

/-- Among the operand positions every expression that is not shared stands once. -/
theorem Sound.uses_filter_perm (hs : d.Sound) :
    (d.uses.filter d.isSingle).Perm (d.order.filter d.isSingle) := by
  rw [perm_iff_count]
  intro id
  by_cases hsg : d.isSingle id = true
  · rw [count_filter hsg, count_filter hsg]
    have hle := count_uses_of_single hsg
    by_cases hm : id ∈ d.order
    · rw [count_eq_one_of_mem d.nodup_order hm]
      have hpos := count_pos_iff.mpr (hs.mem_uses hm (isComputed_of_single hsg))
      omega
    · rw [count_eq_zero.mpr hm, count_eq_zero.mpr fun huse ↦ hm (mem_order_of_mem_uses huse)]
  · rw [count_eq_zero.mpr fun h ↦ hsg (mem_filter.mp h).2,
      count_eq_zero.mpr fun h ↦ hsg (mem_filter.mp h).2]

/-- How often the text of a node renders an expression where the node is used. -/
def weight (d : Draft) (rendered id : NodeId) : Nat :=
  (d.occurrencesInUse id).count (.rendering rendered)

theorem weight_of_not_single (h : d.isSingle id = false) : d.weight rendered id = 0 := by
  rw [weight, occurrencesInUse]
  split
  · rfl
  next hsh =>
    have hcomp : d.isComputed id = false := by
      simpa [isSingle, hsh] using h
    rw [occurrences_of_not_computed hcomp, count_nil]

theorem weight_of_not_computed (h : d.isComputed id = false) : d.weight rendered id = 0 :=
  weight_of_not_single (by rw [isSingle, h, Bool.false_and])

theorem count_occurrences (hn : d.graph.node? id = some n) (hcomp : n.isComputed = true) :
    (d.occurrences id).count (.rendering rendered) =
      (if id = rendered then 1 else 0) + (n.operands.map (d.weight rendered)).sum := by
  rw [occurrences_of_computed hn hcomp, count_cons, count_flatMap, add_comm]
  congr 1
  by_cases heq : id = rendered
  · simp [heq]
  · simp [heq]

/-- What a node's statement renders and what its uses render come from itself and its operands. -/
theorem Sound.balance (hs : d.Sound) (hrendered : d.isComputed rendered = true)
    (hn : d.graph.node? id = some n) :
    (d.statementOccurrences id).count (.rendering rendered) + d.weight rendered id =
      (if id = rendered then 1 else 0) + (n.operands.map (d.weight rendered)).sum := by
  have hown := isComputed_of_node? hn
  rw [statementOccurrences, hn, Option.map_some]
  cases hcomp : n.isComputed with
  | true =>
    rw [hcomp] at hown
    obtain ⟨op, args, hk, -⟩ := kind_of_isComputed hcomp
    rw [hk]
    dsimp only
    cases hsh : d.isShared id with
    | true =>
      rw [if_pos rfl, count_occurrences hn hcomp, weight_of_not_single, add_zero]
      rw [isSingle, hsh, Bool.not_true, Bool.and_false]
    | false =>
      rw [if_neg Bool.false_ne_true, count_nil, zero_add, weight, occurrencesInUse,
        hsh, if_neg Bool.false_ne_true, count_occurrences hn hcomp]
  | false =>
    rw [hcomp] at hown
    have ho : id ≠ rendered := by
      rintro rfl
      rw [hown] at hrendered
      cases hrendered
    rw [weight_of_not_computed hown, if_neg ho, add_zero, zero_add]
    cases hw : n.isWrite with
    | true =>
      obtain ⟨addr, v, hk⟩ := kind_of_isWrite hw
      rw [Node.operands, hk]
      simp only [NodeKind.operands, map_cons, map_nil, sum_cons, sum_nil,
        weight_of_not_computed (hs.isComputed_target hn hk), zero_add, add_zero]
      rfl
    | false =>
      have hops := hs.isComputed_operand hn hcomp hw
      have hsum : (n.operands.map (d.weight rendered)).sum = 0 := by
        refine sum_eq_zero fun weight hweight ↦ ?_
        obtain ⟨arg, hop, rfl⟩ := mem_map.mp hweight
        exact weight_of_not_computed (hops arg hop)
      rw [hsum]
      split
      next heq =>
        rw [Node.isWrite, Option.some.inj heq] at hw
        cases hw
      · rw [isShared_of_not_computed hown, if_neg Bool.false_ne_true, count_nil]
      · rfl

theorem sum_indicator (l : List NodeId) (id : NodeId) :
    (l.map fun other ↦ if other = id then 1 else 0).sum = l.count id := by
  induction l with
  | nil => rfl
  | cons other l ih => simp [ih, count_cons, add_comm]

theorem sum_map_weight_uses (rendered : NodeId) (hs : d.Sound) :
    (d.uses.map (d.weight rendered)).sum = (d.order.map (d.weight rendered)).sum := by
  have hfilter (l : List NodeId) : (l.map (d.weight rendered)).sum =
      ((l.filter d.isSingle).map (d.weight rendered)).sum := by
    induction l with
    | nil => rfl
    | cons id l ih =>
      cases hsg : d.isSingle id with
      | true => rw [filter_cons_of_pos hsg, map_cons, map_cons, sum_cons, sum_cons, ih]
      | false => rw [filter_cons_of_neg (by simp [hsg]), map_cons, sum_cons, ih,
          weight_of_not_single hsg, zero_add]
  rw [hfilter d.uses, hfilter d.order]
  exact (hs.uses_filter_perm.map _).sum_eq

/-- Every expression is rendered in exactly one place of one statement. -/
theorem Sound.count_rendering (hs : d.Sound) (h : id ∈ d.order) (hcomp : d.isComputed id = true) :
    (d.order.flatMap d.statementOccurrences).count (.rendering id) = 1 := by
  have hbalance : (d.order.map fun other ↦
      (d.statementOccurrences other).count (.rendering id) + d.weight id other).sum =
      (d.order.map fun other ↦ (if other = id then 1 else 0) +
        ((d.graph.operands other).map (d.weight id)).sum).sum := by
    congr 1
    refine map_congr_left fun other ho ↦ ?_
    obtain ⟨n, hn⟩ := hs.node?_of_mem_order ho
    rw [operands_of_node? hn]
    exact hs.balance hcomp hn
  have hops : (d.order.map fun other ↦ ((d.graph.operands other).map (d.weight id)).sum).sum =
      (d.uses.map (d.weight id)).sum := by
    rw [uses, map_flatMap, flatMap_def, sum_flatten, map_map]
    rfl
  rw [sum_map_add, sum_map_add, sum_indicator, hops, sum_map_weight_uses id hs,
    count_eq_one_of_mem d.nodup_order h] at hbalance
  rw [count_flatMap]
  exact add_right_cancel hbalance

/-- The nodes ahead of one in order are closed under operands. -/
theorem operands_ahead {user : NodeId} (h : d.order = earlier ++ id :: later)
    (huser : user ∈ earlier) (hop : arg ∈ d.graph.operands user) : arg ∈ earlier := by
  obtain ⟨first, rest, rfl⟩ := append_of_mem huser
  rw [append_assoc, cons_append] at h
  have hfst := operands_inOrder d.graph d.writes h arg hop
  exact mem_append_left _ hfst

/-- A temporary that is mentioned in a text belongs to the operands that the text is made from. -/
theorem mem_of_temporary_mem {ahead : List NodeId}
    (hcl : ∀ user ∈ ahead, ∀ arg ∈ d.graph.operands user, arg ∈ ahead)
    (hid : id ∈ ahead) (h : .temporary temporary ∈ d.occurrencesInUse id) :
    temporary ∈ ahead ∧ d.isShared temporary = true := by
  induction hix : id.index using Nat.strongRecOn generalizing id with
  | ind index ih =>
    unfold occurrencesInUse at h
    split at h
    next hsh =>
      obtain rfl := Occurrence.temporary.inj (mem_singleton.mp h)
      exact ⟨hid, hsh⟩
    next =>
      cases hn : d.graph.node? id with
      | none =>
        rw [occurrences_of_not_computed (by rw [isComputed, hn, Option.any_none])] at h
        cases h
      | some n =>
        cases hcomp : n.isComputed with
        | false =>
          rw [occurrences_of_not_computed ((isComputed_of_node? hn).trans hcomp)] at h
          cases h
        | true =>
          rw [occurrences_of_computed hn hcomp] at h
          rcases mem_cons.mp h with heq | h
          · cases heq
          · obtain ⟨arg, hop, h⟩ := mem_flatMap.mp h
            have hlt := operand_index_lt hn hop
            rw [← operands_of_node? hn] at hop
            exact ih arg.index (by omega) (hcl id hid arg hop) h rfl

/-- A temporary is declared in a statement ahead of those that mention it. -/
theorem temporary_ahead (hord : d.order = earlier ++ id :: later)
    (h : .temporary temporary ∈ d.statementOccurrences id) :
    temporary ∈ earlier ∧ d.isShared temporary = true := by
  have hcl : ∀ user ∈ earlier, ∀ arg ∈ d.graph.operands user, arg ∈ earlier :=
    fun user huser arg hop ↦ operands_ahead hord huser hop
  have hown := operands_inOrder d.graph d.writes hord
  unfold statementOccurrences at h
  cases hn : d.graph.node? id with
  | none =>
    rw [hn] at h
    cases h
  | some n =>
    rw [operands_of_node? hn] at hown
    rw [hn, Option.map_some] at h
    split at h
    next address value hk =>
      refine mem_of_temporary_mem hcl (hown value ?_) h
      rw [Node.operands, Option.some.inj hk]
      exact mem_cons_of_mem _ mem_cons_self
    next hk =>
      split at h
      next hsh =>
        have hcomp : n.isComputed = true := by
          rw [← isComputed_of_node? hn]
          exact (Bool.and_eq_true_iff.mp hsh).1
        rw [occurrences_of_computed hn hcomp] at h
        rcases mem_cons.mp h with heq | h
        · cases heq
        · obtain ⟨arg, hop, h⟩ := mem_flatMap.mp h
          exact mem_of_temporary_mem hcl (hown arg hop) h
      · cases h
    · cases h

/-- Temporaries have names of their own. -/
theorem Sound.nodup_temporaryNames (hs : d.Sound) :
    ((d.order.filter d.isShared).map d.temporaryName).Nodup := by
  refine Nodup.map_on ?_ (d.nodup_order.filter _)
  intro first hfst second hsnd hnm
  obtain ⟨a, ha⟩ := hs.node?_of_mem_order (mem_filter.mp hfst).1
  obtain ⟨b, hb⟩ := hs.node?_of_mem_order (mem_filter.mp hsnd).1
  have hwr := (owner_of_node? ha).trans (owner_of_node? hb).symm
  have hix : first.index = second.index := repr_inj.mp ((String.append_right_inj _).mp hnm)
  cases first
  cases second
  cases hwr
  cases hix
  rfl

/-- The writes stand in order as they were recorded. -/
theorem Sound.filter_order (hs : d.Sound) :
    (d.order.filter fun id ↦ (d.graph.node? id).any Node.isWrite) = d.writes := by
  refine filter_inOrder d.graph hs.writes_sorted (fun id hls ↦ ?_) ?_
  · obtain ⟨n, addr, v, hn, hk⟩ := hs.writes hls
    rw [hn, Option.any_some, Node.isWrite, hk]
  · intro id hrch hw
    obtain ⟨n, hn⟩ := owns_iff_node?.mp (hs.owns_of_reaches hrch)
    rw [hn, Option.any_some] at hw
    obtain ⟨addr, v, hk⟩ := kind_of_isWrite hw
    exact (hs.write hn hk).2.1

/-- The writes in order are those that were recorded, each once. -/
theorem Sound.writes_perm (hs : d.Sound) :
    (d.order.filter fun id ↦ (d.graph.node? id).any Node.isWrite).Perm d.writes := by
  rw [hs.filter_order]

end Accounting

end Draft

end DiffGraph
