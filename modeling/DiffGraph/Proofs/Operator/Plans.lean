import DiffGraph.Operator.Registry

/-!
What plans ask for and which nodes they hand on. A plan gets to know nodes in three ways: it is
given operands, its requests are met, and it looks at nodes and finds their operands. It is
confined if it makes allowed requests only and its result is made of nodes that it knows
(`Plan.Confined`).
-/

set_option autoImplicit false

namespace DiffGraph

/-- The request is for an expression: it neither declares an argument nor makes a write. -/
def Request.Builds : Request → Prop
  | .declare .. | .write .. | .writeNext .. => False
  | .apply .. | .member .. | .index .. | .construct .. | .read .. | .constant .. | .one .. => True

/-- Any error but that of a contribution to a gradient that is already summed up. -/
def Error.Ordinary : Error → Prop
  | .gradientFinalized _ => False
  | _ => True

/-- Neither that error nor that of too many nested replacements. -/
def Error.Basic : Error → Prop
  | .gradientFinalized _ | .replacementLimit .. => False
  | _ => True

theorem Error.Basic.ordinary {error : Error} (h : error.Basic) : error.Ordinary := by
  cases error <;> first | trivial | exact h

namespace Plan

variable {α β : Type} {allowed : Request → Prop} {k known : List NodeId}

/-- The plan makes allowed requests and ends as described, from the nodes that are known at
first. -/
def Confined (allowed : Request → Prop) (res : List NodeId → α → Prop) :
    Plan α → List NodeId → Prop
  | .done m, k => res k m
  | .fail _, _ => True
  | .build q next, k => allowed q ∧
    (∀ id, (next (.ok id)).Confined allowed res (id :: k)) ∧
      ∀ error, (next (.error error)).Confined allowed res k
  | .inspect _ next, k => ∀ n, (next n).Confined allowed res (n.operands ++ k)
  | .isZero _ next, k => ∀ answer, (next answer).Confined allowed res k
  | .isOne _ next, k => ∀ answer, (next answer).Confined allowed res k

theorem confined_any (plan : Plan α) (known : List NodeId) :
    plan.Confined (fun _ ↦ True) (fun _ _ ↦ True) known := by
  induction plan generalizing known with
  | done | fail => trivial
  | build _ _ ih => exact ⟨trivial, fun _ ↦ ih _ _, fun _ ↦ ih _ _⟩
  | inspect _ _ ih | isZero _ _ ih | isOne _ _ ih => exact fun _ ↦ ih _ _

theorem Confined.mono {plan : Plan α} {res weaker : List NodeId → α → Prop}
    {wider : Request → Prop} (h : plan.Confined allowed res known) (hwd : ∀ q, allowed q → wider q)
    (hweaker : ∀ known m, res known m → weaker known m) :
    plan.Confined wider weaker known := by
  induction plan generalizing known with
  | done m => exact hweaker known m h
  | fail => trivial
  | build q _ ih =>
    exact ⟨hwd q h.1, fun id ↦ ih _ (h.2.1 id), fun error ↦ ih _ (h.2.2 error)⟩
  | inspect _ _ ih => exact fun n ↦ ih n (h n)
  | isZero _ _ ih | isOne _ _ ih => exact fun answer ↦ ih answer (h answer)

end Plan

/-- The rules of the overload for replacements and derivatives make allowed requests and end with
nodes as described. -/
structure Overload.Confined (allowed : Request → Prop) (handed : List NodeId → NodeId → Prop)
    (ov : Overload) : Prop where
  replace : ∀ rule, ov.rules.replace = some rule → ∀ args,
    (rule args).Confined allowed (fun k m ↦ ∀ id, m = some id → handed k id)
      args
  derivative : ∀ rule, ov.rules.derivative = some rule → ∀ args tangents,
    (rule args tangents).Confined allowed handed (args ++ tangents)

/-- The rules only build expressions, and hand on nodes that they know. -/
abbrev Overload.BuildsFrom (ov : Overload) : Prop :=
  ov.Confined Request.Builds fun k id ↦ id ∈ k

/-- The rules of the operators for replacements and derivatives only build expressions. -/
def Registry.Builds (registry : Registry) : Prop :=
  ∀ ov ∈ registry.overloads, ov.Confined Request.Builds fun _ _ ↦ True

/-- The rules of the operators for replacements and derivatives hand on nodes that they know. -/
def Registry.HandsOn (registry : Registry) : Prop :=
  ∀ ov ∈ registry.overloads, ov.Confined (fun _ ↦ True) fun k id ↦ id ∈ k

theorem Registry.mem_of_overload? {registry : Registry} {name : String} {pos : Nat}
    {ov : Overload} (h : registry.overload? name pos = some ov) :
    ov ∈ registry.overloads :=
  (List.mem_filter.mp (List.mem_of_getElem? h)).1

end DiffGraph
