import DiffGraph.Operator.Standard.Registry
import DiffGraph.Workspace

/-!
Sample functions: a square, the length of a cross product, and a recurrent cell unrolled over a
number of steps.
-/

set_option autoImplicit false

namespace DiffGraph

namespace Samples

/-- The standard operators, the scalars and a record of three coordinates. -/
def library : Library :=
  ⟨.standard,
    ⟨⟨"Vec3", .record [("x", "double"), ("y", "double"), ("z", "double")] none⟩ ::
      TypeTable.scalars.newestFirst⟩⟩

def binary (operator : String) (a b : NodeId) : Build NodeId :=
  Build.apply operator [.node a, .node b]

/-- `y = x * x`. -/
def square : Build Unit := do
  Build.declareArguments [("y", "double")] [] [("x", "double")]
  let x ← Build.argument "x"
  let y ← Build.argument "y"
  let product ← binary "*" x x
  let _ ← Build.write y (.node product)

/-- Adds the square of one coordinate of the cross product to a sum. -/
def addSquare (first second : List NodeId) (sum : NodeId) (i : Nat) : Build NodeId := do
  match first[(i + 1) % 3]?, first[(i + 2) % 3]?, second[(i + 1) % 3]?, second[(i + 2) % 3]? with
  | some aj, some ak, some bj, some bk =>
    let left ← binary "*" aj bk
    let right ← binary "*" ak bj
    let coordinate ← binary "-" left right
    let squared ← Build.apply "sqr" [.node coordinate]
    binary "+" sum squared
  | _, _, _, _ => return sum

/-- `n` is the length of the cross product of `a` and `b`. -/
def crossLength : Build Unit := do
  Build.declareArguments [("n", "double")] [] [("a", "Vec3"), ("b", "Vec3")]
  let a ← Build.argument "a"
  let b ← Build.argument "b"
  let n ← Build.argument "n"
  let coordinates ← ["x", "y", "z"].mapM fun axis ↦ do
    let first ← Build.member a axis
    let second ← Build.member b axis
    return (first, second)
  let start ← Build.constant (← Build.typeOf n) (.float .zero)
  let sum ← (List.range 3).foldlM
    (addSquare (coordinates.map Prod.fst) (coordinates.map Prod.snd)) start
  let length ← Build.apply "sqrt" [.node sum]
  let _ ← Build.write n (.node length)

/-- One step of the cell: `tanh (w * state + x)`. -/
def cellStep (w x state : NodeId) : Build NodeId := do
  let weighted ← binary "*" w state
  let input ← binary "+" weighted x
  Build.apply "tanh" [.node input]

def cellSteps (w x : NodeId) : Nat → NodeId → Build NodeId
  | 0, state => return state
  | steps + 1, state => do cellSteps w x steps (← cellStep w x state)

/-- Starting from `h`, the cell is stepped a number of times; the last state goes to `h` and `y`. -/
def unrolledCell (steps : Nat) : Build Unit := do
  Build.declareArguments [("y", "double")] [("h", "double")] [("w", "double"), ("x", "double")]
  let w ← Build.argument "w"
  let x ← Build.argument "x"
  let h ← Build.argument "h"
  let y ← Build.argument "y"
  let state ← cellSteps w x steps (← Build.read h)
  let _ ← Build.write h (.node state)
  let _ ← Build.write y (.node state)

end Samples

end DiffGraph
