/-!
Sets of code points. A table lists the lengths of runs: how many code points from zero on are
outside, how many after them are inside, and so on in turn.
-/

set_option autoImplicit false

namespace DiffGraph

namespace Text

def isInside : List Nat → Nat → Bool
  | outside :: inside :: runs, point =>
    if point < outside then false
    else point < outside + inside || isInside runs (point - outside - inside)
  | _, _ => false

end Text

end DiffGraph
