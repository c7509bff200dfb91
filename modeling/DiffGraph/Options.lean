/-!
Settings of a function under construction. A function derived from another one takes them over.
-/

set_option autoImplicit false

namespace DiffGraph

structure Options where
  /-- How deep replacements of expressions may nest. -/
  replacementLimit : Nat
  /-- What names of temporaries begin with. -/
  temporaryStem : String
  indent : String
  gradientSuffix : String
  /-- Ending of an updated argument where it is read. -/
  previousSuffix : String
  /-- Ending of an updated argument where it is written. -/
  nextSuffix : String
deriving DecidableEq, Repr

namespace Options

def default : Options := ⟨64, "t", "    ", "Grad", "Prev", "Next"⟩

instance : Inhabited Options := ⟨default⟩

/-- The name of an argument's gradient. -/
def gradientName (options : Options) (name : String) : String := name ++ options.gradientSuffix

end Options

end DiffGraph
