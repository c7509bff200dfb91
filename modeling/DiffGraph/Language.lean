/-!
The languages a function can be emitted in.
-/

set_option autoImplicit false

namespace DiffGraph

inductive Language where
  | c
  | cpp
  | js
deriving DecidableEq, Hashable, Repr

namespace Language

/-- All languages in their fixed order. -/
def all : List Language := [.c, .cpp, .js]

def name : Language → String
  | .c => "c"
  | .cpp => "cpp"
  | .js => "js"

/-- The constructor's spelling in rule summaries. -/
def label : Language → String
  | .c => "C"
  | .cpp => "Cpp"
  | .js => "Js"

def ofName? (text : String) : Option Language := all.find? fun language ↦ language.name == text

def position (language : Language) : Nat := all.idxOf language

/-- Whether functions are declared ahead of their definition. -/
def declaresAhead : Language → Bool
  | .c | .cpp => true
  | .js => false

end Language

end DiffGraph
