import DiffGraph.Text.Natural

/-!
Text templates of operators. Between braces stands the number of an operand, or a star for all of
them; everything else is copied. The text of an operand is never looked into.
-/

set_option autoImplicit false

namespace DiffGraph

inductive TemplatePart where
  | char (c : Char)
  | operand (position : Nat)
  | all
deriving DecidableEq, Repr

namespace TemplatePart

def openBrace : Char := '\x7b'

def closeBrace : Char := '\x7d'

/-- Reads a reference behind an opening brace, with what follows it. -/
def reference? (text : List Char) : Option (TemplatePart × List Char) :=
  match text with
  | '*' :: c :: rest => if c = closeBrace then some (.all, rest) else none
  | _ =>
    let digits := text.takeWhile Char.isDigit
    match text.dropWhile Char.isDigit with
    | c :: rest =>
      if c = closeBrace && !digits.isEmpty then some (.operand (Text.digitsValue digits), rest)
      else none
    | [] => none

theorem length_of_reference? {text rest : List Char} {part : TemplatePart}
    (h : reference? text = some (part, rest)) : rest.length < text.length := by
  unfold reference? at h
  split at h
  · split at h
    · cases h
      simp only [List.length_cons]
      omega
    · cases h
  · split at h
    case h_1 c tail hd =>
      have bound := (List.dropWhile_suffix (p := Char.isDigit) (l := text)).length_le
      rw [hd, List.length_cons] at bound
      dsimp only at h
      split at h
      · cases h
        omega
      · cases h
    case h_2 => cases h

/-- The parts of a template, from left to right. -/
def parse (text : List Char) : List TemplatePart :=
  match text with
  | [] => []
  | c :: rest =>
    if c = openBrace then
      match h : reference? rest with
      | some (part, after) =>
        have := length_of_reference? h
        part :: parse after
      | none => .char c :: parse rest
    else .char c :: parse rest
termination_by text.length

def render (operands : List String) : TemplatePart → String
  | .char c => c.toString
  | .operand position => (operands[position]?).getD ""
  | .all => ", ".intercalate operands

end TemplatePart

/-- Fills the operands into a template. -/
def fillTemplate (template : String) (operands : List String) : String :=
  String.join ((TemplatePart.parse template.toList).map (TemplatePart.render operands))

end DiffGraph
