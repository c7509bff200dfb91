import DiffGraph.Graph.Node
import DiffGraph.Text.Hexadecimal

/-!
Digests of nodes. A digest is a 64-bit word into which words are mixed one after another. The digest
of a node takes in its type, what kind of node it is and the digests of its operands, so it depends
on the unfolded expression alone: neither on positions in the graph nor on which overload of an
operator was chosen.
-/

set_option autoImplicit false

namespace DiffGraph

namespace Digest

def rotateLeft5 (state : UInt64) : UInt64 := (state <<< 5) ||| (state >>> 59)

/-- Mixes one word into the state. -/
def word (state w : UInt64) : UInt64 := (rotateLeft5 state ^^^ w) * 0x517cc1b727220a95

/-- The word of some bytes, the least significant byte first. -/
def littleEndian (bytes : List UInt8) : UInt64 :=
  bytes.foldr (fun byte rest ↦ (rest <<< 8) ||| byte.toUInt64) 0

/-- Bytes are mixed in groups of eight; what remains in a group of four, of two and of one. -/
def bytes (state : UInt64) : List UInt8 → UInt64
  | a :: b :: c :: d :: e :: f :: g :: h :: rest =>
    bytes (word state (littleEndian [a, b, c, d, e, f, g, h])) rest
  | a :: b :: c :: d :: rest => bytes (word state (littleEndian [a, b, c, d])) rest
  | a :: b :: rest => bytes (word state (littleEndian [a, b])) rest
  | a :: rest => bytes (word state (littleEndian [a])) rest
  | [] => state

/-- A text is closed by a word that is no byte of a text. -/
def text (state : UInt64) (s : String) : UInt64 := word (bytes state s.toUTF8.toList) 0xff

mutual

def value (state : UInt64) : Value → UInt64
  | .float x => word (word state 0) x.bits
  | .int n => word (word state 1) n.toUInt64
  | .bool b => word (word state 2) (if b then 1 else 0)
  | .zero => word state 3
  | .tuple items => values (word (word state 4) (UInt64.ofNat items.length)) items

def values (state : UInt64) : List Value → UInt64
  | [] => state
  | v :: vs => values (value state v) vs

end

def direction (state : UInt64) : Direction → UInt64
  | .input => word state 0
  | .output => word state 1
  | .update => word state 2

def operator (state : UInt64) : Operator → UInt64
  | .registered name _ => text (word state 0) name
  | .member field => text (word state 1) field
  | .index position => word (word state 2) (UInt64.ofNat position)
  | .construct => word state 3

/-- The digest of a node, given the digests of its operands. -/
def node (operandKey : NodeId → UInt64) (type : String) (kind : NodeKind) : UInt64 :=
  let start := text 0 type
  match kind with
  | .constant v => value (word start 0) v
  | .argument name d => direction (text (word start 1) name) d
  | .read address => word (word start 2) (operandKey address)
  | .write address v => word (word (word start 3) (operandKey address)) (operandKey v)
  | .expression op operands =>
    operands.foldl (fun state operand ↦ word state (operandKey operand))
      (operator (word start 4) op)

/-- A word as sixteen hexadecimal digits. -/
def render (key : UInt64) : String :=
  String.ofList (Text.hexadecimal 16 key.toNat)

end Digest

end DiffGraph
