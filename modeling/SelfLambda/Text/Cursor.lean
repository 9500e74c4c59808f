import SelfLambda.Parser.Lexical

/-! A position in a text. It moves forward a byte at a time or by a successful parse, and back to any earlier
position. -/

namespace SelfLambda

structure Cursor where
  text : Text
  position : Nat := 0
  deriving DecidableEq, Repr

namespace Cursor

inductive Refusal where
  | ahead
  | notBehind
  deriving DecidableEq, Repr

def Refusal.message : Refusal → String
  | ahead => "i <= _position"
  | notBehind => "start <= end && end <= _position"

def remaining (c : Cursor) : Text := c.text.drop c.position

def peek (c : Cursor) : Option UInt8 := c.text[c.position]?

def atEnd (c : Cursor) : Bool := c.peek.isNone

def advance (c : Cursor) : Option UInt8 × Cursor :=
  match c.peek with
  | some byte => (some byte, { c with position := c.position + 1 })
  | none => (none, c)

def revert (c : Cursor) (position : Nat) : Except Refusal Cursor :=
  if position ≤ c.position then .ok { c with position } else .error .ahead

/-- The bytes from `start` up to `stop`, which must have been passed. -/
def slice (c : Cursor) (start stop : Nat) : Except Refusal Text :=
  if start ≤ stop ∧ stop ≤ c.position then .ok ((c.text.drop start).take (stop - start)) else .error .notBehind

def before (c : Cursor) (rest : Text) : Cursor := { c with position := c.text.length - rest.length }

def skipBlanks (c : Cursor) : Cursor := c.before (Parser.blanks c.remaining)

def parse {α : Type} (p : Parser α) (c : Cursor) : Option α × Cursor :=
  match p c.remaining with
  | some (result, rest) => (some result, c.before rest)
  | none => (none, c)

end Cursor

end SelfLambda
