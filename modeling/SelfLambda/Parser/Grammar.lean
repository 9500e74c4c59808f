import SelfLambda.Module
import SelfLambda.Parser.Lexical

/-! The grammar of terms, one definition for each production. A production that holds terms takes the parser for them
as an argument; `term` closes the circle, and needs no more rounds than the text has bytes, because every production
takes at least one byte before it asks for a term.

Alternatives are tried in a fixed order: function type, function, universe, name, group. Then come arguments, as many
as follow at once, and then at most one annotation. -/

namespace SelfLambda

namespace Parser

open Text

/-- Function type: `self(x : A) -> B`, the self name optional and directly before the parenthesis. -/
def functionType (nested : Scope → Parser Term) (scope : Scope) : Parser Term := fun s => do
  let (self, s) := (name s).getD ([], s)
  let s ← symbol (ascii "(") s
  let (param, s) ← name s
  let s ← symbol (ascii ":") (blanks s)
  let (domain, s) ← nested (self :: scope) s
  let (erased, s) := erasure s
  let s ← symbol (ascii ")") s
  let s ← symbol (ascii "->") s
  let (codomain, s) ← nested (param :: self :: scope) s
  return (.all erased self param domain codomain, s)

def function (nested : Scope → Parser Term) (scope : Scope) : Parser Term := fun s => do
  let s ← symbol (ascii "(") s
  let (param, s) ← name s
  let (erased, s) := erasure s
  let s ← symbol (ascii ")") s
  let s ← symbol (ascii "=>") s
  let (body, s) ← nested (param :: scope) s
  return (.lam erased param body, s)

/-- The word `Type` is the universe unless more name bytes follow. -/
def keyword : Parser Term := fun s => do
  let s ← word (ascii "Type") s
  if s.head?.any isNameByte then none else some (.typ, s)

def named (scope : Scope) : Parser Term := fun s => do
  let (found, s) ← name s
  return (scope.resolve found, s)

def group (nested : Scope → Parser Term) (scope : Scope) : Parser Term := fun s => do
  let s ← symbol (ascii "(") s
  let (t, s) ← nested scope s
  let s ← word (ascii ")") (blanks s)
  return (t, s)

def argument (nested : Scope → Parser Term) (scope : Scope) : Parser (Bool × Term) := fun s => do
  let s ← symbol (ascii "(") s
  let (arg, s) ← nested scope s
  let (erased, s) := erasure s
  let s ← word (ascii ")") s
  return ((erased, arg), s)

def arguments (nested : Scope → Parser Term) (scope : Scope) : Nat → Term → Text → Term × Text
  | 0, fn, s => (fn, s)
  | count + 1, fn, s =>
    match argument nested scope s with
    | some ((erased, arg), rest) => arguments nested scope count (.app erased fn arg) rest
    | none => (fn, s)

def annotated (nested : Scope → Parser Term) (scope : Scope) (term : Term) : Parser Term := fun s => do
  let s ← symbol (ascii "::") (blanks s)
  let (type, s) ← nested scope s
  return (.ann false type term, s)

def head (nested : Scope → Parser Term) (scope : Scope) : Parser Term := fun s =>
  functionType nested scope s <|> function nested scope s <|> keyword s <|> named scope s <|>
    group nested scope s

def level (nested : Scope → Parser Term) (scope : Scope) : Parser Term := fun s => do
  let (t, s) ← head nested scope s
  let (t, s) := arguments nested scope s.length t s
  return (annotated nested scope t s).getD (t, s)

def termWithin : Nat → Scope → Parser Term
  | 0 => fun _ _ => none
  | depth + 1 => level (termWithin depth)

def term (scope : Scope) : Parser Term := fun s => termWithin (s.length + 1) scope s

def definition : Parser Definition := fun s => do
  let (found, s) ← name s
  let s ← symbol (ascii ":") (blanks s)
  let (type, s) ← term [] s
  let (body, s) ← term [] (blanks s)
  return (⟨found, type, body⟩, s)

def definitions : Nat → Text → Option (List Definition)
  | _, [] => some []
  | 0, _ :: _ => none
  | count + 1, byte :: rest => do
    let (first, s) ← definition (byte :: rest)
    let others ← definitions count (blanks s)
    return first :: others

end Parser

end SelfLambda
