import SelfLambda.Parser.Grammar

/-! Whole sources. Nothing but blanks may stand before and after what is read. -/

namespace SelfLambda

def Parser.complete {α : Type} (p : Parser α) (s : Text) : Option α := do
  let (result, rest) ← p (blanks s)
  if (blanks rest).isEmpty then some result else none

def Term.parse? (scope : Scope) (s : Text) : Option Term := Parser.complete (Parser.term scope) s

def Definition.parse? (s : Text) : Option Definition := Parser.complete Parser.definition s

/-- A module is read definition by definition; a name that comes again replaces its definition. -/
def Module.parse? (s : Text) : Option Module :=
  (Parser.definitions s.length (Parser.blanks s)).map (insertAll {})

/-- Adds all definitions of a source to a module, or none of them if the source is no module. -/
def Module.load? (m : Module) (s : Text) : Option Module :=
  (Module.parse? s).map fun loaded => m.insertAll loaded.entries

end SelfLambda
