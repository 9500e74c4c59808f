import SelfLambda.Term.Printer

/-! Modules are definitions in the order in which their names first came. A name that comes again replaces its
definition where it stands. -/

namespace SelfLambda

structure Definition where
  name : Name
  type : Term
  term : Term
  deriving DecidableEq, Repr, Inhabited

def Definition.print (d : Definition) : Text :=
  d.name ++ Text.ascii " : " ++ d.type.print [] ++ [Text.newline] ++ d.term.print []

/-- A source of definitions: what each name stands for, if it stands for anything. -/
abbrev Definitions := Name → Option Definition

structure Module where
  entries : List Definition := []
  deriving DecidableEq, Repr, Inhabited

namespace Module

/-- Puts `d` in the place of the entry of its name, or last, and tells the place. -/
def place (d : Definition) : List Definition → List Definition × Nat
  | [] => ([d], 0)
  | entry :: rest =>
    if entry.name = d.name then (d :: rest, 0)
    else
      let (rest, position) := place d rest
      (entry :: rest, position + 1)

def add (m : Module) (d : Definition) : Module × Nat :=
  let (entries, position) := place d m.entries
  (⟨entries⟩, position)

def insert (m : Module) (d : Definition) : Module := (m.add d).1

def insertAll (m : Module) (ds : List Definition) : Module := ds.foldl insert m

def find? (m : Module) : Definitions := fun name => m.entries.find? (fun entry => entry.name == name)

def get? (m : Module) (position : Nat) : Option Definition := m.entries[position]?

def size (m : Module) : Nat := m.entries.length

def names (m : Module) : List Name := m.entries.map Definition.name

def print (m : Module) : Text :=
  [Text.newline, Text.newline].intercalate (m.entries.map Definition.print)

end Module

end SelfLambda
