import SelfLambda.Closure.Quotation
import SelfLambda.Parser.Source

/-! An interactive session over one module. A line is a command if it starts with a colon; `:{` opens a block of lines
that ends at `:}` or with the input. Any other line, and any block, is loaded if it is a module, and otherwise
normalized as a term.

A session is a value: each line turns it into the next one and emits text. Files are read through a function from names
to contents. -/

namespace SelfLambda

inductive Channel where
  | out
  | err
  deriving DecidableEq, Repr

structure Emission where
  channel : Channel
  text : Text
  deriving DecidableEq, Repr

def Emission.collect (channel : Channel) (emissions : List Emission) : Text :=
  (emissions.filter fun emission => emission.channel == channel).flatMap Emission.text

inductive Command where
  | quit
  | load (path : Text)
  | defs
  | eval (source : Text)
  | reduce (source : Text)
  | normalize (source : Text)
  | erase (source : Text)
  | unknown (word : Text)
  deriving DecidableEq, Repr

def Command.ofText (s : Text) : Command :=
  let word := s.takeWhile (· != 32)
  let argument := s.drop (word.length + 1)
  if word = Text.ascii "quit" then quit
  else if word = Text.ascii "load" then load argument
  else if word = Text.ascii "defs" then defs
  else if word = Text.ascii "eval" then eval argument
  else if word = Text.ascii "reduce" then reduce argument
  else if word = Text.ascii "normalize" then normalize argument
  else if word = Text.ascii "erase" then erase argument
  else unknown word

inductive Line where
  | opening (first : Text)
  | command (command : Command)
  | plain (source : Text)
  deriving DecidableEq, Repr

def Line.ofText (s : Text) : Line :=
  match Parser.word (Text.ascii ":\x7b") s with
  | some first => opening first
  | none =>
    match Parser.word (Text.ascii ":") s with
    | some rest => command (.ofText rest)
    | none => plain s

/-- State between two lines. A block that is open holds the text that it has so far. -/
structure Session where
  module : Module := {}
  block : Option Text := none
  finished : Bool := false
  deriving DecidableEq, Repr

namespace Session

abbrev Files := Text → Option Text

def prompt : Emission := ⟨.out, Text.ascii ">> "⟩

def outLine (s : Text) : Emission := ⟨.out, s ++ [Text.newline]⟩

def errLine (s : Text) : Emission := ⟨.err, s ++ [Text.newline]⟩

def loadFile (files : Files) (m : Module) (path : Text) : Module × List Emission :=
  match files path with
  | none => (m, [errLine (Text.ascii "Could not read file: " ++ path)])
  | some source =>
    match m.load? source with
    | none => (m, [errLine (Text.ascii "Parsing error in file: " ++ path)])
    | some loaded => (loaded, [])

def display (transform : Term → Run Term) (source : Text) : Emission :=
  match Term.parse? [] source with
  | none => errLine (Text.ascii "Parsing error, expected a term")
  | some t =>
    match transform t with
    | .ok (result, _) => outLine (result.print [])
    | .error stop => errLine (Text.ascii stop.message)

/-- A source is loaded if it is a module, and normalized otherwise. -/
def enter (fuel : Nat) (m : Module) (source : Text) : Module × List Emission :=
  match m.load? source with
  | some loaded => (loaded, [])
  | none => (m, [display (fun t => t.normalize m.find? fuel) source])

def run (fuel : Nat) (files : Files) (m : Module) : Command → Option Module × List Emission
  | .quit => (none, [])
  | .load path =>
    let (m, emissions) := loadFile files m path
    (some m, emissions)
  | .defs => (some m, [outLine m.print])
  | .eval source => (some m, [display (fun t => t.evaluate m.find? fuel) source])
  | .reduce source => (some m, [display (fun t => t.reduce m.find? fuel) source])
  | .normalize source => (some m, [display (fun t => t.normalize m.find? fuel) source])
  | .erase source => (some m, [display (fun t => .ok (t.erase, [])) source])
  | .unknown word => (some m, [errLine (Text.ascii "Unknown command: :" ++ word)])

def entered (fuel : Nat) (m : Module) (source : Text) : Session × List Emission :=
  let (m, emissions) := enter fuel m source
  ({ module := m }, emissions ++ [prompt])

def line (fuel : Nat) (files : Files) (s : Session) (text : Text) : Session × List Emission :=
  if s.finished then (s, [])
  else match s.block with
    | some block =>
      if text = Text.ascii ":\x7d" then entered fuel s.module block
      else ({ s with block := some (block ++ text ++ [Text.newline]) }, [])
    | none =>
      match Line.ofText text with
      | .opening first => ({ s with block := some (first ++ [Text.newline]) }, [])
      | .plain source => entered fuel s.module source
      | .command command =>
        match run fuel files s.module command with
        | (some m, emissions) => ({ s with module := m }, emissions ++ [prompt])
        | (none, emissions) => ({ s with finished := true }, emissions)

def wanted (s : Session) (text : Text) : Option Text :=
  if s.finished || s.block.isSome then none
  else match Line.ofText text with
    | .command (.load path) => some path
    | _ => none

def start (files : Files) (paths : List Text) : Session × List Emission :=
  let (m, emissions) := paths.foldl (fun (m, emissions) path =>
    let (m, more) := loadFile files m path
    (m, emissions ++ more)) (({} : Module), [])
  ({ module := m }, emissions ++ [prompt])

/-- End of the input, which also ends a block. -/
def close (fuel : Nat) (s : Session) : Session × List Emission :=
  match s.block with
  | some block => entered fuel s.module block
  | none => (s, [])

def transcript (fuel : Nat) (files : Files) (paths : List Text) (input : Text) : List Emission :=
  let (s, emissions) := input.lines.foldl (fun (s, emissions) text =>
    let (s, more) := s.line fuel files text
    (s, emissions ++ more)) (start files paths)
  emissions ++ (s.close fuel).2

end Session

end SelfLambda
