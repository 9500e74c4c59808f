import SelfLambda.Session

/-! The command line: an interactive session on standard input and output, after the files that are named as
arguments. -/

namespace SelfLambda.CommandLine

def write (emission : Emission) : IO Unit := do
  let stream ← match emission.channel with
    | .out => IO.getStdout
    | .err => IO.getStderr
  stream.write ⟨emission.text.toArray⟩
  stream.flush

/-- Contents of a file, if it can be read; a directory opens and has none. -/
def contents (path : Text) : IO (Option Text) := do
  match String.fromUTF8? ⟨path.toArray⟩ with
  | none => return none
  | some name =>
    try
      return some (← IO.FS.readBinFile name).toList
    catch
      | .inappropriateType .. => return some []
      | _ => return none

partial def nextLine (stream : IO.FS.Stream) (sofar : Array UInt8) : IO (Option Text) := do
  let chunk ← stream.read 1
  match chunk[0]? with
  | none => return if sofar.isEmpty then none else some sofar.toList
  | some byte => if byte == Text.newline then return some sofar.toList else nextLine stream (sofar.push byte)

partial def converse (stream : IO.FS.Stream) (s : Session) : IO Unit := do
  if s.finished then return
  match ← nextLine stream #[] with
  | none => (s.close ample).2.forM write
  | some text =>
    let content ← match s.wanted text with
      | some path => contents path
      | none => pure none
    let (s, emissions) := s.line ample (fun _ => content) text
    emissions.forM write
    converse stream s

end SelfLambda.CommandLine

open SelfLambda CommandLine in
def main (args : List String) : IO UInt32 := do
  let paths : List Text := args.map fun arg => arg.toUTF8.toList
  let files ← paths.mapM fun path => do return (path, ← contents path)
  let (s, emissions) := Session.start (fun path => (files.lookup path).join) paths
  emissions.forM write
  converse (← IO.getStdin) s
  return 0
