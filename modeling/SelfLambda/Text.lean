/-! Byte text. Source, names and printed output are lists of bytes: nothing here decodes characters, so a position
or a length always counts bytes. -/

namespace SelfLambda

abbrev Text := List UInt8

abbrev Name := Text

namespace Text

/-- Bytes of a string all of whose characters are ASCII. -/
def ascii (s : String) : Text := s.toList.map Char.toUInt8

def decimal (n : Nat) : Text := (Nat.toDigits 10 n).map Char.toUInt8

def isSpace (byte : UInt8) : Bool := byte == 32 || byte == 9 || byte == 10 || byte == 13

def isNameByte (byte : UInt8) : Bool :=
  (48 ≤ byte && byte ≤ 57) || (97 ≤ byte && byte ≤ 122) || (65 ≤ byte && byte ≤ 90) || byte == 95

def newline : UInt8 := 10

/-- Lines end at a newline, which they do not keep; a last line without one counts unless it is empty. -/
def lines : Text → List Text
  | [] => []
  | byte :: rest =>
    if byte = newline then [] :: lines rest
    else match lines rest with
      | [] => [[byte]]
      | line :: others => (byte :: line) :: others

end Text

end SelfLambda
