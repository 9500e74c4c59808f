import SelfLambda.Text

/-! Mixing of 64-bit digests. -/

namespace SelfLambda

/-- One mixing step, modulo `2^64`: the new word is spread by a fixed constant and two shifts of the accumulator. -/
def mix (acc word : UInt64) : UInt64 :=
  acc ^^^ (word + (0x9e3779b9 : UInt64) + (acc <<< (6 : UInt64)) + (acc >>> (2 : UInt64)))

def Text.digest (s : Text) : UInt64 := s.foldl (fun acc byte => mix acc byte.toUInt64) 0

end SelfLambda
