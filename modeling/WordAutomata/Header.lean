import WordAutomata.StreamError
import WordAutomata.Bytes

namespace WordAutomata

/-- `\fsa` -/
def magic : List UInt8 := [0x5c, 0x66, 0x73, 0x61]

/-- The beginning that all streams share: four magic bytes and a version. -/
structure Header where
  version : UInt8
deriving DecidableEq

namespace Header

/-- Bytes that a header takes. -/
def size : Nat := 5

def toBytes (h : Header) : List UInt8 := magic ++ [h.version]

/-- Bytes that differ from the magic are refused as such even when the header is cut short. -/
def parse (data : Bytes) : Except StreamError Header :=
  let present := (data.extract 0 magic.length).toList
  if present ≠ magic.take present.length then .error .malformedHeader
  else match data[magic.length]? with
    | some version => .ok ⟨version⟩
    | none => .error .truncated

end Header

/-- Bytes that are handed out in order, and the number of them behind which the source breaks, if it does. -/
structure Source where
  data : Bytes
  failsAfter : Option Nat

namespace Source

/-- Takes the next `n` bytes, fewer at the end, or fails if the source breaks before. -/
def takeBytes (s : Source) (n : Nat) : Except IoCause Bytes × Source :=
  let wanted := min n s.data.size
  let room := s.failsAfter.getD wanted
  let given := min wanted room
  let rest : Source := ⟨s.data.extract given s.data.size, s.failsAfter.map (· - given)⟩
  if wanted ≤ room then (.ok (s.data.extract 0 given), rest) else (.error .broken, rest)

/-- Takes everything. -/
def takeAll (s : Source) : Except IoCause Bytes := (s.takeBytes s.data.size).1

end Source

/-- Takes a header from a source and leaves what follows it. -/
def Header.takeFrom (s : Source) : Except StreamError Header × Source :=
  match s.takeBytes Header.size with
  | (.ok data, rest) => (Header.parse data, rest)
  | (.error cause, rest) => (.error (.io cause), rest)

end WordAutomata
