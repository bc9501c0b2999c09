import WordAutomata.Text.Hex

namespace WordAutomata

/-- Why a file or another source of bytes could not be used. -/
inductive IoCause
  | notFound
  | notADirectory
  | isADirectory
  | noDevice
  | nameTooLong
  /-- The source or sink broke off in the middle. -/
  | broken
deriving DecidableEq

namespace IoCause

def message : IoCause → String
  | notFound => "No such file or directory (os error 2)"
  | notADirectory => "Not a directory (os error 20)"
  | isADirectory => "Is a directory (os error 21)"
  | noDevice => "No such device (os error 19)"
  | nameTooLong => "File name too long (os error 36)"
  | broken => "Input/output error (os error 5)"

end IoCause

/-- What is wrong with the contents of a stream. -/
inductive Defect
  /-- A v-code at `position` that does not end within five bytes. -/
  | longCode (position : Nat)
  /-- A v-code at `position` of a number of more than 32 bits. -/
  | largeCode (position : Nat)
  | addressWidth (width : Nat)
  | countWidth (width : Nat)
  | labelTable (entries : Nat)
  | brokenRecords (size : Nat)
deriving DecidableEq

namespace Defect

def message : Defect → String
  | longCode position => s!"v-coded integer at {position} is longer than 5 bytes"
  | largeCode position => s!"v-coded integer at {position} does not fit in 32 bits"
  | addressWidth width => s!"goto length {width} is outside 1..=8"
  | countWidth width => s!"node data length {width} does not fit a 32-bit count"
  | labelTable entries => s!"label table of {entries} entries exceeds 32"
  | brokenRecords size => s!"fixed-layout buffer of {size} bytes is not a whole number of arcs"

end Defect

/-- Why a buffer is not accepted as an automaton. -/
inductive StreamError
  | malformedHeader
  | truncated
  | malformed (defect : Defect)
  | unsupportedVersion (version : UInt8)
  | nonZeroEpsilon (address : UInt32)
  | io (cause : IoCause)
  /-- The file could be opened but not mapped into memory. -/
  | unmappable (cause : IoCause)
deriving DecidableEq

namespace StreamError

def message : StreamError → String
  | malformedHeader => "Malformed header, expected the `\\fsa` magic"
  | truncated => "Truncated stream"
  | malformed defect => s!"Malformed stream: {defect.message}"
  | unsupportedVersion version => s!"Unsupported automaton version {Text.hexByte version}"
  | nonZeroEpsilon address => s!"Epsilon state must be at address 0, got {address}"
  | io _ => "IO error"
  | unmappable _ => "Memory mapping error"

/-- What lies behind an error of the system. -/
def cause? : StreamError → Option IoCause
  | io cause => some cause
  | unmappable cause => some cause
  | _ => none

end StreamError

end WordAutomata
