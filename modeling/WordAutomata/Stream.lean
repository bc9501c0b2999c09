import WordAutomata.Layout.Compact
import WordAutomata.Layout.Uniform

namespace WordAutomata

/-- A stored automaton of either stream layout, told apart by the version in the header. -/
inductive Stream
  | uniform (u : Uniform)
  | compact (c : Compact)

namespace Stream

def version : Stream → UInt8
  | uniform _ => Uniform.version
  | compact _ => Compact.version

def byteLength : Stream → Nat
  | uniform u => u.byteLength
  | compact c => c.byteLength

def automaton : Stream → Automaton
  | uniform u => u.automaton
  | compact c => c.automaton

/-- Reads a stream of any known version. -/
def ofBytes (data : Bytes) : Except StreamError Stream := do
  let header ← Header.parse data
  if header.version = Uniform.version then return uniform (← Uniform.ofBytes data)
  if header.version = Compact.version then return compact (← Compact.ofBytes data)
  throw (.unsupportedVersion header.version)

/-- Reads a stream to the end of a source. -/
def ofSource (s : Source) : Except StreamError Stream :=
  match s.takeAll with
  | .ok data => ofBytes data
  | .error cause => .error (.io cause)

end Stream

end WordAutomata
