import WordAutomata.Flags
import WordAutomata.StreamError
import WordAutomata.VCode

namespace WordAutomata

/-- The stream layouts that can be written. -/
inductive Format
  | uniform
  | compact
deriving DecidableEq

namespace Format

def name : Format → String
  | uniform => "FSA5"
  | compact => "CFSA2"

end Format

/-- A number without a place in the layout. -/
inductive Unencodable
  | code (o : VCode.Overflow)
  | addresses
  | stateOffset (offset : Nat)
deriving DecidableEq

namespace Unencodable

def message : Unencodable → String
  | code o => o.message
  | addresses => "addresses do not fit in 8 bytes"
  | stateOffset offset => s!"state offset {offset} does not fit in 32 bits"

end Unencodable

/-- A layout that contradicts itself. -/
inductive Inconsistency
  /-- The offsets still changed in the last pass allowed. -/
  | unsettled (f : Format) (passes : Nat)
  /-- The state at a place was not written where the layout put it. -/
  | moved (place written laidOut : Nat)
  /-- An address that fitted the layout does not fit the output. -/
  | addressOverflow
deriving DecidableEq

namespace Inconsistency

def message : Inconsistency → String
  | unsettled f passes => s!"{f.name} offsets did not converge in {passes} passes"
  | moved place written laidOut => s!"state {place} emitted at {written}, laid out at Some({laidOut})"
  | addressOverflow => "FSA5 address overflow in the emission pass"

end Inconsistency

/-- Bytes reserved as separators that cannot serve as such. -/
inductive SeparatorConflict
  | same (separator : UInt8)
  | fillerIsLabel (filler : UInt8)
deriving DecidableEq

namespace SeparatorConflict

def message : SeparatorConflict → String
  | same separator => s!"filler and annotation separator are both {Text.hexByte separator}"
  | fillerIsLabel filler => s!"filler {Text.hexByte filler} occurs as an arc label"

end SeparatorConflict

inductive WriteError
  | encodingOverflow (what : Unencodable)
  | inconsistent (what : Inconsistency)
  | unsupportedFlags (f : Format) (flags : Flags)
  | separatorConflict (what : SeparatorConflict)
  | io (cause : IoCause)
deriving DecidableEq

namespace WriteError

def message : WriteError → String
  | encodingOverflow what => s!"Encoding overflow: {what.message}"
  | inconsistent what => s!"Internal consistency error: {what.message}"
  | unsupportedFlags f flags => s!"{f.name} does not support flags [{flags.names}]"
  | separatorConflict what => s!"Separator conflict: {what.message}"
  | io _ => "IO error"

/-- What lies behind an error of the system. -/
def cause? : WriteError → Option IoCause
  | io cause => some cause
  | _ => none

end WriteError

/-- One thing that a writer does. -/
inductive Event
  /-- Reports how far it has come, in percent. -/
  | progress (percent : Nat)
  | write (bytes : List UInt8)
  | flush

/-- What a writer does to its output, as a value, and its result if the output takes everything: the number of bytes written,
or an error. Carrying it out over a given output is one function for all writers. -/
structure Script where
  events : List Event
  result : Except WriteError Nat

namespace Script

/-- The bytes that a script hands over. -/
def bytes (s : Script) : List UInt8 :=
  s.events.flatMap fun
    | .write bs => bs
    | _ => []

end Script

/-- An output that takes so many bytes and then fails, or everything. -/
structure Sink where
  room : Option Nat
  flushFails : Bool

namespace Sink

def unlimited : Sink := ⟨none, false⟩

/-- Whether all of `bs` is taken. -/
def takes (s : Sink) (bs : List UInt8) : Bool :=
  match s.room with
  | none => true
  | some n => bs.length ≤ n

end Sink

/-- What a script came to over a sink. -/
structure Delivery where
  /-- The bytes that reached the output. -/
  bytes : List UInt8
  progress : List Nat
  result : Except WriteError Nat

/-- Carries out events until the sink fails. -/
def deliver (sink : Sink) (result : Except WriteError Nat) : List Event → Delivery
  | [] => ⟨[], [], result⟩
  | .progress p :: es =>
    let d := deliver sink result es
    { d with progress := p :: d.progress }
  | .write bs :: es =>
    if sink.takes bs then
      let d := deliver { sink with room := sink.room.map (· - bs.length) } result es
      { d with bytes := bs ++ d.bytes }
    else ⟨bs.take (sink.room.getD 0), [], .error (.io .broken)⟩
  | .flush :: es =>
    if sink.flushFails then ⟨[], [], .error (.io .broken)⟩ else deliver sink result es

def Script.deliverTo (s : Script) (sink : Sink) : Delivery := deliver sink s.result s.events

/-- What a writer comes to that gets through all its steps. -/
structure Stages where
  /-- The bytes before the body. -/
  head : List UInt8
  body : List UInt8
  /-- Bytes written, as the writer has counted them. -/
  written : Nat
  written_eq : written = head.length + body.length

/-- A complete run: the layout is prepared and settled, then head and body are written and flushed. -/
def Stages.script (s : Stages) : Script where
  events := [.progress 10, .progress 60, .write s.head, .progress 70, .write s.body, .progress 95, .flush, .progress 100]
  result := .ok s.written

/-- A run that ends with an error behind some events. -/
def Script.failed (events : List Event) (e : WriteError) : Script := ⟨events, .error e⟩

/-- Flags that a layout has no place for. -/
def unsupported? (f : Format) (supported requested : Flags) : Option WriteError :=
  let missing := requested.difference supported
  if missing.isEmpty then none else some (.unsupportedFlags f missing)

end WordAutomata
