import WordAutomata.Text.Hex
import WordAutomata.Walk

namespace WordAutomata.Dot

/-- Letters and digits stand for themselves, other labels for their number. -/
def labelText (c : UInt8) : String :=
  let char := Char.ofNat c.toNat
  if char.isAlphanum then char.toString else Text.hexByte c

def opening : List String := [
  "digraph Automaton \x7b",
  "  rankdir = LR;",
  "  stop [shape=doublecircle,label=\"\"];",
  "  initial [shape=plaintext,label=\"\"];"]

def rootLine (r : State) : String := s!"  initial -> {r.offset};"

def stateLine (s : State) (count : Option Nat) : String :=
  let count := match count with
    | some n => toString n
    | none => ""
  s!"  {s.offset} [shape=circle,label=\"{count}\"];"

def arcLine (s : State) (t : Transition) : String :=
  let target := match t.target with
    | some t => toString t.offset
    | none => "stop"
  let style := if t.isFinal then ",style=bold" else ""
  s!"  {s.offset} -> {target} [label=\"{labelText t.label}\"{style}];"

def closing : String := "\x7d"

/-- What has reached an output, and how many bytes it takes before it fails; with `none` it never does. -/
structure Output where
  written : Bytes
  room : Option Nat

/-- Hands bytes to the output, which takes what it has room for. Tells whether it took them all. -/
def put (bs : List UInt8) : Visit Output Bool := do
  let o ← get
  match o.room with
  | none =>
    set ({ o with written := o.written ++ bs } : Output)
    return true
  | some n =>
    set (⟨o.written ++ bs.take n, some (n - bs.length)⟩ : Output)
    return bs.length ≤ n

def putLine (line : String) : Visit Output Bool := put (line ++ "\n").toUTF8.toList

/-- Writes a state and its arcs. -/
def writeState (A : Automaton) (s : State) : Visit Output Bool :=
  (do putLine (stateLine s (← A.storedCount s))) <&&>
    (A.arcs s).allM fun a => do putLine (arcLine s (← A.transition a))

/-- Writes the drawing in the language of Graphviz, until the output fails. Lines written before that, or before a fault, stay
written. -/
def writeAll (A : Automaton) : Visit Output Bool :=
  opening.allM putLine <&&> (do (← A.root).toList.allM fun r => putLine (rootLine r)) <&&>
    A.visit (writeState A) <&&> putLine closing

inductive Ending
  | complete
  /-- The output failed. -/
  | failed
  | faulty (f : Fault)
deriving DecidableEq

/-- What was written of a drawing, and how it ended. -/
structure Outcome where
  written : List UInt8
  ending : Ending
deriving DecidableEq

def Outcome.of : Except Fault Bool × Output → Outcome
  | (.ok true, o) => ⟨o.written.toList, .complete⟩
  | (.ok false, o) => ⟨o.written.toList, .failed⟩
  | (.error f, o) => ⟨o.written.toList, .faulty f⟩

/-- Writes the drawing on an output that takes `room` bytes, or any number of them. -/
def write (A : Automaton) (room : Option Nat) : Outcome := .of ((writeAll A).run.run ⟨#[], room⟩)

end WordAutomata.Dot
