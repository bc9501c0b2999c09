import WordAutomata.Stream
import WordAutomata.Tally

namespace WordAutomata.Tool

/-- One fact of a report. -/
inductive Value
  | number (n : Nat)
  | text (s : String)
  | texts (ss : List String)

namespace Value

/-- A value on a line of its own. -/
def line : Value → String
  | number n => toString n
  | text s => s
  | texts ss => ",".intercalate ss

/-- A value as JSON at the first level of an object. Texts are plain letters and digits. -/
def json : Value → String
  | number n => toString n
  | text s => "\"" ++ s ++ "\""
  | texts [] => "[]"
  | texts ss => "[\n" ++ ",\n".intercalate (ss.map fun s => "    \"" ++ s ++ "\"") ++ "\n  ]"

end Value

/-- A fact with its title in text, if it has one there, and its key in JSON. -/
structure Item where
  title : Option String
  key : String
  value : Value

/-- The facts about an automaton that depend on its layout. -/
def layoutItems : Stream → List Item
  | .uniform u => [
    ⟨some "Goto length:", "goto_length", .number u.addressWidth⟩,
    ⟨some "Node data length:", "node_data_length", .number u.countWidth⟩]
  | .compact c => [⟨some "Indexed labels:", "indexed_labels", .number (c.labels.size - 1)⟩]

/-- All facts about an automaton. -/
def items (s : Stream) (i : Automaton.Info) : List Item := [
  ⟨some "Version:", "version", .text (Text.hexByte s.version)⟩,
  ⟨some "Flags:", "flags", .texts (s.automaton.flags.toList.map Flag.name)⟩,
  ⟨some "Bytes:", "bytes", .number s.byteLength⟩] ++ layoutItems s ++ [
  ⟨some "States:", "states", .number i.states⟩,
  ⟨some "Arcs:", "arcs", .number i.arcs⟩,
  ⟨some "Final arcs:", "final_arcs", .number i.finalArcs⟩,
  ⟨none, "terminal_arcs", .number i.terminalArcs⟩,
  ⟨some "Sequences:", "sequences", .number i.sequences⟩]

/-- The column at which values start. -/
def column : Nat := 18

def textReport (items : List Item) : String :=
  String.join (items.filterMap fun item => item.title.map fun title =>
    title.pushn ' ' (column - title.length) ++ item.value.line ++ "\n")

def jsonReport (items : List Item) : String :=
  let fields := items.map fun item => "  \"" ++ item.key ++ "\": " ++ item.value.json
  "\x7b\n" ++ ",\n".intercalate fields ++ "\n\x7d\n"

end WordAutomata.Tool
