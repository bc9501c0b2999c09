import WordAutomata.Automaton
import Std.Data.TreeMap.Lemmas

namespace WordAutomata

open Std (TreeMap)

/-- A label with the number of arcs that carry it. -/
structure LabelCount where
  label : UInt8
  count : Nat
deriving DecidableEq

namespace LabelCount

/-- The order of preference: the more frequent label, or else the smaller one. -/
def before (a b : LabelCount) : Bool := b.count < a.count || (a.count == b.count && a.label ≤ b.label)

end LabelCount

/-- The labels that are frequent enough to be written as an index, as the table is written; entry 0 stands for no label. -/
structure LabelTable where
  labels : List UInt8

namespace LabelTable

/-- Labels that a table has room for. -/
def room : Nat := 31

/-- How often each label occurs. -/
def frequencies (labels : List UInt8) : TreeMap UInt8 Nat :=
  labels.foldl (fun m c => m.insert c (m.getD c 0 + 1)) ∅

/-- Every label that occurs, in the order of preference. -/
def ranking (labels : List UInt8) : List LabelCount :=
  ((frequencies labels).toList.map fun (c, n) => (⟨c, n⟩ : LabelCount)).mergeSort LabelCount.before

/-- The table for the labels of all arcs. The most frequent label gets the highest index. -/
def ofLabels (labels : List UInt8) : LabelTable :=
  ⟨0 :: (((ranking labels).take room).map LabelCount.label).reverse⟩

/-- The index of a label, 0 if the table does not hold it. -/
def index (t : LabelTable) (c : UInt8) : Nat :=
  match t.labels.tail.idxOf? c with
  | some i => i + 1
  | none => 0

end LabelTable

/-- The labels on arcs of some states. -/
def Graph.labels (G : Graph) (states : List State) : List UInt8 :=
  states.flatMap fun s => (G.row s).map Transition.label

end WordAutomata
