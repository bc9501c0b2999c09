import WordAutomata.Layout.Compact
import WordAutomata.Write.LabelTable
import WordAutomata.Write.Uniform

namespace WordAutomata

/-- How the number of states to move to the front, where addresses are short, is looked for. It is found by trial, since the
size of the output does not simply fall or rise with it. All numbers have 64 bits. -/
structure Tuning where
  cutStart : Nat := 25
  cutStep : Nat := 25
  cutEnd : Nat := 150
  /-- Only states with more arcs than this leading to them are moved. -/
  minInlinks : Nat := 2

structure CompactWriter where
  flags : Flags := .empty
  tuning : Tuning := {}

namespace CompactWriter

def supported : Flags := Flags.ofList [.flexible, .stopBit, .nextBit, .numbers]

/-- An address that no layout gives, and that takes the most bytes. -/
def unplaced : Nat := 1 <<< 32 - 1

/-- Marks in the first byte of an arc, above the index of its label. -/
def marks (isFinal isLast isNext : Bool) : Nat :=
  (if isFinal then 32 else 0) + (if isLast then 64 else 0) + if isNext then 128 else 0

/-- The beginning of an arc: its marks with the index of its label, or else with the label behind. -/
def labelBytes (table : LabelTable) (label : UInt8) (marks : Nat) : List UInt8 :=
  let index := table.index label
  if 0 < index then [UInt8.ofNat (marks + index)] else [UInt8.ofNat marks, label]

/-- An arc does without an address if its target comes next. -/
def isShort (place : Nat) (a : PlacedArc) : Bool := a.target == some (place + 1)

def arcBytes (table : LabelTable) (address : Nat → Nat) (place : Nat) (a : PlacedArc) : List UInt8 :=
  if isShort place a then labelBytes table a.label (marks a.isFinal a.isLast true)
  else labelBytes table a.label (marks a.isFinal a.isLast false) ++ VCode.code (a.target.elim 0 address)

def countBytes (numbers : Bool) (count : Nat) : List UInt8 := if numbers then VCode.code count else []

/-- The state that leads to the root. -/
def opening (table : LabelTable) (numbers : Bool) (root : Option Nat) (address : Nat → Nat) : List UInt8 :=
  countBytes numbers 0 ++ labelBytes table epsilonLabel (marks false true false) ++ VCode.code (root.elim 0 address)

/-- Bytes counted for the beginning of an arc. -/
def labelSize (table : LabelTable) (label : UInt8) : Nat := if 0 < table.index label then 1 else 2

/-- Bytes counted for an arc. -/
def arcSize (table : LabelTable) (address : Nat → Nat) (place : Nat) (a : PlacedArc) : Nat :=
  if isShort place a then labelSize table a.label
  else labelSize table a.label + (VCode.code (a.target.elim 0 address)).length

/-- Bytes counted for the count of a state. -/
def countSize (numbers : Bool) (count : Nat) : Nat := if numbers then (VCode.code count).length else 0

/-- Bytes counted for the opening. -/
def openingSize (table : LabelTable) (numbers : Bool) (root : Option Nat) (address : Nat → Nat) : Nat :=
  countSize numbers 0 + (labelSize table epsilonLabel + (VCode.code (root.elim 0 address)).length)

/-- Bytes counted for a state. -/
def rowSize (table : LabelTable) (numbers : Bool) (address : Nat → Nat) (place : Nat) (r : PlacedRow) : Nat :=
  countSize numbers r.count + arcsSize (arcSize table address place) r.arcs

theorem length_labelBytes (table : LabelTable) (label : UInt8) (marks : Nat) :
    (labelBytes table label marks).length = labelSize table label := by
  simp only [labelBytes, labelSize]
  split <;> rfl

theorem length_arcBytes (table : LabelTable) (address : Nat → Nat) (place : Nat) (a : PlacedArc) :
    (arcBytes table address place a).length = arcSize table address place a := by
  rw [arcBytes, arcSize]
  split
  · exact length_labelBytes _ _ _
  · rw [List.length_append, length_labelBytes]

theorem length_countBytes (numbers : Bool) (count : Nat) :
    (countBytes numbers count).length = countSize numbers count := by
  cases numbers <;> rfl

theorem length_opening (table : LabelTable) (numbers : Bool) (root : Option Nat) (address : Nat → Nat) :
    (opening table numbers root address).length = openingSize table numbers root address := by
  rw [opening, List.length_append, List.length_append, length_countBytes, length_labelBytes, Nat.add_assoc]
  rfl

def format (table : LabelTable) (numbers : Bool) (root : Option Nat) : RowFormat where
  unplaced := unplaced
  opening := opening table numbers root
  openingSize := openingSize table numbers root
  row address place r := countBytes numbers r.count ++ r.arcs.flatMap (arcBytes table address place)
  rowSize := rowSize table numbers
  fits address place _ := address place < 1 <<< 32
  openingSize_eq address := (length_opening table numbers root address).symm
  rowSize_eq address place r := by
    rw [List.length_append, length_countBytes, rowSize, arcsSize_eq_length (length_arcBytes table address place)]

/-- What is written whatever the order of the states. -/
structure Subject where
  graph : Graph
  table : LabelTable
  /-- The right-language counts, if they are to be stored. -/
  count : Option (State → Nat)

namespace Subject

def plan (s : Subject) (order : List State) : Plan := s.graph.plan (s.count.getD fun _ => 0) order

/-- A pass over the states in the order of a plan. -/
def format (s : Subject) (plan : Plan) : RowFormat :=
  CompactWriter.format s.table s.count.isSome plan.root

end Subject

/-- A plan with its offsets. -/
structure Settled where
  plan : Plan
  pass : Pass

def Settled.size (s : Settled) : Nat := s.pass.size

/-- The layout in which some states come first. -/
def layout (s : Subject) (moved : List State) : Except WriteError Settled :=
  let plan := s.plan (s.graph.linearize moved)
  match (s.format plan).settle plan.rows maxPasses #[] with
  | .settled p => .ok ⟨plan, p⟩
  | .unsettled => .error (.inconsistent (.unsettled .compact maxPasses))
  | .tooNarrow offsets =>
    let offset := (offsets.find? fun o => 1 <<< 32 ≤ o).getD 0
    .error (.encodingOverflow (.stateOffset offset))

/-- How many arcs of some states lead to each state. -/
def inLinks (G : Graph) (states : List State) : Std.TreeMap State Nat :=
  (states.flatMap G.targets).foldl (fun m t => m.insert t (m.getD t 0 + 1)) ∅

/-- The states worth moving, those with the most arcs leading to them first. -/
def candidates (G : Graph) (states : List State) (minInlinks : Nat) : List State :=
  let links := inLinks G states
  let linksTo s := links.getD s 0
  (states.filter fun s => minInlinks < linksTo s).mergeSort fun s t =>
    linksTo t < linksTo s || (linksTo s == linksTo t && t.offset ≤ s.offset)

/-- The cut behind another one. Numbers of states have 64 bits; a sum beyond them loses its carry, or the writer does not
come back if it was built to check for that. -/
def nextCut (step cut : Nat) : Nat := (cut + step) % (1 <<< 64)

/-- Tries cuts from `cut` on, as long as they are not beyond `last`, and stops at the first that saves nothing. Keeps the
best layout. -/
def search (layoutAt : Nat → Except WriteError Settled) (step last cut : Nat) (best : Settled) :
    Except WriteError Settled :=
  if 0 < step ∧ cut ≤ last then do
    let found ← layoutAt cut
    if _h : found.size < best.size then search layoutAt step last (nextCut step cut) found else return best
  else return best
termination_by best.size

/-- The layout with the best number of states moved. -/
def bestLayout (s : Subject) (tuning : Tuning) (states : List State) : Except WriteError Settled := do
  let movable := candidates s.graph states tuning.minInlinks
  let baseline ← layout s []
  if movable = [] then return baseline
  search (fun cut => layout s (movable.take cut)) tuning.cutStep (min tuning.cutEnd movable.length)
    (min tuning.cutStart movable.length) baseline

/-- Why the first state that is not where the layout put it cannot be written. An offset beyond 32 bits is told before it
is compared. -/
def misplaced : Inconsistency → WriteError
  | .moved place written laidOut =>
    if 1 <<< 32 ≤ written then .encodingOverflow (.stateOffset written) else .inconsistent (.moved place written laidOut)
  | e => .inconsistent e

/-- The pass that writes the body once more, with the offsets of the layout. -/
def emit (s : Subject) (l : Settled) : Except WriteError Pass :=
  let p := (s.format l.plan).pass l.plan.rows l.pass.offsets
  match p.moved? l.pass.offsets with
  | some e => .error (misplaced e)
  | none => .ok p

/-- Flags of the stream itself, whatever was asked for. -/
def streamFlags (numbers : Bool) : Flags :=
  if numbers then Uniform.baseFlags.insert .numbers else Uniform.baseFlags

/-- The bytes before the body. -/
def head (s : Subject) : List UInt8 :=
  Header.toBytes ⟨Compact.version⟩ ++ big 2 (streamFlags s.count.isSome).mask ++
    UInt8.ofNat s.table.labels.length :: s.table.labels

/-- A run to the end, with the pass that has written the body. -/
def stages (s : Subject) (p : Pass) : Stages where
  head := head s
  body := p.body.toList
  written := Compact.tableOffset + s.table.labels.length + p.size
  written_eq := by
    rw [p.size_eq, Array.length_toList, head]
    simp [Header.toBytes, magic, Compact.tableOffset, Header.size]
    omega

/-- Writes an automaton whose reachable states are given. -/
def writeSubject (w : CompactWriter) (s : Subject) (states : List State) : Script :=
  match bestLayout s w.tuning states with
  | .error e => .failed [.progress 10] e
  | .ok l =>
    match emit s l with
    | .error e => .failed [.progress 10, .progress 60, .write (head s), .progress 70] e
    | .ok p => (stages s p).script

/-- Writes an automaton. -/
def script (w : CompactWriter) (A : Automaton) : Read Script := do
  if let some e := unsupported? .compact supported w.flags then return .failed [] e
  let states ← A.survey
  let count ← if w.flags.numbers then do
      let counts ← A.counts
      pure (some fun s => counts.getD s 0)
    else pure none
  return w.writeSubject ⟨A.graph, .ofLabels (A.graph.labels states), count⟩ states

end CompactWriter

end WordAutomata
