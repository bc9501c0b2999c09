import WordAutomata.Layout.Uniform
import WordAutomata.Tally
import WordAutomata.Write.Layout
import WordAutomata.Write.Script

namespace WordAutomata

/-- The label of the arc that leads to the root. -/
def epsilonLabel : UInt8 := 0x5e

/-- What a stream of version 5 is to hold beside the automaton. -/
structure UniformWriter where
  flags : Flags := .empty
  filler : UInt8 := 0x5f
  annotation : UInt8 := 0x2b

namespace UniformWriter

/-- Every flag is understood. -/
def supported : Flags := Flags.ofList Flag.all

/-- The marks of an arc that is not followed by its target. -/
def marks (isFinal isLast : Bool) : Nat := (if isFinal then 1 else 0) + if isLast then 2 else 0

/-- An address above marks. -/
def combine (address marks : Nat) : Nat := address * 8 + marks

/-- An arc with an address. -/
def wideArc (width : Nat) (label : UInt8) (marks address : Nat) : List UInt8 :=
  label :: little width (combine address marks)

/-- Whether an address has room. The widest arcs take any. -/
def wideFits (width marks address : Nat) : Bool := 8 ≤ width || combine address marks < 1 <<< (8 * width)

/-- A last arc does without an address if its target comes next. -/
def isShort (place : Nat) (a : PlacedArc) : Bool := a.isLast && a.target == some (place + 1)

def arcBytes (width : Nat) (address : Nat → Nat) (place : Nat) (a : PlacedArc) : List UInt8 :=
  if isShort place a then [a.label, UInt8.ofNat (marks a.isFinal a.isLast + 4)]
  else wideArc width a.label (marks a.isFinal a.isLast) (a.target.elim 0 address)

def arcFits (width : Nat) (address : Nat → Nat) (place : Nat) (a : PlacedArc) : Bool :=
  isShort place a || wideFits width (marks a.isFinal a.isLast) (a.target.elim 0 address)

/-- The dummy state, and the state that leads to the root, which always comes first. -/
def opening (countWidth width : Nat) (hasRoot : Bool) : List UInt8 :=
  little countWidth 0 ++ wideArc width 0 0 0 ++ little countWidth 0 ++
    if hasRoot then [epsilonLabel, UInt8.ofNat (marks false true + 4)]
    else wideArc width epsilonLabel (marks false true) 0

/-- Bytes counted for an arc. -/
def arcSize (width place : Nat) (a : PlacedArc) : Nat := if isShort place a then 2 else 1 + width

/-- Bytes counted for the opening. -/
def openingSize (countWidth width : Nat) (hasRoot : Bool) : Nat :=
  countWidth + (1 + width) + countWidth + if hasRoot then 2 else 1 + width

/-- Bytes counted for a state: its count, and two or an address more than one for each arc. -/
def rowSize (countWidth width place : Nat) (r : PlacedRow) : Nat := countWidth + arcsSize (arcSize width place) r.arcs

theorem length_wideArc (width : Nat) (label : UInt8) (marks address : Nat) :
    (wideArc width label marks address).length = 1 + width := by
  simp [wideArc, Nat.add_comm]

theorem length_arcBytes (width : Nat) (address : Nat → Nat) (place : Nat) (a : PlacedArc) :
    (arcBytes width address place a).length = arcSize width place a := by
  rw [arcBytes, arcSize]
  split
  · rfl
  · exact length_wideArc _ _ _ _

theorem length_opening (countWidth width : Nat) (hasRoot : Bool) :
    (opening countWidth width hasRoot).length = openingSize countWidth width hasRoot := by
  cases hasRoot <;> simp [opening, openingSize, length_wideArc, Nat.add_assoc]

/-- Rows with the given widths of counts and addresses. -/
def format (countWidth width : Nat) (hasRoot : Bool) : RowFormat where
  unplaced := 0
  opening _ := opening countWidth width hasRoot
  openingSize _ := openingSize countWidth width hasRoot
  row address place r := little countWidth r.count ++ r.arcs.flatMap (arcBytes width address place)
  rowSize _ := rowSize countWidth width
  fits address place r := r.arcs.all (arcFits width address place)
  openingSize_eq _ := (length_opening countWidth width hasRoot).symm
  rowSize_eq address place r := by
    rw [List.length_append, length_little, rowSize, arcsSize_eq_length (length_arcBytes width address place)]

/-- A layout with its width of addresses. -/
structure Settled where
  width : Nat
  pass : Pass

/-- The width of all addresses, from `width` on, at which the layout settles with room for each of them beside its marks.
Offsets found at one width are the starting point for the next. -/
def layout (plan : Plan) (countWidth width : Nat) (before : Array Nat) : Except WriteError Settled :=
  match (format countWidth width plan.root.isSome).settle plan.rows maxPasses before with
  | .settled p => .ok ⟨width, p⟩
  | .unsettled => .error (.inconsistent (.unsettled .uniform maxPasses))
  | .tooNarrow offsets =>
    if width < 8 then layout plan countWidth (width + 1) offsets
    else .error (.encodingOverflow .addresses)
termination_by 8 - width

/-- The pass that writes the body once more, with the offsets of the layout. -/
def emit (plan : Plan) (countWidth : Nat) (s : Settled) : Except WriteError Pass :=
  let p := (format countWidth s.width plan.root.isSome).pass plan.rows s.pass.offsets
  match p.moved? s.pass.offsets with
  | some e => .error (.inconsistent e)
  | none => if p.fits then .ok p else .error (.inconsistent .addressOverflow)

/-- Bytes that a number takes. -/
def bytesNeeded (n : Nat) : Nat := if n = 0 then 0 else bytesNeeded (n / 256) + 1

/-- Whether an arc of a reachable state has a label. Nothing behind the first such arc is met. -/
def usesLabel (A : Automaton) (c : UInt8) : Read Bool := do
  let visit (s : State) : Readout Arc :=
    match A.findArc s c with
    | .error f => .fail f
    | .ok none => .done
    | .ok (some a) => .one a
  return (← (A.collect visit (some 1)).all) != []

/-- What speaks against the separators. -/
def separatorConflict? (w : UniformWriter) (A : Automaton) : Read (Option WriteError) := do
  if !w.flags.separators then return none
  if w.filler = w.annotation then return some (.separatorConflict (.same w.filler))
  if ← usesLabel A w.filler then return some (.separatorConflict (.fillerIsLabel w.filler))
  return none

/-- The bytes before the body. -/
def head (w : UniformWriter) (countWidth width : Nat) : List UInt8 :=
  Header.toBytes ⟨Uniform.version⟩ ++ [w.filler, w.annotation, UInt8.ofNat (countWidth * 16 + width)]

/-- A run to the end, with the pass that has written the body. -/
def stages (w : UniformWriter) (countWidth width : Nat) (p : Pass) : Stages where
  head := w.head countWidth width
  body := p.body.toList
  written := Uniform.bodyOffset + p.size
  written_eq := by
    rw [p.size_eq, Array.length_toList]
    rfl

/-- Writes a plan. -/
def writePlan (w : UniformWriter) (plan : Plan) (countWidth : Nat) : Script :=
  match layout plan countWidth 1 #[] with
  | .error e => .failed [.progress 10] e
  | .ok s =>
    match emit plan countWidth s with
    | .error e => .failed [.progress 10, .progress 60, .write (w.head countWidth s.width), .progress 70] e
    | .ok p => (w.stages countWidth s.width p).script

/-- The width of counts: that of the root's, which is the largest. -/
def countWidth (root : Option State) (count : State → Nat) : Nat :=
  max 1 (bytesNeeded (root.elim 0 count))

/-- Writes an automaton. -/
def script (w : UniformWriter) (A : Automaton) : Read Script := do
  if let some e := unsupported? .uniform supported w.flags then return .failed [] e
  if let some e ← w.separatorConflict? A then return .failed [] e
  let order ← A.survey
  if w.flags.numbers then
    let counts ← A.counts
    let count s := counts.getD s 0
    return w.writePlan (A.graph.plan count order) (countWidth A.graph.root count)
  else return w.writePlan (A.graph.plan (fun _ => 0) order) 0

end UniformWriter

end WordAutomata
