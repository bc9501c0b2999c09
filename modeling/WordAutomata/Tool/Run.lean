import WordAutomata.Builder
import WordAutomata.Dot
import WordAutomata.Tool.Arguments
import WordAutomata.Tool.Directory
import WordAutomata.Tool.Report
import WordAutomata.Words
import WordAutomata.Write.Compact
import WordAutomata.Write.Uniform

namespace WordAutomata.Tool

/-- An error as it is reported: what could not be done, and what lies behind it, the nearest cause first. -/
structure Failure where
  message : String
  causes : List String := []
deriving DecidableEq

namespace Failure

/-- A single cause stands alone, several are numbered. -/
def causeLines : List String → List String
  | [cause] => ["    " ++ cause]
  | causes => causes.zipIdx.map fun (cause, i) =>
    let number := toString i
    "".pushn ' ' (5 - number.length) ++ number ++ ": " ++ cause

def report (f : Failure) : String :=
  let causes := match f.causes with
    | [] => ""
    | causes => "\nCaused by:\n" ++ String.join ((causeLines causes).map (· ++ "\n"))
  "Error: " ++ f.message ++ "\n" ++ causes

def ofStreamError (context : String) (e : StreamError) : Failure :=
  ⟨context, e.message :: (e.cause?.map IoCause.message).toList⟩

def ofWriteError (e : WriteError) : Failure := ⟨e.message, (e.cause?.map IoCause.message).toList⟩

end Failure

/-- How a command ends. -/
inductive Ending
  | success
  | failed (f : Failure)
  /-- The arguments make no sense. -/
  | misused
  /-- The automaton cannot be read. -/
  | faulty (f : Fault)

structure Outcome where
  stdout : List UInt8
  ending : Ending

namespace Outcome

def code (o : Outcome) : Nat :=
  match o.ending with
  | .success => 0
  | .failed _ | .misused => 1
  | .faulty _ => 101

def stderr? (o : Outcome) : Option String :=
  match o.ending with
  | .failed f => some f.report
  | _ => none

def silent (ending : Ending) : Outcome := ⟨[], ending⟩

def printing (text : String) : Outcome := ⟨text.toUTF8.toList, .success⟩

end Outcome

def splitLines : List UInt8 → List Word
  | [] => [[]]
  | b :: bs =>
    if b = 0x0a then [] :: splitLines bs
    else match splitLines bs with
      | [] => [[b]]
      | l :: ls => (b :: l) :: ls

/-- A line without one carriage return at its end. -/
def dropReturn (l : Word) : Word := if l.getLast? = some 0x0d then l.dropLast else l

/-- The entries of a word list: the lines that are not empty. -/
def entries (data : Bytes) : List Word := ((splitLines data.toList).map dropReturn).filter (· ≠ [])

/-- Entries in ascending order, each of them once. -/
def sortEntries (ws : List Word) : List Word :=
  (ws.mergeSort fun a b => compareWords a b != .gt).eraseReps

def asciiByte (what : String) (c : Char) : Except Failure UInt8 :=
  if c.toNat < 128 then .ok (UInt8.ofNat c.toNat)
  else .error ⟨s!"{what} must be an ASCII character, got {Text.quoteChar c}", []⟩

def writer (o : CompileOptions) : Except Failure (Automaton → Read Script) := do
  let flags := if o.numbers then Flags.empty.insert .numbers else .empty
  match o.format with
  | .uniform =>
    let w : UniformWriter := { flags }
    let filler ← (o.filler.mapM (asciiByte "filler"))
    let annotation ← (o.annotation.mapM (asciiByte "annotation"))
    return { w with
      filler := filler.getD w.filler
      annotation := annotation.getD w.annotation : UniformWriter }.script
  | .compact =>
    if o.filler.isSome || o.annotation.isSome then
      throw ⟨"--filler and --annotation only apply to fsa5", []⟩
    return { flags : CompactWriter }.script

def quoted (path : String) : String := Text.quoteText path.toList

def readEntries (d : Directory) (path : String) (presorted : Bool) : Except Failure (List Word) :=
  match d.read path with
  | .ok data => .ok (if presorted then entries data else sortEntries (entries data))
  | .error .isADirectory => .error ⟨IoCause.isADirectory.message, []⟩
  | .error cause => .error ⟨s!"Could not open {quoted path}", [cause.message]⟩

/-- The automaton of a word list and the number of its entries. -/
def buildFrom (d : Directory) (o : CompileOptions) : Except Failure (RecordBuffer × Nat) := do
  let words ← readEntries d o.input o.presorted
  match Builder.build words with
  | .ok b => return (b, words.length)
  | .error e =>
    throw ⟨s!"Could not build an automaton from {quoted o.input}", [e.message]⟩

/-- Writes an automaton to the file that has just been made at `place`. -/
def writeTo (d : Directory) (place : String) (o : CompileOptions) (b : RecordBuffer) (count : Nat) :
    Outcome × Directory :=
  match writer o with
  | .error f => (.silent (.failed f), d)
  | .ok script =>
    match script b.automaton with
    | .error f => (.silent (.faulty f), d)
    | .ok script =>
      let delivery := script.deliverTo .unlimited
      let d := d.put place delivery.bytes.toArray
      match delivery.result with
      | .error e => (.silent (.failed (.ofWriteError e)), d)
      | .ok size =>
        (.printing s!"Wrote {count} entries in {size} bytes to {quoted o.output}.\n", d)

/-- Compiles a word list. The output file is made before the options that concern its format are looked at. -/
def compile (d : Directory) (o : CompileOptions) : Outcome × Directory :=
  match buildFrom d o with
  | .error f => (.silent (.failed f), d)
  | .ok (b, count) =>
    match d.create o.output with
    | .error cause =>
      (.silent (.failed ⟨s!"Could not create {quoted o.output}", [cause.message]⟩), d)
    | .ok (place, d) => writeTo d place o b count

def openStream (d : Directory) (path : String) : Except Failure Stream :=
  let opened := match d.read path with
    | .ok data => Stream.ofBytes data
    | .error .isADirectory => .error (.unmappable .noDevice)
    | .error cause => .error (.io cause)
  opened.mapError (.ofStreamError s!"Could not read an automaton from {quoted path}")

/-- Ends as a readout does: with success, or with the fault behind what was printed. -/
def endingOf {α : Type} (r : Readout α) : Ending :=
  match r.fault with
  | none => .success
  | some f => .faulty f

def dump (s : Stream) : Outcome :=
  let words := s.automaton.words none
  ⟨words.items.flatMap (· ++ [0x0a]), endingOf words⟩

def info (s : Stream) (json : Bool) : Outcome :=
  match s.automaton.info with
  | .error f => .silent (.faulty f)
  | .ok i => .printing (if json then jsonReport (items s i) else textReport (items s i))

def dot (s : Stream) : Outcome :=
  let drawing := Dot.write s.automaton none
  ⟨drawing.written, match drawing.ending with
    | .faulty f => .faulty f
    | _ => .success⟩

def inspect (d : Directory) (path : String) (command : Stream → Outcome) : Outcome :=
  match openStream d path with
  | .error f => .silent (.failed f)
  | .ok s => command s

def usage : String :=
  "Compile word lists into minimal automata and inspect them.\n\n" ++
  "  compile INPUT OUTPUT [-f fsa5|cfsa2] [--numbers] [--presorted] [--filler C] [--annotation C]\n" ++
  "  dump PATH\n  info PATH [--json]\n  dot PATH\n"

/-- Runs the command that the arguments stand for, by some reading of them. -/
def run (d : Directory) (args : List String) (parse : List String → Option Command := command?) : Outcome × Directory :=
  match parse args with
  | none => (.silent .misused, d)
  | some (.compile o) => compile d o
  | some (.dump path) => (inspect d path dump, d)
  | some (.info path json) => (inspect d path (info · json), d)
  | some (.dot path) => (inspect d path dot, d)
  | some .help => (.printing usage, d)
  | some .version => (.printing "0.1.0\n", d)

end WordAutomata.Tool
