import WordAutomata.Layout.Record
import WordAutomata.Order
import WordAutomata.Text.Quoted

namespace WordAutomata

open Std (TreeMap)

inductive BuildError
  /-- An entry comes before the one added last. -/
  | unsortedInput (previous current : Word)
  | duplicateEntry (entry : Word)
  /-- Acceptance is marked on arcs, so that the empty word has no place. -/
  | emptyEntry
  | capacityExceeded
deriving DecidableEq

namespace BuildError

def message : BuildError → String
  | unsortedInput previous current =>
    s!"Input is not sorted: {Text.quoteBytes current} follows {Text.quoteBytes previous}"
  | duplicateEntry entry => s!"Duplicate entry {Text.quoteBytes entry}"
  | emptyEntry => "Empty entries cannot be stored"
  | capacityExceeded => "Automaton exceeds the 32-bit address space"

end BuildError

/-- The frozen states, and where each of them is. -/
structure Pool where
  /-- The states in the order in which they are stored, the latest first. -/
  states : List (List Record)
  /-- Arcs of all states. -/
  arcs : Nat
  /-- The address of each frozen state, found by its records. -/
  register : TreeMap Word UInt32 compareWords
  /-- How often a state was found again. -/
  hits : Nat

namespace Pool

def empty : Pool := ⟨[], 0, ∅, 0⟩

/-- Bytes taken so far. The record that leads to the root comes first. -/
def size (p : Pool) : Nat := Record.size * (1 + p.arcs)

/-- Stores a state, or finds it, and tells its address. -/
def freeze (p : Pool) (state : List Record) : Except BuildError (UInt32 × Pool) :=
  match p.register[Record.rowBytes state]? with
  | some address => .ok (address, { p with hits := p.hits + 1 })
  | none =>
    if p.size + Record.size * state.length < 1 <<< 32 then
      let address := UInt32.ofNat p.size
      .ok (address, {
        p with
        states := state :: p.states
        arcs := p.arcs + state.length
        register := p.register.insert (Record.rowBytes state) address })
    else .error .capacityExceeded

/-- The frozen states behind a record that leads to the given root. -/
def toBytes (p : Pool) (root : UInt32) : Bytes :=
  ((Record.toBytes ⟨0, false, root⟩ true) ++ p.states.reverse.flatMap Record.rowBytes).toArray

end Pool

/-- An open state. The target of its last arc is not known yet. -/
structure Frame where
  /-- The arcs before the last one, the latest first. -/
  closed : List Record
  label : UInt8
  isFinal : Bool

namespace Frame

/-- The arcs once the target of the last one is known. -/
def records (f : Frame) (target : UInt32) : List Record :=
  f.closed.reverse ++ [⟨f.label, f.isFinal, target⟩]

/-- Closes the last arc and opens another one. -/
def advance (f : Frame) (target : UInt32) (label : UInt8) (isFinal : Bool) : Frame :=
  ⟨⟨f.label, f.isFinal, target⟩ :: f.closed, label, isFinal⟩

end Frame

/-- Freezes so many of the deepest states. `child` is the address of what lies below the first frame, 0 if nothing does;
in the answer it is what lies below the frames that are left. -/
def freezeTail (pool : Pool) (child : UInt32) : Nat → List Frame → Except BuildError (UInt32 × Pool × List Frame)
  | n + 1, f :: frames => do
    let (address, pool) ← pool.freeze (f.records child)
    freezeTail pool address n frames
  | _, frames => .ok (child, pool, frames)

/-- Opens a state for each label of a word. The last arc is final. -/
def openPath : Word → List Frame → List Frame
  | [], frames => frames
  | c :: w, frames => openPath w (⟨[], c, w.isEmpty⟩ :: frames)

/-- A builder of the minimal automaton of words that come in ascending order. Whatever lies below the part that the next word
shares with the last one can gain no more arcs and is frozen, the deepest state first. A state that equals a frozen one is
not stored again, so that states with the same words below them become one. -/
structure Builder where
  pool : Pool
  /-- The open states along the word added last, the deepest first. -/
  frames : List Frame
  previous : Option Word
  /-- Words added. -/
  sequences : Nat

namespace Builder

def empty : Builder := ⟨.empty, [], none, 0⟩

/-- What is wrong with a word as the next entry. -/
def refuse? (previous : Option Word) (w : Word) : Option BuildError :=
  if w = [] then some .emptyEntry
  else match previous with
    | none => none
    | some p => match compareWords p w with
      | .lt => none
      | .eq => some (.duplicateEntry w)
      | .gt => some (.unsortedInput p w)

/-- The open states once a word that shares `common` labels with the one before has parted from its path. `child` is the
address of what lies below the frames. -/
def extend (common : Nat) (w : Word) (child : UInt32) (frames : List Frame) : List Frame :=
  match w.drop common, frames with
  | c :: rest, f :: below =>
    if common < frames.length then openPath rest (f.advance child c rest.isEmpty :: below)
    else openPath (c :: rest) frames
  | rest, _ => openPath rest frames

/-- Adds a word, which has to come after the one added last. -/
def add (b : Builder) (w : Word) : Except BuildError Builder :=
  match refuse? b.previous w with
  | some e => .error e
  | none => do
    let common := commonLength (b.previous.getD []) w
    let (child, pool, frames) ← freezeTail b.pool 0 (b.frames.length - (common + 1)) b.frames
    return { pool, frames := extend common w child frames, previous := some w, sequences := b.sequences + 1 }

structure Info where
  sequences : Nat
  states : Nat
  arcs : Nat
  registerHits : Nat
  bytes : Nat
deriving DecidableEq

def info (b : Builder) : Info where
  sequences := b.sequences
  states := b.pool.register.size
  arcs := b.pool.arcs
  registerHits := b.pool.hits
  bytes := b.pool.size

/-- Freezes what is left and hands out the automaton. -/
def complete (b : Builder) : Except BuildError RecordBuffer := do
  let (root, pool, _) ← freezeTail b.pool 0 b.frames.length b.frames
  return ⟨pool.toBytes root⟩

/-- The automaton of some words, unless one of them is refused. -/
def build (words : List Word) : Except BuildError RecordBuffer := do
  (← words.foldlM add empty).complete

end Builder

end WordAutomata
