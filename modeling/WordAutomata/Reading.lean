import WordAutomata.Bytes
import Std.Data.TreeSet.Lemmas

namespace WordAutomata

/-- A state, named by the offset at which it is stored. -/
structure State where
  offset : UInt32
deriving DecidableEq

/-- States stand in the order of their offsets. -/
instance : Ord State := ⟨compareOn State.offset⟩

instance : Std.TransOrd State := inferInstanceAs (Std.TransCmp (compareOn State.offset))

instance : Std.LawfulEqOrd State where
  eq_of_compare {a b} h := by
    have : compare a.offset b.offset = .eq := h
    cases a; cases b
    simpa using this

/-- An arc, named by the offset at which it is stored. -/
structure Arc where
  offset : UInt32
deriving DecidableEq

/-- Why a question to an automaton has no answer. -/
inductive Fault
  /-- The buffer ends at or before `position`. -/
  | outsideBuffer (position : Nat)
  /-- An arc refers to a label that the label table does not hold. -/
  | outsideLabels (index : Nat)
  /-- A number to be read is not one to eight bytes wide. -/
  | badWidth (width : Nat)
  /-- A number does not fit the word it is kept in. -/
  | overflow
  /-- A state leads back to itself, so its sequences cannot be counted. -/
  | cyclic (state : State)
  /-- The automaton was stored without right-language counts. -/
  | missingCounts
  /-- The walk goes round in a circle and never ends. -/
  | endless
deriving DecidableEq

namespace Fault

def message : Fault → String
  | outsideBuffer position => s!"The buffer ends before {position}"
  | outsideLabels index => s!"The label table has no entry {index}"
  | badWidth width => s!"A number of {width} bytes cannot be read"
  | overflow => "A number does not fit its word"
  | cyclic state => s!"State {state.offset} leads back to itself"
  | missingCounts => "Automaton does not store right-language counts"
  | endless => "The walk does not end"

end Fault

/-- The answer to a question, or the fault that prevents it. -/
abbrev Read := Except Fault

/-- Items found one after the other, and the fault that cut the search short, if one did. What was found before a fault is
kept, so that asking for the first few items never depends on what lies behind them. -/
structure Readout (α : Type) where
  items : List α
  fault : Option Fault

namespace Readout

variable {α β : Type}

def done : Readout α := ⟨[], none⟩

def fail (f : Fault) : Readout α := ⟨[], some f⟩

def one (a : α) : Readout α := ⟨[a], none⟩

def cons (a : α) (r : Readout α) : Readout α := ⟨a :: r.items, r.fault⟩

def map (g : α → β) (r : Readout α) : Readout β := ⟨r.items.map g, r.fault⟩

/-- Goes on with `next` unless a fault came before. -/
def append (r next : Readout α) : Readout α :=
  match r.fault with
  | none => ⟨r.items ++ next.items, next.fault⟩
  | some f => ⟨r.items, some f⟩

def concat (rs : List (Readout α)) : Readout α := rs.foldr append done

/-- What `x` yields when it can be read. -/
def ofRead (x : Read α) : Readout α :=
  match x with
  | .ok a => one a
  | .error f => fail f

/-- Nothing behind this is asked for: a fault came, or there are as many items as wanted. -/
def isEnough (r : Readout α) (wanted : Option Nat) : Bool :=
  r.fault.isSome || wanted.any (· ≤ r.items.length)

/-- Goes on for as many items as are still wanted; with `none` for all. What is not asked for is not looked at. -/
@[inline] def andThen (r : Readout α) (wanted : Option Nat) (next : Option Nat → Readout α) : Readout α :=
  if r.isEnough wanted then r else r.append (next (wanted.map (· - r.items.length)))

def all (r : Readout α) : Read (List α) :=
  match r.fault with
  | none => .ok r.items
  | some f => .error f

end Readout

namespace Bytes

def byte (data : Bytes) (i : Nat) : Read UInt8 :=
  if h : i < data.size then .ok data[i] else .error (.outsideBuffer i)

/-- The `n` bytes from a position on. -/
def span (data : Bytes) (i n : Nat) : Read (List UInt8) :=
  if i + n ≤ data.size then .ok (data.extract i (i + n)).toList else .error (.outsideBuffer (i + n))

/-- A number of `width` bytes, the most significant first. -/
def bigAt (data : Bytes) (i width : Nat) : Read Nat := do
  return ofBig (← span data i width)

/-- A number of one to eight bytes, the least significant first. -/
def littleAt (data : Bytes) (i width : Nat) : Read Nat := do
  let bs ← span data i width
  if 1 ≤ width ∧ width ≤ 8 then return ofLittle bs else throw (.badWidth width)

end Bytes

end WordAutomata
