namespace WordAutomata

inductive Flag
  | flexible
  | stopBit
  | nextBit
  | numbers
  | separators
deriving DecidableEq

namespace Flag

/-- All flags, in the order in which they are listed. -/
def all : List Flag := [flexible, stopBit, nextBit, numbers, separators]

/-- The bit of a mask that stands for the flag. -/
def position : Flag → Nat
  | flexible => 0
  | stopBit => 1
  | nextBit => 2
  | numbers => 8
  | separators => 9

def name : Flag → String
  | flexible => "flexible"
  | stopBit => "stopbit"
  | nextBit => "nextbit"
  | numbers => "numbers"
  | separators => "separators"

end Flag

/-- A set of flags. -/
structure Flags where
  flexible : Bool
  stopBit : Bool
  nextBit : Bool
  numbers : Bool
  separators : Bool
deriving DecidableEq

namespace Flags

def empty : Flags := ⟨false, false, false, false, false⟩

def contains (s : Flags) : Flag → Bool
  | .flexible => s.flexible
  | .stopBit => s.stopBit
  | .nextBit => s.nextBit
  | .numbers => s.numbers
  | .separators => s.separators

/-- The set of the flags that `p` picks. -/
def ofPredicate (p : Flag → Bool) : Flags :=
  ⟨p .flexible, p .stopBit, p .nextBit, p .numbers, p .separators⟩

def insert (s : Flags) (f : Flag) : Flags := ofPredicate fun g => s.contains g || f == g

def ofList (fs : List Flag) : Flags := fs.foldl insert empty

/-- The flags of `s` that are not in `t`. -/
def difference (s t : Flags) : Flags := ofPredicate fun f => s.contains f && !t.contains f

def toList (s : Flags) : List Flag := Flag.all.filter s.contains

def isEmpty (s : Flags) : Bool := s == empty

/-- The known flags of a mask; other bits are dropped. -/
def ofMask (mask : Nat) : Flags := ofPredicate fun f => mask.testBit f.position

def mask (s : Flags) : Nat := s.toList.foldl (fun bits f => bits ||| 1 <<< f.position) 0

def names (s : Flags) : String := ",".intercalate (s.toList.map Flag.name)

@[simp] theorem contains_ofPredicate (p : Flag → Bool) (f : Flag) : (ofPredicate p).contains f = p f := by
  cases f <;> rfl

end Flags

end WordAutomata
