import WordAutomata.Automaton

namespace WordAutomata

inductive Match
  /-- The word is accepted. -/
  | exact
  /-- No accepted word begins like it. -/
  | noMatch
  /-- Only its first `matched` labels can be followed. -/
  | automatonHasPrefix (matched : Nat)
  /-- The word ends at `state`, from which accepted words go on. -/
  | sequenceIsPrefix (state : State)
deriving DecidableEq

namespace Automaton

/-- Follows a word from a state, `matched` labels having been followed already. -/
def follow (A : Automaton) (s : State) (matched : Nat) : Word → Read Match
  | [] => return .sequenceIsPrefix s
  | c :: w => do
    match ← A.findArc s c with
    | none => return if 0 < matched then .automatonHasPrefix matched else .noMatch
    | some a =>
      if w = [] then
        if ← A.isFinal a then return .exact
      match ← A.target a with
      | none => return .automatonHasPrefix (matched + 1)
      | some t => A.follow t (matched + 1) w

def matchFrom (A : Automaton) (w : Word) (s : State) : Read Match := A.follow s 0 w

def matchWord (A : Automaton) (w : Word) : Read Match := do
  match ← A.root with
  | none => return .noMatch
  | some r => A.matchFrom w r

def contains (A : Automaton) (w : Word) : Read Bool := do
  return (← A.matchWord w) == .exact

/-- Ranks are kept in 32 bits. -/
def addRank (m n : Nat) : Read Nat := if m + n < 1 <<< 32 then .ok (m + n) else .error .overflow

/-- The stored number of words that go on from the target of an arc. -/
def countBelow (A : Automaton) (a : Arc) : Read Nat := do
  match ← A.target a with
  | none => return 0
  | some t => match ← A.storedCount t with
    | some n => return n
    | none => throw .missingCounts

/-- Finds the arc with a label among an arc and those behind it, and adds to `rank` the number of words that arcs before
it lead to. -/
def rankArc (A : Automaton) (c : UInt8) : (rank : Nat) → Arc → Read (Option (Nat × Arc)) :=
  A.along fun rank a => do
    if (← A.label a) = c then return .inr (rank, a)
    let rank ← if ← A.isFinal a then addRank rank 1 else pure rank
    return .inl (← addRank rank (← A.countBelow a))

/-- The rank of a word among those spelled from a state, `rank` words coming before them. -/
def rankFrom (A : Automaton) (s : State) (rank : Nat) : Word → Read (Option Nat)
  | [] => return none
  | c :: w => do
    match ← A.rankArc c rank (← A.firstArc s) with
    | none => return none
    | some (rank, a) =>
      let isFinal ← A.isFinal a
      if w = [] then return if isFinal then some rank else none
      let rank ← if isFinal then addRank rank 1 else pure rank
      match ← A.target a with
      | none => return none
      | some t => A.rankFrom t rank w

/-- The place of a word among the accepted ones in their order, counted from 0. It is made up from the stored counts. -/
def rank (A : Automaton) (w : Word) : Read (Option Nat) := do
  if !A.flags.numbers then throw .missingCounts
  match ← A.root with
  | none => return none
  | some r => A.rankFrom r 0 w

/-- Finds the arc below which the word with a rank lies, among an arc and those behind it, and the rank among the words of
that arc. -/
def arcAtRank (A : Automaton) : (rank : Nat) → Arc → Read (Option (Nat × Arc)) :=
  A.along fun rank a => do
    let here ← addRank (if ← A.isFinal a then 1 else 0) (← A.countBelow a)
    return if here ≤ rank then .inl (rank - here) else .inr (rank, a)

/-- The word with a rank among those spelled from a state, if it has at most `depth` labels. -/
def wordFrom (A : Automaton) : (depth : Nat) → State → (rank : Nat) → Read (Option Word)
  | 0, _, _ => throw .endless
  | depth + 1, s, rank => do
    match ← A.arcAtRank rank (← A.firstArc s) with
    | none => return none
    | some (rank, a) =>
      let c ← A.label a
      let isFinal ← A.isFinal a
      if isFinal && rank == 0 then return some [c]
      match ← A.target a with
      | none => return none
      | some t => return (← A.wordFrom depth t (if isFinal then rank - 1 else rank)).map (c :: ·)

/-- The accepted word at a place. A path that meets a state more than `rank + 1` times goes round without a word. -/
def wordAt (A : Automaton) (rank : Nat) : Read (Option Word) := do
  if !A.flags.numbers then throw .missingCounts
  match ← A.root with
  | none => return none
  | some r => A.wordFrom (1 <<< 32 * (rank + 1)) r rank

end Automaton

end WordAutomata
