import WordAutomata.Walk
import Std.Data.TreeMap.Lemmas

namespace WordAutomata

open Std (TreeMap)

/-- The final mark and the target of every arc of a state. -/
def Automaton.branches (A : Automaton) (s : State) : Read (List (Bool × Option State)) := do
  (← (A.arcs s).all).mapM fun a => return (← A.isFinal a, ← A.target a)

/-- Counts that stay at the largest number of 32 bits once they reach it. -/
def addSaturating (m n : Nat) : Read Nat := .ok (min (m + n) (1 <<< 32 - 1))

/-- Counts of 64 bits. -/
def addExact (m n : Nat) : Read Nat := if m + n < 1 <<< 64 then .ok (m + n) else .error .overflow

/-- Adds what one arc accepts: the empty rest if it is final, and whatever its target accepts. -/
def countArc (add : Nat → Nat → Read Nat) (counts : TreeMap State Nat) (n : Nat) :
    Bool × Option State → Read Nat
  | (isFinal, target) => do
    let n ← if isFinal then add n 1 else pure n
    match target with
    | none => return n
    | some t => match counts[t]? with
      | some below => add n below
      | none => throw (.cyclic t)

/-- Counts the sequences of states in turn. The count of a state is made up from those of the states its arcs lead to, which
therefore come first. -/
def countAlong (A : Automaton) (add : Nat → Nat → Read Nat) (states : List State) : Read (TreeMap State Nat) :=
  states.foldlM (fun counts s => do
    return counts.insert s (← (← A.branches s).foldlM (countArc add counts) 0)) ∅

namespace Automaton

/-- The number of sequences accepted from each reachable state, or the largest number of 32 bits if there are more. -/
def counts (A : Automaton) : Read (TreeMap State Nat) := do
  countAlong A addSaturating (← (A.postorder none).all)

/-- The size of an automaton. -/
structure Info where
  states : Nat
  arcs : Nat
  /-- Arcs that complete a sequence. -/
  finalArcs : Nat
  /-- Arcs that nothing can follow. -/
  terminalArcs : Nat
  sequences : Nat
deriving DecidableEq

def info (A : Automaton) : Read Info := do
  let states ← (A.postorder none).all
  let branches ← states.mapM A.branches
  let counts ← countAlong A addExact states
  let sequences := match ← A.root with
    | some r => counts.getD r 0
    | none => 0
  return {
    states := states.length
    arcs := branches.flatten.length
    finalArcs := (branches.flatten.filter fun b => b.1).length
    terminalArcs := (branches.flatten.filter fun b => b.2.isNone).length
    sequences }

end Automaton

end WordAutomata
