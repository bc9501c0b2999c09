import WordAutomata.Flags
import WordAutomata.Reading

namespace WordAutomata

/-- What an automaton answers, whatever its layout. States are joined by arcs, and an arc carries a label and, where a
sequence may end with it, a final mark. Every answer may be a fault, since buffers are read as they are met. -/
structure Automaton where
  flags : Flags
  /-- The state whose single arc leads to the root. -/
  epsilon : State
  firstArc : State → Read Arc
  /-- The arc behind another one of the same state, `none` behind the last. -/
  nextArc : Arc → Read (Option Arc)
  label : Arc → Read UInt8
  isFinal : Arc → Read Bool
  /-- Where an arc leads, `none` if nothing can follow it. -/
  target : Arc → Read (Option State)
  /-- The right-language count stored with a state, if the layout stores them. -/
  storedCount : State → Read (Option Nat)
  nextArc_gt : ∀ a b, nextArc a = .ok (some b) → a.offset < b.offset

/-- An arc as a value of its own. -/
structure Transition where
  label : UInt8
  isFinal : Bool
  target : Option State
deriving DecidableEq

namespace Automaton

/-- The state from which sequences are spelled; an automaton of no sequences has none. -/
def root (A : Automaton) : Read (Option State) := do
  A.target (← A.firstArc A.epsilon)

/-- An arc and those behind it. An arc is met only when the place of the next one can be read. -/
def arcsFrom (A : Automaton) (a : Arc) : Readout Arc :=
  match h : A.nextArc a with
  | .error f => .fail f
  | .ok none => ⟨[a], none⟩
  | .ok (some b) =>
    have := UInt32.lt_iff_toNat_lt.1 (A.nextArc_gt a b h)
    (A.arcsFrom b).cons a
termination_by 1 <<< 32 - a.offset.toNat
decreasing_by
  have := b.offset.toNat_lt
  omega

def arcs (A : Automaton) (s : State) : Readout Arc :=
  match A.firstArc s with
  | .error f => .fail f
  | .ok a => A.arcsFrom a

/-- Looks at an arc and those behind it in turn until one of them settles the matter; what is behind that one is not
met. -/
def along {σ α : Type} (A : Automaton) (look : σ → Arc → Read (σ ⊕ α)) (s : σ) (a : Arc) : Read (Option α) :=
  match h : A.nextArc a with
  | .error f => .error f
  | .ok next =>
    match look s a, next with
    | .error f, _ => .error f
    | .ok (.inr x), _ => .ok (some x)
    | .ok (.inl _), none => .ok none
    | .ok (.inl s), some b =>
      have := UInt32.lt_iff_toNat_lt.1 (A.nextArc_gt a b h)
      A.along look s b
termination_by 1 <<< 32 - a.offset.toNat
decreasing_by
  have := b.offset.toNat_lt
  omega

def findArc (A : Automaton) (s : State) (c : UInt8) : Read (Option Arc) := do
  let look (_ : Unit) (a : Arc) : Read (Unit ⊕ Arc) := return if (← A.label a) = c then .inr a else .inl ()
  A.along look () (← A.firstArc s)

def transition (A : Automaton) (a : Arc) : Read Transition := do
  return ⟨← A.label a, ← A.isFinal a, ← A.target a⟩

/-- Everything that leaves a state. -/
def row (A : Automaton) (s : State) : Read (List Transition) := do
  (← (A.arcs s).all).mapM A.transition

/-- The states that arcs of a state lead to, one for each arc that leads on. -/
def targets (A : Automaton) (s : State) : Read (List State) := do
  return (← (← (A.arcs s).all).mapM A.target).filterMap id

end Automaton

/-- The part of an automaton that can be read, as a plain graph. -/
structure Graph where
  root : Option State
  row : State → List Transition

namespace Graph

def targets (G : Graph) (s : State) : List State := (G.row s).filterMap Transition.target

/-- States that a path from the root leads to. -/
inductive Reachable (G : Graph) : State → Prop
  | root {r : State} : G.root = some r → Reachable G r
  | step {s t : State} : Reachable G s → t ∈ G.targets s → Reachable G t

/-- A word is spelled by a path from `s` whose last arc is final. -/
def Accepts (G : Graph) : State → Word → Prop
  | _, [] => False
  | s, [c] => ∃ t ∈ G.row s, t.label = c ∧ t.isFinal = true
  | s, c :: d :: w => ∃ t ∈ G.row s, t.label = c ∧ ∃ s', t.target = some s' ∧ Accepts G s' (d :: w)

end Graph

/-- The plain graph of an automaton. A state that cannot be read counts as one without arcs; `Automaton.survey` tells
whether any reachable state is like that. -/
def Automaton.graph (A : Automaton) : Graph where
  root := match A.root with
    | .ok r => r
    | .error _ => none
  row s := match A.row s with
    | .ok ts => ts
    | .error _ => []

end WordAutomata
