import WordAutomata.Automaton

namespace WordAutomata

open Std (TreeSet)

theorem length_le_of_nodup {n : Nat} {l : List Nat} (hl : l.Nodup) (h : ∀ x ∈ l, x < n) : l.length ≤ n := by
  induction n generalizing l with
  | zero => cases l with
    | nil => simp
    | cons x l => exact absurd (h x (by simp)) (by omega)
  | succ n ih =>
    have herase : (l.erase n).length ≤ n := by
      refine ih (hl.erase n) fun x hx => ?_
      have := (hl.mem_erase_iff).1 hx
      have := h x this.2
      omega
    have : (l.erase n).length = if n ∈ l then l.length - 1 else l.length := List.length_erase
    split at this <;> omega

theorem size_insert {visited : TreeSet State} {s : State} (h : ¬visited.contains s) :
    (visited.insert s).size = visited.size + 1 := by
  rw [TreeSet.size_insert, if_neg h]

theorem size_lt {visited : TreeSet State} {s : State} (h : ¬visited.contains s) : visited.size < 1 <<< 32 := by
  have hsize := size_insert h
  have hnodup : ((visited.insert s).toList.map fun t => t.offset.toNat).Nodup := by
    have hd := (visited.insert s).distinct_toList
    refine List.Pairwise.map _ (fun a b hab heq => ?_) hd
    have : a = b := by
      cases a; cases b
      simpa [UInt32.toNat_inj] using heq
    exact hab (this ▸ Std.ReflCmp.compare_self)
  have hle := length_le_of_nodup (n := 1 <<< 32) hnodup (by
    intro x hx
    obtain ⟨t, _, rfl⟩ := List.mem_map.1 hx
    exact t.offset.toNat_lt)
  rw [List.length_map, TreeSet.length_toList, hsize] at hle
  omega

/-- What `visit` finds at the states on the stack and at all they lead to, a state coming before those it leads to. States
are shared by many paths, so a walk remembers the ones it has met, and ends because there are only finitely many offsets. -/
def explore {α : Type} (successors : State → Read (List State)) (visit : State → Readout α) (wanted : Option Nat)
    (visited : TreeSet State) : List State → Readout α
  | [] => .done
  | s :: stack =>
    if h : visited.contains s then explore successors visit wanted visited stack
    else
      have := size_lt h
      (visit s).andThen wanted fun wanted =>
        match successors s with
        | .error f => .fail f
        | .ok ts => explore successors visit wanted (visited.insert s) (ts.reverse ++ stack)
termination_by stack => (1 <<< 32 - visited.size, stack.length)
decreasing_by
  · exact Prod.Lex.right _ (by simp)
  · refine Prod.Lex.left _ _ ?_
    rw [size_insert h]
    omega

/-- What is done while an automaton is read. What it has changed stays changed when a fault ends it. -/
abbrev Visit (σ : Type) := ExceptT Fault (StateM σ)

/-- Shows items to a visitor, who tells of each whether to go on. -/
def Readout.allM {σ α : Type} (visitor : α → Visit σ Bool) (r : Readout α) : Visit σ Bool :=
  r.items.allM visitor <&&> match r.fault with
    | none => return true
    | some f => throw f

/-- Shows the states on the stack and all they lead to, in the same order, to a visitor who may end the walk. Tells whether
it came to its end by itself. -/
def visitFrom {σ : Type} (successors : State → Read (List State)) (visitor : State → Visit σ Bool)
    (visited : TreeSet State) : List State → Visit σ Bool
  | [] => return true
  | s :: stack =>
    if h : visited.contains s then visitFrom successors visitor visited stack
    else
      have := size_lt h
      visitor s <&&> do visitFrom successors visitor (visited.insert s) ((← successors s).reverse ++ stack)
termination_by stack => (1 <<< 32 - visited.size, stack.length)
decreasing_by
  · exact Prod.Lex.right _ (by simp)
  · refine Prod.Lex.left _ _ ?_
    rw [size_insert h]
    omega

namespace Automaton

/-- What `visit` finds at the reachable states, the root first and every other one behind one that leads to it. -/
def collect {α : Type} (A : Automaton) (visit : State → Readout α) (wanted : Option Nat) : Readout α :=
  match A.root with
  | .error f => .fail f
  | .ok none => .done
  | .ok (some r) => explore A.targets visit wanted ∅ [r]

/-- Shows the reachable states, the root first and every other one behind one that leads to it, to a visitor. -/
def visit {σ : Type} (A : Automaton) (visitor : State → Visit σ Bool) : Visit σ Bool := do
  match ← A.root with
  | none => return true
  | some r => visitFrom A.targets visitor ∅ [r]

/-- The reachable states, the root first and every other one behind one that leads to it; the first `wanted` or all. -/
def preorder (A : Automaton) (wanted : Option Nat) : Readout State := A.collect .one wanted

/-- How much there may be to follow from an arc on. -/
def arcsAhead : Option Arc → Nat
  | none => 0
  | some a => 1 <<< 32 - a.offset.toNat

theorem arcsAhead_lt {A : Automaton} {a : Arc} {next : Option Arc} (h : A.nextArc a = .ok next) :
    arcsAhead next < arcsAhead (some a) := by
  have := a.offset.toNat_lt
  cases next with
  | none => simp only [arcsAhead]; omega
  | some b =>
    have := UInt32.lt_iff_toNat_lt.1 (A.nextArc_gt a b h)
    have := b.offset.toNat_lt
    simp only [arcsAhead]
    omega

/-- Finishes the states on the stack, each with the arc that is to be followed next: a state is finished when all its
arcs have been followed. -/
def finish (A : Automaton) (wanted : Option Nat) (visited : TreeSet State) :
    List (State × Option Arc) → Readout State
  | [] => .done
  | (s, none) :: stack => (Readout.one s).andThen wanted fun wanted => A.finish wanted visited stack
  | (s, some a) :: stack =>
    match ha : A.nextArc a with
    | .error f => .fail f
    | .ok next =>
      have := arcsAhead_lt ha
      match A.target a with
      | .error f => .fail f
      | .ok none => A.finish wanted visited ((s, next) :: stack)
      | .ok (some t) =>
        if h : visited.contains t then A.finish wanted visited ((s, next) :: stack)
        else
          have := size_lt h
          match A.firstArc t with
          | .error f => .fail f
          | .ok b => A.finish wanted (visited.insert t) ((t, some b) :: (s, next) :: stack)
termination_by stack => (1 <<< 32 - visited.size, stack.foldr (fun x n => arcsAhead x.2 + 1 + n) 0)
decreasing_by
  · exact Prod.Lex.right _ (by simp)
  · exact Prod.Lex.right _ (by simp only [List.foldr_cons]; omega)
  · exact Prod.Lex.right _ (by simp only [List.foldr_cons]; omega)
  · refine Prod.Lex.left _ _ ?_
    rw [size_insert h]
    omega

/-- The reachable states, the root last, the first `wanted` or all; without cycles every state stands behind all it leads
to. -/
def postorder (A : Automaton) (wanted : Option Nat) : Readout State :=
  match A.root with
  | .error f => .fail f
  | .ok none => .done
  | .ok (some r) =>
    match A.firstArc r with
    | .error f => .fail f
    | .ok a => A.finish wanted {r} [(r, some a)]

/-- The reachable states in preorder, provided that everything about them can be read. -/
def survey (A : Automaton) : Read (List State) := do
  let states ← (A.preorder none).all
  let _ ← states.mapM A.row
  return states

end Automaton

end WordAutomata
